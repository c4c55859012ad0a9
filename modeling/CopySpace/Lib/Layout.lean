import Mathlib.Order.Bounds.Basic
import Mathlib.Data.List.Basic
import Mathlib.Tactic.SplitIfs

/-!
# Records in memory

Fields are placed one behind the other, or all at the beginning (`overlay`).  `WellLaid` says
where they have to stand, and `wellLaid_iff` that a single pass finds these places.
-/

namespace CopySpace.Layout

/-- The least multiple of `a` that is not below `n`. -/
def roundUp (a n : Nat) : Nat := (n + (a - 1)) / a * a

theorem roundUp_isLeast {a : Nat} (ha : 0 < a) (n : Nat) :
    IsLeast {x | a ∣ x ∧ n ≤ x} (roundUp a n) := by
  have hdiv : a * ((n + (a - 1)) / a) + (n + (a - 1)) % a = n + (a - 1) := Nat.div_add_mod _ _
  have hmod := Nat.mod_lt (n + (a - 1)) ha
  have hcomm : (n + (a - 1)) / a * a = a * ((n + (a - 1)) / a) := Nat.mul_comm _ _
  refine ⟨⟨Nat.dvd_mul_left _ _, by rw [roundUp]; omega⟩, ?_⟩
  rintro x ⟨⟨k, rfl⟩, hx⟩
  rw [roundUp, Nat.mul_comm a k]
  refine Nat.mul_le_mul_right a (Nat.le_of_lt_succ (Nat.div_lt_of_lt_mul ?_))
  rw [Nat.mul_succ]
  omega

theorem le_roundUp {a : Nat} (ha : 0 < a) (n : Nat) : n ≤ roundUp a n := (roundUp_isLeast ha n).1.2

/-- A field has a size and the alignment of its place. -/
structure Field where
  size : Nat
  alignment : Nat

/-- Each field stands at the first aligned place that is not before the end of the previous one,
which is `e` for the first field. -/
def Placed (overlay : Bool) : Nat → List Field → List Nat → Prop
  | _, [], [] => True
  | e, f :: fs, o :: os =>
      IsLeast {x | f.alignment ∣ x ∧ e ≤ x} o ∧
        Placed overlay (if overlay then 0 else o + f.size) fs os
  | _, _, _ => False

/-- The places and the size of a record. -/
structure WellLaid (overlay : Bool) (minimum : Nat) (fs : List Field) (os : List Nat)
    (size alignment : Nat) : Prop where
  placed : Placed overlay 0 fs os
  alignment_eq : alignment = (fs.map (·.alignment)).foldr max minimum
  isLeast : IsLeast {x | alignment ∣ x ∧ ∀ p ∈ fs.zip os, p.2 + p.1.size ≤ x} size

/-! ## A single pass -/

/-- The place of a field, if the fields before it end at `e`. -/
def next (overlay : Bool) (e : Nat) (f : Field) : Nat := if overlay then 0 else roundUp f.alignment e

/-- The places of the fields. -/
def place (overlay : Bool) : Nat → List Field → List Nat
  | _, [] => []
  | e, f :: fs => next overlay e f :: place overlay (max (next overlay e f + f.size) e) fs

/-- Where the fields end. -/
def extent (overlay : Bool) : Nat → List Field → Nat
  | e, [] => e
  | e, f :: fs => extent overlay (max (next overlay e f + f.size) e) fs

/-- The size of a record. -/
def sizeOf (overlay : Bool) (minimum : Nat) (fs : List Field) : Nat :=
  roundUp ((fs.map (·.alignment)).foldr max minimum) (extent overlay 0 fs)

variable {overlay : Bool} {minimum : Nat} {fs : List Field} {os : List Nat}

theorem placed_iff (hfs : ∀ f ∈ fs, 0 < f.alignment) (e : Nat) :
    Placed overlay (if overlay then 0 else e) fs os ↔ os = place overlay e fs := by
  induction fs generalizing e os with
  | nil => cases os <;> simp [Placed, place]
  | cons f fs ih =>
      have hf := roundUp_isLeast (hfs f List.mem_cons_self)
      have hnext : IsLeast {x | f.alignment ∣ x ∧ (if overlay then 0 else e) ≤ x}
          (next overlay e f) := by
        cases overlay with
        | true => exact ⟨⟨Nat.dvd_zero _, Nat.le_refl 0⟩, fun x _ ↦ Nat.zero_le x⟩
        | false => exact hf e
      -- the fields before end where the previous one does
      have hend : (if overlay then 0 else next overlay e f + f.size) =
          if overlay then 0 else max (next overlay e f + f.size) e := by
        cases overlay with
        | true => rfl
        | false =>
            have hle : e ≤ next false e f := (hf e).1.2
            simp only [Bool.false_eq_true, if_false]
            omega
      cases os with
      | nil => simp [Placed, place]
      | cons o os =>
          rw [Placed, place, List.cons.injEq]
          constructor
          · rintro ⟨ho, hos⟩
            obtain rfl := ho.unique hnext
            rw [hend] at hos
            exact ⟨rfl, (ih (fun f hf ↦ hfs f (List.mem_cons_of_mem _ hf)) _).mp hos⟩
          · rintro ⟨rfl, hos⟩
            refine ⟨hnext, ?_⟩
            rw [hend]
            exact (ih (fun f hf ↦ hfs f (List.mem_cons_of_mem _ hf)) _).mpr hos

theorem extent_le_iff (e x : Nat) : extent overlay e fs ≤ x ↔
    e ≤ x ∧ ∀ p ∈ fs.zip (place overlay e fs), p.2 + p.1.size ≤ x := by
  induction fs generalizing e with
  | nil => simp [extent]
  | cons f fs ih =>
      rw [extent, ih, place, List.zip_cons_cons, List.forall_mem_cons, Nat.max_le]
      exact ⟨fun ⟨⟨ho, he⟩, h⟩ ↦ ⟨he, ho, h⟩, fun ⟨he, ho, h⟩ ↦ ⟨⟨ho, he⟩, h⟩⟩

theorem le_extent (e : Nat) : e ≤ extent overlay e fs := ((extent_le_iff e _).mp le_rfl).1

theorem foldr_max_pos (h : 0 < minimum) : 0 < (fs.map (·.alignment)).foldr max minimum := by
  induction fs with
  | nil => exact h
  | cons f fs ih => exact lt_of_lt_of_le ih (le_max_right _ _)

/-- A record has just one layout, that of the single pass. -/
theorem wellLaid_iff (hfs : ∀ f ∈ fs, 0 < f.alignment) (hminimum : 0 < minimum)
    {size alignment : Nat} : WellLaid overlay minimum fs os size alignment ↔
      os = place overlay 0 fs ∧ alignment = (fs.map (·.alignment)).foldr max minimum ∧
        size = sizeOf overlay minimum fs := by
  have hplaced : Placed overlay (if overlay then 0 else 0) fs os ↔ _ := placed_iff hfs 0
  rw [ite_self] at hplaced
  have hpos : 0 < (fs.map (·.alignment)).foldr max minimum := foldr_max_pos hminimum
  have hleast := roundUp_isLeast hpos (extent overlay 0 fs)
  simp only [extent_le_iff, Nat.zero_le, true_and] at hleast
  constructor
  · rintro ⟨ho, rfl, hs⟩
    obtain rfl := hplaced.mp ho
    exact ⟨rfl, rfl, hs.unique hleast⟩
  · rintro ⟨rfl, rfl, rfl⟩
    exact ⟨hplaced.mpr rfl, rfl, hleast⟩

/-- Fields that do not overlay each other do not overlap. -/
theorem Placed.pairwise {e : Nat} (h : Placed false e fs os) :
    (∀ o ∈ os, e ≤ o) ∧ (fs.zip os).Pairwise fun p q ↦ p.2 + p.1.size ≤ q.2 := by
  induction fs generalizing e os with
  | nil =>
      cases os with
      | nil => exact ⟨fun o ho ↦ absurd ho List.not_mem_nil, List.Pairwise.nil⟩
      | cons o os => exact h.elim
  | cons f fs ih =>
      cases os with
      | nil => exact h.elim
      | cons o os =>
          obtain ⟨ho, hos⟩ := h
          obtain ⟨hle, hpair⟩ := ih hos
          simp only [Bool.false_eq_true, if_false] at hle
          refine ⟨List.forall_mem_cons.mpr ⟨ho.1.2, fun o' ho' ↦ ?_⟩, ?_⟩
          · exact ho.1.2.trans ((Nat.le_add_right _ _).trans (hle o' ho'))
          · rw [List.zip_cons_cons, List.pairwise_cons]
            exact ⟨fun q hq ↦ hle q.2 (List.of_mem_zip hq).2, hpair⟩

end CopySpace.Layout
