import CopySpace.Compiler.RecordCells
import CopySpace.Compiler.Statics

/-!
# The layout of the static objects

`planFrom` says what the allocations of a translation ask for.  As long as no place reaches `2 ^ 31`,
`CC-RUN` finds room for all of it or ends at a limit, and it does the translation a second time
just when an object grows that was not placed last.
-/

namespace CopySpace.Compiler

/-! ## Plans -/

/-- What the allocations ask for: the bits of the objects and the multiples where they may stand, the
bits of the literals, the object that was placed last, and whether another one has grown. -/
structure Plan where
  count : Nat
  size : Nat → Nat
  alignment : Nat → Nat
  literals : List Nat
  last : Option Nat
  replay : Bool

namespace Plan

def start : Plan := ⟨0, fun _ ↦ 0, fun _ ↦ 0, [], none, false⟩

def object (p : Plan) (size alignment : Nat) : Plan :=
  { p with
    count := p.count + 1
    size := Function.update p.size p.count (max (8 * size) 8)
    alignment := Function.update p.alignment p.count (8 * alignment)
    last := some p.count }

def literal (p : Plan) (bytes : Nat) : Plan :=
  { p with literals := 8 * (bytes + 1) :: p.literals, last := none }

@[simp] theorem object_count (p : Plan) (s a : Nat) : (p.object s a).count = p.count + 1 := rfl

@[simp] theorem object_size_count (p : Plan) (s a : Nat) :
    (p.object s a).size p.count = max (8 * s) 8 := Function.update_self ..

@[simp] theorem object_alignment_count (p : Plan) (s a : Nat) :
    (p.object s a).alignment p.count = 8 * a := Function.update_self ..

theorem object_size {p : Plan} {i : Nat} (s a : Nat) (h : i < p.count) :
    (p.object s a).size i = p.size i := Function.update_of_ne h.ne ..

theorem object_alignment {p : Plan} {i : Nat} (s a : Nat) (h : i < p.count) :
    (p.object s a).alignment i = p.alignment i := Function.update_of_ne h.ne ..

/-- An object that needs more bits than it has. -/
def grow (p : Plan) (i bits : Nat) : Plan :=
  if p.size i < bits then
    { p with size := Function.update p.size i bits, replay := p.replay || decide (p.last ≠ some i) }
  else p

theorem grow_of_lt {p : Plan} {i bits : Nat} (h : p.size i < bits) :
    p.grow i bits = { p with
      size := Function.update p.size i bits
      replay := p.replay || decide (p.last ≠ some i) } := if_pos h

theorem grow_of_le {p : Plan} {i bits : Nat} (h : bits ≤ p.size i) : p.grow i bits = p :=
  if_neg (Nat.not_lt.mpr h)

theorem grow_size_self (p : Plan) (i bits : Nat) :
    (p.grow i bits).size i = max (p.size i) bits := by
  rcases Nat.lt_or_ge (p.size i) bits with h | h
  · rw [grow_of_lt h, max_eq_right h.le]
    exact Function.update_self ..
  · rw [grow_of_le h, max_eq_left h]

theorem grow_size_of_ne {p : Plan} {i j : Nat} (bits : Nat) (hj : j ≠ i) :
    (p.grow i bits).size j = p.size j := by
  rcases Nat.lt_or_ge (p.size i) bits with h | h
  · rw [grow_of_lt h]
    exact Function.update_of_ne hj ..
  · rw [grow_of_le h]

theorem size_le_grow (p : Plan) (i j bits : Nat) : p.size j ≤ (p.grow i bits).size j := by
  by_cases hj : j = i
  · subst hj
    rw [grow_size_self]
    exact le_max_left _ _
  · rw [grow_size_of_ne bits hj]

@[simp] theorem grow_count (p : Plan) (i bits : Nat) : (p.grow i bits).count = p.count := by
  unfold grow
  split <;> rfl

@[simp] theorem grow_alignment (p : Plan) (i bits : Nat) :
    (p.grow i bits).alignment = p.alignment := by
  unfold grow
  split <;> rfl

@[simp] theorem grow_literals (p : Plan) (i bits : Nat) :
    (p.grow i bits).literals = p.literals := by
  unfold grow
  split <;> rfl

@[simp] theorem grow_last (p : Plan) (i bits : Nat) : (p.grow i bits).last = p.last := by
  unfold grow
  split <;> rfl

end Plan

/-- The bits of an object with an array of so many elements at an offset. -/
def grownBits (length element offset : Cell) : Nat :=
  8 * (element.toNat * length.toNat + offset.toNat)

def planFrom (p : Plan) {n : Nat} : Events n → Plan
  | .done => p
  | .object size alignment rest => planFrom (p.object size.toNat alignment.toNat) rest
  | .literal bytes rest => planFrom (p.literal bytes) rest
  | .grow i length element offset rest => planFrom (p.grow i (grownBits length element offset)) rest
  | .measure _ rest => planFrom p rest

/-- The ranges of the literals and of the objects. -/
def Statics.regions (st : Statics) : List (Nat × Nat) :=
  st.literals.map (fun l ↦ (l.1.toNat, l.2)) ++
    (List.range st.cursor).map fun i ↦ ((st.targets i).toNat, (st.sizes i).toNat)

/-- Each object has its bits at a multiple of its alignment, each literal its bytes, and all of them
are apart in the static area. -/
structure PlacedBy (p : Plan) (st : Statics) : Prop where
  cursor_eq : st.cursor = p.count
  size_eq : ∀ i < p.count, (st.sizes i).toNat = p.size i
  aligned : ∀ i < p.count, p.alignment i ∣ (st.targets i).toNat
  literals_eq : st.literals.map Prod.snd = p.literals
  literals_aligned : ∀ l ∈ st.literals, 8 ∣ l.1.toNat
  inside : ∀ r ∈ st.regions, staticBase.toNat ≤ r.1 ∧ r.1 + r.2 ≤ dataBase.toNat
  apart : st.regions.Pairwise fun r r' ↦ r.1 + r.2 ≤ r'.1 ∨ r'.1 + r'.2 ≤ r.1

/-- The run gives what is asked for: the passes that are needed, and a place for everything.  It may
only end at a limit. -/
def RunPlaces (p : Plan) : Except LayoutFailure (Nat × Statics) → Prop
  | .error failure => failure = .limit
  | .ok (passes, st) => passes = (if p.replay then 2 else 1) ∧ PlacedBy p st

/-! ## Places that fit a cell -/

/-- The alignments of the objects are those of types. -/
def Events.Aligned {n : Nat} : Events n → Prop
  | .done => True
  | .object _ alignment rest => IsAlignment alignment ∧ rest.Aligned
  | .literal _ rest => rest.Aligned
  | .grow _ _ _ _ rest => rest.Aligned
  | .measure _ rest => rest.Aligned

/-- The objects of the first pass, with their growth, end below `2 ^ 31`. -/
def Statics.Fits (st : Statics) {n : Nat} : Events n → Prop
  | .done => True
  | .object size alignment rest =>
      Layout.roundUp (8 * alignment.toNat) st.data.toNat + max (8 * size.toNat) 8 < 2 ^ 31 ∧
      match st.staticObject size alignment with
      | .ok st => st.Fits rest
      | .error _ => True
  | .literal bytes rest =>
      match st.literal bytes with
      | .ok st => st.Fits rest
      | .error _ => True
  | .grow i length element offset rest =>
      (st.targets i).toNat + grownBits length element offset < 2 ^ 31 ∧
      match st.flexReserve (st.targets i) length element offset with
      | .ok st => st.Fits rest
      | .error _ => True
  | .measure inner rest =>
      match runTrial st inner with
      | .ok _ => st.Fits rest
      | .error _ => True

/-! ## Invariants -/

variable {p P : Plan} {st : Statics} {n : Nat}

/-- Everything is placed below the cursor, aligned, the objects one behind the other. -/
structure Laid (p : Plan) (st : Statics) : Prop where
  cursor_eq : st.cursor = p.count
  base_le : 98304 ≤ st.data.toNat
  data_le : st.data.toNat ≤ 131072
  data_dvd : 8 ∣ st.data.toNat
  target_ge : ∀ i < p.count, 98304 ≤ (st.targets i).toNat
  target_le : ∀ i < p.count, (st.targets i).toNat + 8 ≤ st.data.toNat
  increasing : ∀ i j, i < j → j < p.count → (st.targets i).toNat < (st.targets j).toNat
  aligned : ∀ i < p.count, p.alignment i ∣ (st.targets i).toNat
  typeSize_le : ∀ i < p.count, 8 * (st.typeSize (st.targets i)).toNat ≤ p.size i
  size_ge : ∀ i < p.count, 8 ≤ p.size i
  size_dvd : ∀ i < p.count, 8 ∣ p.size i
  alignment_le : ∀ i < p.count, p.alignment i ≤ 131072
  literals_eq : st.literals.map Prod.snd = p.literals
  literals_ge : ∀ l ∈ st.literals, 98304 ≤ l.1.toNat
  literals_dvd : ∀ l ∈ st.literals, 8 ∣ l.1.toNat
  literals_size : ∀ l ∈ st.literals, 8 ≤ l.2
  last_lt : ∀ i, p.last = some i → i < p.count

/-- The ranges end below the cursor, each where the next one begins or before. -/
structure Stacked (st : Statics) : Prop where
  objects : ∀ i j, i < j → j < st.cursor →
    (st.targets i).toNat + (st.sizes i).toNat ≤ (st.targets j).toNat
  object_le : ∀ i < st.cursor, (st.targets i).toNat + (st.sizes i).toNat ≤ st.data.toNat
  literals : st.literals.Pairwise fun l l' ↦ l'.1.toNat + l'.2 ≤ l.1.toNat
  literal_le : ∀ l ∈ st.literals, l.1.toNat + l.2 ≤ st.data.toNat
  apart : ∀ i < st.cursor, ∀ l ∈ st.literals,
    (st.targets i).toNat + (st.sizes i).toNat ≤ l.1.toNat ∨ l.1.toNat + l.2 ≤ (st.targets i).toNat

/-- The first pass has the sizes of the plan; the ranges are apart as long as no object has grown
into what was placed behind it. -/
structure First (p : Plan) (st : Statics) : Prop extends Laid p st where
  mode_eq : st.mode = false
  count_eq : st.count = p.count
  replay_eq : st.replay = p.replay
  size_eq : ∀ i < p.count, (st.sizes i).toNat = p.size i
  end_le : ∀ i < p.count, (st.targets i).toNat + p.size i ≤ 131072
  stacked : p.replay = false → Stacked st
  last_iff : p.replay = false → ∀ i < p.count,
    (p.last = some i ↔ (st.targets i).toNat + p.size i = st.data.toNat)

/-- The second pass has the sizes that the first one found. -/
structure Second (P p : Plan) (st : Statics) : Prop extends Laid p st where
  mode_eq : st.mode = true
  count_eq : st.count = P.count
  replay_eq : st.replay = false
  size_eq : ∀ i < P.count, (st.sizes i).toNat = P.size i
  stacked : Stacked st

/-- The result of a step: a state, or the end at a limit. -/
def Ends (Q : Statics → Prop) : Except LayoutFailure Statics → Prop
  | .error failure => failure = .limit
  | .ok st => Q st

theorem Ends.bind {Q Q' : Statics → Prop} {r : Except LayoutFailure Statics}
    {f : Statics → Except LayoutFailure Statics} (h : Ends Q r) (hf : ∀ st, Q st → Ends Q' (f st)) :
    Ends Q' (r >>= f) := by
  cases r with
  | error failure => exact h
  | ok st => exact hf st h

/-! ## Cells -/

theorem slt_iff {a b : Cell} (ha : a.toNat < 2 ^ 31) (hb : b.toNat < 2 ^ 31) :
    a.slt b = true ↔ a.toNat < b.toNat := by
  have ha := holds_iff.mpr ⟨rfl, ha⟩
  have hb := holds_iff.mpr ⟨rfl, hb⟩
  rw [BitVec.slt_iff_toInt_lt, ha, hb, Nat.cast_lt]

theorem widthOf_toNat {size : Cell} (h : 8 * size.toNat < 2 ^ 32) :
    (widthOf size).toNat = 8 * size.toNat := by
  rw [widthOf, BitVec.toNat_mul, Nat.mul_comm]
  exact Nat.mod_eq_of_lt h

theorem maxCell_toNat {a b : Cell} (ha : a.toNat < 2 ^ 31) (hb : b.toNat < 2 ^ 31) :
    (maxCell a b).toNat = max a.toNat b.toNat :=
  (holds_iff.mp (maxCell_holds (holds_iff.mpr ⟨rfl, ha⟩) (holds_iff.mpr ⟨rfl, hb⟩))).1

theorem alignUp_toNat {c alignment : Cell} (h : IsAlignment alignment) (hc : c.toNat < 2 ^ 31) :
    (alignUp c (alignment * 8)).toNat = Layout.roundUp (8 * alignment.toNat) c.toNat := by
  obtain ⟨k, hk, ha⟩ := h
  have hpow : 2 ^ k ≤ 2 ^ 28 := Nat.pow_le_pow_right (by decide) hk
  have height : 8 * 2 ^ k = 2 ^ (k + 3) := by rw [pow_add, Nat.mul_comm]; rfl
  have hmul : (alignment * 8).toNat = 2 ^ (k + 3) := by
    rw [BitVec.toNat_mul, ha, ← height, Nat.mul_comm]
    exact Nat.mod_eq_of_lt (by change 8 * 2 ^ k < 2 ^ 32; omega)
  rw [toNat_alignUp hmul (by omega) hc, ha, height]

/-! ## Both passes -/

variable {st' : Statics} {size alignment target : Cell}

theorem Laid.lt_target (h : Laid p st) (hle : st.data.toNat ≤ target.toNat) {i : Nat}
    (hi : i < p.count) : (st.targets i).toNat < target.toNat := by
  have := h.target_le i hi
  omega

theorem Laid.targets_injective (h : Laid p st) {i j : Nat} (hi : i < p.count) (hj : j < p.count)
    (heq : st.targets i = st.targets j) : i = j := by
  rcases Nat.lt_trichotomy i j with hij | hij | hij
  · have := h.increasing i j hij hj
    rw [heq] at this
    exact absurd this (lt_irrefl _)
  · exact hij
  · have := h.increasing j i hij hi
    rw [heq] at this
    exact absurd this (lt_irrefl _)

/-- An object behind everything that is there. -/
theorem Laid.object (h : Laid p st) (hcursor : st'.cursor = st.cursor + 1)
    (htargets : st'.targets = Function.update st.targets st.cursor target)
    (htypeSize : st'.typeSize = Function.update st.typeSize target size)
    (hliterals : st'.literals = st.literals) (hle : st.data.toNat ≤ target.toNat)
    (hdvd : 8 * alignment.toNat ∣ target.toNat)
    (hend : target.toNat + max (8 * size.toNat) 8 ≤ st'.data.toNat)
    (hdata : st'.data.toNat ≤ 131072) (h8 : 8 ∣ st'.data.toNat) :
    Laid (p.object size.toNat alignment.toNat) st' := by
  have hbase := h.base_le
  have hcount := h.cursor_eq
  have hnew : st'.targets p.count = target := by
    rw [htargets, hcount, Function.update_self]
  have hold : ∀ i < p.count, st'.targets i = st.targets i := fun i hi ↦ by
    rw [htargets, hcount, Function.update_of_ne hi.ne]
  have hcases : ∀ {i}, i < (p.object size.toNat alignment.toNat).count → i < p.count ∨ i = p.count :=
    fun hi ↦ Nat.lt_succ_iff_lt_or_eq.mp hi
  have htype : ∀ i < p.count, st'.typeSize (st'.targets i) = st.typeSize (st.targets i) := by
    intro i hi
    rw [hold i hi, htypeSize, Function.update_of_ne]
    intro heq
    have hlt := h.lt_target hle hi
    rw [heq] at hlt
    exact lt_irrefl _ hlt
  constructor
  case cursor_eq => rw [hcursor, hcount]; rfl
  case base_le => omega
  case data_le => exact hdata
  case data_dvd => exact h8
  case target_ge =>
    intro i hi
    rcases hcases hi with hi | rfl
    · rw [hold i hi]
      exact h.target_ge i hi
    · rw [hnew]
      omega
  case target_le =>
    intro i hi
    rcases hcases hi with hi | rfl
    · rw [hold i hi]
      have := h.target_le i hi
      omega
    · rw [hnew]
      omega
  case increasing =>
    intro i j hij hj
    rcases hcases hj with hj | rfl
    · rw [hold i (hij.trans hj), hold j hj]
      exact h.increasing i j hij hj
    · rw [hold i hij, hnew]
      exact h.lt_target hle hij
  case aligned =>
    intro i hi
    rcases hcases hi with hi | rfl
    · rw [hold i hi, Plan.object_alignment _ _ hi]
      exact h.aligned i hi
    · rw [hnew, Plan.object_alignment_count]
      exact hdvd
  case typeSize_le =>
    intro i hi
    rcases hcases hi with hi | rfl
    · rw [htype i hi, Plan.object_size _ _ hi]
      exact h.typeSize_le i hi
    · rw [hnew, htypeSize, Function.update_self, Plan.object_size_count]
      exact le_max_left _ _
  case size_ge =>
    intro i hi
    rcases hcases hi with hi | rfl
    · rw [Plan.object_size _ _ hi]
      exact h.size_ge i hi
    · rw [Plan.object_size_count]
      exact le_max_right _ _
  case size_dvd =>
    intro i hi
    rcases hcases hi with hi | rfl
    · rw [Plan.object_size _ _ hi]
      exact h.size_dvd i hi
    · rw [Plan.object_size_count]
      omega
  case alignment_le =>
    intro i hi
    rcases hcases hi with hi | rfl
    · rw [Plan.object_alignment _ _ hi]
      exact h.alignment_le i hi
    · rw [Plan.object_alignment_count]
      exact (Nat.le_of_dvd (by omega) hdvd).trans (by omega)
  case literals_eq => rw [hliterals]; exact h.literals_eq
  case literals_ge => rw [hliterals]; exact h.literals_ge
  case literals_dvd => rw [hliterals]; exact h.literals_dvd
  case literals_size => rw [hliterals]; exact h.literals_size
  case last_lt =>
    rintro i hi
    rw [← Option.some.inj hi]
    exact Nat.lt_succ_self _

/-- A literal behind everything that is there. -/
theorem Laid.literal (h : Laid p st) {d : Cell} {bytes : Nat}
    (hd : d.toNat = st.data.toNat + 8 * (bytes + 1)) (hle : d.toNat ≤ 131072) :
    Laid (p.literal bytes)
      { st with literals := (st.data, 8 * (bytes + 1)) :: st.literals, data := d } := by
  have hbase := h.base_le
  have hdvd := h.data_dvd
  refine ⟨h.cursor_eq, ?_, hle, ?_, h.target_ge, ?_, h.increasing, h.aligned, h.typeSize_le,
    h.size_ge, h.size_dvd, h.alignment_le, ?_, ?_, ?_, ?_, fun _ hi ↦ nomatch hi⟩
  · change 98304 ≤ d.toNat
    omega
  · change 8 ∣ d.toNat
    omega
  · intro i hi
    have := h.target_le i hi
    change (st.targets i).toNat + 8 ≤ d.toNat
    omega
  · rw [List.map_cons, h.literals_eq]
    rfl
  · exact List.forall_mem_cons.mpr ⟨hbase, h.literals_ge⟩
  · exact List.forall_mem_cons.mpr ⟨hdvd, h.literals_dvd⟩
  · exact List.forall_mem_cons.mpr ⟨by change 8 ≤ 8 * (bytes + 1); omega, h.literals_size⟩

/-- An object that grows, wherever it stands. -/
theorem Laid.grow (h : Laid p st) {i bits : Nat} {sizes : Nat → Cell} {d : Cell} {replay : Bool}
    (hbits : 8 ∣ bits) (hle : st.data.toNat ≤ d.toNat) (hd : d.toNat ≤ 131072)
    (h8 : 8 ∣ d.toNat) :
    Laid (p.grow i bits) { st with sizes := sizes, data := d, replay := replay } := by
  have hsize : ∀ j < p.count, 8 ∣ (p.grow i bits).size j := by
    intro j hj
    by_cases hji : j = i
    · subst hji
      rw [Plan.grow_size_self]
      rcases max_choice (p.size j) bits with hmax | hmax
      · rw [hmax]
        exact h.size_dvd j hj
      · rw [hmax]
        exact hbits
    · rw [Plan.grow_size_of_ne bits hji]
      exact h.size_dvd j hj
  constructor
  case cursor_eq => exact h.cursor_eq.trans (p.grow_count i bits).symm
  case base_le => exact h.base_le.trans hle
  case data_le => exact hd
  case data_dvd => exact h8
  case target_ge => rw [Plan.grow_count]; exact h.target_ge
  case target_le => rw [Plan.grow_count]; exact fun j hj ↦ (h.target_le j hj).trans hle
  case increasing => rw [Plan.grow_count]; exact h.increasing
  case aligned => rw [Plan.grow_count, Plan.grow_alignment]; exact h.aligned
  case typeSize_le =>
    rw [Plan.grow_count]
    exact fun j hj ↦ (h.typeSize_le j hj).trans (p.size_le_grow i j bits)
  case size_ge =>
    rw [Plan.grow_count]
    exact fun j hj ↦ (h.size_ge j hj).trans (p.size_le_grow i j bits)
  case size_dvd => rw [Plan.grow_count]; exact hsize
  case alignment_le => rw [Plan.grow_count, Plan.grow_alignment]; exact h.alignment_le
  case literals_eq => exact h.literals_eq.trans (p.grow_literals i bits).symm
  case literals_ge => exact h.literals_ge
  case literals_dvd => exact h.literals_dvd
  case literals_size => exact h.literals_size
  case last_lt => rw [Plan.grow_count, Plan.grow_last]; exact h.last_lt

theorem dataBase_slt {c : Cell} (hc : c.toNat < 2 ^ 31) :
    dataBase.slt c = true ↔ 131072 < c.toNat := slt_iff (by decide) hc

theorem literalBytes_ends (n : Nat) : ∀ st : Statics, st.data.toNat ≤ 131072 →
    Ends (fun st' ↦ ∃ d : Cell, st' = { st with data := d } ∧
      d.toNat = st.data.toNat + 8 * n ∧ d.toNat ≤ 131072) (st.literalBytes n) := by
  induction n with
  | zero => exact fun st hst ↦ ⟨st.data, rfl, rfl, hst⟩
  | succ n ih =>
    intro st hst
    have hadd : (st.data + 8).toNat = st.data.toNat + 8 := by
      rw [BitVec.toNat_add]
      exact Nat.mod_eq_of_lt (by change st.data.toNat + 8 < 2 ^ 32; omega)
    have hslt := dataBase_slt (c := st.data + 8) (by omega)
    unfold Statics.literalBytes
    by_cases h : dataBase.slt (st.data + 8) = true
    · rw [if_pos h]
      rfl
    · rw [if_neg h]
      rw [hslt, hadd] at h
      have hends := ih { st with data := st.data + 8 } (by change (st.data + 8).toNat ≤ 131072; omega)
      revert hends
      generalize Statics.literalBytes _ n = r
      cases r with
      | error failure => exact id
      | ok st' =>
        rintro ⟨d, rfl, hd, hle⟩
        refine ⟨d, rfl, ?_, hle⟩
        rw [hd]
        change (st.data + 8).toNat + 8 * n = _
        omega

theorem literal_ends (bytes : Nat) (hst : st.data.toNat ≤ 131072) :
    Ends (fun st' ↦ ∃ d : Cell, st' =
        { st with literals := (st.data, 8 * (bytes + 1)) :: st.literals, data := d } ∧
      d.toNat = st.data.toNat + 8 * (bytes + 1) ∧ d.toNat ≤ 131072) (st.literal bytes) :=
  literalBytes_ends (bytes + 1)
    { st with literals := (st.data, 8 * (bytes + 1)) :: st.literals } hst

/-- A measuring pass may only end at a limit. -/
theorem runTrial_error (t : Trial) : ∀ {st : Statics} {failure : LayoutFailure},
    st.data.toNat ≤ 131072 → runTrial st t = .error failure → failure = .limit := by
  induction t with
  | done => exact fun _ h ↦ nomatch h
  | literal bytes rest ih =>
    intro st failure hst h
    have hends := literal_ends bytes hst
    unfold runTrial at h
    cases hr : st.literal bytes with
    | error e =>
      rw [hr] at h hends
      exact (Except.error.inj h).symm.trans hends
    | ok st' =>
      rw [hr] at h hends
      obtain ⟨d, rfl, -, hd⟩ := hends
      exact ih hd h
  | measure inner rest ihinner ihrest =>
    intro st failure hst h
    unfold runTrial at h
    cases hr : runTrial st inner with
    | error e =>
      rw [hr] at h
      exact (Except.error.inj h).symm.trans (ihinner hst hr)
    | ok u =>
      rw [hr] at h
      exact ihrest hst h

/-! ## Growth -/

variable {i bits : Nat} {length element offset : Cell}

theorem Laid.layoutFind_eq (h : Laid p st) (hi : i < p.count) :
    st.layoutFind (st.targets i) st.cursor = .ok i := by
  rw [h.cursor_eq]
  have hrun : ∀ n ≤ p.count, i < n → st.layoutFind (st.targets i) n = .ok i := by
    intro n
    induction n with
    | zero => exact fun _ hlt ↦ absurd hlt (Nat.not_lt_zero i)
    | succ n ih =>
      intro hn hlt
      unfold Statics.layoutFind
      by_cases heq : st.targets n = st.targets i
      · rw [if_pos heq, h.targets_injective (Nat.lt_of_succ_le hn) hi heq]
      · rw [if_neg heq]
        have hne : i ≠ n := by
          rintro rfl
          exact heq rfl
        exact ih (Nat.le_of_succ_le hn) (by omega)
  exact hrun p.count le_rfl hi

/-- The plan of an object is asked only if the array reaches beyond its type. -/
theorem flexReserve_cases (hend : (st.targets i).toNat + p.size i ≤ 131072)
    (htype : 8 * (st.typeSize (st.targets i)).toNat ≤ p.size i)
    (hfit : (st.targets i).toNat + grownBits length element offset < 2 ^ 31) :
    (grownBits length element offset ≤ p.size i ∧
      st.flexReserve (st.targets i) length element offset = .ok st) ∨
    st.flexReserve (st.targets i) length element offset = .error .limit ∨
    ∃ ending : Cell, ending.toNat = (st.targets i).toNat + grownBits length element offset ∧
      ending.toNat ≤ 131072 ∧
      st.flexReserve (st.targets i) length element offset =
        st.layoutGrow (st.targets i) ending := by
  have hbytes : (element * length + offset).toNat =
      element.toNat * length.toNat + offset.toNat := by
    unfold grownBits at hfit
    rw [BitVec.toNat_add, BitVec.toNat_mul]
    rw [Nat.mod_eq_of_lt (a := element.toNat * length.toNat) (by omega)]
    exact Nat.mod_eq_of_lt (by omega)
  have hmax : (maxCell (element * length + offset) (st.typeSize (st.targets i))).toNat =
      max (element.toNat * length.toNat + offset.toNat) (st.typeSize (st.targets i)).toNat := by
    unfold grownBits at hfit
    rw [maxCell_toNat (by omega) (by omega), hbytes]
  have hending : (st.targets i + maxCell (element * length + offset)
      (st.typeSize (st.targets i)) * 8).toNat = (st.targets i).toNat +
        max (grownBits length element offset) (8 * (st.typeSize (st.targets i)).toNat) := by
    unfold grownBits at *
    rw [BitVec.toNat_add, BitVec.toNat_mul, hmax]
    change (_ + _ * 8 % 2 ^ 32) % 2 ^ 32 = _
    omega
  have hwidth : (st.targets i + widthOf (st.typeSize (st.targets i))).toNat =
      (st.targets i).toNat + 8 * (st.typeSize (st.targets i)).toNat := by
    rw [BitVec.toNat_add, widthOf_toNat (by omega)]
    exact Nat.mod_eq_of_lt (by omega)
  have hslt := slt_iff (a := st.targets i + widthOf (st.typeSize (st.targets i)))
    (b := st.targets i + maxCell (element * length + offset) (st.typeSize (st.targets i)) * 8)
    (by omega) (by omega)
  have hlimit := dataBase_slt
    (c := st.targets i + maxCell (element * length + offset) (st.typeSize (st.targets i)) * 8)
    (by omega)
  rw [hwidth, hending] at hslt
  rw [hending] at hlimit
  unfold Statics.flexReserve
  by_cases hlong : (st.targets i + widthOf (st.typeSize (st.targets i))).slt
      (st.targets i + maxCell (element * length + offset) (st.typeSize (st.targets i)) * 8) = true
  · rw [if_pos hlong]
    rw [hslt] at hlong
    by_cases hbeyond : dataBase.slt
        (st.targets i + maxCell (element * length + offset) (st.typeSize (st.targets i)) * 8) = true
    · rw [if_pos hbeyond]
      exact .inr (.inl rfl)
    · rw [if_neg hbeyond]
      rw [hlimit] at hbeyond
      exact .inr (.inr ⟨_, by omega, by omega, rfl⟩)
  · rw [if_neg hlong]
    rw [hslt] at hlong
    exact .inl ⟨by omega, rfl⟩

/-- An object with enough bits stays as it is. -/
theorem Laid.layoutGrow_of_le (h : Laid p st) (hi : i < p.count) {ending : Cell}
    (hend : (st.targets i).toNat + (st.sizes i).toNat ≤ 131072) (hending : ending.toNat ≤ 131072)
    (hle : ending.toNat ≤ (st.targets i).toNat + (st.sizes i).toNat) :
    st.layoutGrow (st.targets i) ending = .ok st := by
  have hprevious : (st.sizes i + st.targets i).toNat =
      (st.targets i).toNat + (st.sizes i).toNat := by
    rw [BitVec.toNat_add, Nat.add_comm]
    exact Nat.mod_eq_of_lt (by omega)
  have hslt : ¬ (st.sizes i + st.targets i).slt ending = true := by
    rw [slt_iff (by omega) (by omega), hprevious]
    omega
  unfold Statics.layoutGrow
  rw [h.layoutFind_eq hi]
  exact if_neg hslt

/-- In the first pass an object gets the bits that it needs. -/
theorem Laid.layoutGrow_of_lt (h : Laid p st) (hi : i < p.count) (hmode : st.mode = false)
    {ending : Cell} (hend : (st.targets i).toNat + (st.sizes i).toNat ≤ 131072)
    (hending : ending.toNat ≤ 131072)
    (hlt : (st.targets i).toNat + (st.sizes i).toNat < ending.toNat) :
    st.layoutGrow (st.targets i) ending =
      .ok (if (st.targets i).toNat + (st.sizes i).toNat = st.data.toNat then
        { st with
          sizes := Function.update st.sizes i (ending - st.targets i)
          data := ending
          replay := st.replay }
      else
        { st with
          sizes := Function.update st.sizes i (ending - st.targets i)
          data := st.data
          replay := true }) := by
  have hprevious : (st.sizes i + st.targets i).toNat =
      (st.targets i).toNat + (st.sizes i).toNat := by
    rw [BitVec.toNat_add, Nat.add_comm]
    exact Nat.mod_eq_of_lt (by omega)
  have hslt : (st.sizes i + st.targets i).slt ending = true := by
    rw [slt_iff (by omega) (by omega), hprevious]
    omega
  have hdata : st.sizes i + st.targets i = st.data ↔
      (st.targets i).toNat + (st.sizes i).toNat = st.data.toNat := by
    rw [← hprevious]
    exact BitVec.toNat_inj.symm
  unfold Statics.layoutGrow
  rw [h.layoutFind_eq hi]
  refine (if_pos hslt).trans ?_
  rw [hmode]
  by_cases heq : st.sizes i + st.targets i = st.data
  · rw [if_pos (hdata.mp heq)]
    exact if_pos heq
  · rw [if_neg (fun hne ↦ heq (hdata.mpr hne))]
    exact if_neg heq

/-! ## The first pass -/

theorem Layout.roundUp_spec {a n : Nat} (ha : 0 < a) :
    a ∣ Layout.roundUp a n ∧ n ≤ Layout.roundUp a n ∧ Layout.roundUp a n ≤ n + (a - 1) :=
  ⟨(Layout.roundUp_isLeast ha n).1.1, Layout.le_roundUp ha n, Nat.div_mul_le_self _ _⟩

/-- The bits beyond the size of the type follow. -/
theorem behind_eq (target width bits : Cell) :
    bits - width + (target + width) = target + bits := by
  rw [BitVec.add_comm target width, ← BitVec.add_assoc, BitVec.sub_add_cancel, BitVec.add_comm]

/-- The ranges stay apart when one is added behind them. -/
theorem Stacked.object (h : Stacked st) (hcursor : st'.cursor = st.cursor + 1)
    (htargets : st'.targets = Function.update st.targets st.cursor target)
    (hsizes : ∀ i < st.cursor, st'.sizes i = st.sizes i)
    (hliterals : st'.literals = st.literals) (hle : st.data.toNat ≤ target.toNat)
    (hend : target.toNat + (st'.sizes st.cursor).toNat ≤ st'.data.toNat) : Stacked st' := by
  have hnew : st'.targets st.cursor = target := by
    rw [htargets, Function.update_self]
  have hold : ∀ i < st.cursor, st'.targets i = st.targets i := fun i hi ↦ by
    rw [htargets, Function.update_of_ne hi.ne]
  have hcases : ∀ {i}, i < st'.cursor → i < st.cursor ∨ i = st.cursor := by
    rw [hcursor]
    exact Nat.lt_succ_iff_lt_or_eq.mp
  constructor
  case objects =>
    intro i j hij hj
    rcases hcases hj with hj | rfl
    · rw [hold i (hij.trans hj), hold j hj, hsizes i (hij.trans hj)]
      exact h.objects i j hij hj
    · rw [hold i hij, hsizes i hij, hnew]
      exact (h.object_le i hij).trans hle
  case object_le =>
    intro i hi
    rcases hcases hi with hi | rfl
    · rw [hold i hi, hsizes i hi]
      have := h.object_le i hi
      omega
    · rw [hnew]
      exact hend
  case literals => rw [hliterals]; exact h.literals
  case literal_le =>
    intro l hl
    rw [hliterals] at hl
    have := h.literal_le l hl
    omega
  case apart =>
    intro i hi l hl
    rw [hliterals] at hl
    rcases hcases hi with hi | rfl
    · rw [hold i hi, hsizes i hi]
      exact h.apart i hi l hl
    · rw [hnew]
      exact .inr ((h.literal_le l hl).trans hle)

theorem Stacked.literal (h : Stacked st) {d : Cell} {bits : Nat}
    (hd : d.toNat = st.data.toNat + bits) :
    Stacked { st with literals := (st.data, bits) :: st.literals, data := d } where
  objects := h.objects
  object_le := fun i hi ↦ (h.object_le i hi).trans (by change _ ≤ d.toNat; omega)
  literals := List.pairwise_cons.mpr ⟨h.literal_le, h.literals⟩
  literal_le := by
    refine List.forall_mem_cons.mpr ⟨hd.ge, fun l hl ↦ (h.literal_le l hl).trans ?_⟩
    change _ ≤ d.toNat
    omega
  apart := fun i hi ↦ List.forall_mem_cons.mpr ⟨.inl (h.object_le i hi), h.apart i hi⟩

/-- The place of an object, and where it ends. -/
theorem staticObject_place (ha : IsAlignment alignment) (hdata : st.data.toNat ≤ 131072)
    (hfit : Layout.roundUp (8 * alignment.toNat) st.data.toNat + max (8 * size.toNat) 8 < 2 ^ 31) :
    8 * alignment.toNat ∣ (alignUp st.data (alignment * 8)).toNat ∧
      st.data.toNat ≤ (alignUp st.data (alignment * 8)).toNat ∧
      (alignUp st.data (alignment * 8)).toNat + max (8 * size.toNat) 8 < 2 ^ 31 ∧
      (maxCell (widthOf size) 8).toNat = max (8 * size.toNat) 8 := by
  obtain ⟨hdvd, hle, -⟩ := Layout.roundUp_spec (n := st.data.toNat)
    (a := 8 * alignment.toNat) (by have := ha.pos; omega)
  have hwidth : (widthOf size).toNat = 8 * size.toNat := widthOf_toNat (by omega)
  rw [alignUp_toNat ha (by omega), maxCell_toNat (by omega) (by decide), hwidth]
  exact ⟨hdvd, hle, hfit, rfl⟩

/-- An object in the state after its layout. -/
theorem staticObject_eq {bits : Cell} {st₁ : Statics}
    (h : { st with data := alignUp st.data (alignment * 8) + widthOf size }.layoutObject
      (alignUp st.data (alignment * 8)) size = .ok (bits, st₁))
    (hdata : st₁.data = alignUp st.data (alignment * 8) + widthOf size) :
    st.staticObject size alignment =
      if dataBase.slt (alignUp st.data (alignment * 8) + bits) then .error .limit
      else .ok { st₁ with
        data := alignUp st.data (alignment * 8) + bits
        typeSize := Function.update st₁.typeSize (alignUp st.data (alignment * 8)) size } := by
  unfold Statics.staticObject
  rw [← behind_eq _ (widthOf size) bits, ← hdata]
  change (Statics.layoutObject _ _ _ >>= _) = _
  rw [h]
  rfl

theorem First.object (h : First p st) (ha : IsAlignment alignment)
    (hfit : Layout.roundUp (8 * alignment.toNat) st.data.toNat + max (8 * size.toNat) 8 < 2 ^ 31) :
    Ends (First (p.object size.toNat alignment.toNat)) (st.staticObject size alignment) := by
  have hdata := h.data_le
  have hcount := h.cursor_eq
  obtain ⟨hdvd, hle, hlt, hbits⟩ := staticObject_place ha hdata hfit
  have hlayout : { st with data := alignUp st.data (alignment * 8) + widthOf size }.layoutObject
      (alignUp st.data (alignment * 8)) size =
        if st.cursor ≥ 1024 then .error .limit
        else .ok (maxCell (widthOf size) 8, { st with
          data := alignUp st.data (alignment * 8) + widthOf size
          sizes := Function.update st.sizes st.cursor (maxCell (widthOf size) 8)
          count := st.cursor + 1
          targets := Function.update st.targets st.cursor (alignUp st.data (alignment * 8))
          cursor := st.cursor + 1 }) := by
    unfold Statics.layoutObject
    dsimp only
    rw [h.mode_eq]
    rfl
  by_cases hcursor : st.cursor ≥ 1024
  · rw [if_pos hcursor] at hlayout
    unfold Statics.staticObject
    change Ends _ (Statics.layoutObject _ _ _ >>= _)
    rw [hlayout]
    rfl
  · rw [if_neg hcursor] at hlayout
    rw [staticObject_eq hlayout rfl]
    generalize alignUp st.data (alignment * 8) = target at *
    generalize maxCell (widthOf size) 8 = bits at *
    have hsum : (target + bits).toNat = target.toNat + bits.toNat := by
      rw [BitVec.toNat_add]
      exact Nat.mod_eq_of_lt (by omega)
    have hslt := dataBase_slt (c := target + bits) (by omega)
    by_cases hlimit : dataBase.slt (target + bits) = true
    · rw [if_pos hlimit]
      rfl
    · rw [if_neg hlimit]
      rw [hslt, hsum] at hlimit
      have hsizes : ∀ i < p.count, Function.update st.sizes st.cursor bits i = st.sizes i :=
        fun i hi ↦ Function.update_of_ne (by omega) ..
      have htargets : ∀ i < p.count, Function.update st.targets st.cursor target i = st.targets i :=
        fun i hi ↦ Function.update_of_ne (by omega) ..
      have hsize : (Function.update st.sizes st.cursor bits p.count).toNat =
          max (8 * size.toNat) 8 := by
        rw [hcount, Function.update_self, hbits]
      have htarget : Function.update st.targets st.cursor target p.count = target := by
        rw [hcount, Function.update_self]
      have h8 : 8 ∣ target.toNat := (Dvd.intro _ rfl).trans hdvd
      have hlaid : Laid (p.object size.toNat alignment.toNat) { st with
          data := target + bits
          sizes := Function.update st.sizes st.cursor bits
          count := st.cursor + 1
          targets := Function.update st.targets st.cursor target
          cursor := st.cursor + 1
          typeSize := Function.update st.typeSize target size } := by
        refine h.toLaid.object rfl rfl rfl rfl hle hdvd ?_ ?_ ?_
        · exact (hsum.trans (by rw [hbits])).ge
        · exact hsum.le.trans (by omega)
        · rw [hsum]
          omega
      refine ⟨hlaid, h.mode_eq, congrArg (· + 1) hcount, h.replay_eq, ?_, ?_, ?_, ?_⟩
      · intro i hi
        rcases Nat.lt_succ_iff_lt_or_eq.mp hi with hi | rfl
        · rw [Plan.object_size _ _ hi, ← h.size_eq i hi]
          exact congrArg BitVec.toNat (hsizes i hi)
        · rw [Plan.object_size_count]
          exact hsize
      · intro i hi
        rcases Nat.lt_succ_iff_lt_or_eq.mp hi with hi | rfl
        · rw [Plan.object_size _ _ hi]
          refine le_of_eq_of_le ?_ (h.end_le i hi)
          exact congrArg (·.toNat + _) (htargets i hi)
        · rw [Plan.object_size_count]
          refine le_of_eq_of_le (congrArg (·.toNat + _) htarget) ?_
          omega
      · intro hreplay
        refine (h.stacked hreplay).object rfl rfl ?_ rfl hle ?_
        · exact fun i hi ↦ Function.update_of_ne hi.ne ..
        · change target.toNat + (Function.update st.sizes st.cursor bits st.cursor).toNat ≤
            (target + bits).toNat
          rw [Function.update_self]
          exact hsum.ge
      · intro hreplay i hi
        have hobject : (st.targets i).toNat + p.size i ≤ st.data.toNat ∨ i = p.count := by
          rcases Nat.lt_succ_iff_lt_or_eq.mp hi with hi | rfl
          · left
            rw [← h.size_eq i hi]
            exact (h.stacked hreplay).object_le i (by omega)
          · exact .inr rfl
        rcases Nat.lt_succ_iff_lt_or_eq.mp hi with hi | rfl
        · rw [Plan.object_size _ _ hi]
          change some p.count = some i ↔ (Function.update st.targets st.cursor target i).toNat + _ =
            (target + bits).toNat
          rw [htargets i hi, hsum]
          refine iff_of_false (fun heq ↦ hi.ne (Option.some.inj heq).symm) ?_
          omega
        · rw [Plan.object_size_count]
          refine iff_of_true rfl ?_
          change (Function.update st.targets st.cursor target p.count).toNat + _ = (target + bits).toNat
          rw [htarget, hsum, hbits]

theorem First.literal (h : First p st) (bytes : Nat) :
    Ends (First (p.literal bytes)) (st.literal bytes) := by
  have hends := literal_ends bytes h.data_le
  revert hends
  generalize st.literal bytes = r
  cases r with
  | error failure => exact id
  | ok st' =>
    rintro ⟨d, rfl, hd, hle⟩
    refine ⟨h.toLaid.literal hd hle, h.mode_eq, h.count_eq, h.replay_eq, h.size_eq, h.end_le,
      fun hreplay ↦ (h.stacked hreplay).literal hd, fun hreplay i hi ↦ ?_⟩
    refine iff_of_false (fun heq ↦ nomatch heq) (Nat.ne_of_lt ?_)
    have hobject := (h.stacked hreplay).object_le i (by rw [h.cursor_eq]; exact hi)
    rw [h.size_eq i hi] at hobject
    change (st.targets i).toNat + p.size i < d.toNat
    omega

theorem grownBits_dvd (length element offset : Cell) : 8 ∣ grownBits length element offset :=
  Dvd.intro _ rfl

/-- The ranges stay apart when the last one grows. -/
theorem Stacked.grow (h : Stacked st) {d : Cell} {sizes : Nat → Cell} {replay : Bool}
    (hsizes : ∀ j < st.cursor, j ≠ i → sizes j = st.sizes j)
    (hobjects : ∀ j < st.cursor, (st.targets j).toNat < st.data.toNat)
    (hliterals : ∀ l ∈ st.literals, 8 ≤ l.2)
    (hlast : (st.targets i).toNat + (st.sizes i).toNat = st.data.toNat)
    (hle : st.data.toNat ≤ d.toNat) (hend : (st.targets i).toNat + (sizes i).toNat = d.toNat) :
    Stacked { st with sizes := sizes, data := d, replay := replay } := by
  constructor
  case objects =>
    intro j k hjk hk
    by_cases hj : j = i
    · subst hj
      have := h.objects j k hjk hk
      have := hobjects k hk
      omega
    · change (st.targets j).toNat + (sizes j).toNat ≤ (st.targets k).toNat
      rw [hsizes j (hjk.trans hk) hj]
      exact h.objects j k hjk hk
  case object_le =>
    intro j hj
    change (st.targets j).toNat + (sizes j).toNat ≤ d.toNat
    by_cases hji : j = i
    · subst hji
      exact hend.le
    · rw [hsizes j hj hji]
      exact (h.object_le j hj).trans hle
  case literals => exact h.literals
  case literal_le => exact fun l hl ↦ (h.literal_le l hl).trans hle
  case apart =>
    intro j hj l hl
    change (st.targets j).toNat + (sizes j).toNat ≤ l.1.toNat ∨
      l.1.toNat + l.2 ≤ (st.targets j).toNat
    by_cases hji : j = i
    · subst hji
      have hsize := hliterals l hl
      have hbelow := h.literal_le l hl
      have := h.apart j hj l hl
      omega
    · rw [hsizes j hj hji]
      exact h.apart j hj l hl

/-- The sizes after the growth of an object that needs more bits. -/
theorem First.sizes_grow (h : First p st) (hlt : p.size i < bits) {grown : Cell}
    (hgrown : grown.toNat = bits) : ∀ j < (p.grow i bits).count,
      (Function.update st.sizes i grown j).toNat = (p.grow i bits).size j := by
  intro j hj
  rw [Plan.grow_count] at hj
  by_cases hji : j = i
  · subst hji
    rw [Function.update_self, hgrown, Plan.grow_size_self, max_eq_right hlt.le]
  · rw [Function.update_of_ne hji, Plan.grow_size_of_ne bits hji]
    exact h.size_eq j hj

theorem First.end_grow (h : First p st) (hend : (st.targets i).toNat + bits ≤ 131072) :
    ∀ j < (p.grow i bits).count, (st.targets j).toNat + (p.grow i bits).size j ≤ 131072 := by
  intro j hj
  rw [Plan.grow_count] at hj
  have := h.end_le j hj
  by_cases hji : j = i
  · subst hji
    rw [Plan.grow_size_self]
    omega
  · rw [Plan.grow_size_of_ne bits hji]
    exact this

/-- The object that was placed last grows where it is. -/
theorem First.grow_last (h : First p st) (hi : i < p.count) (hdvd : 8 ∣ bits)
    (hlt : p.size i < bits) {ending : Cell} (hending : ending.toNat = (st.targets i).toNat + bits)
    (hle : ending.toNat ≤ 131072)
    (hlast : (st.targets i).toNat + (st.sizes i).toNat = st.data.toNat) :
    First (p.grow i bits) { st with
      sizes := Function.update st.sizes i (ending - st.targets i)
      data := ending
      replay := st.replay } := by
  have hsize := h.size_eq i hi
  have hbits : (ending - st.targets i).toNat = bits := by
    rw [BitVec.toNat_sub]
    omega
  have h8 : 8 ∣ ending.toNat := by
    have := h.data_dvd
    have := h.size_dvd i hi
    omega
  have hsome : p.replay = false → p.last = some i := fun hreplay ↦
    (h.last_iff hreplay i hi).mpr (by rw [← hsize]; exact hlast)
  have hkeep : (p.grow i bits).replay = p.replay := by
    rw [Plan.grow_of_lt hlt]
    change (p.replay || decide (p.last ≠ some i)) = p.replay
    cases hp : p.replay with
    | false => rw [hsome hp, Bool.false_or, decide_eq_false (not_not.mpr rfl)]
    | true => rfl
  refine ⟨h.toLaid.grow hdvd (by omega) hle h8, h.mode_eq,
    h.count_eq.trans (p.grow_count i bits).symm, h.replay_eq.trans hkeep.symm,
    h.sizes_grow hlt hbits, h.end_grow (by omega), fun hreplay ↦ ?_, fun hreplay j hj ↦ ?_⟩
  · refine (h.stacked (hkeep.symm.trans hreplay)).grow (i := i) ?_ ?_ h.literals_size hlast
      (by omega) ?_
    · exact fun j _ hji ↦ Function.update_of_ne hji ..
    · intro j hj
      rw [h.cursor_eq] at hj
      have := h.target_le j hj
      omega
    · rw [Function.update_self, hbits]
      omega
  · rw [hkeep] at hreplay
    rw [Plan.grow_count] at hj
    rw [Plan.grow_last, hsome hreplay]
    change some i = some j ↔ (st.targets j).toNat + (p.grow i bits).size j = ending.toNat
    by_cases hji : j = i
    · subst hji
      rw [Plan.grow_size_self]
      exact iff_of_true rfl (by omega)
    · refine iff_of_false (fun heq ↦ hji (Option.some.inj heq).symm) ?_
      have hbelow := (h.stacked hreplay).object_le j (by rw [h.cursor_eq]; exact hj)
      rw [h.size_eq j hj] at hbelow
      rw [Plan.grow_size_of_ne bits hji]
      omega

/-- Another object grows into what was placed behind it: there will be a second pass. -/
theorem First.grow_replay (h : First p st) (hi : i < p.count) (hdvd : 8 ∣ bits)
    (hlt : p.size i < bits) {ending : Cell} (hending : ending.toNat = (st.targets i).toNat + bits)
    (hle : ending.toNat ≤ 131072)
    (hlast : ¬ (st.targets i).toNat + (st.sizes i).toNat = st.data.toNat) :
    First (p.grow i bits) { st with
      sizes := Function.update st.sizes i (ending - st.targets i)
      data := st.data
      replay := true } := by
  have hsize := h.size_eq i hi
  have hbits : (ending - st.targets i).toNat = bits := by
    rw [BitVec.toNat_sub]
    omega
  have htrue : (p.grow i bits).replay = true := by
    rw [Plan.grow_of_lt hlt]
    change (p.replay || decide (p.last ≠ some i)) = true
    cases hp : p.replay with
    | false =>
      have hne : p.last ≠ some i := fun heq ↦ by
        rw [h.last_iff hp i hi, ← hsize] at heq
        exact hlast heq
      rw [Bool.false_or, decide_eq_true hne]
    | true => rfl
  refine ⟨h.toLaid.grow hdvd le_rfl h.data_le h.data_dvd, h.mode_eq,
    h.count_eq.trans (p.grow_count i bits).symm, htrue.symm, h.sizes_grow hlt hbits,
    h.end_grow (by omega), fun hreplay ↦ ?_, fun hreplay ↦ ?_⟩
  · rw [htrue] at hreplay
    cases hreplay
  · rw [htrue] at hreplay
    cases hreplay

theorem First.grow (h : First p st) (hi : i < p.count)
    (hfit : (st.targets i).toNat + grownBits length element offset < 2 ^ 31) :
    Ends (First (p.grow i (grownBits length element offset)))
      (st.flexReserve (st.targets i) length element offset) := by
  have hsize := h.size_eq i hi
  have hend := h.end_le i hi
  have hdvd := grownBits_dvd length element offset
  obtain ⟨hle, heq⟩ | heq | ⟨ending, hending, hle, heq⟩ :=
    flexReserve_cases hend (h.typeSize_le i hi) hfit
  · rw [heq, Plan.grow_of_le hle]
    exact h
  · rw [heq]
    rfl
  · rw [heq]
    generalize grownBits length element offset = bits at *
    rcases Nat.lt_or_ge (p.size i) bits with hlt | hge
    · rw [h.layoutGrow_of_lt hi h.mode_eq (by omega) hle (by omega)]
      by_cases hlast : (st.targets i).toNat + (st.sizes i).toNat = st.data.toNat
      · rw [if_pos hlast]
        exact h.grow_last hi hdvd hlt hending hle hlast
      · rw [if_neg hlast]
        exact h.grow_replay hi hdvd hlt hending hle hlast
    · rw [h.layoutGrow_of_le hi (by omega) hle (by omega), Plan.grow_of_le hge]
      exact h

theorem First.run (h : First p st) (events : Events n) (hn : n = p.count) (halign : events.Aligned)
    (hfits : st.Fits events) : Ends (First (planFrom p events)) (runEvents st events) := by
  induction events generalizing p st with
  | done => exact h
  | object size alignment rest ih =>
    obtain ⟨hfit, hrest⟩ := hfits
    have hends := h.object halign.1 hfit
    unfold runEvents
    revert hrest hends
    generalize st.staticObject size alignment = r
    cases r with
    | error failure => exact fun _ hends ↦ hends
    | ok st' => exact fun hrest hends ↦ ih hends (congrArg (· + 1) hn) halign.2 hrest
  | literal bytes rest ih =>
    have hends := h.literal bytes
    unfold runEvents
    unfold Statics.Fits at hfits
    revert hends hfits
    generalize st.literal bytes = r
    cases r with
    | error failure => exact fun hends _ ↦ hends
    | ok st' => exact fun hends hrest ↦ ih hends hn halign hrest
  | grow i length element offset rest ih =>
    obtain ⟨hfit, hrest⟩ := hfits
    have hends := h.grow (hn ▸ i.isLt) hfit
    unfold runEvents
    revert hrest hends
    generalize st.flexReserve (st.targets i) length element offset = r
    cases r with
    | error failure => exact fun _ hends ↦ hends
    | ok st' =>
      exact fun hrest hends ↦ ih hends (hn.trans (Plan.grow_count ..).symm) halign hrest
  | measure inner rest ih =>
    unfold runEvents
    unfold Statics.Fits at hfits
    have herror := @runTrial_error inner st
    revert hfits herror
    generalize runTrial st inner = r
    cases r with
    | error failure => exact fun _ herror ↦ herror h.data_le rfl
    | ok u => exact fun hrest _ ↦ ih h hn halign hrest

/-! ## The second pass -/

theorem count_le_planFrom (events : Events n) : ∀ p : Plan, p.count ≤ (planFrom p events).count := by
  induction events with
  | done => exact fun _ ↦ le_rfl
  | object size alignment rest ih => exact fun p ↦ (Nat.le_succ _).trans (ih (p.object _ _))
  | literal bytes rest ih => exact fun p ↦ ih (p.literal bytes)
  | grow i length element offset rest ih =>
    intro p
    have hgrow := ih (p.grow i (grownBits length element offset))
    rw [Plan.grow_count] at hgrow
    exact hgrow
  | measure inner rest ih => exact ih

theorem size_le_planFrom (events : Events n) :
    ∀ p : Plan, i < p.count → p.size i ≤ (planFrom p events).size i := by
  induction events with
  | done => exact fun _ _ ↦ le_rfl
  | object size alignment rest ih =>
    intro p hi
    rw [← Plan.object_size size.toNat alignment.toNat hi]
    exact ih _ (Nat.lt_succ_of_lt hi)
  | literal bytes rest ih => exact fun p ↦ ih (p.literal bytes)
  | grow j length element offset rest ih =>
    intro p hi
    refine (p.size_le_grow j i _).trans (ih _ ?_)
    rw [Plan.grow_count]
    exact hi
  | measure inner rest ih => exact ih

theorem planFrom_alignment (events : Events n) :
    ∀ p : Plan, i < p.count → (planFrom p events).alignment i = p.alignment i := by
  induction events with
  | done => exact fun _ _ ↦ rfl
  | object size alignment rest ih =>
    intro p hi
    rw [← Plan.object_alignment size.toNat alignment.toNat hi]
    exact ih _ (Nat.lt_succ_of_lt hi)
  | literal bytes rest ih => exact fun p ↦ ih (p.literal bytes)
  | grow j length element offset rest ih =>
    intro p hi
    rw [← p.grow_alignment j (grownBits length element offset)]
    refine ih _ ?_
    rw [Plan.grow_count]
    exact hi
  | measure inner rest ih => exact ih

/-- What the first pass has found. -/
structure Bounded (P : Plan) : Prop where
  size_le : ∀ i < P.count, P.size i ≤ 131072
  size_dvd : ∀ i < P.count, 8 ∣ P.size i
  alignment_le : ∀ i < P.count, P.alignment i ≤ 131072

theorem First.bounded (h : First P st) : Bounded P where
  size_le := fun i hi ↦ (Nat.le_add_left _ _).trans (h.end_le i hi)
  size_dvd := h.size_dvd
  alignment_le := h.alignment_le

theorem Second.object (h : Second P p st) (hP : Bounded P) (ha : IsAlignment alignment)
    (hcount : p.count < P.count) (hsize : max (8 * size.toNat) 8 ≤ P.size p.count)
    (halign : 8 * alignment.toNat ≤ 131072) :
    Ends (Second P (p.object size.toNat alignment.toNat)) (st.staticObject size alignment) := by
  have hdata := h.data_le
  have hcursor := h.cursor_eq
  have hsizes := h.size_eq p.count hcount
  have hbound := hP.size_le p.count hcount
  obtain ⟨-, -, hnear⟩ := Layout.roundUp_spec (n := st.data.toNat)
    (a := 8 * alignment.toNat) (by have := ha.pos; omega)
  have hfit : Layout.roundUp (8 * alignment.toNat) st.data.toNat + max (8 * size.toNat) 8 < 2 ^ 31 := by
    omega
  obtain ⟨hdvd, hle, hlt, hbits⟩ := staticObject_place ha hdata hfit
  rw [← alignUp_toNat ha (by omega)] at hnear
  have hlayout : { st with data := alignUp st.data (alignment * 8) + widthOf size }.layoutObject
      (alignUp st.data (alignment * 8)) size =
        if st.cursor ≥ 1024 then .error .limit
        else .ok (st.sizes st.cursor, { st with
          data := alignUp st.data (alignment * 8) + widthOf size
          targets := Function.update st.targets st.cursor (alignUp st.data (alignment * 8))
          cursor := st.cursor + 1 }) := by
    have hslt : ¬ (st.sizes st.cursor).slt (maxCell (widthOf size) 8) = true := by
      rw [hcursor, slt_iff (by omega) (by omega)]
      omega
    have hplan : ¬ st.cursor ≥ st.count := by
      rw [hcursor, h.count_eq]
      omega
    unfold Statics.layoutObject
    dsimp only
    rw [h.mode_eq, if_pos rfl, if_neg hplan, if_neg hslt]
  by_cases hmany : st.cursor ≥ 1024
  · rw [if_pos hmany] at hlayout
    unfold Statics.staticObject
    change Ends _ (Statics.layoutObject _ _ _ >>= _)
    rw [hlayout]
    rfl
  · rw [if_neg hmany] at hlayout
    rw [staticObject_eq hlayout rfl]
    generalize alignUp st.data (alignment * 8) = target at *
    have hsum : (target + st.sizes st.cursor).toNat = target.toNat + P.size p.count := by
      rw [BitVec.toNat_add, hcursor, hsizes]
      exact Nat.mod_eq_of_lt (by omega)
    have hslt := dataBase_slt (c := target + st.sizes st.cursor) (by omega)
    by_cases hlimit : dataBase.slt (target + st.sizes st.cursor) = true
    · rw [if_pos hlimit]
      rfl
    · rw [if_neg hlimit]
      rw [hslt, hsum] at hlimit
      have h8 : 8 ∣ target.toNat := (Dvd.intro _ rfl).trans hdvd
      have h8' := hP.size_dvd p.count hcount
      refine ⟨?_, h.mode_eq, h.count_eq, h.replay_eq, h.size_eq, ?_⟩
      · refine h.toLaid.object rfl rfl rfl rfl hle hdvd ?_ ?_ ?_
        · change _ ≤ (target + st.sizes st.cursor).toNat
          omega
        · change (target + st.sizes st.cursor).toNat ≤ _
          omega
        · change _ ∣ (target + st.sizes st.cursor).toNat
          omega
      · refine h.stacked.object rfl rfl (fun _ _ ↦ rfl) rfl hle ?_
        change target.toNat + (st.sizes st.cursor).toNat ≤ (target + st.sizes st.cursor).toNat
        rw [hsum, hcursor, hsizes]

theorem Second.literal (h : Second P p st) (bytes : Nat) :
    Ends (Second P (p.literal bytes)) (st.literal bytes) := by
  have hends := literal_ends bytes h.data_le
  revert hends
  generalize st.literal bytes = r
  cases r with
  | error failure => exact id
  | ok st' =>
    rintro ⟨d, rfl, hd, hle⟩
    exact ⟨h.toLaid.literal hd hle, h.mode_eq, h.count_eq, h.replay_eq, h.size_eq,
      h.stacked.literal hd⟩

/-- No object grows again. -/
theorem Second.grow (h : Second P p st) (hi : i < p.count) (hcount : p.count ≤ P.count)
    (hsize : p.size i ≤ P.size i) (hbits : grownBits length element offset ≤ P.size i) :
    Ends (Second P (p.grow i (grownBits length element offset)))
      (st.flexReserve (st.targets i) length element offset) := by
  have hdata := h.data_le
  have hsizes := h.size_eq i (hi.trans_le hcount)
  have hend := h.stacked.object_le i (by rw [h.cursor_eq]; exact hi)
  rw [hsizes] at hend
  have hlaid : Laid (p.grow i (grownBits length element offset))
      { st with sizes := st.sizes, data := st.data, replay := st.replay } :=
    h.toLaid.grow (grownBits_dvd length element offset) le_rfl hdata h.data_dvd
  have hst : Second P (p.grow i (grownBits length element offset)) st :=
    ⟨hlaid, h.mode_eq, h.count_eq, h.replay_eq, h.size_eq, h.stacked⟩
  have hfit : (st.targets i).toNat + grownBits length element offset < 2 ^ 31 := by omega
  obtain ⟨-, heq⟩ | heq | ⟨ending, hending, hle, heq⟩ :=
    flexReserve_cases (by omega) (h.typeSize_le i hi) hfit
  · rw [heq]
    exact hst
  · rw [heq]
    rfl
  · rw [heq, h.layoutGrow_of_le hi (by omega) hle (by omega)]
    exact hst

theorem Second.run (h : Second P p st) (hP : Bounded P) (events : Events n) (hn : n = p.count)
    (halign : events.Aligned) (hplan : planFrom p events = P) :
    Ends (Second P P) (runEvents st events) := by
  induction events generalizing p st with
  | done =>
    rw [← hplan] at h ⊢
    exact h
  | object size alignment rest ih =>
    have hcount := count_le_planFrom rest (p.object size.toNat alignment.toNat)
    have hsize := size_le_planFrom rest (p.object size.toNat alignment.toNat)
      (i := p.count) (Nat.lt_succ_self _)
    have hsame := planFrom_alignment rest (p.object size.toNat alignment.toNat)
      (i := p.count) (Nat.lt_succ_self _)
    change planFrom (p.object size.toNat alignment.toNat) rest = P at hplan
    rw [hplan] at hcount hsize hsame
    rw [Plan.object_size_count] at hsize
    rw [Plan.object_alignment_count] at hsame
    have hstep := h.object hP halign.1 hcount hsize (hsame ▸ hP.alignment_le _ hcount)
    exact hstep.bind fun st' hst' ↦ ih hst' (congrArg (· + 1) hn) halign.2 hplan
  | literal bytes rest ih =>
    exact (h.literal bytes).bind fun st' hst' ↦ ih hst' hn halign hplan
  | grow i length element offset rest ih =>
    have hi : (i : Nat) < p.count := hn ▸ i.isLt
    have hcount := count_le_planFrom rest (p.grow i (grownBits length element offset))
    have hsize := size_le_planFrom rest (p.grow i (grownBits length element offset)) (i := i)
      (by rw [Plan.grow_count]; exact hi)
    change planFrom (p.grow i (grownBits length element offset)) rest = P at hplan
    rw [hplan] at hcount hsize
    rw [Plan.grow_count] at hcount
    rw [Plan.grow_size_self] at hsize
    have hstep := h.grow hi hcount ((le_max_left _ _).trans hsize) ((le_max_right _ _).trans hsize)
    exact hstep.bind fun st' hst' ↦ ih hst' (hn.trans (Plan.grow_count ..).symm) halign hplan
  | measure inner rest ih =>
    have hrest := ih h hn halign hplan
    unfold runEvents
    have herror := @runTrial_error inner st
    revert herror
    generalize runTrial st inner = r
    cases r with
    | error failure => exact fun herror ↦ herror h.data_le rfl
    | ok u => exact fun _ ↦ hrest

/-! ## The run -/

theorem Stacked.placedBy (h : Stacked st) (hl : Laid p st)
    (hsize : ∀ i < p.count, (st.sizes i).toNat = p.size i) : PlacedBy p st where
  cursor_eq := hl.cursor_eq
  size_eq := hsize
  aligned := hl.aligned
  literals_eq := hl.literals_eq
  literals_aligned := hl.literals_dvd
  inside := by
    have hdata := hl.data_le
    intro r hr
    rcases List.mem_append.mp hr with hr | hr
    · obtain ⟨l, hmem, rfl⟩ := List.mem_map.mp hr
      exact ⟨hl.literals_ge l hmem, (h.literal_le l hmem).trans hdata⟩
    · obtain ⟨i, hmem, rfl⟩ := List.mem_map.mp hr
      have hi := List.mem_range.mp hmem
      exact ⟨hl.target_ge i (hl.cursor_eq ▸ hi), (h.object_le i hi).trans hdata⟩
  apart := by
    refine List.pairwise_append.mpr ⟨?_, ?_, ?_⟩
    · exact List.pairwise_map.mpr (h.literals.imp .inr)
    · refine List.pairwise_map.mpr (List.pairwise_lt_range.imp_of_mem ?_)
      intro i j _ hj hij
      exact .inl (h.objects i j hij (List.mem_range.mp hj))
    · intro r hr r' hr'
      obtain ⟨l, hl', rfl⟩ := List.mem_map.mp hr
      obtain ⟨i, hi, rfl⟩ := List.mem_map.mp hr'
      exact (h.apart i (List.mem_range.mp hi) l hl').symm

theorem laid_start (hcursor : st.cursor = 0) (hdata : st.data = staticBase)
    (hliterals : st.literals = []) : Laid .start st := by
  have hnone : ∀ {i} {motive : Prop}, i < Plan.start.count → motive :=
    fun h ↦ absurd h (Nat.not_lt_zero _)
  have hempty : ∀ {motive : Cell × Nat → Prop}, ∀ l ∈ st.literals, motive l := by
    rw [hliterals]
    exact fun l hl ↦ absurd hl List.not_mem_nil
  refine ⟨hcursor, ?_, ?_, ?_, fun _ h ↦ hnone h, fun _ h ↦ hnone h, fun _ _ _ h ↦ hnone h,
    fun _ h ↦ hnone h, fun _ h ↦ hnone h, fun _ h ↦ hnone h, fun _ h ↦ hnone h, fun _ h ↦ hnone h,
    ?_, hempty, hempty, hempty, fun _ h ↦ nomatch h⟩
  · rw [hdata]
    decide
  · rw [hdata]
    decide
  · rw [hdata]
    decide
  · rw [hliterals]
    rfl

theorem stacked_start (hcursor : st.cursor = 0) (hliterals : st.literals = []) : Stacked st := by
  constructor
  case objects => exact fun i j _ h ↦ absurd h (by rw [hcursor]; exact Nat.not_lt_zero j)
  case object_le => exact fun i h ↦ absurd h (by rw [hcursor]; exact Nat.not_lt_zero i)
  case literals => rw [hliterals]; exact List.Pairwise.nil
  case literal_le => rw [hliterals]; exact fun l hl ↦ absurd hl List.not_mem_nil
  case apart => rw [hliterals]; exact fun _ _ l hl ↦ absurd hl List.not_mem_nil

theorem first_start (st : Statics) : First .start st.first :=
  ⟨laid_start rfl rfl rfl, rfl, rfl, rfl, fun _ h ↦ absurd h (Nat.not_lt_zero _),
    fun _ h ↦ absurd h (Nat.not_lt_zero _), fun _ ↦ stacked_start rfl rfl,
    fun _ _ h ↦ absurd h (Nat.not_lt_zero _)⟩

theorem First.again (h : First P st) : Second P .start st.again :=
  ⟨laid_start rfl rfl rfl, rfl, h.count_eq, rfl, h.size_eq, stacked_start rfl rfl⟩

/-- Nothing is known before the first translation. -/
def idle : Statics := ⟨0, 0, 0, false, false, fun _ ↦ 0, fun _ ↦ 0, fun _ ↦ 0, []⟩

/-- `struct S { int n; int a[]; } s; char *p = "ab"; struct S s = { 3, { 1, 2, 3 } };` -/
def flexibleObject : Events 0 :=
  .object 4 4 (.object 4 4 (.literal 2 (.measure .done (.grow 0 3 4 4 .done))))

/-- A record of 512 MiB and an `int`: the width of the record is zero, and the `int` stands in it. -/
def longRecord : Events 0 := .object 0x20000000 1 (.object 4 4 .done)

end CopySpace.Compiler
