import CopySpace.Compiler.Records
import CopySpace.Lib.Layout

/-!
# The layout of a record in cells

`placeCells` and `extentCells` are the pass of `Layout.place` and `Layout.extent` in cells with a
sign.  `place_holds` says that the cells hold the numbers as long as the record ends below `2 ^ 31`.
-/

namespace CopySpace.Compiler

/-- A cell with a sign holds a number. -/
def Holds (c : Cell) (n : Nat) : Prop := c.toInt = n

/-- The alignments that `cc-read-layout-attributes` admits. -/
def IsAlignment (a : Cell) : Prop := ∃ k ≤ 28, a.toNat = 2 ^ k

variable {a b c : Cell} {m n : Nat}

theorem holds_iff : Holds c n ↔ c.toNat = n ∧ n < 2 ^ 31 := by
  have h := BitVec.toInt_eq_toNat_cond c
  have hlt := c.isLt
  unfold Holds
  constructor <;> intro h' <;> omega

theorem maxCell_holds (ha : Holds a m) (hb : Holds b n) : Holds (maxCell a b) (max m n) := by
  unfold Holds maxCell at *
  by_cases h : a.slt b
  · rw [if_pos h]
    rw [BitVec.slt_iff_toInt_lt] at h
    omega
  · rw [if_neg h]
    rw [BitVec.slt_iff_toInt_lt] at h
    omega

theorem add_holds (ha : Holds a m) (h : m + b.toNat < 2 ^ 31) : Holds (a + b) (m + b.toNat) := by
  rw [holds_iff] at ha ⊢
  rw [BitVec.toNat_add, ha.1]
  omega

/-- The low bits of a number are cleared. -/
theorem and_two_pow_sub {x w k : Nat} (hx : x < 2 ^ w) (hk : k ≤ w) :
    x &&& (2 ^ w - 2 ^ k) = x / 2 ^ k * 2 ^ k := by
  have hpow : 2 ^ k ≤ 2 ^ w := Nat.pow_le_pow_right (by decide) hk
  have hpos : 0 < 2 ^ k := Nat.two_pow_pos k
  refine Nat.eq_of_testBit_eq fun i ↦ ?_
  rw [Nat.testBit_and, show 2 ^ w - 2 ^ k = 2 ^ w - (2 ^ k - 1 + 1) by omega,
    Nat.testBit_two_pow_sub_succ (by omega), Nat.testBit_two_pow_sub_one, ← Nat.shiftRight_eq_div_pow,
    ← Nat.shiftLeft_eq, Nat.testBit_shiftLeft]
  by_cases hi : k ≤ i
  · rw [Nat.testBit_shiftRight, Nat.add_sub_cancel' hi, decide_eq_true hi,
      decide_eq_false (by omega : ¬ i < k)]
    by_cases hw : i < w
    · simp [hw]
    · rw [Nat.testBit_lt_two_pow (hx.trans_le (Nat.pow_le_pow_right (by decide) (by omega)))]
      simp
  · rw [decide_eq_false hi, decide_eq_true (by omega : i < k)]
    simp

/-- An aligned place, as long as it fits a cell. -/
theorem toNat_alignUp {k : Nat} (ha : a.toNat = 2 ^ k) (hk : k ≤ 31) (hn : c.toNat < 2 ^ 31) :
    (alignUp c a).toNat = Layout.roundUp (2 ^ k) c.toNat := by
  have hpow : 2 ^ k ≤ 2 ^ 31 := Nat.pow_le_pow_right (by decide) hk
  have hpos : 0 < 2 ^ k := Nat.two_pow_pos k
  have hneg : (-a).toNat = 2 ^ 32 - 2 ^ k := by
    rw [BitVec.toNat_neg, ha]
    omega
  have hsum : (c + (a - 1)).toNat = c.toNat + (2 ^ k - 1) := by
    have hone : (1 : Cell).toNat = 1 := rfl
    rw [BitVec.toNat_add, BitVec.toNat_sub, ha, hone]
    omega
  rw [alignUp, BitVec.toNat_and, hneg, hsum, and_two_pow_sub (by omega) (by omega), Layout.roundUp]

theorem alignUp_holds (ha : IsAlignment a) (hc : Holds c n)
    (h : Layout.roundUp a.toNat n < 2 ^ 31) : Holds (alignUp c a) (Layout.roundUp a.toNat n) := by
  obtain ⟨k, hk, ha⟩ := ha
  obtain ⟨rfl, hn⟩ := holds_iff.mp hc
  rw [ha] at h ⊢
  exact holds_iff.mpr ⟨toNat_alignUp ha (hk.trans (by decide)) hn, h⟩

theorem IsAlignment.pos (ha : IsAlignment a) : 0 < a.toNat := by
  obtain ⟨k, -, ha⟩ := ha
  rw [ha]
  exact Nat.two_pow_pos k

theorem IsAlignment.holds (ha : IsAlignment a) : Holds a a.toNat := by
  obtain ⟨k, hk, ha⟩ := ha
  have hpow : 2 ^ k ≤ 2 ^ 28 := Nat.pow_le_pow_right (by decide) hk
  exact holds_iff.mpr ⟨rfl, by omega⟩

theorem IsAlignment.max (ha : IsAlignment a) (hb : IsAlignment b) : IsAlignment (maxCell a b) := by
  unfold maxCell
  split
  · exact hb
  · exact ha

/-! ## Fields -/

/-- The size and the alignment of a member. -/
structure CellField where
  size : Cell
  alignment : Cell

/-- The numbers in the cells. -/
def CellField.field (f : CellField) : Layout.Field := ⟨f.size.toNat, f.alignment.toNat⟩

/-- The place of a member, if the members before it end at `e`. -/
def nextCell (union : Bool) (e : Cell) (f : CellField) : Cell :=
  if union then 0 else alignUp e f.alignment

/-- The places of the members. -/
def placeCells (union : Bool) : Cell → List CellField → List Cell
  | _, [] => []
  | e, f :: fs =>
      nextCell union e f :: placeCells union (maxCell (nextCell union e f + f.size) e) fs

/-- Where the members end. -/
def extentCells (union : Bool) : Cell → List CellField → Cell
  | e, [] => e
  | e, f :: fs => extentCells union (maxCell (nextCell union e f + f.size) e) fs

/-- The greatest alignment. -/
def alignmentCells (a : Cell) (fs : List CellField) : Cell :=
  fs.foldl (fun a f ↦ maxCell f.alignment a) a

variable {union : Bool} {e : Cell} {f : CellField} {fs : List CellField}

theorem placeCells_append : placeCells union e (fs ++ [f]) =
    placeCells union e fs ++ [nextCell union (extentCells union e fs) f] := by
  induction fs generalizing e with
  | nil => rfl
  | cons g fs ih => rw [List.cons_append, placeCells, ih, placeCells, extentCells, List.cons_append]

theorem extentCells_append : extentCells union e (fs ++ [f]) =
    maxCell (nextCell union (extentCells union e fs) f + f.size) (extentCells union e fs) := by
  induction fs generalizing e with
  | nil => rfl
  | cons g fs ih => rw [List.cons_append, extentCells, ih, extentCells]

theorem alignmentCells_append :
    alignmentCells a (fs ++ [f]) = maxCell f.alignment (alignmentCells a fs) :=
  List.foldl_append

theorem length_placeCells : (placeCells union e fs).length = fs.length := by
  induction fs generalizing e with
  | nil => rfl
  | cons f fs ih => rw [placeCells, List.length_cons, ih, List.length_cons]

theorem alignmentCells_isAlignment (ha : IsAlignment a) (hfs : ∀ f ∈ fs, IsAlignment f.alignment) :
    IsAlignment (alignmentCells a fs) := by
  induction fs generalizing a with
  | nil => exact ha
  | cons f fs ih =>
      exact ih ((hfs f List.mem_cons_self).max ha) fun g hg ↦ hfs g (List.mem_cons_of_mem _ hg)

theorem alignmentCells_holds (ha : Holds a n) (hfs : ∀ f ∈ fs, IsAlignment f.alignment) :
    Holds (alignmentCells a fs) (((fs.map (·.field)).map (·.alignment)).foldr max n) := by
  induction fs generalizing a n with
  | nil => exact ha
  | cons f fs ih =>
      have hf := (hfs f List.mem_cons_self).holds
      have h := ih (maxCell_holds hf ha) fun g hg ↦ hfs g (List.mem_cons_of_mem _ hg)
      rw [List.map_cons, List.map_cons, List.foldr_cons]
      refine (congrArg (Holds _) ?_).mp h
      generalize (fs.map (·.field)).map (·.alignment) = xs
      induction xs with
      | nil => rfl
      | cons x xs ih =>
          rw [List.foldr_cons, ih, List.foldr_cons]
          exact max_left_comm _ _ _

/-- The cells hold the places of the members if the record ends below `2 ^ 31`. -/
theorem place_holds (he : Holds e n) (hfs : ∀ f ∈ fs, IsAlignment f.alignment)
    (h : Layout.extent union n (fs.map (·.field)) < 2 ^ 31) :
    List.Forall₂ Holds (placeCells union e fs) (Layout.place union n (fs.map (·.field))) ∧
      Holds (extentCells union e fs) (Layout.extent union n (fs.map (·.field))) := by
  induction fs generalizing e n with
  | nil => exact ⟨.nil, he⟩
  | cons f fs ih =>
      rw [List.map_cons, Layout.extent] at h
      rw [List.map_cons, Layout.place, Layout.extent, placeCells, extentCells]
      have hend : Layout.next union n f.field + f.size.toNat < 2 ^ 31 :=
        lt_of_le_of_lt ((le_max_left _ _).trans (Layout.le_extent _)) h
      have hnext : Holds (nextCell union e f) (Layout.next union n f.field) := by
        unfold nextCell Layout.next at *
        cases union with
        | true => exact holds_iff.mpr ⟨rfl, Nat.two_pow_pos 31⟩
        | false =>
            refine alignUp_holds (hfs f List.mem_cons_self) he ?_
            simp only [Bool.false_eq_true, if_false] at hend
            exact lt_of_le_of_lt (Nat.le_add_right _ _) hend
      have hrest := ih (maxCell_holds (add_holds hnext hend) he)
        (fun g hg ↦ hfs g (List.mem_cons_of_mem _ hg)) h
      exact ⟨.cons hnext hrest.1, hrest.2⟩

end CopySpace.Compiler
