import CopySpace.Lib.Halves

/-!
# `compiler.fth`: constants of integer types

The value of a constant expression is kept in two cells.  Of a type with 32 bits the upper cell
only repeats the sign.
-/

namespace CopySpace.Compiler

/-- A cell of the compiler. -/
abbrev Cell := BitVec 32

/-- The word of two cells. -/
def join (high low : Cell) : BitVec 64 := high ++ low

theorem toNat_join (high low : Cell) : (join high low).toNat = high.toNat * 2 ^ 32 + low.toNat :=
  Halves.toNat_append high low

/-- The types that `cc-promoted` leaves: the numbers 0, 1, 9, 10, 12 and 13. -/
inductive Promoted
  | int
  | uint
  | long
  | ulong
  | llong
  | ullong
  deriving DecidableEq, Repr

namespace Promoted

/-- `cc-signed?` -/
def signed : Promoted → Bool
  | int | long | llong => true
  | uint | ulong | ullong => false

/-- `cc-width` of 64 bits instead of 32 -/
def wide : Promoted → Bool
  | llong | ullong => true
  | _ => false

/-- The values of a type. -/
def Represents (t : Promoted) (v : Int) : Prop :=
  let bits := if t.wide then 64 else 32
  if t.signed then -2 ^ (bits - 1) ≤ v ∧ v < 2 ^ (bits - 1) else 0 ≤ v ∧ v < 2 ^ bits

/-- What two cells stand for.  The upper one does not count for a type with 32 bits. -/
def valueOf (t : Promoted) (low high : Cell) : Int :=
  if t.wide then if t.signed then (join high low).toInt else (join high low).toNat
  else if t.signed then low.toInt else low.toNat

end Promoted

/-- What `cc-read-constant` leaves, with the promoted type. -/
structure Constant where
  low : Cell
  high : Cell
  type : Promoted
  /-- `cc-fold-hi@` -/
  extended : type.wide = false → high = if type.signed && low.msb then -1 else 0

/-- The number that a constant stands for. -/
def Constant.value (c : Constant) : Int := c.type.valueOf c.low c.high

section

variable {t : Promoted} {low high : Cell} {v : Int}

/-- Cells stand for a number of their type. -/
theorem Promoted.represents_valueOf (t : Promoted) (low high : Cell) :
    t.Represents (t.valueOf low high) := by
  have hlow := low.isLt
  have hboth := (join high low).isLt
  have hlowInt := BitVec.toInt_eq_toNat_cond low
  have hbothInt := BitVec.toInt_eq_toNat_cond (join high low)
  cases t <;> simp only [Represents, valueOf, wide, signed] <;> norm_num <;> omega

/-- A type with a negative number has no place for the greatest ones. -/
theorem Promoted.Represents.lt_of_negative {u : Int} (hu : t.Represents u) (hnegative : u < 0)
    (hv : t.Represents v) : v < 2 ^ 63 := by
  revert hu hv
  cases t <;> simp only [Represents, wide, signed] <;> norm_num <;> omega

/-- The cells of a number. -/
theorem Promoted.join_eq
    (hextended : t.wide = false → high = if t.signed && low.msb then -1 else 0) :
    join high low = BitVec.ofInt 64 (t.valueOf low high) := by
  unfold valueOf
  cases hwide : t.wide with
  | true =>
    rw [if_pos rfl]
    split
    · exact BitVec.ofInt_toInt.symm
    · rw [BitVec.ofInt_natCast, BitVec.ofNat_toNat, BitVec.setWidth_eq]
  | false =>
    have hlow := low.isLt
    have hlowInt := BitVec.toInt_eq_toNat_cond low
    have hmsb : low.msb = decide (2 ^ 31 ≤ low.toNat) := BitVec.msb_eq_decide low
    have hzero : (0 : Cell).toNat = 0 := rfl
    have hones : (-1 : Cell).toNat = 2 ^ 32 - 1 := rfl
    rw [if_neg Bool.false_ne_true, hextended hwide]
    refine BitVec.eq_of_toNat_eq ?_
    rw [toNat_join, BitVec.toNat_ofInt, hmsb]
    cases t.signed
    · simp only [Bool.false_and, Bool.false_eq_true, if_false, hzero]
      omega
    · simp only [Bool.true_and, decide_eq_true_iff, if_true]
      split
      · rw [hones]
        omega
      · rw [hzero]
        omega

theorem Constant.join_eq (c : Constant) : join c.high c.low = BitVec.ofInt 64 c.value :=
  Promoted.join_eq c.extended

/-- The cells of a number, as numbers. -/
theorem toNat_of_join (h : join high low = BitVec.ofInt 64 v) :
    (high.toNat : Int) = v % 2 ^ 64 / 2 ^ 32 ∧ (low.toNat : Int) = v % 2 ^ 32 := by
  have hlow := low.isLt
  have hboth := congrArg BitVec.toNat h
  rw [toNat_join, BitVec.toNat_ofInt] at hboth
  omega

/-- A number has one pair of cells only. -/
theorem Promoted.valueOf_eq (hcells : join high low = BitVec.ofInt 64 v) :
    t.valueOf low high = v ↔ t.Represents v := by
  refine ⟨fun h ↦ h ▸ t.represents_valueOf low high, fun h ↦ ?_⟩
  obtain ⟨hhigh, hlow⟩ := toNat_of_join hcells
  have hboth := toNat_join high low
  have hlowInt := BitVec.toInt_eq_toNat_cond low
  have hbothInt := BitVec.toInt_eq_toNat_cond (join high low)
  revert h
  cases t <;> simp only [Represents, valueOf, wide, signed] <;> norm_num <;> omega

end

end CopySpace.Compiler
