import Mathlib.Algebra.Group.Int.Defs
import Mathlib.Algebra.Group.Nat.Defs
import Mathlib.Data.Int.Order.Basic

/-!
# Words as integers, with or without a sign

The operations on words are those on the integers that they stand for, up to a multiple of the
range.
-/

namespace CopySpace.Integers

variable {w : Nat}

/-- The integer that a word stands for. -/
def asInt (unsign : Bool) (b : BitVec w) : Int := if unsign then b.toNat else b.toInt

section

variable (unsign : Bool) (a b : BitVec w) (n : Nat)

@[simp] theorem ofInt_asInt : BitVec.ofInt w (asInt unsign a) = a := by
  unfold asInt
  split
  · rw [BitVec.ofInt_natCast, BitVec.ofNat_toNat, BitVec.setWidth_eq]
  · exact BitVec.ofInt_toInt

theorem ofInt_add : BitVec.ofInt w (asInt unsign a + asInt unsign b) = a + b := by
  rw [BitVec.ofInt_add, ofInt_asInt, ofInt_asInt]

theorem ofInt_neg : BitVec.ofInt w (-asInt unsign a) = -a := by
  rw [BitVec.ofInt_neg, ofInt_asInt]

theorem ofInt_sub : BitVec.ofInt w (asInt unsign a - asInt unsign b) = a - b := by
  rw [Int.sub_eq_add_neg, BitVec.ofInt_add, ofInt_neg, ofInt_asInt, BitVec.sub_eq_add_neg]

theorem ofInt_mul : BitVec.ofInt w (asInt unsign a * asInt unsign b) = a * b := by
  rw [BitVec.ofInt_mul, ofInt_asInt, ofInt_asInt]

theorem asInt_inj : asInt unsign a = asInt unsign b ↔ a = b := by
  constructor
  · intro h
    rw [← ofInt_asInt unsign a, h, ofInt_asInt]
  · rintro rfl
    rfl

theorem asInt_eq_zero : asInt unsign a = 0 ↔ a = 0#w := by
  have hzero : asInt unsign (0#w) = 0 := by
    unfold asInt
    split <;> simp
  rw [← hzero, asInt_inj]

theorem asInt_lt :
    asInt unsign a < asInt unsign b ↔ (if unsign then a.ult b else a.slt b) = true := by
  unfold asInt
  split
  · rw [BitVec.ult_eq_decide, decide_eq_true_iff, Int.ofNat_lt]
  · rw [BitVec.slt_eq_decide, decide_eq_true_iff]

theorem ofInt_tdiv : BitVec.ofInt w ((asInt unsign a).tdiv (asInt unsign b)) =
    if unsign then a / b else a.sdiv b := by
  unfold asInt
  split
  · rw [← Int.ofNat_tdiv, ← BitVec.toNat_udiv, BitVec.ofInt_natCast, BitVec.ofNat_toNat,
      BitVec.setWidth_eq]
  · refine BitVec.eq_of_toInt_eq ?_
    rw [BitVec.toInt_ofInt, BitVec.toInt_sdiv]

theorem ofInt_tmod : BitVec.ofInt w ((asInt unsign a).tmod (asInt unsign b)) =
    if unsign then a % b else a.srem b := by
  unfold asInt
  split
  · rw [← Int.ofNat_tmod, ← BitVec.toNat_umod, BitVec.ofInt_natCast, BitVec.ofNat_toNat,
      BitVec.setWidth_eq]
  · rw [← BitVec.toInt_srem, BitVec.ofInt_toInt]

theorem ofInt_shiftLeft : BitVec.ofInt w (asInt unsign a * 2 ^ n) = a <<< n := by
  rw [BitVec.ofInt_mul, ofInt_asInt, BitVec.shiftLeft_eq_mul_twoPow]
  congr 1
  refine BitVec.eq_of_toNat_eq ?_
  rw [BitVec.toNat_ofInt, BitVec.toNat_twoPow]
  norm_cast

theorem ofInt_shiftRight : BitVec.ofInt w (asInt unsign a / 2 ^ n) =
    if unsign then a >>> n else a.sshiftRight n := by
  unfold asInt
  split
  · have hcast : (a.toNat : Int) / 2 ^ n = (a >>> n).toNat := by
      rw [BitVec.toNat_ushiftRight, Nat.shiftRight_eq_div_pow]
      norm_cast
    rw [hcast, BitVec.ofInt_natCast, BitVec.ofNat_toNat, BitVec.setWidth_eq]
  · have hshift : a.toInt / 2 ^ n = (a.sshiftRight n).toInt := by
      rw [BitVec.toInt_sshiftRight, Int.shiftRight_eq_div_pow]
      norm_cast
    rw [hshift, BitVec.ofInt_toInt]

end

end CopySpace.Integers
