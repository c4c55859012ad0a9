import CopySpace.Lib.Ripple
import Mathlib.Algebra.Group.Defs

/-!
# Parallel prefixes

The products of the first elements of a sequence, in any semigroup, can be found in a number of
stages that is logarithmic in the length: in stage `k` every element that has one `2 ^ k` places
below it is multiplied by that one (`stage`).  Before the stage an element is the product of the
`2 ^ k` elements up to it (`block`), and afterwards of twice as many (`stage_block`).

The carries of an addition are such products: a bit either generates a carry or propagates the
one it gets (`Carries`), and so does a block of bits (`carry_eq_block`).  A difference is the sum
with the complement and a carry that goes in.
-/

namespace CopySpace.Prefix

section Semigroup

variable {S : Type*} [Semigroup S] (f : Nat → S)

/-- The product of the elements from `i` down to `lo`; `f i` when `lo` is above. -/
def block (lo : Nat) : Nat → S
  | 0 => f 0
  | i + 1 => if i + 1 ≤ lo then f (i + 1) else f (i + 1) * block lo i

/-- Every element takes in the one `s` places below. -/
def stage (s : Nat) (g : Nat → S) (i : Nat) : S := if i < s then g i else g i * g (i - s)

variable {f}

theorem block_of_le {lo i : Nat} (h : i ≤ lo) : block f lo i = f i := by
  cases i with
  | zero => rfl
  | succ i => exact if_pos h

theorem block_succ {lo i : Nat} (h : lo ≤ i) : block f lo (i + 1) = f (i + 1) * block f lo i :=
  if_neg (Nat.not_le.mpr (Nat.lt_succ_of_le h))

/-- A block is an upper block after a lower one. -/
theorem block_split {lo j i : Nat} (hlo : lo ≤ j) (hj : j < i) :
    block f lo i = block f (j + 1) i * block f lo j := by
  induction i, hj using Nat.le_induction with
  | base => rw [block_succ hlo, block_of_le (Nat.le_refl _)]
  | succ i hi ih => rw [block_succ (Nat.le_trans hlo (Nat.le_of_lt hi)), ih, block_succ hi, mul_assoc]

/-- A stage doubles the blocks. -/
theorem stage_block {s : Nat} (hs : 0 < s) (i : Nat) :
    stage s (fun i ↦ block f (i + 1 - s) i) i = block f (i + 1 - 2 * s) i := by
  unfold stage
  split
  case isTrue h =>
    dsimp only
    rw [show i + 1 - s = 0 by omega, show i + 1 - 2 * s = 0 by omega]
  case isFalse h =>
    have hsplit : i - s + 1 = i + 1 - s := by omega
    dsimp only
    rw [show i + 1 - 2 * s = i - s + 1 - s by omega,
      block_split (f := f) (show i - s + 1 - s ≤ i - s by omega) (show i - s < i by omega), hsplit]

end Semigroup

/-! ## Carries -/

/-- What a block of bits does with a carry. -/
@[ext]
structure Carries where
  generate : Bool
  propagate : Bool
deriving DecidableEq

namespace Carries

/-- An upper block after a lower one. -/
instance : Mul Carries :=
  ⟨fun hi lo ↦ ⟨hi.generate || (hi.propagate && lo.generate), hi.propagate && lo.propagate⟩⟩

theorem mul_def (hi lo : Carries) : hi * lo =
    ⟨hi.generate || (hi.propagate && lo.generate), hi.propagate && lo.propagate⟩ := rfl

instance : Semigroup Carries where
  mul_assoc a b c := by
    simp only [mul_def, Bool.and_or_distrib_left, Bool.or_assoc, Bool.and_assoc]

/-- The carry out of a block. -/
def out (b : Carries) (c : Bool) : Bool := b.generate || (b.propagate && c)

theorem out_mul (hi lo : Carries) (c : Bool) : (hi * lo).out c = hi.out (lo.out c) := by
  simp only [out, mul_def, Bool.and_or_distrib_left, Bool.or_assoc, Bool.and_assoc]

/-- What bit `i` of a sum does. -/
def ofBits {w : Nat} (x y : BitVec w) (i : Nat) : Carries :=
  ⟨x.getLsbD i && y.getLsbD i, x.getLsbD i ^^ y.getLsbD i⟩

end Carries

variable {w : Nat} (x y : BitVec w) (c : Bool)

theorem carry_succ (i : Nat) : BitVec.carry (i + 1) x y c =
    (Carries.ofBits x y i).out (BitVec.carry i x y c) := by
  rw [BitVec.carry_succ, Carries.out, Carries.ofBits, Bool.atLeastTwo]
  cases x.getLsbD i <;> cases y.getLsbD i <;> cases BitVec.carry i x y c <;> rfl

/-- The carry into a bit comes out of the block below it. -/
theorem carry_eq_block (i : Nat) :
    BitVec.carry (i + 1) x y c = (block (Carries.ofBits x y) 0 i).out c := by
  induction i with
  | zero => rw [carry_succ, BitVec.carry_zero, block]
  | succ i ih => rw [carry_succ, ih, block_succ (Nat.zero_le _), Carries.out_mul]

/-! ## Differences -/

/-- What is added to `x` to find the result, with a carry into bit 0 for a difference. -/
def addend (subtract : Bool) (y : BitVec w) : BitVec w := if subtract then ~~~y else y

theorem getLsbD_addend (subtract : Bool) {i : Nat} (hi : i < w) :
    (addend subtract y).getLsbD i = (y.getLsbD i ^^ subtract) := by
  cases subtract with
  | false => exact (Bool.xor_false _).symm
  | true => rw [addend, if_pos rfl, BitVec.getLsbD_not, decide_eq_true hi, Bool.true_and,
      Bool.xor_true]

theorem rippleResult_eq (subtract : Bool) : rippleResult subtract x y =
    x + addend subtract y + BitVec.setWidth w (BitVec.ofBool subtract) := by
  cases subtract with
  | false => simp [rippleResult, addend]
  | true =>
      have hone : BitVec.setWidth w (BitVec.ofBool true) = 1#w := by
        apply BitVec.eq_of_toNat_eq
        simp
      rw [hone, rippleResult, if_pos rfl, addend, if_pos rfl, BitVec.sub_eq_add_neg,
        BitVec.neg_eq_not_add, BitVec.add_assoc]

/-- The bits of a sum or a difference. -/
theorem getLsbD_result (subtract : Bool) {i : Nat} (hi : i < w) :
    (rippleResult subtract x y).getLsbD i = (x.getLsbD i ^^ ((addend subtract y).getLsbD i ^^
      BitVec.carry i x (addend subtract y) subtract)) := by
  rw [rippleResult_eq, BitVec.getLsbD_add_add_bool hi]

/-- The carry out of a sum, or the absence of a borrow. -/
theorem carry_width (subtract : Bool) : BitVec.carry w x (addend subtract y) subtract =
    if subtract then decide (y ≤ x) else decide (2 ^ w ≤ x.toNat + y.toNat) := by
  have hx := x.isLt
  have hy := y.isLt
  cases subtract with
  | false =>
      change decide (x.toNat % 2 ^ w + y.toNat % 2 ^ w + 0 ≥ 2 ^ w) = decide _
      rw [Nat.mod_eq_of_lt hx, Nat.mod_eq_of_lt hy]
      rfl
  | true =>
      change decide (x.toNat % 2 ^ w + (~~~y).toNat % 2 ^ w + 1 ≥ 2 ^ w) = decide (y ≤ x)
      rw [BitVec.toNat_not, Nat.mod_eq_of_lt hx, Nat.mod_eq_of_lt (by omega), decide_eq_decide,
        BitVec.le_def]
      omega

end CopySpace.Prefix
