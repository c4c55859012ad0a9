import Mathlib.Data.Nat.Bitwise

/-!
# Addition and subtraction bit by bit

The bits of a sum are found from the lowest on, with a carry from one bit to the next; those of
a difference in the same way, with a borrow.  Both are one recursion here, over the full adder or
subtracter `rippleBit` and `rippleNext`.
-/

namespace CopySpace

/-- A sum or a difference. -/
def rippleResult {w : Nat} (subtract : Bool) (x y : BitVec w) : BitVec w :=
  if subtract then x - y else x + y

/-- The carry into, or the borrow from, bit `i`. -/
def rippleCarry {w : Nat} (subtract : Bool) (x y : BitVec w) (i : Nat) : Bool :=
  if subtract then BitVec.carry i y (x - y) false else BitVec.carry i x y false

/-- One bit of the result. -/
def rippleBit (a b c : Bool) : Bool := a ^^ b ^^ c

/-- The next carry or borrow. -/
def rippleNext (subtract a b c : Bool) : Bool :=
  if subtract then Bool.atLeastTwo b (rippleBit a b c) c else Bool.atLeastTwo a b c

variable {w : Nat} (subtract : Bool) (x y : BitVec w)

theorem rippleCarry_zero : rippleCarry subtract x y 0 = false := by
  cases subtract <;> exact BitVec.carry_zero

theorem getLsbD_rippleResult {i : Nat} (hi : i < w) : (rippleResult subtract x y).getLsbD i =
    rippleBit (x.getLsbD i) (y.getLsbD i) (rippleCarry subtract x y i) := by
  cases subtract with
  | false =>
      rw [rippleBit, Bool.xor_assoc]
      exact BitVec.getLsbD_add hi x y
  | true =>
      have hsum := BitVec.getLsbD_add hi y (x - y)
      rw [BitVec.add_comm, BitVec.sub_add_cancel] at hsum
      change (x - y).getLsbD i = rippleBit _ _ (BitVec.carry i y (x - y) false)
      rw [rippleBit, hsum]
      cases y.getLsbD i <;> cases (x - y).getLsbD i <;>
        cases BitVec.carry i y (x - y) false <;> rfl

theorem rippleCarry_succ {i : Nat} (hi : i < w) : rippleCarry subtract x y (i + 1) =
    rippleNext subtract (x.getLsbD i) (y.getLsbD i) (rippleCarry subtract x y i) := by
  cases subtract with
  | false => exact BitVec.carry_succ i x y false
  | true =>
      refine (BitVec.carry_succ i y (x - y) false).trans ?_
      rw [rippleNext, if_pos rfl, ← getLsbD_rippleResult true x y hi]
      rfl

/-- A sum carries out of the word when it does not fit, a difference borrows when it would be
negative. -/
theorem rippleCarry_width : rippleCarry subtract x y w =
    if subtract then decide (x < y) else decide (2 ^ w ≤ x.toNat + y.toNat) := by
  have hx := x.isLt
  have hy := y.isLt
  cases subtract with
  | false =>
      change decide (x.toNat % 2 ^ w + y.toNat % 2 ^ w + 0 ≥ 2 ^ w) = decide _
      rw [Nat.mod_eq_of_lt hx, Nat.mod_eq_of_lt hy]
      rfl
  | true =>
      change decide (y.toNat % 2 ^ w + (x - y).toNat % 2 ^ w + 0 ≥ 2 ^ w) = decide (x < y)
      have hlt := (x - y).isLt
      rw [Nat.mod_eq_of_lt hlt, Nat.mod_eq_of_lt hy, decide_eq_decide, BitVec.lt_def,
        BitVec.toNat_sub]
      rcases Nat.lt_or_ge x.toNat y.toNat with h | h
      · rw [Nat.mod_eq_of_lt (by omega)]
        omega
      · rw [show 2 ^ w - y.toNat + x.toNat = x.toNat - y.toNat + 2 ^ w by omega,
          Nat.add_mod_right, Nat.mod_eq_of_lt (by omega)]
        omega

end CopySpace
