import Mathlib.Data.Nat.Bitwise
import Mathlib.Tactic.Common

/-!
# Arithmetic one binary digit after the other

The invariants of three loops over the digits of a number: a product as a sum of shifted
multiplicands, a quotient by restoring division, and a long shift as a sequence of shifts by powers
of two.  What is known after some digits is stated for the number that these digits make.
-/

namespace CopySpace.Digits

variable {w n d i q r : Nat}

theorem mod_two_pow_succ (n i : Nat) :
    n % 2 ^ (i + 1) = n % 2 ^ i + 2 ^ i * (n.testBit i).toNat := by
  rw [Nat.mod_pow_succ, Nat.toNat_testBit]

/-! ## Products -/

/-- The product with the low digits of a multiplier. -/
def product (x y : BitVec w) (i : Nat) : BitVec w := x * BitVec.ofNat w (y.toNat % 2 ^ i)

theorem product_zero (x y : BitVec w) : product x y 0 = 0#w := by
  rw [product, Nat.pow_zero, Nat.mod_one]
  exact BitVec.mul_zero

theorem product_succ (x y : BitVec w) (i : Nat) :
    product x y (i + 1) = product x y i + if y.getLsbD i then x <<< i else 0#w := by
  have hbit : y.toNat.testBit i = y.getLsbD i := rfl
  rw [product, product, mod_two_pow_succ, BitVec.ofNat_add, BitVec.mul_add, hbit]
  congr 1
  cases y.getLsbD i
  · rw [Bool.toNat_false, Nat.mul_zero]
    exact BitVec.mul_zero
  · rw [Bool.toNat_true, Nat.mul_one, if_pos rfl, BitVec.shiftLeft_eq_mul_twoPow]
    refine congrArg (x * ·) (BitVec.eq_of_toNat_eq ?_)
    rw [BitVec.toNat_ofNat, BitVec.toNat_twoPow]

theorem product_width (x y : BitVec w) : product x y w = x * y := by
  rw [product, Nat.mod_eq_of_lt y.isLt, BitVec.ofNat_toNat, BitVec.setWidth_eq]

/-! ## Quotients -/

/-- The quotient and the remainder of the number that the upper digits make; by zero the quotient
has only ones. -/
structure Divided (w n d i q r : Nat) : Prop where
  eq : n / 2 ^ (w - i) = q * d + r
  lt : d ≠ 0 → r < d
  ones : d = 0 → q + 1 = 2 ^ i

theorem Divided.zero (hn : n < 2 ^ w) : Divided w n d 0 0 0 :=
  ⟨by rw [Nat.sub_zero, Nat.div_eq_of_lt hn, Nat.zero_mul], Nat.pos_of_ne_zero, fun _ ↦ rfl⟩

/-- The remainder with another digit. -/
def extended (w n i r : Nat) : Nat := 2 * r + (n.testBit (w - 1 - i)).toNat

theorem Divided.succ (h : Divided w n d i q r) (hi : i < w) :
    Divided w n d (i + 1) (2 * q + if d ≤ extended w n i r then 1 else 0)
      (if d ≤ extended w n i r then extended w n i r - d else extended w n i r) := by
  obtain ⟨heq, hlt, hones⟩ := h
  have hdigit : n / 2 ^ (w - (i + 1)) = 2 * (n / 2 ^ (w - i)) +
      (n.testBit (w - 1 - i)).toNat := by
    have hw : w - i = w - (i + 1) + 1 := by omega
    have hdiv := Nat.div_add_mod (n / 2 ^ (w - (i + 1))) 2
    rw [Nat.div_div_eq_div_mul, ← Nat.pow_succ, Nat.succ_eq_add_one, ← hw] at hdiv
    rw [Nat.toNat_testBit, show w - 1 - i = w - (i + 1) by omega]
    exact hdiv.symm
  have hext : n / 2 ^ (w - (i + 1)) = 2 * q * d + extended w n i r := by
    rw [hdigit, heq, extended, Nat.mul_add, Nat.mul_assoc, Nat.add_assoc]
  by_cases hle : d ≤ extended w n i r
  · rw [if_pos hle, if_pos hle]
    refine ⟨?_, fun hd ↦ ?_, fun hd ↦ ?_⟩
    · rw [hext, Nat.add_mul, Nat.one_mul, Nat.add_assoc, Nat.add_sub_cancel' hle]
    · have := hlt hd
      have hbit := Bool.toNat_le (n.testBit (w - 1 - i))
      unfold extended at hle ⊢
      omega
    · rw [Nat.pow_succ, ← hones hd]
      omega
  · rw [if_neg hle, if_neg hle]
    exact ⟨by rw [hext, Nat.add_zero], fun _ ↦ Nat.not_le.mp hle,
      fun hd ↦ absurd (hd ▸ Nat.zero_le _) hle⟩

theorem Divided.rem_lt (h : Divided w n d i q r) (hn : n < 2 ^ w) (hi : i ≤ w) : r < 2 ^ i := by
  refine (Nat.le_add_left r (q * d)).trans_lt ?_
  rw [← h.eq, Nat.div_lt_iff_lt_mul (Nat.two_pow_pos _), ← Nat.pow_add,
    Nat.add_sub_cancel' hi]
  exact hn

theorem Divided.quo_lt (h : Divided w n d i q r) (hn : n < 2 ^ w) (hi : i ≤ w) : q < 2 ^ i := by
  by_cases hd : d = 0
  · have := h.ones hd
    omega
  · have hle : q ≤ q * d := Nat.le_mul_of_pos_right q (Nat.pos_of_ne_zero hd)
    refine (hle.trans (Nat.le_add_right _ r)).trans_lt ?_
    rw [← h.eq, Nat.div_lt_iff_lt_mul (Nat.two_pow_pos _), ← Nat.pow_add, Nat.add_sub_cancel' hi]
    exact hn

/-- All digits. -/
theorem Divided.width (h : Divided w n d w q r) :
    q = (if d = 0 then 2 ^ w - 1 else n / d) ∧ r = n % d := by
  obtain ⟨heq, hlt, hones⟩ := h
  rw [Nat.sub_self, Nat.pow_zero, Nat.div_one] at heq
  by_cases hd : d = 0
  · have := hones hd
    subst hd
    rw [if_pos rfl, Nat.mod_zero, heq, Nat.mul_zero, Nat.zero_add]
    exact ⟨by omega, rfl⟩
  · have hr := hlt hd
    rw [if_neg hd, heq, Nat.add_comm, Nat.add_mul_div_right _ _ (Nat.pos_of_ne_zero hd),
      Nat.div_eq_of_lt hr, Nat.zero_add, Nat.add_mul_mod_self_right, Nat.mod_eq_of_lt hr]
    exact ⟨rfl, rfl⟩

/-! ## Shifts -/

/-- Shifts that add up: by the low digits of a number, and then by the next one. -/
theorem shift_succ {α : Type} {shift : Nat → α → α}
    (hadd : ∀ a b x, shift (a + b) x = shift b (shift a x)) (n i : Nat) (x : α) :
    shift (n % 2 ^ (i + 1)) x =
      if n.testBit i then shift (2 ^ i) (shift (n % 2 ^ i) x) else shift (n % 2 ^ i) x := by
  rw [mod_two_pow_succ]
  cases n.testBit i
  · rw [Bool.toNat_false, Nat.mul_zero, Nat.add_zero, if_neg Bool.false_ne_true]
  · rw [Bool.toNat_true, Nat.mul_one, if_pos rfl, hadd]

end CopySpace.Digits
