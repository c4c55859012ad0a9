import CopySpace.Lib.Halves

/-!
# `muldi3.c`: the low 64 bits of a product

The product of two double words is computed from the products of halves of the lower words.  The
sums below the upper word are exact, and the wrap-arounds in it are those of the product.
-/

namespace CopySpace.Gcc.Muldi3

open Halves

/-! ## The program -/

/-- `cs_target_u32` -/
abbrev TargetWord := BitVec 32

/-- `word.low` of `cs_target_double_word` -/
def low (a : BitVec 64) : TargetWord := a.setWidth 32

/-- `word.high` of `cs_target_double_word` -/
def high (a : BitVec 64) : TargetWord := (a >>> 32).setWidth 32

section

variable (left right : BitVec 64)

def a0 : TargetWord := low left &&& 65535

def a1 : TargetWord := low left >>> 16

def b0 : TargetWord := low right &&& 65535

def b1 : TargetWord := low right >>> 16

def lowProduct : TargetWord := a0 left * b0 right

/-- `middle` at its declaration. -/
def firstMiddle : TargetWord := a1 left * b0 right + (lowProduct left right >>> 16)

/-- `high` -/
def carry : TargetWord := firstMiddle left right >>> 16

/-- `middle` after its assignment. -/
def secondMiddle : TargetWord := (firstMiddle left right &&& 65535) + a0 left * b1 right

/-- `result.word.low` -/
def resultLow : TargetWord :=
  (secondMiddle left right <<< 16) ||| (lowProduct left right &&& 65535)

/-- What the lower words contribute to `result.word.high`. -/
def carried : TargetWord :=
  a1 left * b1 right + carry left right + (secondMiddle left right >>> 16)

/-- `result.word.high` -/
def resultHigh : TargetWord :=
  carried left right + low left * high right + high left * low right

/-- `__muldi3` -/
def muldi3 : BitVec 64 := resultHigh left right ++ resultLow left right

end

/-! ## Halves of words -/

section Words

variable (x y : TargetWord) (a : BitVec 64)

theorem toNat_and_65535 : (x &&& 65535).toNat = x.toNat % 2 ^ 16 := by
  rw [BitVec.toNat_and]
  exact Nat.and_two_pow_sub_one_eq_mod x.toNat 16

theorem toNat_ushiftRight_16 : (x >>> 16).toNat = x.toNat / 2 ^ 16 := by
  rw [BitVec.toNat_ushiftRight, Nat.shiftRight_eq_div_pow]

/-- The lower half of a word stands above that of another one. -/
theorem toNat_shiftLeft_or :
    ((x <<< 16) ||| (y &&& 65535)).toNat = x.toNat % 2 ^ 16 * 2 ^ 16 + y.toNat % 2 ^ 16 := by
  have hy : y.toNat % 2 ^ 16 < 2 ^ 16 := Nat.mod_lt _ (by decide)
  have hshift : (x <<< 16).toNat = (x.toNat % 2 ^ 16) <<< 16 := by
    rw [BitVec.toNat_shiftLeft, Nat.shiftLeft_eq, Nat.shiftLeft_eq]
    omega
  rw [BitVec.toNat_or, toNat_and_65535, hshift, ← Nat.shiftLeft_add_eq_or_of_lt hy,
    Nat.shiftLeft_eq]

theorem high_append_low : high a ++ low a = a := by
  apply BitVec.eq_of_toNat_eq
  have ha := a.isLt
  rw [toNat_append, high, low, BitVec.toNat_setWidth, BitVec.toNat_setWidth,
    BitVec.toNat_ushiftRight, Nat.shiftRight_eq_div_pow]
  omega

/-- Two halves have a product that leaves room for two more. -/
theorem mul_halves_le {m n : Nat} (hm : m < 2 ^ 16) (hn : n < 2 ^ 16) :
    m * n + 2 * (2 ^ 16 - 1) < 2 ^ 32 := by
  have : m * n ≤ (2 ^ 16 - 1) * (2 ^ 16 - 1) := Nat.mul_le_mul (by omega) (by omega)
  omega

/-- The lower word is kept when the upper one wraps around. -/
theorem mod_double {m n : Nat} (hn : n < 2 ^ 32) :
    (m * 2 ^ 32 + n) % 2 ^ 64 = m % 2 ^ 32 * 2 ^ 32 + n := by
  omega

end Words

/-! ## The sums are exact -/

/-- The sums that feed the upper word, in numbers. -/
structure ExactSums (left right : BitVec 64) : Prop where
  lowProduct : (lowProduct left right).toNat = (a0 left).toNat * (b0 right).toNat
  firstMiddle : (firstMiddle left right).toNat =
    (a1 left).toNat * (b0 right).toNat + (Muldi3.lowProduct left right).toNat / 2 ^ 16
  secondMiddle : (secondMiddle left right).toNat =
    (Muldi3.firstMiddle left right).toNat % 2 ^ 16 + (a0 left).toNat * (b1 right).toNat
  carried : (carried left right).toNat = (a1 left).toNat * (b1 right).toNat +
    (Muldi3.firstMiddle left right).toNat / 2 ^ 16 + (Muldi3.secondMiddle left right).toNat / 2 ^ 16

section Sums

variable (left right : BitVec 64)

theorem halves_lt : (a0 left).toNat < 2 ^ 16 ∧ (a1 left).toNat < 2 ^ 16 := by
  have hlow := (low left).isLt
  rw [a0, a1, toNat_and_65535, toNat_ushiftRight_16]
  omega

theorem halves_eq : (low left).toNat = (a1 left).toNat * 2 ^ 16 + (a0 left).toNat := by
  rw [a0, a1, toNat_and_65535, toNat_ushiftRight_16]
  omega

theorem exactSums : ExactSums left right := by
  obtain ⟨ha₀, ha₁⟩ := halves_lt left
  obtain ⟨hb₀, hb₁⟩ : (b0 right).toNat < 2 ^ 16 ∧ (b1 right).toNat < 2 ^ 16 := halves_lt right
  have h₀₀ := mul_halves_le ha₀ hb₀
  have h₁₀ := mul_halves_le ha₁ hb₀
  have h₀₁ := mul_halves_le ha₀ hb₁
  have h₁₁ := mul_halves_le ha₁ hb₁
  have hlow : (lowProduct left right).toNat = (a0 left).toNat * (b0 right).toNat := by
    rw [lowProduct, BitVec.toNat_mul, Nat.mod_eq_of_lt (by omega)]
  have hfirst : (firstMiddle left right).toNat =
      (a1 left).toNat * (b0 right).toNat + (lowProduct left right).toNat / 2 ^ 16 := by
    rw [firstMiddle, BitVec.toNat_add, BitVec.toNat_mul, toNat_ushiftRight_16]
    omega
  have hsecond : (secondMiddle left right).toNat =
      (firstMiddle left right).toNat % 2 ^ 16 + (a0 left).toNat * (b1 right).toNat := by
    rw [secondMiddle, BitVec.toNat_add, BitVec.toNat_mul, toNat_and_65535]
    omega
  refine ⟨hlow, hfirst, hsecond, ?_⟩
  have h₁ := (firstMiddle left right).isLt
  have h₂ := (secondMiddle left right).isLt
  rw [carried, carry, BitVec.toNat_add, BitVec.toNat_add, BitVec.toNat_mul, toNat_ushiftRight_16,
    toNat_ushiftRight_16]
  omega

/-- The words of the product of the lower words. -/
theorem carried_append_resultLow : (carried left right).toNat * 2 ^ 32 +
    (resultLow left right).toNat = (low left).toNat * (low right).toNat := by
  obtain ⟨hlow, hfirst, hsecond, hcarried⟩ := exactSums left right
  have hright : (low right).toNat = (b1 right).toNat * 2 ^ 16 + (b0 right).toNat := halves_eq right
  have hproduct : (low left).toNat * (low right).toNat =
      (a1 left).toNat * (b1 right).toNat * 2 ^ 32 + (a1 left).toNat * (b0 right).toNat * 2 ^ 16 +
        (a0 left).toNat * (b1 right).toNat * 2 ^ 16 + (a0 left).toNat * (b0 right).toNat := by
    rw [halves_eq left, hright]
    ring
  rw [resultLow, toNat_shiftLeft_or, hcarried]
  omega

end Sums

/-! ## The product -/

/-- **`__muldi3` multiplies modulo `2 ^ 64`**, and no sum for the upper word loses a carry. -/
theorem muldi3_eq_mul (left right : BitVec 64) :
    muldi3 left right = left * right ∧ ExactSums left right := by
  refine ⟨?_, exactSums left right⟩
  have hproduct := carried_append_resultLow left right
  apply BitVec.eq_of_toNat_eq
  have hleft : left.toNat = (high left).toNat * 2 ^ 32 + (low left).toNat := by
    rw [← toNat_append, high_append_low]
  have hright : right.toNat = (high right).toNat * 2 ^ 32 + (low right).toNat := by
    rw [← toNat_append, high_append_low]
  have hexpand : left.toNat * right.toNat = (low left).toNat * (low right).toNat +
      ((low left).toNat * (high right).toNat + (high left).toNat * (low right).toNat) * 2 ^ 32 +
        (high left).toNat * (high right).toNat * 2 ^ 64 := by
    rw [hleft, hright]
    ring
  rw [muldi3, toNat_append, BitVec.toNat_mul, hexpand, resultHigh, BitVec.toNat_add,
    BitVec.toNat_add, BitVec.toNat_mul, BitVec.toNat_mul]
  rw [Nat.add_mul_mod_self_right, Nat.mod_add_mod, Nat.add_mod_mod, Nat.add_right_comm,
    Nat.add_mod_mod, Nat.add_right_comm, ← hproduct]
  have hsum : (carried left right).toNat * 2 ^ 32 + (resultLow left right).toNat +
      ((low left).toNat * (high right).toNat + (high left).toNat * (low right).toNat) * 2 ^ 32 =
        ((carried left right).toNat + (low left).toNat * (high right).toNat +
          (high left).toNat * (low right).toNat) * 2 ^ 32 + (resultLow left right).toNat := by
    ring
  rw [hsum]
  exact (mod_double (resultLow left right).isLt).symm

end CopySpace.Gcc.Muldi3
