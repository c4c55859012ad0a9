import CopySpace.Lib.Bits

/-!
# A space as one number

The bits of a number are a bit string that is zero from some position on.  Writing a field and
copying an interval are then operations on numbers, which evaluate quickly: this is how an
execution on a concrete image is computed.
-/

namespace CopySpace.Bits

/-- The bits of a number. -/
def ofNat (N : Nat) : Bits := N.testBit

/-- Replace the `w` bits from `a` by those of `v`. -/
def splice (a w v N : Nat) : Nat :=
  if w = 0 then N else N % 2 ^ a ||| (v % 2 ^ w) <<< a ||| (N >>> (a + w)) <<< (a + w)

theorem testBit_splice (a w v N p : Nat) : (splice a w v N).testBit p =
    if a ≤ p ∧ p < a + w then v.testBit (p - a) else N.testBit p := by
  unfold splice
  by_cases hw : w = 0
  · rw [if_pos hw, if_neg (by omega)]
  · rw [if_neg hw]
    simp only [Nat.testBit_or, Nat.testBit_shiftLeft, Nat.testBit_mod_two_pow,
      Nat.testBit_shiftRight]
    rcases Nat.lt_or_ge p a with h | h
    · simp [h, Nat.not_le.mpr h, show ¬ a + w ≤ p by omega]
    · rcases Nat.lt_or_ge p (a + w) with h' | h'
      · simp [h, h', Nat.not_lt.mpr h, Nat.not_le.mpr h', show p - a < w by omega]
      · simp [h, h', Nat.not_lt.mpr h, Nat.not_lt.mpr h', show ¬ p - a < w by omega,
          show a + w + (p - (a + w)) = p by omega]

/-- Bits that are zero are set by an addition. -/
theorem splice_of_zero {a w v N : Nat} (hv : v < 2 ^ w) (hN : N / 2 ^ a % 2 ^ w = 0) :
    splice a w v N = N + 2 ^ a * v := by
  have hmid : N / 2 ^ a = 2 ^ w * (N / 2 ^ a / 2 ^ w) := by
    have := Nat.div_add_mod (N / 2 ^ a) (2 ^ w)
    omega
  have hlow := Nat.mod_lt N (Nat.two_pow_pos a)
  have hsum : N + 2 ^ a * v = 2 ^ a * (2 ^ w * (N / 2 ^ a / 2 ^ w) + v) + N % 2 ^ a := by
    have := Nat.div_add_mod N (2 ^ a)
    rw [← hmid, Nat.mul_add]
    omega
  apply Nat.eq_of_testBit_eq
  intro p
  rw [testBit_splice, hsum, Nat.testBit_two_pow_mul_add _ hlow]
  rcases Nat.lt_or_ge p a with h | h
  · rw [if_neg (by omega), if_pos h, Nat.testBit_mod_two_pow]
    simp [h]
  · rw [if_neg (Nat.not_lt.mpr h), Nat.testBit_two_pow_mul_add _ hv]
    rcases Nat.lt_or_ge p (a + w) with h' | h'
    · rw [if_pos ⟨h, h'⟩, if_pos (by omega)]
    · rw [if_neg (by omega), if_neg (by omega), Nat.div_div_eq_div_mul, ← Nat.pow_add,
        ← Nat.shiftRight_eq_div_pow, Nat.testBit_shiftRight]
      exact congrArg N.testBit (by omega)

/-- A number that ends with the field. -/
theorem splice_top {a w v low mid : Nat} (hlow : low < 2 ^ a) (hmid : mid < 2 ^ w)
    (hv : v < 2 ^ w) : splice a w v (low + 2 ^ a * mid) = low + 2 ^ a * v := by
  apply Nat.eq_of_testBit_eq
  intro p
  rw [testBit_splice, Nat.add_comm low, Nat.add_comm low, Nat.testBit_two_pow_mul_add _ hlow,
    Nat.testBit_two_pow_mul_add _ hlow]
  by_cases h : p < a
  · rw [if_neg (by omega), if_pos h, if_pos h]
  · rw [if_neg h, if_neg h]
    by_cases h' : p < a + w
    · rw [if_pos ⟨by omega, h'⟩]
    · rw [if_neg (by omega), Nat.testBit_lt_two_pow, Nat.testBit_lt_two_pow]
      · exact hv.trans_le (Nat.pow_le_pow_right (by decide) (by omega))
      · exact hmid.trans_le (Nat.pow_le_pow_right (by decide) (by omega))

theorem field_one (m : Bits) (a : Nat) : m.field a 1 = (m a).toNat := by
  apply Nat.eq_of_testBit_eq
  intro i
  rw [testBit_field]
  cases i with
  | zero => cases m a <;> simp
  | succ i =>
      rw [Nat.testBit_lt_two_pow]
      · simp
      · exact (Bool.toNat_lt (m a)).trans_le (by
          rw [Nat.pow_succ]
          have := Nat.two_pow_pos i
          omega)

theorem field_ofNat (N a w : Nat) : field (ofNat N) a w = (N >>> a) % 2 ^ w :=
  field_eq_mod fun i _ ↦ by rw [Nat.testBit_shiftRight]; rfl

theorem putField_ofNat (a w v N : Nat) : putField a w v (ofNat N) = ofNat (splice a w v N) := by
  funext p
  rw [putField, ofNat, ofNat, testBit_splice]

/-- Copy an interval of one number into another. -/
def blitNat (n dst src M N : Nat) : Nat := splice dst n (M >>> src) N

theorem testBit_blitNat (n dst src M N p : Nat) : (blitNat n dst src M N).testBit p =
    if dst ≤ p ∧ p < dst + n then M.testBit (src + (p - dst)) else N.testBit p := by
  rw [blitNat, testBit_splice, Nat.testBit_shiftRight]

theorem blit_ofNat (n dst src N : Nat) :
    blit n dst src (ofNat N) = ofNat (blitNat n dst src N N) := by
  funext p
  rw [blit, ofNat, ofNat, testBit_blitNat]

end CopySpace.Bits
