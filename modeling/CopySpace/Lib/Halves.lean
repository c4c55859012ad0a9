import Mathlib.Data.BitVec
import Mathlib.Tactic.Ring

/-!
# Words in two halves

What the arithmetic of a word of twice the width does, in terms of its two halves; and the two
algorithms that have only additions and shifts by one bit: multiplication, and division that takes a
bit of the dividend after the other.
-/

namespace CopySpace.Halves

variable {w n : Nat}

/-! ## The halves of a word -/

section Append

variable {hi lo hi' lo' : BitVec w}

theorem toNat_append (hi lo : BitVec w) : (hi ++ lo).toNat = hi.toNat * 2 ^ w + lo.toNat := by
  rw [BitVec.toNat_append, ← Nat.shiftLeft_add_eq_or_of_lt lo.isLt, Nat.shiftLeft_eq]

/-- Only the lower digits of the upper half count. -/
theorem ofNat_append (m : Nat) (lo : BitVec w) :
    BitVec.ofNat w m ++ lo = BitVec.ofNat (w + w) (m * 2 ^ w + lo.toNat) := by
  refine BitVec.eq_of_toNat_eq ?_
  rw [toNat_append, BitVec.toNat_ofNat, BitVec.toNat_ofNat, Nat.pow_add, Nat.mod_mul,
    Nat.add_comm (m * _), Nat.add_mul_mod_self_right, Nat.add_mul_div_right _ _ (Nat.two_pow_pos w),
    Nat.mod_eq_of_lt lo.isLt, Nat.div_eq_of_lt lo.isLt, Nat.zero_add]
  ring

/-- The sum carries from the lower half into the upper one. -/
theorem append_add : (hi + hi' + if lo + lo' < lo then 1 else 0) ++ (lo + lo') =
    (hi ++ lo) + (hi' ++ lo') := by
  have hlo := lo.isLt
  have hlo' := lo'.isLt
  have hhi : hi + hi' + (if lo + lo' < lo then 1 else 0) =
      BitVec.ofNat w (hi.toNat + hi'.toNat + if lo + lo' < lo then 1 else 0) := by
    split <;> rw [BitVec.ofNat_add, BitVec.ofNat_add, BitVec.ofNat_toNat, BitVec.ofNat_toNat,
      BitVec.setWidth_eq, BitVec.setWidth_eq] <;> rfl
  have hcarry : (if lo + lo' < lo then 1 else 0) * 2 ^ w + (lo + lo').toNat =
      lo.toNat + lo'.toNat := by
    simp only [BitVec.lt_def, BitVec.toNat_add]
    rcases Nat.lt_or_ge (lo.toNat + lo'.toNat) (2 ^ w) with h | h
    · rw [Nat.mod_eq_of_lt h, if_neg (by omega)]
      omega
    · rw [Nat.mod_eq_sub_mod h, Nat.mod_eq_of_lt (by omega), if_pos (by omega)]
      omega
  refine BitVec.eq_of_toNat_eq ?_
  rw [hhi, ofNat_append, BitVec.toNat_ofNat, Nat.add_mul, Nat.add_assoc, hcarry, BitVec.toNat_add,
    toNat_append, toNat_append]
  congr 1
  ring

theorem append_not : ~~~(hi ++ lo) = ~~~hi ++ ~~~lo := BitVec.not_append

theorem append_lt : hi ++ lo < hi' ++ lo' ↔ hi < hi' ∨ hi = hi' ∧ lo < lo' := by
  have hlo := lo.isLt
  have hlo' := lo'.isLt
  rw [BitVec.lt_def, BitVec.lt_def, BitVec.lt_def, toNat_append, toNat_append,
    ← BitVec.toNat_inj]
  rcases Nat.lt_trichotomy hi.toNat hi'.toNat with h | h | h
  · have := Nat.mul_le_mul_right (2 ^ w) h
    rw [Nat.succ_mul] at this
    omega
  · rw [h]
    omega
  · have := Nat.mul_le_mul_right (2 ^ w) h
    rw [Nat.succ_mul] at this
    omega

theorem append_inj : hi ++ lo = hi' ++ lo' ↔ lo = lo' ∧ hi = hi' := by
  refine ⟨fun h ↦ ?_, fun ⟨hlo, hhi⟩ ↦ hlo ▸ hhi ▸ rfl⟩
  have hlt : ¬ (hi ++ lo < hi' ++ lo') := h ▸ BitVec.lt_irrefl _
  have hgt : ¬ (hi' ++ lo' < hi ++ lo) := h ▸ BitVec.lt_irrefl _
  rw [append_lt, BitVec.lt_def, BitVec.lt_def] at hlt hgt
  rw [← BitVec.toNat_inj] at hlt hgt
  rw [← BitVec.toNat_inj, ← BitVec.toNat_inj]
  omega

theorem append_shiftLeft_one (hw : 0 < w) :
    (hi <<< 1 ||| lo >>> (w - 1)) ++ (lo <<< 1) = (hi ++ lo) <<< 1 := by
  ext i hi
  simp [BitVec.getElem_append]
  grind

theorem append_ushiftRight_one (hw : 0 < w) :
    (hi >>> 1) ++ (lo >>> 1 ||| hi <<< (w - 1)) = (hi ++ lo) >>> 1 := by
  ext i hi
  simp [BitVec.getElem_append]
  grind

theorem append_sshiftRight_one (hw : 0 < w) :
    (hi.sshiftRight 1) ++ (lo >>> 1 ||| hi <<< (w - 1)) = (hi ++ lo).sshiftRight 1 := by
  ext i hi
  simp [BitVec.getElem_append, BitVec.getElem_sshiftRight]
  grind

end Append

/-! ## Signs -/

/-- To change the first digit is to add one there. -/
theorem xor_intMin (a : BitVec n) : a ^^^ BitVec.intMin n = a + BitVec.intMin n := by
  have hclear {a : BitVec n} (h : a.msb = false) : a ^^^ BitVec.intMin n = a + BitVec.intMin n := by
    have hand : a &&& BitVec.intMin n = 0#n := by
      ext i hi
      rw [BitVec.msb_eq_getLsbD_last] at h
      rw [BitVec.getElem_and, ← BitVec.getLsbD_eq_getElem (x := BitVec.intMin n),
        BitVec.getLsbD_intMin]
      grind
    rw [BitVec.add_eq_or_of_and_eq_zero _ _ hand]
    ext i hi
    have := congrArg (·.getLsbD i) hand
    simp at this ⊢
    grind
  cases h : a.msb with
  | false => exact hclear h
  | true =>
    have hn : 0 < n := Nat.pos_of_ne_zero fun hzero ↦ by
      subst hzero
      cases h
    have hflipped : (a ^^^ BitVec.intMin n).msb = false := by
      rw [BitVec.msb_xor, h, BitVec.msb_intMin, decide_eq_true hn]
      rfl
    have hback := hclear hflipped
    rw [BitVec.xor_assoc, BitVec.xor_self, BitVec.xor_zero] at hback
    rw [eq_sub_of_add_eq hback.symm, sub_eq_add_neg, BitVec.neg_intMin]

/-- Words with signs are in the order of the words whose first digit is changed. -/
theorem xor_intMin_lt {a b : BitVec n} (hn : 0 < n) :
    a ^^^ BitVec.intMin n < b ^^^ BitVec.intMin n ↔ a.toInt < b.toInt := by
  have hrange : 2 ^ n = 2 * 2 ^ (n - 1) := by
    rw [← Nat.pow_succ', Nat.succ_eq_add_one, Nat.sub_add_cancel hn]
  have hflipped (a : BitVec n) : ((a ^^^ BitVec.intMin n).toNat : Int) = a.toInt + 2 ^ (n - 1) := by
    have ha := a.isLt
    rw [xor_intMin, BitVec.toNat_add, BitVec.toNat_intMin_of_pos hn, BitVec.toInt_eq_toNat_cond]
    have hcast : ((2 ^ (n - 1) : Nat) : Int) = 2 ^ (n - 1) := by norm_cast
    rw [← hcast]
    split
    · rw [Nat.mod_eq_of_lt (by omega)]
      rfl
    · rw [Nat.mod_eq_sub_mod (by omega), Nat.mod_eq_of_lt (by omega)]
      omega
  have ha := hflipped a
  have hb := hflipped b
  rw [BitVec.lt_def]
  omega

/-! ## Multiplication -/

/-- The last digit, and the others. -/
theorem add_two_mul_ushiftRight (b : BitVec n) :
    (if b.getLsbD 0 then 1#n else 0#n) + 2#n * b >>> 1 = b := by
  refine BitVec.eq_of_toNat_eq ?_
  have hdigit : (if b.getLsbD 0 then 1#n else 0#n).toNat = b.toNat % 2 % 2 ^ n := by
    rw [BitVec.getLsbD, Nat.testBit_zero]
    split <;> simp_all
  rw [BitVec.toNat_add, hdigit, BitVec.toNat_mul, BitVec.toNat_ofNat, BitVec.toNat_ushiftRight,
    Nat.shiftRight_one, Nat.add_mod, Nat.mod_mod, Nat.mod_mod, Nat.mod_mul_mod, ← Nat.add_mod,
    Nat.mod_add_div, Nat.mod_eq_of_lt b.isLt]

/-- A digit of the second factor is taken off, and the first one is doubled. -/
theorem add_mul_eq (r a b : BitVec n) :
    (if b.getLsbD 0 then r + a else r) + a <<< 1 * b >>> 1 = r + a * b := by
  have ha : a <<< 1 = 2#n * a := by
    refine BitVec.eq_of_toNat_eq ?_
    rw [BitVec.toNat_shiftLeft, BitVec.toNat_mul, BitVec.toNat_ofNat, Nat.mod_mul_mod,
      Nat.shiftLeft_eq, Nat.mul_comm, Nat.pow_one]
  have hone : 1#n = 1 := rfl
  have hzero : 0#n = 0 := rfl
  conv_rhs => rw [← add_two_mul_ushiftRight b]
  rw [ha, hone, hzero]
  split <;> ring

/-! ## Division -/

/-- The division of the upper digits of a word, from the `i`-th one on. -/
structure Divided (a d : BitVec n) (i : Nat) (q r : BitVec n) : Prop where
  quotient : q.toNat = a.toNat / 2 ^ i / d.toNat * 2 ^ i
  remainder : r.toNat = a.toNat / 2 ^ i % d.toNat

section Divided

variable {a d q r : BitVec n} {i : Nat}

/-- No digit has been taken. -/
theorem Divided.initial (a d : BitVec n) : Divided a d n 0 0 := by
  have h : a.toNat / 2 ^ n = 0 := Nat.div_eq_of_lt a.isLt
  constructor <;> simp [h]

/-- All digits have been taken. -/
theorem Divided.final (h : Divided a d 0 q r) : q = a / d ∧ r = a % d := by
  obtain ⟨hq, hr⟩ := h
  rw [Nat.pow_zero, Nat.div_one] at hq hr
  rw [Nat.mul_one] at hq
  exact ⟨BitVec.eq_of_toNat_eq hq, BitVec.eq_of_toNat_eq hr⟩

/-- The remainder with the next digit. -/
def shifted (a : BitVec n) (i : Nat) (r : BitVec n) : BitVec n := r <<< 1 ||| (a >>> i &&& 1#n)

theorem toNat_shifted (a : BitVec n) (i : Nat) (r : BitVec n) (hi : i < n) :
    (shifted a i r).toNat = (2 * r.toNat + a.toNat / 2 ^ i % 2) % 2 ^ n := by
  have hbit : (a >>> i &&& 1#n).toNat = a.toNat / 2 ^ i % 2 := by
    rw [BitVec.toNat_and, BitVec.toNat_ushiftRight, BitVec.toNat_ofNat,
      Nat.mod_eq_of_lt (Nat.one_lt_two_pow (by omega)), Nat.and_one_is_mod,
      Nat.shiftRight_eq_div_pow]
  rw [shifted, ← BitVec.add_eq_or_of_and_eq_zero, BitVec.toNat_add, hbit, BitVec.toNat_shiftLeft,
    Nat.shiftLeft_eq, Nat.pow_one, Nat.mod_add_mod, Nat.mul_comm]
  ext j hj
  simp
  omega

/-- A digit is taken.  The remainder may have lost its first one, but then it is not less than the
divisor. -/
theorem Divided.step (h : Divided a d (i + 1) q r) (hd : d ≠ 0) (hi : i < n) :
    if r.msb ∨ ¬ shifted a i r < d then Divided a d i (q ||| 1#n <<< i) (shifted a i r - d)
    else Divided a d i q (shifted a i r) := by
  obtain ⟨hq, hr⟩ := h
  have hpos : 0 < d.toNat := by
    rw [Nat.pos_iff_ne_zero]
    exact fun hzero ↦ hd (BitVec.eq_of_toNat_eq hzero)
  have hdlt := d.isLt
  have hrange : 2 ^ n = 2 * 2 ^ (n - 1) := by
    rw [← Nat.pow_succ', Nat.succ_eq_add_one, Nat.sub_add_cancel (by omega)]
  have hshifted := toNat_shifted a i r hi
  have hbit := Nat.mod_lt (a.toNat / 2 ^ i) Nat.two_pos
  generalize hx : a.toNat / 2 ^ i % 2 = x at hshifted hbit
  -- the digits from the `i`-th one on
  have hdigits : a.toNat / 2 ^ i = 2 * (a.toNat / 2 ^ (i + 1)) + x := by
    rw [← hx, Nat.pow_succ, ← Nat.div_div_eq_div_mul, Nat.div_add_mod]
  have hlt := Nat.mod_lt (a.toNat / 2 ^ (i + 1)) hpos
  have hdiv := Nat.div_add_mod (a.toNat / 2 ^ (i + 1)) d.toNat
  rw [← hr] at hlt hdiv
  generalize a.toNat / 2 ^ (i + 1) / d.toNat = y at hq hdiv
  have hnext : a.toNat / 2 ^ i = d.toNat * (2 * y) + (2 * r.toNat + x) := by
    rw [hdigits, ← hdiv]
    ring
  have hcarry : (r.msb ∨ ¬ shifted a i r < d) ↔ d.toNat ≤ 2 * r.toNat + x := by
    rw [BitVec.msb_eq_decide, decide_eq_true_iff, BitVec.lt_def, hshifted]
    rcases Nat.lt_or_ge (2 * r.toNat + x) (2 ^ n) with hfits | hfits
    · rw [Nat.mod_eq_of_lt hfits]
      omega
    · omega
  split
  case isTrue hle =>
    rw [hcarry] at hle
    obtain ⟨z, hz⟩ := Nat.exists_eq_add_of_le hle
    rw [hz, ← Nat.add_assoc, ← Nat.mul_succ] at hnext
    have hzlt : z < d.toNat := by omega
    constructor
    · have hone : (1#n <<< i).toNat = 2 ^ i := by
        rw [BitVec.toNat_shiftLeft, BitVec.toNat_ofNat,
          Nat.mod_eq_of_lt (Nat.one_lt_two_pow (by omega)), Nat.one_shiftLeft,
          Nat.mod_eq_of_lt (Nat.pow_lt_pow_right Nat.one_lt_two hi)]
      rw [BitVec.toNat_or, hone, hq, hnext, Nat.mul_add_div hpos, Nat.div_eq_of_lt hzlt,
        ← Nat.shiftLeft_eq, ← Nat.shiftLeft_add_eq_or_of_lt (Nat.pow_lt_pow_succ Nat.one_lt_two),
        Nat.shiftLeft_eq, Nat.pow_succ, Nat.succ_eq_add_one]
      ring
    · rw [BitVec.toNat_sub, hshifted, hnext, Nat.mul_add_mod, Nat.mod_eq_of_lt hzlt,
        Nat.add_mod_mod, hz, ← Nat.add_assoc, Nat.sub_add_cancel hdlt.le, Nat.add_mod_left,
        Nat.mod_eq_of_lt (hzlt.trans hdlt)]
  case isFalse hle =>
    rw [hcarry, Nat.not_le] at hle
    constructor
    · rw [hq, hnext, Nat.mul_add_div hpos, Nat.div_eq_of_lt hle, Nat.pow_succ]
      ring
    · rw [hshifted, hnext, Nat.mul_add_mod, Nat.mod_eq_of_lt hle,
        Nat.mod_eq_of_lt (hle.trans hdlt)]

end Divided

end CopySpace.Halves
