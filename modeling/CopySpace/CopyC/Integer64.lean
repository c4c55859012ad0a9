import CopySpace.Lib.Halves
import CopySpace.Lib.Integers

/-!
# `integer64_fold.h`

The compiler computes with words of 64 bits in two cells of 32 bits.  A shift by the width of a cell
or more has no meaning there, so that every shift checks its distance.
-/

namespace CopySpace.Integer64

/-- A cell. -/
abbrev Cell := BitVec 32

/-- `cc_u64` -/
@[ext]
structure U64 where
  lo : Cell
  hi : Cell
  deriving DecidableEq

/-- `a << n` -/
def shl (a : Cell) (n : Nat) : Option Cell := if n < 32 then some (a <<< n) else none

/-- `a >> n` -/
def shr (a : Cell) (n : Nat) : Option Cell := if n < 32 then some (a >>> n) else none

/-- A comparison as a number. -/
def flag (p : Prop) [Decidable p] : Cell := if p then 1 else 0

theorem flag_ne_zero {p : Prop} [Decidable p] : flag p ≠ 0 ↔ p := by
  unfold flag
  split <;> simp_all

theorem flag_inj {p p' : Prop} [Decidable p] [Decidable p'] : flag p = flag p' ↔ (p ↔ p') := by
  unfold flag
  split <;> split <;> simp_all

/-- `cc_u64_add` -/
def ccU64Add (a b : U64) : U64 :=
  let lo := a.lo + b.lo
  ⟨lo, a.hi + b.hi + flag (lo < a.lo)⟩

/-- `cc_u64_neg` -/
def ccU64Neg (a : U64) : U64 := ccU64Add ⟨~~~a.lo, ~~~a.hi⟩ ⟨1, 0⟩

/-- `cc_u64_sub` -/
def ccU64Sub (a b : U64) : U64 := ccU64Add a (ccU64Neg b)

/-- `cc_u64_less` -/
def ccU64Less (a b : U64) : Bool := a.hi < b.hi || (a.hi = b.hi && a.lo < b.lo)

/-- `cc_u64_left` -/
def ccU64Left (a : U64) : Option U64 := do
  return ⟨← shl a.lo 1, (← shl a.hi 1) ||| (← shr a.lo 31)⟩

/-- `cc_u64_right` -/
def ccU64Right (a : U64) (sign : Bool) : Option U64 := do
  let hi ← shr a.hi 1
  return ⟨(← shr a.lo 1) ||| (← shl a.hi 31), if sign then hi ||| (a.hi &&& 0x80000000#32) else hi⟩

/-- The loop of the shifts by `b.lo`. -/
def shiftLoop (op : Nat) : Nat → U64 → Option U64
  | 0, r => some r
  | k + 1, r => do
      let r ← if op = 9 then ccU64Left r else ccU64Right r (op = 11)
      shiftLoop op k r

/-- The loop of the multiplication. -/
def multiplyLoop : Nat → U64 → U64 → U64 → Option U64
  | 0, r, _, _ => some r
  | k + 1, r, a, b => do
      let r := if b.lo &&& 1 ≠ 0 then ccU64Add r a else r
      multiplyLoop k r (← ccU64Left a) (← ccU64Right b false)

/-- `i < 32 ? a.lo >> i : a.hi >> (i-32)` -/
def digitAt (a : U64) (i : Nat) : Option Cell := if i < 32 then shr a.lo i else shr a.hi (i - 32)

/-- The quotient gets the digit with the number `i`. -/
def setDigit (q : U64) (i : Nat) : Option U64 :=
  if i < 32 then (shl 1 i).map fun digit ↦ { q with lo := q.lo ||| digit }
  else (shl 1 (i - 32)).map fun digit ↦ { q with hi := q.hi ||| digit }

/-- The quotient and the remainder after the digit with the number `i`. -/
def divideStep (a b : U64) (i : Nat) (q r : U64) : Option (U64 × U64) := do
  let carry ← shr r.hi 31
  let r ← ccU64Left r
  let digit ← digitAt a i
  let r := { r with lo := r.lo ||| (digit &&& 1) }
  if carry ≠ 0 ∨ ¬ ccU64Less r b then return (← setDigit q i, ccU64Sub r b)
  else return (q, r)

/-- The loop of the division over the last `i` digits. -/
def divideLoop (a b : U64) : Nat → U64 → U64 → Option (U64 × U64)
  | 0, q, r => some (q, r)
  | i + 1, q, r => do
      let (q, r) ← divideStep a b i q r
      divideLoop a b i q r

/-- `sign_a` or `sign_b` -/
def signOf (signed : Bool) (a : U64) : Option Cell := if signed then shr a.hi 31 else some 0

/-- The divisions in `cc_integer64_fold`; `none` inside is its return of 0. -/
def divide (op : Nat) (a b : U64) : Option (Option U64) :=
  let signed := op = 13 ∨ op = 15
  if b.lo ||| b.hi = 0 then some none
  else if signed ∧ (a.hi = 0x80000000#32 ∧ a.lo = 0) ∧ b.hi = 0xffffffff#32 ∧ b.lo = 0xffffffff#32
    then some none
  else do
    let signA ← signOf signed a
    let signB ← signOf signed b
    let a := if signA ≠ 0 then ccU64Neg a else a
    let b := if signB ≠ 0 then ccU64Neg b else b
    let (q, r) ← divideLoop a b 64 ⟨0, 0⟩ ⟨0, 0⟩
    return some (
      if op = 13 ∨ op = 14 then if signA ≠ signB then ccU64Neg q else q
      else if signA ≠ 0 then ccU64Neg r else r)

/-- The `switch` of `cc_integer64_fold`. -/
def folded (op : Nat) (a b : U64) : Option (Option U64) :=
  match op with
  | 0 => some (some (ccU64Add a b))
  | 1 => some (some (ccU64Sub a b))
  | 2 => some (some ⟨flag (a.lo = b.lo ∧ a.hi = b.hi), 0⟩)
  | 3 => some (some ⟨flag (ccU64Less { a with hi := a.hi ^^^ 0x80000000#32 }
      { b with hi := b.hi ^^^ 0x80000000#32 }), 0⟩)
  | 4 => some (some ⟨flag (ccU64Less a b), 0⟩)
  | 5 => some (some ⟨a.lo &&& b.lo, a.hi &&& b.hi⟩)
  | 6 => some (some ⟨a.lo ||| b.lo, a.hi ||| b.hi⟩)
  | 7 => some (some ⟨a.lo ^^^ b.lo, a.hi ^^^ b.hi⟩)
  | 8 => some (some ⟨~~~a.lo, ~~~a.hi⟩)
  | 9 | 10 | 11 =>
      if b.hi ≠ 0 ∨ b.lo ≥ 64#32 then some none else (shiftLoop op b.lo.toNat a).map some
  | 12 => (multiplyLoop 64 ⟨0, 0⟩ a b).map some
  | 13 | 14 | 15 | 16 => divide op a b
  | 17 => some (some ⟨flag (a.lo ||| a.hi ≠ 0), 0⟩)
  | _ => some none

/-- `cc_integer64_fold`: its value and what is in `out`, if every shift has a meaning. -/
def ccInteger64Fold (op : Nat) (input : Vector Cell 4) (out : Vector Cell 2) :
    Option (Bool × Vector Cell 2) :=
  (folded op ⟨input[0], input[1]⟩ ⟨input[2], input[3]⟩).map fun
    | some r => (true, #v[r.lo, r.hi])
    | none => (false, out)

/-! ## Words of 64 bits -/

/-- The word that two cells hold. -/
def U64.value (a : U64) : BitVec 64 := a.hi ++ a.lo

/-- The cells that hold a word. -/
def U64.ofValue (x : BitVec 64) : U64 := ⟨x.setWidth 32, (x >>> 32).setWidth 32⟩

@[simp] theorem U64.value_ofValue (x : BitVec 64) : (ofValue x).value = x := by
  refine BitVec.eq_of_toNat_eq ?_
  rw [value, Halves.toNat_append, ofValue, BitVec.toNat_setWidth, BitVec.toNat_setWidth,
    BitVec.toNat_ushiftRight, Nat.shiftRight_eq_div_pow]
  omega

theorem U64.value_inj {a b : U64} : a.value = b.value ↔ a = b := by
  obtain ⟨lo, hi⟩ := a
  obtain ⟨lo', hi'⟩ := b
  rw [value, value, Halves.append_inj, U64.mk.injEq]

@[simp] theorem U64.ofValue_value (a : U64) : ofValue a.value = a :=
  value_inj.mp (value_ofValue _)

theorem U64.eq_ofValue {a : U64} {x : BitVec 64} (h : a.value = x) : a = ofValue x := by
  rw [← h, ofValue_value]

section Operations

variable (a b : U64) (x y : BitVec 64)

theorem value_ccU64Add : (ccU64Add a b).value = a.value + b.value := Halves.append_add

theorem value_ccU64Neg : (ccU64Neg a).value = -a.value := by
  rw [ccU64Neg, value_ccU64Add, BitVec.neg_eq_not_add]
  congr 1
  exact Halves.append_not.symm

theorem value_ccU64Sub : (ccU64Sub a b).value = a.value - b.value := by
  rw [ccU64Sub, value_ccU64Add, value_ccU64Neg, BitVec.sub_eq_add_neg]

theorem ccU64Add_ofValue : ccU64Add (.ofValue x) (.ofValue y) = .ofValue (x + y) :=
  U64.eq_ofValue (by rw [value_ccU64Add, U64.value_ofValue, U64.value_ofValue])

theorem ccU64Neg_ofValue : ccU64Neg (.ofValue x) = .ofValue (-x) :=
  U64.eq_ofValue (by rw [value_ccU64Neg, U64.value_ofValue])

theorem ccU64Sub_ofValue : ccU64Sub (.ofValue x) (.ofValue y) = .ofValue (x - y) :=
  U64.eq_ofValue (by rw [value_ccU64Sub, U64.value_ofValue, U64.value_ofValue])

theorem ccU64Less_iff : ccU64Less a b ↔ a.value < b.value := by
  rw [U64.value, U64.value, Halves.append_lt]
  simp [ccU64Less]

theorem ccU64Left_eq : ccU64Left a = some (.ofValue (a.value <<< 1)) := by
  refine congrArg some (U64.eq_ofValue ?_)
  exact Halves.append_shiftLeft_one (by decide)

theorem ccU64Right_false : ccU64Right a false = some (.ofValue (a.value >>> 1)) := by
  refine congrArg some (U64.eq_ofValue ?_)
  exact Halves.append_ushiftRight_one (by decide)

theorem ccU64Right_true : ccU64Right a true = some (.ofValue (a.value.sshiftRight 1)) := by
  have hsign : a.hi >>> 1 ||| (a.hi &&& 0x80000000#32) = a.hi.sshiftRight 1 := by
    have hmask : 0x80000000#32 = BitVec.twoPow 32 31 := rfl
    ext i hi
    rw [hmask, BitVec.getElem_or, BitVec.getElem_and, BitVec.getElem_twoPow,
      BitVec.getElem_sshiftRight, BitVec.getElem_ushiftRight]
    grind
  have hw : 0 < 32 := by decide
  refine congrArg some (U64.eq_ofValue ?_)
  refine Eq.trans ?_ (Halves.append_sshiftRight_one hw)
  exact congrArg (· ++ _) hsign

end Operations

/-! ## The loops -/

section Loops

variable (a b d q r : BitVec 64)

theorem shiftLoop_left (k : Nat) : shiftLoop 9 k (.ofValue r) = some (.ofValue (r <<< k)) := by
  induction k generalizing r with
  | zero => rw [BitVec.shiftLeft_zero]; rfl
  | succ k ih =>
    rw [shiftLoop, if_pos rfl, ccU64Left_eq, U64.value_ofValue]
    exact (ih _).trans (by rw [← BitVec.shiftLeft_add, Nat.add_comm])

theorem shiftLoop_logical (k : Nat) : shiftLoop 10 k (.ofValue r) = some (.ofValue (r >>> k)) := by
  induction k generalizing r with
  | zero => rw [BitVec.ushiftRight_zero]; rfl
  | succ k ih =>
    rw [shiftLoop, if_neg (by decide), decide_eq_false (by decide), ccU64Right_false,
      U64.value_ofValue]
    exact (ih _).trans (by rw [← BitVec.shiftRight_add, Nat.add_comm])

theorem shiftLoop_arithmetic (k : Nat) :
    shiftLoop 11 k (.ofValue r) = some (.ofValue (r.sshiftRight k)) := by
  induction k generalizing r with
  | zero => rw [BitVec.sshiftRight_zero]; rfl
  | succ k ih =>
    rw [shiftLoop, if_neg (by decide), decide_eq_true rfl, ccU64Right_true, U64.value_ofValue]
    exact (ih _).trans (by rw [← BitVec.sshiftRight_add, Nat.add_comm])

theorem lo_and_one_ne_zero : (U64.ofValue b).lo &&& 1 ≠ 0 ↔ b.getLsbD 0 := by
  have hdigit : ((U64.ofValue b).lo &&& 1).toNat = b.toNat % 2 := by
    refine (BitVec.toNat_and _ _).trans ((Nat.and_one_is_mod _).trans ?_)
    rw [U64.ofValue, BitVec.toNat_setWidth]
    omega
  rw [BitVec.getLsbD, Nat.testBit_zero, decide_eq_true_iff, Ne, ← BitVec.toNat_inj, hdigit]
  exact Nat.mod_two_not_eq_zero

theorem or_lo (c : Cell) : { U64.ofValue r with lo := (U64.ofValue r).lo ||| c } =
    U64.ofValue (r ||| c.setWidth 64) := by
  rw [U64.ofValue, U64.ofValue, U64.mk.injEq]
  constructor
  · ext i hi
    simp
  · ext i hi
    simp

theorem or_hi (c : Cell) : { U64.ofValue r with hi := (U64.ofValue r).hi ||| c } =
    U64.ofValue (r ||| c.setWidth 64 <<< 32) := by
  rw [U64.ofValue, U64.ofValue, U64.mk.injEq]
  constructor
  · ext i hi
    simp
  · ext i hi
    simp
    grind

/-- The digits of the second factor that are left are all added. -/
theorem multiplyLoop_eq {k : Nat} (hb : b.toNat < 2 ^ k) :
    multiplyLoop k (.ofValue r) (.ofValue a) (.ofValue b) = some (.ofValue (r + a * b)) := by
  induction k generalizing r a b with
  | zero =>
    obtain rfl : b = 0 := BitVec.eq_of_toNat_eq (Nat.lt_one_iff.mp hb)
    rw [mul_zero, add_zero]
    rfl
  | succ k ih =>
    rw [multiplyLoop, if_congr (lo_and_one_ne_zero b) rfl rfl, ccU64Add_ofValue, ← apply_ite U64.ofValue, ccU64Left_eq, ccU64Right_false, U64.value_ofValue, U64.value_ofValue]
    refine (ih _ _ _ ?_).trans (by rw [Halves.add_mul_eq])
    rw [BitVec.toNat_ushiftRight, Nat.shiftRight_one]
    omega

/-- The first digit of a word. -/
theorem shr_hi : shr (U64.ofValue r).hi 31 = some (flag r.msb) := by
  refine congrArg some (BitVec.eq_of_toNat_eq ?_)
  have hdigit : ((U64.ofValue r).hi >>> 31).toNat = r.toNat / 2 ^ 63 := by
    rw [BitVec.toNat_ushiftRight, U64.ofValue, BitVec.toNat_setWidth, BitVec.toNat_ushiftRight,
      Nat.shiftRight_eq_div_pow, Nat.shiftRight_eq_div_pow]
    omega
  have hmsb : r.msb ↔ 2 ^ 63 ≤ r.toNat := by
    rw [BitVec.msb_eq_decide, decide_eq_true_iff]
  rw [hdigit, flag]
  split
  case isTrue h =>
    rw [hmsb] at h
    change _ = 1
    omega
  case isFalse h =>
    rw [hmsb] at h
    change _ = 0
    omega

/-- The digit that is taken next, wherever it is. -/
theorem digitAt_eq {i : Nat} (hi : i < 64) : ∃ digit, digitAt (.ofValue a) i = some digit ∧
    (digit &&& 1).setWidth 64 = a >>> i &&& 1#64 := by
  have hone : (1 : Cell) = 1#32 := rfl
  unfold digitAt
  split
  case isTrue hlow =>
    refine ⟨_, if_pos hlow, ?_⟩
    ext j hj
    simp [U64.ofValue, hone]
    grind
  case isFalse hhigh =>
    refine ⟨_, if_pos (by omega), ?_⟩
    ext j hj
    simp [U64.ofValue, hone]
    grind

theorem setDigit_eq {i : Nat} (hi : i < 64) :
    setDigit (.ofValue q) i = some (.ofValue (q ||| 1#64 <<< i)) := by
  have hone : (1 : Cell) = 1#32 := rfl
  unfold setDigit
  split
  case isTrue hlow =>
    have hdigit : (1#32 <<< i).setWidth 64 = 1#64 <<< i := by
      ext j hj
      simp
      grind
    rw [shl, if_pos hlow, Option.map_some, or_lo, hone, hdigit]
  case isFalse hhigh =>
    have hdigit : (1#32 <<< (i - 32)).setWidth 64 <<< 32 = 1#64 <<< i := by
      ext j hj
      simp
      grind
    rw [shl, if_pos (by omega), Option.map_some, or_hi, hone, hdigit]

/-- A step of the division, as `Halves.Divided.step` has it. -/
theorem divideStep_eq {i : Nat} (hi : i < 64) :
    divideStep (.ofValue a) (.ofValue d) i (.ofValue q) (.ofValue r) =
      some (if r.msb ∨ ¬ Halves.shifted a i r < d then
        (.ofValue (q ||| 1#64 <<< i), .ofValue (Halves.shifted a i r - d))
      else (.ofValue q, .ofValue (Halves.shifted a i r))) := by
  obtain ⟨digit, hdigit, hbit⟩ := digitAt_eq a hi
  have hshifted : { U64.ofValue (r <<< 1) with
      lo := (U64.ofValue (r <<< 1)).lo ||| (digit &&& 1) } = U64.ofValue (Halves.shifted a i r) := by
    rw [or_lo, hbit]
    rfl
  have hif : (flag r.msb ≠ 0 ∨ ¬ ccU64Less (.ofValue (Halves.shifted a i r)) (.ofValue d)) ↔
      r.msb ∨ ¬ Halves.shifted a i r < d := by
    rw [flag_ne_zero, ccU64Less_iff, U64.value_ofValue, U64.value_ofValue]
  unfold divideStep
  rw [shr_hi, ccU64Left_eq, hdigit, U64.value_ofValue]
  simp only [Option.bind_eq_bind, Option.bind_some, hshifted, hif, setDigit_eq q hi,
    ccU64Sub_ofValue]
  split <;> rfl

/-- The digits that are left are taken. -/
theorem divideLoop_eq {i : Nat} (hi : i ≤ 64) (hd : d ≠ 0) (h : Halves.Divided a d i q r) :
    divideLoop (.ofValue a) (.ofValue d) i (.ofValue q) (.ofValue r) =
      some (.ofValue (a / d), .ofValue (a % d)) := by
  induction i generalizing q r with
  | zero =>
    obtain ⟨rfl, rfl⟩ := h.final
    rfl
  | succ i ih =>
    have hstep := h.step hd hi
    rw [divideLoop, divideStep_eq a d q r hi]
    split_ifs at hstep ⊢
    · exact ih _ _ (by omega) hstep
    · exact ih _ _ (by omega) hstep

end Loops

/-! ## The operations -/

/-- The operations that have no value. -/
def Refused (op : Nat) (a b : BitVec 64) : Prop :=
  (op ∈ [9, 10, 11] ∧ 64 ≤ b.toNat) ∨ (op ∈ [13, 14, 15, 16] ∧ b = 0) ∨
    (op ∈ [13, 15] ∧ a.toInt = -2 ^ 63 ∧ b.toInt = -1) ∨ 17 < op

instance (op : Nat) (a b : BitVec 64) : Decidable (Refused op a b) :=
  inferInstanceAs (Decidable (_ ∨ _))

/-- The values of the others. -/
def result (op : Nat) (a b : BitVec 64) : BitVec 64 :=
  match op with
  | 0 => a + b
  | 1 => a - b
  | 2 => if a = b then 1 else 0
  | 3 => if a.toInt < b.toInt then 1 else 0
  | 4 => if a.toNat < b.toNat then 1 else 0
  | 5 => a &&& b
  | 6 => a ||| b
  | 7 => a ^^^ b
  | 8 => ~~~a
  | 9 => a <<< b.toNat
  | 10 => a >>> b.toNat
  | 11 => a.sshiftRight b.toNat
  | 12 => a * b
  | 13 => BitVec.ofInt 64 (a.toInt.tdiv b.toInt)
  | 14 => BitVec.ofNat 64 (a.toNat / b.toNat)
  | 15 => BitVec.ofInt 64 (a.toInt.tmod b.toInt)
  | 16 => BitVec.ofNat 64 (a.toNat % b.toNat)
  | _ => if a ≠ 0 then 1 else 0

/-- What the operation yields. -/
def meaning (op : Nat) (a b : BitVec 64) : Option (BitVec 64) :=
  if Refused op a b then none else some (result op a b)

section Folded

variable (op : Nat) (a b : BitVec 64)

theorem flag_eq (p : Prop) [Decidable p] : (⟨flag p, 0⟩ : U64) = .ofValue (if p then 1 else 0) := by
  unfold flag
  split <;> rfl

/-- The cells of a word. -/
theorem ofValue_eq_iff {hi lo : Cell} :
    ((U64.ofValue a).hi = hi ∧ (U64.ofValue a).lo = lo) ↔ a = hi ++ lo := by
  have hvalue : a = hi ++ lo ↔ U64.ofValue a = ⟨lo, hi⟩ := by
    rw [← U64.value_inj, U64.value_ofValue]
    rfl
  rw [hvalue, U64.mk.injEq]
  exact and_comm

theorem lo_or_hi_eq_zero : (U64.ofValue b).lo ||| (U64.ofValue b).hi = 0 ↔ b = 0 := by
  rw [show (0 : BitVec 64) = (0 : Cell) ++ (0 : Cell) from rfl, ← ofValue_eq_iff, and_comm]
  exact BitVec.or_eq_zero_iff

/-- The quotient that has no word. -/
theorem overflow_iff : (((U64.ofValue a).hi = 0x80000000#32 ∧ (U64.ofValue a).lo = 0) ∧
      (U64.ofValue b).hi = 0xffffffff#32 ∧ (U64.ofValue b).lo = 0xffffffff#32) ↔
    a.toInt = -2 ^ 63 ∧ b.toInt = -1 := by
  have hleast : (0x80000000#32 ++ (0 : Cell) : BitVec 64).toInt = -2 ^ 63 := by decide
  have hminus : (0xffffffff#32 ++ 0xffffffff#32 : BitVec 64).toInt = -1 := by decide
  rw [ofValue_eq_iff, ofValue_eq_iff, ← hleast, ← hminus, BitVec.toInt_inj, BitVec.toInt_inj]

/-- The factors of a division without their signs. -/
def magnitude (signed : Bool) (a : BitVec 64) : BitVec 64 := if signed && a.msb then -a else a

theorem signOf_eq (signed : Bool) :
    signOf signed (.ofValue a) = some (flag (signed && a.msb)) := by
  cases signed with
  | false => rfl
  | true => exact shr_hi a

theorem magnitude_ne_zero {signed : Bool} (hb : b ≠ 0) : magnitude signed b ≠ 0 := by
  unfold magnitude
  split
  · exact neg_ne_zero.mpr hb
  · exact hb

/-- The division of the magnitudes, where there is one. -/
theorem divide_eq_some (hb : b ≠ 0)
    (hoverflow : ¬ ((op = 13 ∨ op = 15) ∧ a.toInt = -2 ^ 63 ∧ b.toInt = -1)) :
    divide op (.ofValue a) (.ofValue b) = some (some (.ofValue (
      let signed := decide (op = 13 ∨ op = 15)
      if op = 13 ∨ op = 14 then
        if (signed && a.msb) = (signed && b.msb) then magnitude signed a / magnitude signed b
        else -(magnitude signed a / magnitude signed b)
      else if signed && a.msb then -(magnitude signed a % magnitude signed b)
      else magnitude signed a % magnitude signed b))) := by
  have hmagnitude (signed : Bool) (a : BitVec 64) :
      (if signed && a.msb then ccU64Neg (.ofValue a) else .ofValue a) =
        .ofValue (magnitude signed a) := by
    rw [ccU64Neg_ofValue, ← apply_ite U64.ofValue]
    rfl
  have hloop := divideLoop_eq (magnitude (decide (op = 13 ∨ op = 15)) a) _ 0 0 le_rfl
    (magnitude_ne_zero b hb) (.initial _ (magnitude (decide (op = 13 ∨ op = 15)) b))
  have hzero : (⟨0, 0⟩ : U64) = .ofValue 0 := rfl
  unfold divide
  rw [if_neg ((lo_or_hi_eq_zero b).not.mpr hb),
    if_neg ((and_congr_right' (overflow_iff a b)).not.mpr hoverflow), signOf_eq, signOf_eq]
  simp only [Option.bind_eq_bind, Option.bind_some, flag_ne_zero, hmagnitude, hzero, hloop]
  simp only [ne_eq, flag_inj, Bool.coe_iff_coe, ite_not, ccU64Neg_ofValue, ← apply_ite U64.ofValue]
  rfl

theorem quotient_eq : (if a.msb = b.msb then magnitude true a / magnitude true b
      else -(magnitude true a / magnitude true b)) = BitVec.ofInt 64 (a.toInt.tdiv b.toInt) := by
  refine Eq.trans ?_ (Integers.ofInt_tdiv false a b).symm
  rw [if_neg Bool.false_ne_true, BitVec.sdiv_eq]
  unfold magnitude
  cases a.msb <;> cases b.msb <;> rfl

theorem remainder_eq : (if a.msb then -(magnitude true a % magnitude true b)
      else magnitude true a % magnitude true b) = BitVec.ofInt 64 (a.toInt.tmod b.toInt) := by
  refine Eq.trans ?_ (Integers.ofInt_tmod false a b).symm
  rw [if_neg Bool.false_ne_true, BitVec.srem_eq]
  unfold magnitude
  cases a.msb <;> cases b.msb <;> rfl

theorem divide_eq (hop : op ∈ [13, 14, 15, 16]) :
    divide op (.ofValue a) (.ofValue b) = some ((meaning op a b).map U64.ofValue) := by
  have hrefused : Refused op a b ↔
      b = 0 ∨ ((op = 13 ∨ op = 15) ∧ a.toInt = -2 ^ 63 ∧ b.toInt = -1) := by
    unfold Refused
    simp only [List.mem_cons, List.not_mem_nil, or_false] at hop ⊢
    rcases hop with rfl | rfl | rfl | rfl <;> simp
  unfold meaning
  rw [if_congr hrefused rfl rfl]
  split
  case isTrue h =>
    unfold divide
    dsimp only
    split
    · rfl
    · have hover := h.resolve_left ((lo_or_hi_eq_zero b).not.mp ‹_›)
      rw [if_pos ((and_congr_right' (overflow_iff a b)).mpr hover)]
      rfl
  case isFalse h =>
    rw [not_or] at h
    refine (divide_eq_some op a b h.1 h.2).trans ?_
    refine congrArg (fun r ↦ some (some (U64.ofValue r))) ?_
    simp only [List.mem_cons, List.not_mem_nil, or_false] at hop
    rcases hop with rfl | rfl | rfl | rfl
    · exact quotient_eq a b
    · exact (BitVec.udiv_def)
    · exact remainder_eq a b
    · exact (BitVec.umod_def)

/-- The distance of a shift. -/
theorem distance_eq : ((U64.ofValue b).hi ≠ 0 ∨ (U64.ofValue b).lo ≥ 64#32 ↔ 64 ≤ b.toNat) ∧
    (b.toNat < 64 → (U64.ofValue b).lo.toNat = b.toNat) := by
  have hhi : (U64.ofValue b).hi.toNat = b.toNat / 2 ^ 32 := by
    rw [U64.ofValue, BitVec.toNat_setWidth, BitVec.toNat_ushiftRight, Nat.shiftRight_eq_div_pow]
    omega
  have hlo : (U64.ofValue b).lo.toNat = b.toNat % 2 ^ 32 := BitVec.toNat_setWidth _ _
  have hzero : (0 : Cell).toNat = 0 := rfl
  have hlimit : (64#32).toNat = 64 := rfl
  rw [Ne, ← BitVec.toNat_inj, ge_iff_le, BitVec.le_def, hhi, hlo, hzero, hlimit]
  omega

/-- A shift, if its loop is the shift. -/
theorem shift_eq (hop : op ∈ [9, 10, 11])
    (hloop : shiftLoop op b.toNat (.ofValue a) = some (.ofValue (result op a b))) :
    (if (U64.ofValue b).hi ≠ 0 ∨ (U64.ofValue b).lo ≥ 64#32 then some none
      else (shiftLoop op (U64.ofValue b).lo.toNat (.ofValue a)).map some) =
        some ((meaning op a b).map U64.ofValue) := by
  have hrefused : Refused op a b ↔ 64 ≤ b.toNat := by
    unfold Refused
    simp only [List.mem_cons, List.not_mem_nil, or_false] at hop ⊢
    rcases hop with rfl | rfl | rfl <;> simp
  obtain ⟨hdistance, hlo⟩ := distance_eq b
  unfold meaning
  rw [if_congr hdistance rfl rfl, if_congr hrefused rfl rfl]
  split
  · rfl
  · rw [hlo (by omega), hloop]
    rfl

theorem less_signed : ccU64Less { U64.ofValue a with hi := (U64.ofValue a).hi ^^^ 0x80000000#32 }
    { U64.ofValue b with hi := (U64.ofValue b).hi ^^^ 0x80000000#32 } ↔ a.toInt < b.toInt := by
  have hpos : 0 < 64 := by decide
  have hleast : BitVec.intMin 64 = 0x80000000#32 ++ 0#32 := by decide
  have hxor (hi lo digit : Cell) : (hi ^^^ digit) ++ lo = (hi ++ lo) ^^^ (digit ++ 0#32) := by
    rw [BitVec.xor_append, BitVec.xor_zero]
  have hflip (a : BitVec 64) :
      U64.value { U64.ofValue a with hi := (U64.ofValue a).hi ^^^ 0x80000000#32 } =
        a ^^^ BitVec.intMin 64 := by
    conv_rhs => rw [← U64.value_ofValue a, hleast]
    exact hxor _ _ _
  rw [ccU64Less_iff, hflip, hflip]
  exact Halves.xor_intMin_lt hpos

/-- Every operation is the one on words. -/
theorem folded_eq :
    folded op (.ofValue a) (.ofValue b) = some ((meaning op a b).map U64.ofValue) := by
  have hdefined {op : Nat} (hop : op ∉ [9, 10, 11, 13, 14, 15, 16]) (hle : op ≤ 17) :
      meaning op a b = some (result op a b) := by
    refine if_neg ?_
    unfold Refused
    simp only [List.mem_cons, List.not_mem_nil, or_false] at hop ⊢
    omega
  have hvalue {r : U64} {x : BitVec 64} (h : r.value = x) (hmeaning : meaning op a b = some x) :
      some (some r) = some ((meaning op a b).map U64.ofValue) := by
    rw [hmeaning, U64.eq_ofValue h]
    rfl
  have hflag {p : Prop} [Decidable p] {q : Prop} [Decidable q] (h : p ↔ q)
      (hmeaning : meaning op a b = some (if q then 1 else 0)) :
      some (some ⟨flag p, 0⟩) = some ((meaning op a b).map U64.ofValue) := by
    rw [hmeaning, flag_eq, if_congr h rfl rfl]
    rfl
  have ha := U64.value_ofValue a
  have hb := U64.value_ofValue b
  unfold folded
  split
  case h_1 =>
    refine hvalue ?_ (hdefined (by decide) (by decide))
    rw [value_ccU64Add, ha, hb, result]
  case h_2 =>
    refine hvalue ?_ (hdefined (by decide) (by decide))
    rw [value_ccU64Sub, ha, hb, result]
  case h_3 =>
    refine hflag ?_ (hdefined (by decide) (by decide))
    rw [← U64.ext_iff, ← U64.value_inj, ha, hb]
  case h_4 => exact hflag (less_signed a b) (hdefined (by decide) (by decide))
  case h_5 =>
    refine hflag ?_ (hdefined (by decide) (by decide))
    rw [ccU64Less_iff, ha, hb, BitVec.lt_def]
  case h_6 =>
    refine hvalue ?_ (hdefined (by decide) (by decide))
    conv_rhs => rw [result, ← ha, ← hb]
    exact BitVec.and_append.symm
  case h_7 =>
    refine hvalue ?_ (hdefined (by decide) (by decide))
    conv_rhs => rw [result, ← ha, ← hb]
    exact BitVec.or_append.symm
  case h_8 =>
    refine hvalue ?_ (hdefined (by decide) (by decide))
    conv_rhs => rw [result, ← ha, ← hb]
    exact BitVec.xor_append.symm
  case h_9 =>
    refine hvalue ?_ (hdefined (by decide) (by decide))
    conv_rhs => rw [result, ← ha]
    exact BitVec.not_append.symm
  case h_10 => exact shift_eq 9 a b (by decide) (shiftLoop_left a _)
  case h_11 => exact shift_eq 10 a b (by decide) (shiftLoop_logical a _)
  case h_12 => exact shift_eq 11 a b (by decide) (shiftLoop_arithmetic a _)
  case h_13 =>
    have hzero : (⟨0, 0⟩ : U64) = .ofValue 0 := rfl
    rw [hdefined (by decide) (by decide), hzero, multiplyLoop_eq a b 0 b.isLt, zero_add]
    rfl
  case h_14 | h_15 | h_16 | h_17 => exact divide_eq _ a b (by decide)
  case h_18 => exact hflag (lo_or_hi_eq_zero a).not (hdefined (by decide) (by decide))
  case h_19 =>
    have hunknown : Refused op a b := by
      simp only [imp_false] at *
      exact .inr (.inr (.inr (by omega)))
    rw [meaning, if_pos hunknown]
    rfl

end Folded

/-- **The cells in `out` are those of the exact result, or untouched where there is none.** -/
theorem integer64_fold (op : Nat) (input : Vector Cell 4) (out : Vector Cell 2) :
    ccInteger64Fold op input out =
      some (if Refused op (input[1] ++ input[0]) (input[3] ++ input[2]) then (false, out)
        else (true, #v[(result op (input[1] ++ input[0]) (input[3] ++ input[2])).setWidth 32,
          (result op (input[1] ++ input[0]) (input[3] ++ input[2]) >>> 32).setWidth 32])) := by
  have hcells (lo hi : Cell) : (⟨lo, hi⟩ : U64) = .ofValue (hi ++ lo) := U64.eq_ofValue rfl
  rw [ccInteger64Fold, hcells, hcells, folded_eq, meaning]
  split <;> rfl

end CopySpace.Integer64
