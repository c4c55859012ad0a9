import Mathlib.Data.Nat.Bitwise
import Mathlib.Tactic.IntervalCases

/-!
# Bit strings

A bit string is a total function from positions to bits.  A *field* of width `w`
at position `a` is the number whose bit `i` stands at `a + i`, least significant
bit first.  This file has the two updates everything else is built from, writing
a field (`putField`) and copying an interval (`blit`), and the laws that say what
a later read sees.

Nothing here knows about bytes: how positions lie in bytes is the business of
`CopySpace.Lib.Buffer`.
-/

namespace CopySpace

/-- A string of bits, indexed by position. -/
abbrev Bits := Nat → Bool

namespace Bits

/-! ## Words -/

/-- The bit vector of width `w` whose bit `i` is `f i`. -/
def toBitVec (w : Nat) (f : Bits) : BitVec w := BitVec.ofNat w (Nat.ofBits fun i : Fin w ↦ f i)

theorem getLsbD_toBitVec (w : Nat) (f : Bits) {i : Nat} (hi : i < w) :
    (toBitVec w f).getLsbD i = f i := by
  rw [toBitVec, BitVec.getLsbD_ofNat, Nat.testBit_ofBits_lt _ i hi, decide_eq_true hi,
    Bool.true_and]

theorem toBitVec_eq {w : Nat} {f : Bits} {v : BitVec w} (h : ∀ i < w, f i = v.getLsbD i) :
    toBitVec w f = v :=
  BitVec.eq_of_getLsbD_eq fun i hi ↦ by rw [getLsbD_toBitVec w f hi, h i hi]

theorem toBitVec_congr {w : Nat} {f g : Bits} (h : ∀ i < w, f i = g i) :
    toBitVec w f = toBitVec w g :=
  toBitVec_eq fun i hi ↦ by rw [getLsbD_toBitVec w g hi, h i hi]

/-! ## Fields -/

/-- The number that stands in the `w` positions from `a`, least significant bit first. -/
def field (m : Bits) (a w : Nat) : Nat := Nat.ofBits fun i : Fin w ↦ m (a + i)

theorem testBit_field (m : Bits) (a w i : Nat) :
    (field m a w).testBit i = (decide (i < w) && m (a + i)) := by
  rw [field, Nat.testBit_ofBits]
  split <;> simp_all

theorem field_lt (m : Bits) (a w : Nat) : field m a w < 2 ^ w := Nat.ofBits_lt_two_pow _

@[simp] theorem field_zero (m : Bits) (a : Nat) : field m a 0 = 0 := rfl

/-- A field is determined by its bits. -/
theorem field_congr {m m' : Bits} {a a' w : Nat} (h : ∀ i < w, m (a + i) = m' (a' + i)) :
    field m a w = field m' a' w :=
  congrArg Nat.ofBits (funext fun i ↦ h i i.isLt)

theorem field_eq_mod {m : Bits} {a w v : Nat} (h : ∀ i < w, m (a + i) = v.testBit i) :
    field m a w = v % 2 ^ w := by
  apply Nat.eq_of_testBit_eq
  intro i
  rw [testBit_field, Nat.testBit_mod_two_pow]
  by_cases hi : i < w
  · simp [hi, h i hi]
  · simp [hi]

theorem field_eq {m : Bits} {a w v : Nat} (hv : v < 2 ^ w)
    (h : ∀ i < w, m (a + i) = v.testBit i) : field m a w = v := by
  rw [field_eq_mod h, Nat.mod_eq_of_lt hv]

theorem bit_of_field {m : Bits} {a w v i : Nat} (h : field m a w = v) (hi : i < w) :
    m (a + i) = v.testBit i := by
  rw [← h, testBit_field]
  simp [hi]

theorem field_eq_zero_iff {m : Bits} {a w : Nat} :
    field m a w = 0 ↔ ∀ i < w, m (a + i) = false := by
  constructor
  · intro h i hi
    rw [bit_of_field h hi, Nat.zero_testBit]
  · intro h
    exact field_eq (Nat.two_pow_pos w) fun i hi ↦ by rw [h i hi, Nat.zero_testBit]

/-- A field is a low part followed by a high part. -/
theorem field_add (m : Bits) (a w w' : Nat) :
    field m a (w + w') = field m a w + 2 ^ w * field m (a + w) w' := by
  apply Nat.eq_of_testBit_eq
  intro i
  rw [testBit_field, Nat.add_comm (field m a w), Nat.testBit_two_pow_mul_add _ (field_lt m a w)]
  by_cases hi : i < w
  · rw [if_pos hi, testBit_field]
    simp [hi, Nat.lt_add_right w' hi]
  · rw [if_neg hi, testBit_field]
    have h₁ : a + w + (i - w) = a + i := by omega
    have h₂ : (i - w < w') = (i < w + w') := propext (by omega)
    rw [h₁]
    simp only [h₂]

/-! ## Writing a field -/

/-- Write the low `w` bits of `v` into the `w` positions from `a`. -/
def putField (a w v : Nat) (m : Bits) : Bits :=
  fun p ↦ if a ≤ p ∧ p < a + w then v.testBit (p - a) else m p

theorem putField_of_mem {a w v p : Nat} (m : Bits) (h : a ≤ p ∧ p < a + w) :
    putField a w v m p = v.testBit (p - a) := if_pos h

theorem putField_of_notMem {a w v p : Nat} (m : Bits) (h : ¬(a ≤ p ∧ p < a + w)) :
    putField a w v m p = m p := if_neg h

@[simp] theorem putField_zero (a v : Nat) (m : Bits) : putField a 0 v m = m := by
  funext p
  exact putField_of_notMem m (by omega)

/-- Only the low bits of a number are written. -/
theorem putField_mod (a w v : Nat) (m : Bits) : putField a w (v % 2 ^ w) m = putField a w v m := by
  funext p
  by_cases hp : a ≤ p ∧ p < a + w
  · rw [putField_of_mem m hp, putField_of_mem m hp, Nat.testBit_mod_two_pow,
      decide_eq_true (show p - a < w by omega), Bool.true_and]
  · rw [putField_of_notMem m hp, putField_of_notMem m hp]

/-- Reading back the field just written. -/
theorem field_putField_self (a w v : Nat) (m : Bits) :
    field (putField a w v m) a w = v % 2 ^ w := by
  apply field_eq_mod
  intro i hi
  rw [putField_of_mem m (by omega), Nat.add_sub_cancel_left]

/-- A field disjoint from the one written is unchanged. -/
theorem field_putField_of_disjoint {a w v b u : Nat} (m : Bits) (h : b + u ≤ a ∨ a + w ≤ b) :
    field (putField a w v m) b u = field m b u :=
  field_congr fun i hi ↦ putField_of_notMem m (by omega)

/-- Writing bit by bit: one more bit on top of a field. -/
theorem putField_succ (a w v : Nat) (m : Bits) :
    putField a (w + 1) v m =
      fun p ↦ if p = a + w then v.testBit w else putField a w v m p := by
  funext p
  by_cases hp : p = a + w
  · subst hp
    rw [if_pos rfl, putField_of_mem m (by omega), Nat.add_sub_cancel_left]
  · rw [if_neg hp]
    by_cases h : a ≤ p ∧ p < a + w
    · rw [putField_of_mem m h, putField_of_mem m (by omega)]
    · rw [putField_of_notMem m h, putField_of_notMem m (by omega)]

/-- Two consecutive fields are one field. -/
theorem putField_append (a w w' v : Nat) (m : Bits) :
    putField (a + w) w' (v >>> w) (putField a w v m) = putField a (w + w') v m := by
  funext p
  by_cases h₂ : a + w ≤ p ∧ p < a + w + w'
  · rw [putField_of_mem _ h₂, putField_of_mem _ (by omega), Nat.testBit_shiftRight]
    exact congrArg v.testBit (by omega)
  · rw [putField_of_notMem _ h₂]
    by_cases h₁ : a ≤ p ∧ p < a + w
    · rw [putField_of_mem _ h₁, putField_of_mem _ (by omega)]
    · rw [putField_of_notMem _ h₁, putField_of_notMem _ (by omega)]

/-- Write consecutive fields, given as pairs of a width and a value. -/
def putFields : Nat → List (Nat × Nat) → Bits → Bits
  | _, [], m => m
  | a, (w, v) :: fs, m => putFields (a + w) fs (putField a w v m)

/-- The number of positions that consecutive fields take. -/
def fieldsWidth (fs : List (Nat × Nat)) : Nat := (fs.map Prod.fst).sum

@[simp] theorem fieldsWidth_nil : fieldsWidth [] = 0 := rfl

@[simp] theorem fieldsWidth_cons (w v : Nat) (fs : List (Nat × Nat)) :
    fieldsWidth ((w, v) :: fs) = w + fieldsWidth fs := by simp [fieldsWidth]

@[simp] theorem fieldsWidth_append (fs gs : List (Nat × Nat)) :
    fieldsWidth (fs ++ gs) = fieldsWidth fs + fieldsWidth gs := by simp [fieldsWidth]

theorem putFields_of_notMem {a p : Nat} {fs : List (Nat × Nat)} (m : Bits)
    (h : ¬(a ≤ p ∧ p < a + fieldsWidth fs)) : putFields a fs m p = m p := by
  induction fs generalizing a m with
  | nil => rfl
  | cons f fs ih =>
      rw [fieldsWidth_cons] at h
      rw [putFields, ih _ (by omega), putField_of_notMem _ (by omega)]

theorem putFields_append (a : Nat) (fs gs : List (Nat × Nat)) (m : Bits) :
    putFields a (fs ++ gs) m = putFields (a + fieldsWidth fs) gs (putFields a fs m) := by
  induction fs generalizing a m with
  | nil => rfl
  | cons f fs ih =>
      rw [List.cons_append, putFields, ih, putFields, fieldsWidth_cons, Nat.add_assoc]

/-- A field written in a sequence is read back. -/
theorem field_putFields (a : Nat) (fs : List (Nat × Nat)) (w v : Nat) (gs : List (Nat × Nat))
    (m : Bits) :
    field (putFields a (fs ++ (w, v) :: gs) m) (a + fieldsWidth fs) w = v % 2 ^ w := by
  rw [putFields_append, putFields, ← field_putField_self (a + fieldsWidth fs) w v
    (putFields a fs m)]
  exact field_congr fun i hi ↦ putFields_of_notMem _ (by omega)

/-! ## Copying an interval -/

/-- Copy `n` bits from `src` to `dst`; every source bit is read before any is written. -/
def blit (n dst src : Nat) (m : Bits) : Bits :=
  fun p ↦ if dst ≤ p ∧ p < dst + n then m (src + (p - dst)) else m p

theorem blit_of_mem {n dst src p : Nat} (m : Bits) (h : dst ≤ p ∧ p < dst + n) :
    blit n dst src m p = m (src + (p - dst)) := if_pos h

theorem blit_of_notMem {n dst src p : Nat} (m : Bits) (h : ¬(dst ≤ p ∧ p < dst + n)) :
    blit n dst src m p = m p := if_neg h

theorem blit_add {n dst src i : Nat} (m : Bits) (h : i < n) :
    blit n dst src m (dst + i) = m (src + i) := by
  rw [blit_of_mem m (by omega), Nat.add_sub_cancel_left]

@[simp] theorem blit_zero (dst src : Nat) (m : Bits) : blit 0 dst src m = m := by
  funext p
  exact blit_of_notMem m (by omega)

@[simp] theorem blit_self (n a : Nat) (m : Bits) : blit n a a m = m := by
  funext p
  by_cases h : a ≤ p ∧ p < a + n
  · rw [blit_of_mem m h, Nat.add_sub_cancel' h.1]
  · exact blit_of_notMem m h

theorem field_blit_of_disjoint {n dst src b u : Nat} (m : Bits)
    (h : b + u ≤ dst ∨ dst + n ≤ b) : field (blit n dst src m) b u = field m b u :=
  field_congr fun i hi ↦ blit_of_notMem m (by omega)

/-- A field inside the interval copied is the field at the same offset of the source. -/
theorem field_blit_of_subset {n dst src i u : Nat} (m : Bits) (h : i + u ≤ n) :
    field (blit n dst src m) (dst + i) u = field m (src + i) u :=
  field_congr fun j hj ↦ by
    rw [Nat.add_assoc, blit_add m (by omega), Nat.add_assoc]

end Bits

end CopySpace
