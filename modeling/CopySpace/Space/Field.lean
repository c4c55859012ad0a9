import CopySpace.Bitcopy
import CopySpace.Space.Config

/-!
# Instruction fields: `get_argument` and `write_field_bits`

A field is a number stored least significant bit first, in bytes that are numbered from
their most significant bit.  `get_argument` reads one with four or five byte loads and a
reversal of the bits inside each byte; near the end of the space, where the four loads
would leave it, it reads bit by bit.  Both ways return `Bits.field`.
-/

namespace CopySpace

variable {ι : Type}

/-! ## Reading -/

/-- `return bit string of instruction argument as a number`: reverse every byte of a word. -/
def reverseBitsInBytes (value : BitVec 32) : BitVec 32 :=
  let value := ((value &&& 0x55555555#32) <<< 1) ||| ((value >>> 1) &&& 0x55555555#32)
  let value := ((value &&& 0x33333333#32) <<< 2) ||| ((value >>> 2) &&& 0x33333333#32)
  ((value &&& 0x0f0f0f0f#32) <<< 4) ||| ((value >>> 4) &&& 0x0f0f0f0f#32)

/-- The bitwise loop of `get_argument`. -/
def getArgumentBits (p : ι) (src : Nat) : Nat → CM ι Nat
  | 0 => pure 0
  | i + 1 => do
      let value ← getArgumentBits p src i
      let b ← loadByte p (u32 (src + i) / 8)
      pure (value ||| (((b >>> (7 - u32 (src + i) % 8)) &&& 1).toNat <<< i))

/-- The four bytes at `byte` as a little-endian word. -/
def loadPacked (p : ι) (byte : Nat) : CM ι (BitVec 32) := do
  let p0 ← loadByte p byte
  let p1 ← loadByte p (byte + 1)
  let p2 ← loadByte p (byte + 2)
  let p3 ← loadByte p (byte + 3)
  pure (p0.setWidth 32 ||| (p1.setWidth 32 <<< 8) ||| (p2.setWidth 32 <<< 16) |||
    (p3.setWidth 32 <<< 24))

/-- `value & ((UINT32_C(1) << n) - 1)`. -/
def maskArgument (value : BitVec 32) (n : Nat) : Nat := (value &&& ((1#32 <<< n) - 1#32)).toNat

def getArgument (p : ι) (src n : Nat) : CM ι Nat := do
  let sizeofSpace ← sizeofObj p
  let byte := src / 8
  let offset := src % 8
  if sizeofSpace < byte + 4 then
    getArgumentBits p src n
  else do
    let packed ← loadPacked p byte
    let value := reverseBitsInBytes packed >>> offset
    if 32 < n + offset then do
      let p4 ← loadByte p (byte + 4)
      pure (maskArgument (value ||| (reverseBitsInBytes (p4.setWidth 32) <<< (32 - offset))) n)
    else
      pure (maskArgument value n)

/-! ## Writing -/

/-- `bit_set_local`, the same in `space.c` and in `assembler.c`. -/
def bitSetLocal [DecidableEq ι] (p : ι) (bitpos : Nat) (v : Byte) : CM ι Unit := bitSetPtr p bitpos v

/-- `write_field_bits`, the same in `space.c` and in `assembler.c`. -/
def writeFieldBits [DecidableEq ι] (p : ι) (dstBit value width : Nat) : CM ι Unit :=
  forUp (fun i ↦ bitSetLocal p (dstBit + i) (BitVec.ofNat 8 ((value >>> i) &&& 1))) width

/-! ## `get_argument` reads a field -/

theorem getLsbD_reverseBitsInBytes (v : BitVec 32) {i : Nat} (hi : i < 32) :
    (reverseBitsInBytes v).getLsbD i = v.getLsbD (8 * (i / 8) + (7 - i % 8)) := by
  interval_cases i <;> simp [reverseBitsInBytes]

theorem testBit_maskArgument (v : BitVec 32) {n : Nat} (hn : n < 32) (i : Nat) :
    (maskArgument v n).testBit i = (decide (i < n) && v.getLsbD i) := by
  have hmask : ((1#32 <<< n) - 1#32).toNat = 2 ^ n - 1 := by
    have hp : 2 ^ n < 2 ^ 32 := Nat.pow_lt_pow_right (by decide) hn
    have h1 : 0 < 2 ^ n := Nat.two_pow_pos n
    rw [BitVec.toNat_sub, BitVec.toNat_shiftLeft, BitVec.toNat_ofNat, Nat.shiftLeft_eq,
      Nat.mod_eq_of_lt (by decide : 1 < 2 ^ 32), Nat.one_mul, Nat.mod_eq_of_lt hp]
    omega
  rw [maskArgument, BitVec.toNat_and, hmask, Nat.testBit_and, Nat.testBit_two_pow_sub_one,
    Bool.and_comm]
  rfl

/-- The accesses of the field readers: loads inside the object. -/
def ReadsOf (p : ι) (h : Heap ι) : Access ι → Prop
  | .read o i => o = p ∧ i < h.size p
  | .write _ _ => False

variable {h : Heap ι} {p : ι}

theorem does_getArgumentBits {src n : Nat} (hn : src + n ≤ 8 * h.size p)
    (h32 : src + n ≤ 2 ^ 32) :
    Does (ReadsOf p h) (getArgumentBits p src n) h fun v h' ↦
      v = (h.bit p).field src n ∧ h'.obj = h.obj := by
  induction n with
  | zero => exact .pure ⟨rfl, rfl⟩
  | succ i ih =>
      refine .bind (ih (by omega) (by omega)) fun v h₁ ev ⟨hv, ho⟩ ↦ ?_
      rw [u32_of_lt (by omega)]
      refine .bind (.load (Q := fun b h' ↦ b = (h.obj p).get ((src + i) / 8) ∧ h'.obj = h.obj)
        (by rw [ev.size_eq]; omega) ⟨rfl, by omega⟩ ⟨by rw [ho], ho⟩) fun b h₂ _ ⟨hb, ho₂⟩ ↦ ?_
      refine .pure ⟨?_, ho₂⟩
      apply Nat.eq_of_testBit_eq
      intro j
      have hbit : h.bit p (src + i) = b.getLsbD (7 - (src + i) % 8) := by rw [hb]; rfl
      rw [hv, Nat.testBit_or, Bits.testBit_field, Bits.testBit_field, Nat.testBit_shiftLeft]
      have h1 : ((b >>> (7 - (src + i) % 8)) &&& 1#8).toNat = (h.bit p (src + i)).toNat := by
        rw [hbit]
        apply Nat.eq_of_testBit_eq
        intro k
        rw [BitVec.testBit_toNat, BitVec.getLsbD_and, BitVec.getLsbD_ushiftRight,
          BitVec.getLsbD_one, Nat.testBit_bool_toNat]
        by_cases hk : k = 0
        · simp [hk]
        · simp [hk]
      have h2 : ((b >>> (7 - (src + i) % 8)) &&& 1).toNat = (h.bit p (src + i)).toNat := h1
      rw [h2, Nat.testBit_bool_toNat]
      by_cases hji : j = i
      · subst hji; simp
      · by_cases hlt : j < i
        · simp [hlt, show ¬ i ≤ j by omega, show j < i + 1 by omega]
        · simp [hlt, show ¬ j < i + 1 by omega, show j - i ≠ 0 by omega]

theorem does_loadPacked {byte : Nat} (hb : byte + 4 ≤ h.size p) :
    Does (ReadsOf p h) (loadPacked p byte) h fun v h' ↦
      (∀ i < 32, (reverseBitsInBytes v).getLsbD i = h.bit p (8 * byte + i)) ∧
        h'.obj = h.obj := by
  have hload : ∀ {h₁ : Heap ι}, h₁.size = h.size → h₁.obj = h.obj → ∀ k < 4,
      Does (ReadsOf p h) (loadByte p (byte + k)) h₁ fun b h' ↦
        b = (h.obj p).get (byte + k) ∧ h'.obj = h.obj :=
    fun hs ho k hk ↦ .load (by rw [hs]; omega) ⟨rfl, by omega⟩ ⟨by rw [ho], ho⟩
  refine .bind (hload rfl rfl 0 (by omega)) fun p0 h₁ ev₁ ⟨h0, ho₁⟩ ↦ ?_
  refine .bind (hload ev₁.size_eq ho₁ 1 (by omega)) fun p1 h₂ ev₂ ⟨h1, ho₂⟩ ↦ ?_
  refine .bind (hload (ev₁.trans ev₂).size_eq ho₂ 2 (by omega)) fun p2 h₃ ev₃ ⟨h2, ho₃⟩ ↦ ?_
  refine .bind (hload ((ev₁.trans ev₂).trans ev₃).size_eq ho₃ 3 (by omega))
    fun p3 h₄ _ ⟨h3, ho₄⟩ ↦ .pure ⟨fun i hi ↦ ?_, ho₄⟩
  have hbit : h.bit p (8 * byte + i) = ((h.obj p).get (byte + i / 8)).getLsbD (7 - i % 8) := by
    rw [Buffer.getLsbD_get _ _ (by omega)]
    exact congrArg (h.obj p).bits (by omega)
  rw [getLsbD_reverseBitsInBytes _ hi, hbit]
  simp only [BitVec.getLsbD_or, BitVec.getLsbD_shiftLeft, BitVec.getLsbD_setWidth]
  have hj : 7 - i % 8 < 8 := by omega
  generalize 7 - i % 8 = j at hj ⊢
  have hq : i / 8 < 4 := by omega
  generalize i / 8 = q at hq ⊢
  have hge : ∀ (b : Byte) k, 8 ≤ k → b.getLsbD k = false := fun b k hk ↦
    BitVec.getLsbD_of_ge b k hk
  have h32 : j < 32 := by omega
  interval_cases q
  · simp [h0, h32, hj, show j < 16 by omega, show j < 24 by omega]
  · simp [h1, h32, show 8 + j < 32 by omega, show 8 + j < 16 by omega, show 8 + j < 24 by omega]
  · simp [h2, h32, hge p0 (16 + j) (by omega), hge p1 (16 + j - 8) (by omega), show 16 + j < 32 by omega,
      show 16 + j < 24 by omega]
  · simp [h3, h32, hge p0 (24 + j) (by omega), hge p1 (24 + j - 8) (by omega), hge p2 (24 + j - 16) (by omega),
      show 24 + j < 32 by omega]

/-- `get_argument` reads the field, on both of its paths, and loads only bytes of the space. -/
theorem does_getArgument {src n : Nat} (hn : n < 32) (hsrc : src + n ≤ 8 * h.size p)
    (h32 : src + n ≤ 2 ^ 32) : Does (ReadsOf p h) (getArgument p src n) h fun v h' ↦
      v = (h.bit p).field src n ∧ h'.obj = h.obj := by
  refine .bind (.sizeof (Q := fun k h' ↦ k = h.size p ∧ h' = h) ⟨rfl, rfl⟩)
    fun k h₀ _ ⟨hk, hh⟩ ↦ ?_
  subst hk hh
  dsimp only
  split
  · exact does_getArgumentBits hsrc h32
  · rename_i hbyte
    refine .bind (does_loadPacked (by omega)) fun v h₁ ev ⟨hv, ho⟩ ↦ ?_
    have hlow : ∀ i, i + src % 8 < 32 →
        (reverseBitsInBytes v >>> (src % 8)).getLsbD i = h₀.bit p (src + i) := fun i hi ↦ by
      rw [BitVec.getLsbD_ushiftRight, hv _ (by omega)]
      exact congrArg (h₀.bit p) (by omega)
    split
    · rename_i h5
      refine .bind (.load (Q := fun b h' ↦ b = (h₀.obj p).get (src / 8 + 4) ∧ h'.obj = h₀.obj)
        (by rw [ev.size_eq]; omega) ⟨rfl, by omega⟩ ⟨by rw [ho], ho⟩) fun b h₂ _ ⟨hb, ho₂⟩ ↦ ?_
      refine .pure ⟨Nat.eq_of_testBit_eq fun i ↦ ?_, ho₂⟩
      rw [testBit_maskArgument _ hn, Bits.testBit_field, BitVec.getLsbD_or,
        BitVec.getLsbD_shiftLeft]
      by_cases hin : i < n
      · by_cases hi : i + src % 8 < 32
        · rw [hlow i hi]
          simp [hin, show i < 32 - src % 8 by omega]
        · have hhigh : (reverseBitsInBytes v >>> (src % 8)).getLsbD i = false := by
            rw [BitVec.getLsbD_ushiftRight]
            exact BitVec.getLsbD_of_ge _ _ (by omega)
          have hfive : (reverseBitsInBytes (b.setWidth 32)).getLsbD (i - (32 - src % 8)) =
              h₀.bit p (src + i) := by
            rw [getLsbD_reverseBitsInBytes _ (by omega), BitVec.getLsbD_setWidth, hb,
              Buffer.getLsbD_get _ _ (by omega),
              decide_eq_true (show 8 * ((i - (32 - src % 8)) / 8) + (7 - (i - (32 - src % 8)) % 8)
                < 32 by omega), Bool.true_and]
            exact congrArg (h₀.bit p) (by omega)
          rw [hhigh, hfive]
          simp [hin, show i < 32 by omega, show ¬ i < 32 - src % 8 by omega]
      · simp [hin]
    · rename_i h5
      refine .pure ⟨Nat.eq_of_testBit_eq fun i ↦ ?_, ho⟩
      rw [testBit_maskArgument _ hn, Bits.testBit_field]
      by_cases hin : i < n
      · rw [hlow i (by omega)]
      · simp [hin]

/-! ## `write_field_bits` writes a field -/

/-- `h'` is `h` with the field of width `w` at `a` of the object `p` set to `v`. -/
def FieldWritten [DecidableEq ι] (p : ι) (a v w : Nat) (h h' : Heap ι) : Prop :=
  ∀ q, h'.bit q = if q = p then (h.bit p).putField a w v else h.bit q

/-- The accesses of the field writers: bytes that hold a bit of the field. -/
def FieldAccess (p : ι) (a w : Nat) : Access ι → Prop
  | .read o i => o = p ∧ Covers a w i
  | .write o i => o = p ∧ Covers a w i

theorem ofNat_bit_ne_zero (value i : Nat) :
    BitVec.ofNat 8 ((value >>> i) &&& 1) ≠ 0 ↔ value.testBit i = true := by
  rw [Nat.testBit, Nat.and_comm 1]
  rcases Nat.mod_two_eq_zero_or_one (value >>> i) with h0 | h0 <;>
    simp [Nat.and_one_is_mod, h0]

theorem does_writeFieldBits [DecidableEq ι] {a v w : Nat} (hw : a + w ≤ 8 * h.size p) :
    Does (FieldAccess p a w) (writeFieldBits p a v w) h fun _ h' ↦ FieldWritten p a v w h h' := by
  refine Does.forUp (fun i h' ↦ FieldWritten p a v i h h') ?_ fun i hi h₁ ev hI ↦ ?_
  · intro q
    by_cases hq : q = p
    · subst hq; simp
    · simp [hq]
  · refine .imp (does_bitSetPtr (by rw [ev.size_eq]; omega) (ofNat_bit_ne_zero v i)
      ⟨rfl, by unfold Covers; omega⟩ ⟨rfl, by unfold Covers; omega⟩) fun _ h₂ _ hb q ↦ ?_
    funext r
    rw [hb, hI q]
    by_cases hq : q = p
    · subst hq
      rw [if_pos rfl, if_pos rfl, Bits.putField_succ]
      by_cases hr : r = a + i
      · simp [hr]
      · simp [hr]
    · rw [if_neg hq, if_neg hq, if_neg fun hc ↦ hq hc.1]

end CopySpace
