import CopySpace.Space.Field
import CopySpace.Rv32i.Layout

/-!
# The writers of instruction fields

Besides `write_field_bits` four programs produce the format that `get_argument` reads:
`encode` of `core.c`, `field` of `copy_emit.c`, `put_bits` of the pForth port and `record` of
`rv32i_stream.py`.  Two of them set single bits in zeroed memory (`orField`), two merge up to
eight bits at a time with the help of a table of reversed bytes (`fieldChunks`).

`field_formats_agree` says that all of them leave the same bytes, and that `get_argument`
reads these back.
-/

namespace CopySpace

variable {ι : Type} [DecidableEq ι]

/-! ## Bit by bit, into zeroed memory -/

/-- `p[position / 8] |= v << (7 - position % 8)`, `v` being a bit. -/
def orBit (p : ι) (position v : Nat) : CM ι Unit := do
  let b ← loadByte p (position / 8)
  storeByte p (position / 8) (b ||| (BitVec.ofNat 8 v <<< (7 - position % 8)))

/-- Or the bits of a value into the positions `at_ 0`, `at_ 1`, … -/
def orField (p : ι) (at_ : Nat → Nat) (value width : Nat) : CM ι Unit :=
  forUp (fun bit ↦ orBit p (at_ bit) ((value >>> bit) &&& 1)) width

/-- `encode` of `core.c`: four rows of three fields. -/
def encode (cfg : Config) (image : ι) (base : Nat) (rows : Nat → Nat) : CM ι Unit :=
  forUp (fun slot ↦ forUp (fun field ↦
    orField image (fun bit ↦ u32 (base + slot * cfg.instructionSize + cfg.o field + bit))
      (rows (slot * 3 + field)) (cfg.s field)) 3) 4

/-- A Python function over one bytearray: an exception, or `none` for an index that is out
of range. -/
abbrev PyM := ExceptT String (CM Unit)

/-- The fields of one row of `record`; returns the position after them. -/
def recordFields : List (Int × Nat) → Nat → PyM Nat
  | [], at_ => pure at_
  | (value, width) :: fields, at_ => do
      if 0 ≤ value ∧ value < 2 ^ width then do
        liftM (orField () (fun bit ↦ at_ + bit) value.toNat width)
        recordFields fields (at_ + width)
      else throw "installation field overflow"

def recordRows (layout : Rv32i.Layout) : List (List Int) → Nat → PyM Nat
  | [], at_ => pure at_
  | row :: rows, at_ => do
      if row.length ≠ 3 then throw "installation row requires three fields"
      else do
        let at_ ← recordFields
          (row.zip [layout.nBits, layout.addressBits, layout.addressBits]) at_
        recordRows layout rows at_

/-- A new object of zero bytes. -/
def Buffer.zeros (n : Nat) (h : 8 * n < 2 ^ 64) : Buffer :=
  ⟨Array.replicate n 0, by simpa using h⟩

theorem Rv32i.Layout.coreRecordBytes_addressable (layout : Rv32i.Layout) :
    8 * layout.coreRecordBytes < 2 ^ 64 := by
  have := layout.addressBits_le
  unfold coreRecordBytes instructionBits nBits
  omega

/-- `record`, with the default `bytearray` of one installation record. -/
def record (layout : Rv32i.Layout) (rows : List (List Int)) :
    Option (Except String (Array Byte)) :=
  if rows.length ≠ 4 then some (.error "installation requires four rows")
  else
    let raw : Heap Unit :=
      ⟨fun _ ↦ .zeros layout.coreRecordBytes layout.coreRecordBytes_addressable, []⟩
    ((recordRows layout rows 0).run raw).map fun r ↦ r.1.map fun _ ↦ (r.2.obj ()).bytes

/-! ## Up to eight bits at a time -/

/-- Merge the byte `r`, shifted down by the offset of the position, where `mask` says. -/
def mergeReversed (p : ι) (at_ : Nat) (mask : BitVec 32) (r : Byte) : CM ι Unit := do
  let b ← loadByte p (at_ / 8)
  storeByte p (at_ / 8)
    (((b.setWidth 32 &&& ~~~mask) ||| ((r.setWidth 32 >>> (at_ % 8)) &&& mask)).setWidth 8)

/-- The loop of `field` and `put_bits`: in each byte the field reaches, merge the reversed
low byte of what is left of the value. -/
def fieldChunks (p : ι) (reversed : Byte → CM ι Byte) (mask : Nat → Nat → BitVec 32)
    (at_ : Nat) (value : BitVec 32) (width : Nat) : CM ι Unit :=
  if width = 0 then pure ()
  else do
    let offset := at_ % 8
    let count := min (8 - offset) width
    let r ← reversed (value.setWidth 8)
    mergeReversed p at_ (mask offset count) r
    fieldChunks p reversed mask (u32 (at_ + count)) (value >>> count) (width - count)
termination_by width

/-- The table `reverse_byte`. -/
def reverseByte : Array Byte := #[
  0, 128, 64, 192, 32, 160, 96, 224, 16, 144, 80, 208, 48, 176, 112, 240,
  8, 136, 72, 200, 40, 168, 104, 232, 24, 152, 88, 216, 56, 184, 120, 248,
  4, 132, 68, 196, 36, 164, 100, 228, 20, 148, 84, 212, 52, 180, 116, 244,
  12, 140, 76, 204, 44, 172, 108, 236, 28, 156, 92, 220, 60, 188, 124, 252,
  2, 130, 66, 194, 34, 162, 98, 226, 18, 146, 82, 210, 50, 178, 114, 242,
  10, 138, 74, 202, 42, 170, 106, 234, 26, 154, 90, 218, 58, 186, 122, 250,
  6, 134, 70, 198, 38, 166, 102, 230, 22, 150, 86, 214, 54, 182, 118, 246,
  14, 142, 78, 206, 46, 174, 110, 238, 30, 158, 94, 222, 62, 190, 126, 254,
  1, 129, 65, 193, 33, 161, 97, 225, 17, 145, 81, 209, 49, 177, 113, 241,
  9, 137, 73, 201, 41, 169, 105, 233, 25, 153, 89, 217, 57, 185, 121, 249,
  5, 133, 69, 197, 37, 165, 101, 229, 21, 149, 85, 213, 53, 181, 117, 245,
  13, 141, 77, 205, 45, 173, 109, 237, 29, 157, 93, 221, 61, 189, 125, 253,
  3, 131, 67, 195, 35, 163, 99, 227, 19, 147, 83, 211, 51, 179, 115, 243,
  11, 139, 75, 203, 43, 171, 107, 235, 27, 155, 91, 219, 59, 187, 123, 251,
  7, 135, 71, 199, 39, 167, 103, 231, 23, 151, 87, 215, 55, 183, 119, 247,
  15, 143, 79, 207, 47, 175, 111, 239, 31, 159, 95, 223, 63, 191, 127, 255]

/-- `field` of `copy_emit.c`. -/
def field (image : ι) (at_ width : Nat) (value : BitVec 32) : CM ι Unit :=
  if width = 1 then do
    let mask : Byte := 1#8 <<< (7 - at_ % 8)
    let byte ← loadByte image (at_ / 8)
    storeByte image (at_ / 8)
      ((byte &&& ~~~mask) ||| (if value &&& 1#32 ≠ 0#32 then mask else 0))
  else
    fieldChunks image (fun v ↦ pure (reverseByte.getD v.toNat 0))
      (fun offset count ↦ (255#32 >>> offset) &&& (255#32 <<< (8 - offset - count)))
      at_ value width

/-- How `put_bits` ends: it returns a cell, or leaves the program with an exit code. -/
inductive PutBitsResult where
  | returned (cell : Nat)
  | exited (code : Nat)
deriving DecidableEq

/-- `put_bits` of the pForth port. -/
def putBits (value : BitVec 32) (width position : Nat) (buffer reversed : ι) :
    CM ι PutBitsResult :=
  if 32 < width then pure (.exited 2)
  else do
    fieldChunks buffer (fun v ↦ loadByte reversed v.toNat)
      (fun offset part ↦ ((1#32 <<< part) - 1#32) <<< (8 - offset - part)) position value width
    pure (.returned 0)

/-- One round of the inner loop of `cc-prepare-reverse`:
`swap 2 * over 1 and + swap 1 rshift`. -/
def reverseRound (acc_i : Nat × Nat) : Nat × Nat :=
  (acc_i.1 * 2 + acc_i.2 % 2, acc_i.2 / 2)

/-- `cc-prepare-reverse`, which fills the table that the compiler hands to `put_bits`. -/
def ccPrepareReverse (reversed : ι) : CM ι Unit :=
  forUp (fun i ↦ storeByte reversed i (BitVec.ofNat 8 (reverseRound^[8] (0, i)).1)) 256

/-! ## Updating one byte -/

section Chunks

variable {h : Heap ι} {p : ι} {a n v : Nat}

/-- A read-modify-write of the byte in which the `n` positions from `a` lie writes a field
there, if the new byte has the bits of the value in the place of the field. -/
theorem does_updateByte {f : Byte → Byte} (hpos : 0 < n) (hn : a % 8 + n ≤ 8)
    (ha : a + n ≤ 8 * h.size p)
    (hf : ∀ j < 8, (f ((h.obj p).get (a / 8))).getLsbD j =
      if 8 - a % 8 - n ≤ j ∧ j < 8 - a % 8 then v.testBit (7 - j - a % 8)
      else ((h.obj p).get (a / 8)).getLsbD j) :
    Does (FieldAccess p a n) (do let b ← loadByte p (a / 8); storeByte p (a / 8) (f b)) h
      fun _ h' ↦ FieldWritten p a v n h h' := by
  have hc : Covers a n (a / 8) := ⟨hpos, by omega, by omega⟩
  refine .bind (.load (Q := fun b h' ↦ b = (h.obj p).get (a / 8) ∧ h'.obj = h.obj)
    (by omega) ⟨rfl, hc⟩ ⟨rfl, rfl⟩) fun b h' _ ⟨hb, ho⟩ ↦ ?_
  have hs : h'.size p = h.size p := by simp [Heap.size, ho]
  have hbit : h'.bit = h.bit := by funext q; simp [Heap.bit, ho]
  subst hb
  refine .store (by omega) ⟨rfl, hc⟩ fun q ↦ ?_
  funext r
  rw [Heap.bit_logged, Heap.bit_setByte (by omega), hbit]
  by_cases hq : q = p
  · subst hq
    simp only [true_and, if_true]
    by_cases hr : r / 8 = a / 8
    · rw [if_pos hr, hf _ (by omega)]
      by_cases hin : a ≤ r ∧ r < a + n
      · rw [if_pos (by omega), Bits.putField_of_mem _ hin]
        exact congrArg v.testBit (by omega)
      · rw [if_neg (by omega), Bits.putField_of_notMem _ hin, ← hr]
        rfl
    · rw [if_neg hr, Bits.putField_of_notMem _ (by omega)]
  · rw [if_neg hq, if_neg fun hc ↦ hq hc.1]

/-- Two consecutive fields of one value. -/
theorem FieldWritten.append {h₁ h₂ : Heap ι} {w w' : Nat} (hw : FieldWritten p a v w h h₁)
    (hw' : FieldWritten p (a + w) (v >>> w) w' h₁ h₂) : FieldWritten p a v (w + w') h h₂ := by
  intro q
  rw [hw' q, hw q, hw p, if_pos rfl, Bits.putField_append]
  by_cases hq : q = p
  · rw [if_pos hq, if_pos hq]
  · rw [if_neg hq, if_neg hq, if_neg hq]

theorem FieldWritten.zero : FieldWritten p a v 0 h h := by
  intro q
  by_cases hq : q = p
  · rw [if_pos hq, Bits.putField_zero, hq]
  · rw [if_neg hq]

omit [DecidableEq ι] in
theorem FieldAccess.mono {a' n' : Nat} (h₁ : a ≤ a') (h₂ : a' + n' ≤ a + n) :
    ∀ x, FieldAccess p a' n' x → FieldAccess p a n x := by
  rintro (⟨o, i⟩ | ⟨o, i⟩) ⟨ho, hc⟩ <;> exact ⟨ho, by unfold Covers at *; omega⟩

/-! ### Bit by bit -/

theorem getLsbD_ofNat_bit (value bit k : Nat) {j : Nat} (hj : j < 8) :
    (BitVec.ofNat 8 ((value >>> bit) &&& 1) <<< k).getLsbD j =
      (decide (j = k) && value.testBit bit) := by
  have hbit : (value >>> bit) &&& 1 = (value.testBit bit).toNat := by
    rw [Nat.testBit, Nat.and_comm 1, Nat.and_one_is_mod]
    rcases Nat.mod_two_eq_zero_or_one (value >>> bit) with h0 | h0 <;> simp [h0]
  rw [hbit]
  cases value.testBit bit with
  | false => simp
  | true =>
      rw [Bool.toNat_true, BitVec.getLsbD_shiftLeft]
      by_cases hjk : j = k
      · subst hjk; simp [hj]
      · by_cases hlt : j < k
        · simp [hj, hjk, hlt]
        · simp [hjk, hj, show j - k ≠ 0 by omega]

theorem does_orBit {value bit : Nat} (ha : a + 1 ≤ 8 * h.size p) (h0 : h.bit p a = false) :
    Does (FieldAccess p a 1) (orBit p a ((value >>> bit) &&& 1)) h
      fun _ h' ↦ FieldWritten p a (value >>> bit) 1 h h' := by
  refine does_updateByte (f := fun b ↦ b ||| (BitVec.ofNat 8 ((value >>> bit) &&& 1) <<< (7 - a % 8)))
    (by decide) (by omega) ha fun j hj ↦ ?_
  rw [BitVec.getLsbD_or, getLsbD_ofNat_bit _ _ _ hj]
  by_cases hja : j = 7 - a % 8
  · have hold : ((h.obj p).get (a / 8)).getLsbD j = false := by rw [hja]; exact h0
    rw [if_pos (by omega), hold, hja, show 7 - (7 - a % 8) - a % 8 = 0 by omega]
    simp
  · rw [if_neg (by omega)]
    simp [hja]

/-- Or-ing the bits of a value into zeroed positions writes the field. -/
theorem does_orField {at_ : Nat → Nat} {w : Nat} (hat : ∀ i < w, at_ i = a + i)
    (ha : a + w ≤ 8 * h.size p) (h0 : ∀ i < w, h.bit p (a + i) = false) :
    Does (FieldAccess p a w) (orField p at_ v w) h fun _ h' ↦ FieldWritten p a v w h h' := by
  refine Does.forUp (fun i h' ↦ FieldWritten p a v i h h') .zero fun i hi h₁ ev hI ↦ ?_
  rw [hat i hi]
  have hz : h₁.bit p (a + i) = false := by
    rw [hI p, if_pos rfl, Bits.putField_of_notMem _ (by omega), h0 i hi]
  refine ((does_orBit (by rw [ev.size_eq]; omega) hz).mono
    (FieldAccess.mono (by omega) (by omega))).imp fun _ h₂ _ hw ↦ hI.append hw

/-! ### Up to eight bits at a time -/

/-- A merge mask selects the `count` bits below the `offset` top bits of a byte. -/
def Selects (mask : Nat → Nat → BitVec 32) : Prop :=
  ∀ offset count, offset + count ≤ 8 → 0 < count → ∀ j < 8,
    (mask offset count).getLsbD j = decide (8 - offset - count ≤ j ∧ j < 8 - offset)

theorem does_mergeReversed {mask : BitVec 32} {r : Byte} {v : BitVec 32} (hpos : 0 < n)
    (hn : a % 8 + n ≤ 8) (ha : a + n ≤ 8 * h.size p)
    (hm : ∀ j < 8, mask.getLsbD j = decide (8 - a % 8 - n ≤ j ∧ j < 8 - a % 8))
    (hr : ∀ j < 8, r.getLsbD j = v.getLsbD (7 - j)) :
    Does (FieldAccess p a n) (mergeReversed p a mask r) h
      fun _ h' ↦ FieldWritten p a v.toNat n h h' := by
  refine does_updateByte (f := fun b ↦
    ((b.setWidth 32 &&& ~~~mask) ||| ((r.setWidth 32 >>> (a % 8)) &&& mask)).setWidth 8)
    hpos hn ha fun j hj ↦ ?_
  have h32 : j < 32 := by omega
  simp only [BitVec.getLsbD_setWidth, BitVec.getLsbD_or, BitVec.getLsbD_and, BitVec.getLsbD_not,
    BitVec.getLsbD_ushiftRight, hm j hj, hj, h32, decide_true, Bool.true_and]
  by_cases hin : 8 - a % 8 - n ≤ j ∧ j < 8 - a % 8
  · rw [if_pos hin, decide_eq_true hin, hr _ (by omega), BitVec.testBit_toNat,
      show 7 - (a % 8 + j) = 7 - j - a % 8 by omega]
    simp [show a % 8 + j < 32 by omega]
  · rw [if_neg hin, decide_eq_false hin]
    simp

/-- The loop of `field` and `put_bits` writes the field, whatever the table loads are, as
long as they leave the objects alone and reverse a byte. -/
theorem does_fieldChunks {A : Access ι → Prop} {reversed : Byte → CM ι Byte}
    {mask : Nat → Nat → BitVec 32} {v : BitVec 32} {w : Nat} (hm : Selects mask)
    (hA : ∀ x, FieldAccess p a w x → A x)
    (hr : ∀ h', h'.size = h.size → (∀ q ≠ p, h'.bit q = h.bit q) → ∀ b : Byte,
      Does A (reversed b) h' fun r h'' ↦
        h''.obj = h'.obj ∧ ∀ j < 8, r.getLsbD j = b.getLsbD (7 - j))
    (ha : a + w ≤ 8 * h.size p) (h32 : a + w ≤ 2 ^ 32) :
    Does A (fieldChunks p reversed mask a v w) h
      fun _ h' ↦ FieldWritten p a v.toNat w h h' := by
  induction w using Nat.strong_induction_on generalizing a h v with
  | _ w ih =>
    unfold fieldChunks
    split
    · rename_i hw
      subst hw
      exact .pure .zero
    rename_i hw
    dsimp only
    generalize hc : min (8 - a % 8) w = count
    have hpos : 0 < count := by omega
    have hle : count ≤ w := by omega
    have h8 : a % 8 + count ≤ 8 := by omega
    refine .bind (hr h rfl (fun _ _ ↦ rfl) _) fun r h₁ ev₁ ⟨ho, hrev⟩ ↦ ?_
    have hbit : h₁.bit = h.bit := by funext q; simp [Heap.bit, ho]
    have hstep := does_mergeReversed (h := h₁) (v := v) (p := p) hpos h8
      (by rw [ev₁.size_eq]; omega) (hm _ _ h8 hpos) (r := r) fun j hj ↦ by
        rw [hrev j hj, BitVec.getLsbD_setWidth]
        simp [show 7 - j < 8 by omega]
    refine .bind (hstep.mono fun x hx ↦ hA x (FieldAccess.mono le_rfl (by omega) x hx))
      fun _ h₂ ev₂ hw₂ ↦ ?_
    have hsize : h₂.size = h.size := (ev₁.trans ev₂).size_eq
    have hother : ∀ q ≠ p, h₂.bit q = h.bit q := fun q hq ↦ by rw [hw₂ q, if_neg hq, hbit]
    have hfirst : FieldWritten p a v.toNat count h h₂ := fun q ↦ by rw [hw₂ q, hbit]
    by_cases hlast : w - count = 0
    · rw [hlast, fieldChunks, if_pos rfl]
      refine .pure ?_
      rw [show w = count by omega]
      exact hfirst
    · rw [u32_of_lt (by omega)]
      refine (ih (w - count) (by omega) (h := h₂) (v := v >>> count) (fun x hx ↦
        hA x (FieldAccess.mono (by omega) (by omega) x hx)) (fun h' hs' ho' v ↦
          hr h' (hs'.trans hsize) (fun q hq ↦ (ho' q hq).trans (hother q hq)) v)
        (by rw [hsize]; omega) (by omega)).imp fun _ h₃ _ hw₃ ↦ ?_
      rw [BitVec.toNat_ushiftRight] at hw₃
      have := hfirst.append hw₃
      rwa [Nat.add_sub_cancel' hle] at this

end Chunks

/-! ## Every writer writes the field -/

section Writers

variable {h : Heap ι} {p : ι} {a w : Nat}

theorem selects_field : Selects fun offset count ↦
    (255#32 >>> offset) &&& (255#32 <<< (8 - offset - count)) := by
  intro offset count hle hpos j hj
  have h255 : ∀ k, (255#32).getLsbD k = decide (k < 8) := fun k ↦ by
    change (255 : Nat).testBit k = _
    rw [show (255 : Nat) = 2 ^ 8 - 1 by decide, Nat.testBit_two_pow_sub_one]
  rw [BitVec.getLsbD_and, BitVec.getLsbD_ushiftRight, BitVec.getLsbD_shiftLeft, h255, h255]
  by_cases h₁ : 8 - offset - count ≤ j <;> by_cases h₂ : j < 8 - offset <;>
    simp [h₁, h₂] <;> omega

theorem selects_putBits : Selects fun offset part ↦
    ((1#32 <<< part) - 1#32) <<< (8 - offset - part) := by
  intro offset part hle hpos j hj
  have hmask : ∀ k, ((1#32 <<< part) - 1#32).getLsbD k = decide (k < part) := fun k ↦ by
    have hp : 2 ^ part < 2 ^ 32 := Nat.pow_lt_pow_right (by decide) (by omega)
    have hp0 := Nat.two_pow_pos part
    rw [← BitVec.testBit_toNat, ← Nat.testBit_two_pow_sub_one]
    congr 1
    rw [BitVec.toNat_sub, BitVec.toNat_shiftLeft, BitVec.toNat_ofNat, Nat.shiftLeft_eq,
      Nat.mod_eq_of_lt (by decide : 1 < 2 ^ 32), Nat.one_mul, Nat.mod_eq_of_lt hp]
    omega
  rw [BitVec.getLsbD_shiftLeft, hmask]
  by_cases h₁ : 8 - offset - part ≤ j <;> by_cases h₂ : j < 8 - offset <;>
    simp [h₁, h₂] <;> omega

theorem getLsbD_reverseByte (v : Byte) {j : Nat} (hj : j < 8) :
    (reverseByte.getD v.toNat 0).getLsbD j = v.getLsbD (7 - j) := by
  have htable : reverseByte.toList = (List.range 256).map fun v ↦ (BitVec.ofNat 8 v).reverse := by
    decide +kernel
  have hentry : reverseByte.getD v.toNat 0 = v.reverse := by
    rw [Array.getD_eq_getD_getElem?, ← Array.getElem?_toList, htable, List.getElem?_map,
      List.getElem?_range v.isLt, Option.map_some, Option.getD_some, BitVec.ofNat_toNat,
      BitVec.setWidth_eq]
  rw [hentry, BitVec.getLsbD_reverse, BitVec.getMsbD, decide_eq_true hj, Bool.true_and]

theorem does_field {value : BitVec 32} (ha : a + w ≤ 8 * h.size p) (h32 : a + w ≤ 2 ^ 32) :
    Does (FieldAccess p a w) (field p a w value) h
      fun _ h' ↦ FieldWritten p a value.toNat w h h' := by
  unfold field
  split
  · rename_i hw
    subst hw
    refine does_updateByte (f := fun b ↦ (b &&& ~~~(1#8 <<< (7 - a % 8))) |||
      (if value &&& 1#32 ≠ 0#32 then 1#8 <<< (7 - a % 8) else 0)) (by decide) (by omega) ha
      fun j hj ↦ ?_
    have hmask := getLsbD_one_shiftLeft (7 - a % 8) hj
    generalize 1#8 <<< (7 - a % 8) = mask at hmask ⊢
    have hbit : value &&& 1#32 ≠ 0#32 ↔ value.toNat.testBit 0 = true := by
      rw [BitVec.testBit_toNat, Ne, ← BitVec.toNat_inj, BitVec.toNat_and, BitVec.getLsbD,
        Nat.testBit_zero]
      simp [Nat.and_one_is_mod]
    have hset : (if value &&& 1#32 ≠ 0#32 then mask else 0).getLsbD j =
        (decide (j = 7 - a % 8) && value.toNat.testBit 0) := by
      by_cases hv : value.toNat.testBit 0 = true
      · rw [if_pos (hbit.mpr hv), hmask, hv, Bool.and_true]
      · rw [if_neg (mt hbit.mp hv), Bool.eq_false_iff.mpr hv, Bool.and_false]
        exact BitVec.getLsbD_zero
    rw [BitVec.getLsbD_or, BitVec.getLsbD_and, BitVec.getLsbD_not, hmask, hset]
    by_cases hja : j = 7 - a % 8
    · rw [if_pos (by omega), show 7 - j - a % 8 = 0 by omega]
      simp [hja]
    · rw [if_neg (by omega)]
      simp [hja, hj]
  · exact does_fieldChunks selects_field (fun _ hx ↦ hx) (fun h' _ _ v ↦ .pure ⟨rfl, fun j hj ↦
      getLsbD_reverseByte v hj⟩) ha h32

/-- Object `q` starts with the table of the 256 reversed bytes. -/
def ReversalTable (q : ι) (h : Heap ι) : Prop :=
  256 ≤ h.size q ∧ ∀ v : Byte, ∀ j < 8, ((h.bit q).byte v.toNat).getLsbD j = v.getLsbD (7 - j)

/-- The accesses of `put_bits`: the field, and loads from the table. -/
def PutBitsAccess (p q : ι) (a w : Nat) (x : Access ι) : Prop :=
  FieldAccess p a w x ∨ ∃ i < 256, x = .read q i

theorem does_putBits {q : ι} {value : BitVec 32} (hq : q ≠ p) (ht : ReversalTable q h)
    (hw : w ≤ 32) (ha : a + w ≤ 8 * h.size p) (h32 : a + w ≤ 2 ^ 32) :
    Does (PutBitsAccess p q a w) (putBits value w a p q) h
      fun r h' ↦ r = .returned 0 ∧ FieldWritten p a value.toNat w h h' := by
  unfold putBits
  rw [if_neg (by omega)]
  refine .bind (does_fieldChunks selects_putBits (fun _ hx ↦ .inl hx) (fun h' hs ho v ↦ ?_) ha h32)
    fun _ _ _ hw ↦ .pure ⟨rfl, hw⟩
  have hv := v.isLt
  refine .load (by rw [hs]; have := ht.1; omega) (.inr ⟨_, v.isLt, rfl⟩) ⟨rfl, fun j hj ↦ ?_⟩
  rw [← ht.2 v j hj, ← ho q hq]
  exact congrArg (·.getLsbD j) (Buffer.byte_bits _ _).symm

/-- `cc-prepare-reverse` stores the table that `put_bits` needs. -/
theorem does_ccPrepareReverse {q : ι} (hq : 256 ≤ h.size q) :
    Does (fun x ↦ ∃ i < 256, x = .write q i) (ccPrepareReverse q) h
      fun _ h' ↦ ReversalTable q h' ∧ ∀ o ≠ q, h'.bit o = h.bit o := by
  have hall : ∀ v : Fin 256, ∀ j : Fin 8,
      (BitVec.ofNat 8 (reverseRound^[8] (0, v.val)).1).getLsbD j =
        (BitVec.ofNat 8 v).getLsbD (7 - j) := by decide +kernel
  refine (Does.forUp (fun n h' ↦ (∀ v : Byte, v.toNat < n → ∀ j < 8,
      ((h'.bit q).byte v.toNat).getLsbD j = v.getLsbD (7 - j)) ∧ ∀ o ≠ q, h'.bit o = h.bit o)
    ⟨fun _ hv ↦ absurd hv (Nat.not_lt_zero _), fun _ _ ↦ rfl⟩ fun i hi h₁ ev ⟨hI, ho⟩ ↦ ?_).imp
    fun _ h' ev ⟨hI, ho⟩ ↦ ⟨⟨by rw [ev.size_eq]; exact hq, fun v ↦ hI v v.isLt⟩, ho⟩
  refine .store (by rw [ev.size_eq]; omega) ⟨i, hi, rfl⟩ ⟨fun v hv j hj ↦ ?_, fun o hoq ↦ ?_⟩
  · rw [Bits.getLsbD_byte _ _ hj, Heap.bit_logged, Heap.bit_setByte (by rw [ev.size_eq]; omega)]
    by_cases hvi : v.toNat = i
    · have := hall ⟨v.toNat, v.isLt⟩ ⟨j, hj⟩
      rw [BitVec.ofNat_toNat, BitVec.setWidth_eq] at this
      rw [if_pos ⟨rfl, by omega⟩, ← this, ← hvi, show 7 - (8 * v.toNat + (7 - j)) % 8 = j by omega]
    · rw [if_neg fun hc ↦ hvi (by omega), ← Bits.getLsbD_byte (h₁.bit q) _ hj]
      exact hI v (by omega) j hj
  · rw [← ho o hoq]
    funext r
    rw [Heap.bit_logged, Heap.bit_setByte (by rw [ev.size_eq]; omega), if_neg fun hc ↦ hoq hc.1]

end Writers

/-! ## Consecutive fields -/

/-- The fields of `fs` written one after the other with `write_field_bits`. -/
def writeFields (p : ι) : Nat → List (Nat × Nat) → CM ι Unit
  | _, [] => pure ()
  | a, (w, v) :: fs => do writeFieldBits p a v w; writeFields p (a + w) fs

/-- `h'` is `h` with the consecutive fields `fs` at `a` of the object `p`. -/
def FieldsWritten (p : ι) (a : Nat) (fs : List (Nat × Nat)) (h h' : Heap ι) : Prop :=
  ∀ q, h'.bit q = if q = p then Bits.putFields a fs (h.bit p) else h.bit q

section Sequences

variable {h : Heap ι} {p : ι} {a : Nat}

theorem FieldsWritten.nil : FieldsWritten p a [] h h := by
  intro q
  by_cases hq : q = p
  · rw [if_pos hq, hq]; rfl
  · rw [if_neg hq]

theorem FieldWritten.cons {w v : Nat} {fs : List (Nat × Nat)} {h₁ h₂ : Heap ι}
    (hw : FieldWritten p a v w h h₁) (hfs : FieldsWritten p (a + w) fs h₁ h₂) :
    FieldsWritten p a ((w, v) :: fs) h h₂ := by
  intro q
  rw [hfs q, hw q, hw p, if_pos rfl, Bits.putFields]
  by_cases hq : q = p
  · rw [if_pos hq, if_pos hq]
  · rw [if_neg hq, if_neg hq, if_neg hq]

theorem FieldsWritten.append {fs gs : List (Nat × Nat)} {h₁ h₂ : Heap ι}
    (hfs : FieldsWritten p a fs h h₁)
    (hgs : FieldsWritten p (a + Bits.fieldsWidth fs) gs h₁ h₂) :
    FieldsWritten p a (fs ++ gs) h h₂ := by
  intro q
  rw [hgs q, hfs q, hfs p, if_pos rfl, Bits.putFields_append]
  by_cases hq : q = p
  · rw [if_pos hq, if_pos hq]
  · rw [if_neg hq, if_neg hq, if_neg hq]

theorem FieldWritten.single {w v : Nat} {h₁ : Heap ι} (hw : FieldWritten p a v w h h₁) :
    FieldsWritten p a [(w, v)] h h₁ := hw.cons .nil

/-- Writing fields determines the objects. -/
theorem FieldsWritten.obj_eq {A B : Access ι → Prop} {fs : List (Nat × Nat)} {h₁ h₂ : Heap ι}
    (e₁ : h.Evolves A h₁) (e₂ : h.Evolves B h₂) (w₁ : FieldsWritten p a fs h h₁)
    (w₂ : FieldsWritten p a fs h h₂) : h₁.obj = h₂.obj :=
  funext fun q ↦ Buffer.ext_bits (congrFun (e₁.size_eq.trans e₂.size_eq.symm) q) fun b ↦
    congrFun ((w₁ q).trans (w₂ q).symm) b

theorem does_writeFields {fs : List (Nat × Nat)} (ha : a + Bits.fieldsWidth fs ≤ 8 * h.size p) :
    Does (FieldAccess p a (Bits.fieldsWidth fs)) (writeFields p a fs) h
      fun _ h' ↦ FieldsWritten p a fs h h' := by
  induction fs generalizing a h with
  | nil => exact .pure .nil
  | cons f fs ih =>
      obtain ⟨w, v⟩ := f
      rw [Bits.fieldsWidth_cons] at ha ⊢
      refine .bind ((does_writeFieldBits (by omega)).mono (FieldAccess.mono le_rfl (by omega)))
        fun _ h₁ ev hw ↦ ?_
      exact ((ih (by rw [ev.size_eq]; omega)).mono
        (FieldAccess.mono (by omega) (by omega))).imp fun _ h₂ _ hfs ↦ hw.cons hfs

/-- The twelve fields that `encode` and `record` write. -/
def rowFields (nSize addressSize : Nat) (rows : Nat → Nat) : Nat → List (Nat × Nat)
  | 0 => []
  | slot + 1 => rowFields nSize addressSize rows slot ++
      [(nSize, rows (slot * 3)), (addressSize, rows (slot * 3 + 1)),
        (addressSize, rows (slot * 3 + 2))]

theorem fieldsWidth_rowFields (nSize addressSize : Nat) (rows : Nat → Nat) (slot : Nat) :
    Bits.fieldsWidth (rowFields nSize addressSize rows slot) =
      slot * (nSize + 2 * addressSize) := by
  induction slot with
  | zero => simp [rowFields]
  | succ slot ih =>
      rw [rowFields, Bits.fieldsWidth_append, ih, Nat.succ_mul slot, Nat.add_left_cancel_iff]
      simp only [Bits.fieldsWidth_cons, Bits.fieldsWidth_nil]
      omega

/-- `encode` writes its twelve fields into zeroed memory. -/
theorem does_encode {cfg : Config} (rows : Nat → Nat)
    (ha : a + 4 * cfg.instructionSize ≤ 8 * h.size p)
    (h32 : a + 4 * cfg.instructionSize ≤ 2 ^ 32)
    (h0 : ∀ i < 4 * cfg.instructionSize, h.bit p (a + i) = false) :
    Does (FieldAccess p a (4 * cfg.instructionSize)) (encode cfg p a rows) h fun _ h' ↦
      FieldsWritten p a (rowFields cfg.nSize cfg.addressSize rows 4) h h' := by
  have hIS : cfg.instructionSize = cfg.nSize + 2 * cfg.addressSize := rfl
  refine Does.forUp (fun slot h' ↦
    FieldsWritten p a (rowFields cfg.nSize cfg.addressSize rows slot) h h') .nil
    fun slot hslot h₁ ev hI ↦ ?_
  have hwidth := fieldsWidth_rowFields cfg.nSize cfg.addressSize rows slot
  rw [← hIS] at hwidth
  have hmul : slot * cfg.instructionSize + cfg.instructionSize ≤ 4 * cfg.instructionSize := by
    rw [← Nat.succ_mul]
    exact Nat.mul_le_mul_right _ hslot
  generalize slot * cfg.instructionSize = b at hwidth hmul ⊢
  -- one field, after fields `fs` have been written
  have hone : ∀ (fs : List (Nat × Nat)) (field : Nat) (h₁ : Heap ι), field < 3 →
      h₁.size = h.size → FieldsWritten p a fs h h₁ → Bits.fieldsWidth fs = b + cfg.o field →
      Does (FieldAccess p a (4 * cfg.instructionSize))
        (orField p (fun bit ↦ u32 (a + b + cfg.o field + bit)) (rows (slot * 3 + field))
          (cfg.s field)) h₁
        fun _ h' ↦ FieldsWritten p a (fs ++ [(cfg.s field, rows (slot * 3 + field))]) h h' := by
    intro fs field h₁ hf hs hI hw
    have hle : cfg.o field + cfg.s field ≤ cfg.instructionSize := by
      interval_cases field <;> simp [hIS] <;> omega
    refine ((does_orField (a := a + b + cfg.o field) (fun i hi ↦ u32_of_lt (by omega))
      (by rw [hs]; omega) fun i hi ↦ ?_).mono (FieldAccess.mono (by omega) (by omega))).imp
      fun _ h₂ _ hw₂ ↦ hI.append ?_
    · rw [hI p, if_pos rfl, Bits.putFields_of_notMem _ (by omega)]
      rw [show a + b + cfg.o field + i = a + (b + cfg.o field + i) by omega, h0 _ (by omega)]
    · rw [hw, ← Nat.add_assoc]
      exact hw₂.single
  simp only [forUp, rowFields]
  refine .imp (.bind (.bind (.bind (.pure (Q := fun _ h' ↦ h' = h₁) rfl)
    fun _ _ _ he ↦ he ▸ hone _ 0 h₁ (by decide) ev.size_eq hI (by simp [hwidth]))
    fun _ h₂ ev₂ hw₂ ↦ hone _ 1 h₂ (by decide) (ev.trans ev₂).size_eq hw₂ (by simp [hwidth]))
    fun _ h₃ ev₃ hw₃ ↦ hone _ 2 h₃ (by decide) (ev.trans ev₃).size_eq hw₃
      (by simp [hwidth])) fun _ h₄ _ hw₄ ↦ ?_
  simpa only [List.append_assoc, List.cons_append, List.nil_append, Config.s_zero,
    Config.s_one, Config.s_two, Nat.add_zero] using hw₄

end Sequences

/-! ## `record` -/

namespace Rv32i.Layout

variable (layout : Layout)

/-- The widths of the fields of a row. -/
def widths : List Nat := [layout.nBits, layout.addressBits, layout.addressBits]

/-- The rows that `record` accepts. -/
def RecordValid (rows : List (List Int)) : Prop :=
  rows.length = 4 ∧ ∀ row ∈ rows, row.length = 3 ∧
    ∀ f ∈ row.zip layout.widths, 0 ≤ f.1 ∧ f.1 < 2 ^ f.2

/-- The fields of rows of integers. -/
def recordList (rows : List (List Int)) : List (Nat × Nat) :=
  rows.flatMap fun row ↦ (row.zip layout.widths).map fun f ↦ (f.2, f.1.toNat)

/-- The heap of `record`: its zeroed bytearray. -/
def recordRaw : Heap Unit :=
  ⟨fun _ ↦ .zeros layout.coreRecordBytes layout.coreRecordBytes_addressable, []⟩

@[simp] theorem size_recordRaw : layout.recordRaw.size () = layout.coreRecordBytes := by
  simp [recordRaw, Heap.size, Buffer.size, Buffer.zeros]

@[simp] theorem bit_recordRaw (q : Unit) (b : Nat) : layout.recordRaw.bit q b = false := by
  simp [recordRaw, Heap.bit, Buffer.bits, Buffer.get, Buffer.zeros, Array.getD_eq_getD_getElem?,
    Array.getElem?_replicate]
  split <;> simp

theorem fieldsWidth_recordList {rows : List (List Int)} (hv : layout.RecordValid rows) :
    Bits.fieldsWidth (layout.recordList rows) = 4 * layout.instructionBits := by
  obtain ⟨hlen, hrows⟩ := hv
  have hrow : ∀ row ∈ rows, Bits.fieldsWidth
      ((row.zip layout.widths).map fun f ↦ (f.2, f.1.toNat)) = layout.instructionBits := by
    intro row hr
    have h3 := (hrows row hr).1
    match row, h3 with
    | [_, _, _], _ => simp [widths, instructionBits]; omega
  rw [← hlen]
  clear hlen hrows
  induction rows with
  | nil => simp [recordList]
  | cons row rows ih =>
      rw [recordList, List.flatMap_cons, Bits.fieldsWidth_append,
        hrow row List.mem_cons_self, ← recordList, ih fun r hr ↦ hrow r (List.mem_cons_of_mem _ hr),
        List.length_cons, Nat.succ_mul, Nat.add_comm]

end Rv32i.Layout

namespace Does

variable {α β : Type} {A : Access Unit → Prop} {h : Heap Unit}

theorem bindPy {x : PyM α} {f : α → PyM β} {Q : α → Heap Unit → Prop}
    {R : Except String β → Heap Unit → Prop}
    (hx : Does A x.run h fun r h' ↦ ∃ a, r = .ok a ∧ Q a h')
    (hf : ∀ a h', h.Evolves A h' → Q a h' → Does A (f a).run h' R) : Does A (x >>= f).run h R := by
  refine .bind hx ?_
  rintro _ h' ev ⟨a, rfl, hq⟩
  exact hf a h' ev hq

end Does

section Record

variable {h : Heap Unit} {a : Nat}

theorem does_recordFields {fs : List (Int × Nat)} (hv : ∀ f ∈ fs, 0 ≤ f.1 ∧ f.1 < 2 ^ f.2)
    (ha : a + Bits.fieldsWidth (fs.map fun f ↦ (f.2, f.1.toNat)) ≤ 8 * h.size ())
    (h0 : ∀ b, a ≤ b → h.bit () b = false) :
    Does (fun _ ↦ True) (recordFields fs a).run h fun r h' ↦ ∃ a', r = .ok a' ∧
      a' = a + Bits.fieldsWidth (fs.map fun f ↦ (f.2, f.1.toNat)) ∧
      FieldsWritten () a (fs.map fun f ↦ (f.2, f.1.toNat)) h h' := by
  induction fs generalizing a h with
  | nil => exact .pure ⟨a, rfl, rfl, .nil⟩
  | cons f fs ih =>
      obtain ⟨value, width⟩ := f
      simp only [List.map_cons, Bits.fieldsWidth_cons] at ha ⊢
      rw [recordFields, if_pos (hv _ List.mem_cons_self)]
      refine .bindPy (Q := fun _ h' ↦ h'.size = h.size ∧ FieldWritten () a value.toNat width h h')
        (.bind ((does_orField (h := h) (p := ()) (a := a) (v := value.toNat) (w := width)
          (fun _ _ ↦ rfl) (by omega) fun i _ ↦ h0 _ (by omega)).mono fun _ _ ↦ trivial)
          fun u h' ev hw ↦ .pure ⟨u, rfl, ev.size_eq, hw⟩) fun _ h₁ ev ⟨hs, hw⟩ ↦ ?_
      refine (ih (fun f hf ↦ hv f (List.mem_cons_of_mem _ hf)) (by rw [hs]; omega)
        fun b hb ↦ ?_).imp fun r h₂ _ ⟨a', hr, ha', hfs⟩ ↦ ⟨a', hr, by omega, hw.cons hfs⟩
      rw [hw (), if_pos rfl, Bits.putField_of_notMem _ (by omega), h0 b (by omega)]

theorem does_recordRows {layout : Rv32i.Layout} {rows : List (List Int)}
    (hv : ∀ row ∈ rows, row.length = 3 ∧
      ∀ f ∈ row.zip layout.widths, 0 ≤ f.1 ∧ f.1 < 2 ^ f.2)
    (ha : a + Bits.fieldsWidth (layout.recordList rows) ≤ 8 * h.size ())
    (h0 : ∀ b, a ≤ b → h.bit () b = false) :
    Does (fun _ ↦ True) (recordRows layout rows a).run h fun r h' ↦ ∃ a', r = .ok a' ∧
      FieldsWritten () a (layout.recordList rows) h h' := by
  induction rows generalizing a h with
  | nil => exact .pure ⟨a, rfl, .nil⟩
  | cons row rows ih =>
      have hsplit : layout.recordList (row :: rows) =
        (row.zip layout.widths).map (fun f ↦ (f.2, f.1.toNat)) ++ layout.recordList rows := rfl
      rw [hsplit] at ha ⊢
      rw [Bits.fieldsWidth_append] at ha
      rw [recordRows, if_neg (by simpa using (hv row List.mem_cons_self).1)]
      refine .bindPy (Q := fun a' h' ↦
        a' = a + Bits.fieldsWidth ((row.zip layout.widths).map fun f ↦ (f.2, f.1.toNat)) ∧
          h'.size = h.size ∧
          FieldsWritten () a ((row.zip layout.widths).map fun f ↦ (f.2, f.1.toNat)) h h')
        ((does_recordFields (hv row List.mem_cons_self).2 (by omega) h0).imp
          fun r h' ev ⟨a', hr, ha', hfs⟩ ↦ ⟨a', hr, ha', ev.size_eq, hfs⟩)
        fun a' h₁ _ ⟨ha', hs, hfs⟩ ↦ ?_
      refine (ih (fun r hr ↦ hv r (List.mem_cons_of_mem _ hr)) (by rw [hs]; omega)
        fun b hb ↦ ?_).imp fun r h₂ _ ⟨a'', hr, hfs'⟩ ↦ ⟨a'', hr, hfs.append ?_⟩
      · rw [hfs (), if_pos rfl, Bits.putFields_of_notMem _ (by omega), h0 b (by omega)]
      · rwa [← ha']

/-- What `record` returns for rows in range: its fields, written into a zeroed buffer. -/
theorem record_eq {layout : Rv32i.Layout} {rows : List (List Int)}
    (hv : layout.RecordValid rows) : ∃ h', layout.recordRaw.Evolves (fun _ ↦ True) h' ∧
      FieldsWritten () 0 (layout.recordList rows) layout.recordRaw h' ∧
      record layout rows = some (.ok (h'.obj ()).bytes) := by
  have hwidth := layout.fieldsWidth_recordList hv
  obtain ⟨r, h', e, ev, a', rfl, hfs⟩ := does_recordRows (h := layout.recordRaw) (a := 0) hv.2
    (by rw [hwidth, layout.size_recordRaw, Rv32i.Layout.coreRecordBytes]; omega)
    (fun _ _ ↦ layout.bit_recordRaw _ _)
  refine ⟨h', ev, hfs, ?_⟩
  rw [record, if_neg (by simpa using hv.1)]
  change Option.map _ ((recordRows layout rows 0).run layout.recordRaw) = _
  rw [e]
  rfl

end Record

/-! ## One format -/

/-- The program is defined, and leaves the objects `obj`. -/
def Leaves {α : Type} (x : CM ι α) (h : Heap ι) (obj : ι → Buffer) : Prop :=
  ∃ a h', x h = some (a, h') ∧ h'.obj = obj

theorem Does.leaves {α : Type} {A B : Access ι → Prop} {x : CM ι α} {h h₁ : Heap ι} {p : ι}
    {a : Nat} {fs : List (Nat × Nat)} {Q : α → Prop}
    (hx : Does A x h fun r h' ↦ Q r ∧ FieldsWritten p a fs h h') (ev : h.Evolves B h₁)
    (hw : FieldsWritten p a fs h h₁) : Leaves x h h₁.obj := by
  obtain ⟨r, h', e, ev', _, hw'⟩ := hx
  exact ⟨r, h', e, hw'.obj_eq ev' ev hw⟩

/-- The format of instruction fields is one.  Reading: `get_argument` returns the bits of
every field of up to 31 bits in the object, least significant bit first, and loads only
bytes of the object.  Writing one field: all writers leave the same objects, in which only
the bits of the field differ and `get_argument` reads the value.  Writing four rows of
fields into zeroed memory: `encode` and `record` leave what `write_field_bits` leaves, field
by field. -/
theorem field_formats_agree (h : Heap ι) (p : ι) :
    (∀ src n, n < 32 → src + n ≤ 8 * h.size p → src + n ≤ 2 ^ 32 →
      Does (ReadsOf p h) (getArgument p src n) h fun v h' ↦
        (∀ i, v.testBit i = (decide (i < n) && h.bit p (src + i))) ∧ h'.obj = h.obj) ∧
    (∀ a w (v : BitVec 32), w ≤ 32 → a + w ≤ 8 * h.size p → a + w ≤ 2 ^ 32 →
      ∃ h' : Heap ι, h'.size = h.size ∧
        Leaves (writeFieldBits p a v.toNat w) h h'.obj ∧
        Leaves (field p a w v) h h'.obj ∧
        (∀ q ≠ p, ReversalTable q h → Leaves (putBits v w a p q) h h'.obj) ∧
        ((∀ i < w, h.bit p (a + i) = false) →
          Leaves (orField p (fun bit ↦ u32 (a + bit)) v.toNat w) h h'.obj ∧
          Leaves (orField p (fun bit ↦ a + bit) v.toNat w) h h'.obj) ∧
        (∀ q ≠ p, h'.obj q = h.obj q) ∧
        (∀ b, ¬(a ≤ b ∧ b < a + w) → h'.bit p b = h.bit p b) ∧
        (w < 32 → Does (ReadsOf p h') (getArgument p a w) h' fun r h'' ↦
          r = v.toNat % 2 ^ w ∧ h''.obj = h'.obj)) ∧
    (∀ (cfg : Config) base (rows : Nat → Nat), base + 4 * cfg.instructionSize ≤ 8 * h.size p →
      base + 4 * cfg.instructionSize ≤ 2 ^ 32 →
      (∀ i < 4 * cfg.instructionSize, h.bit p (base + i) = false) →
      ∃ obj, Leaves (encode cfg p base rows) h obj ∧
        Leaves (writeFields p base (rowFields cfg.nSize cfg.addressSize rows 4)) h obj) ∧
    ∀ (layout : Rv32i.Layout) rows, layout.RecordValid rows →
      ∃ obj, record layout rows = some (.ok (obj ()).bytes) ∧
        Leaves (writeFields () 0 (layout.recordList rows)) layout.recordRaw obj := by
  refine ⟨fun src n hn hsrc h32 ↦ ?_, fun a w v hw ha h32 ↦ ?_,
    fun cfg base rows ha h32 h0 ↦ ?_, fun layout rows hv ↦ ?_⟩
  · refine (does_getArgument hn hsrc h32).imp fun v h' _ ⟨hv, ho⟩ ↦ ⟨fun i ↦ ?_, ho⟩
    rw [hv, Bits.testBit_field]
  · obtain ⟨u, h', e, ev, hwr⟩ := does_writeFieldBits (v := v.toNat) ha
    refine ⟨h', ev.size_eq, ⟨u, h', e, rfl⟩, ?_, fun q hq ht ↦ ?_, fun h0 ↦ ⟨?_, ?_⟩,
      fun q hq ↦ ev.obj_eq fun b ↦ by rw [hwr q, if_neg hq], fun b hb ↦ ?_, fun hw32 ↦ ?_⟩
    · exact Does.leaves (Q := fun _ ↦ True)
        ((does_field ha h32).imp fun _ _ _ hf ↦ ⟨trivial, hf.single⟩) ev hwr.single
    · exact Does.leaves ((does_putBits hq ht hw ha h32).imp fun _ _ _ ⟨hr, hf⟩ ↦ ⟨hr, hf.single⟩)
        ev hwr.single
    · exact Does.leaves (Q := fun _ ↦ True)
        ((does_orField (fun i hi ↦ u32_of_lt (by omega)) ha h0).imp
          fun _ _ _ hf ↦ ⟨trivial, hf.single⟩) ev hwr.single
    · exact Does.leaves (Q := fun _ ↦ True)
        ((does_orField (fun _ _ ↦ rfl) ha h0).imp fun _ _ _ hf ↦ ⟨trivial, hf.single⟩)
        ev hwr.single
    · rw [hwr p, if_pos rfl, Bits.putField_of_notMem _ hb]
    · refine (does_getArgument hw32 (by rw [ev.size_eq]; exact ha) h32).imp
        fun r h'' _ ⟨hr, ho⟩ ↦ ⟨?_, ho⟩
      rw [hr, hwr p, if_pos rfl, Bits.field_putField_self]
  · obtain ⟨u, h', e, ev, hfs⟩ := does_encode rows ha h32 h0
    have hwidth := fieldsWidth_rowFields cfg.nSize cfg.addressSize rows 4
    refine ⟨h'.obj, ⟨u, h', e, rfl⟩, Does.leaves (Q := fun _ ↦ True)
      ((does_writeFields (by rw [hwidth]; exact ha)).imp fun _ _ _ hf ↦ ⟨trivial, hf⟩) ev hfs⟩
  · obtain ⟨h', ev, hfs, hr⟩ := record_eq hv
    have hwidth := layout.fieldsWidth_recordList hv
    refine ⟨h'.obj, hr, Does.leaves (Q := fun _ ↦ True) ((does_writeFields ?_).imp
      fun _ _ _ hf ↦ ⟨trivial, hf⟩) ev hfs⟩
    rw [hwidth, layout.size_recordRaw, Rv32i.Layout.coreRecordBytes]
    omega

end CopySpace
