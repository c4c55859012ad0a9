import CopySpace.Emit.Image
import CopySpace.Space.Row

/-!
# The rows of the operations

An operation appends rows to the layer that is being written: `CopyImage.append`.  The rows
depend on the slot they begin in, because they patch one another by the slots they will be
executed in.  This file has these rows for every operation, that the functions of `copy_emit.c`
append them, and what they do when they are executed: they look the result up in whatever table
the space holds by then.
-/

namespace CopySpace

open BitMachine

/-- The row fits into its fields, and its intervals into the space. -/
structure Instruction.Valid (cfg : Config) (row : Instruction) : Prop where
  n_lt : row.n < 2 ^ cfg.nSize
  dst_le : row.dst + row.n ≤ cfg.spaceSize
  src_le : row.src + row.n ≤ cfg.spaceSize
  dst_lt : row.dst < cfg.spaceSize
  src_lt : row.src < cfg.spaceSize

/-- The emulators that programs are emitted for. -/
structure Target (cfg : Config) : Prop where
  slots : cfg.processorN = 256
  space : cfg.spaceSize = 2 ^ cfg.addressSize
  five_le : 5 ≤ cfg.addressSize
  layer : cfg.layerBits < 2 ^ cfg.nSize

/-- The emulators that single layers are emitted for: the length of a layer need not be the length
of a row. -/
structure Roomy (cfg : Config) : Prop where
  slots : cfg.processorN = 256
  space : cfg.spaceSize = 2 ^ cfg.addressSize
  five_le : 5 ≤ cfg.addressSize
  layer_le : cfg.layerBits ≤ cfg.spaceSize

namespace Target

variable {cfg : Config} {m : Bits} {a : Nat} {row : Instruction} {rows : List Instruction}

theorem layerBits_eq (ht : Target cfg) : cfg.layerBits = 256 * cfg.instructionSize := by
  rw [Config.layerBits, ht.slots]

theorem instructionSize_eq (ht : Target cfg) :
    cfg.instructionSize = 3 * cfg.addressSize - 1 := by
  have h5 := ht.five_le
  unfold Config.instructionSize Config.nSize
  omega

theorem two_pow_le (ht : Target cfg) : 2 ^ cfg.nSize ≤ cfg.spaceSize := by
  rw [ht.space]
  exact Nat.pow_le_pow_right (by decide) (Nat.sub_le _ _)

theorem fits (ht : Target cfg) (h : row.Valid cfg) : row.Fits cfg :=
  ⟨h.n_lt, h.dst_lt.trans_eq ht.space, h.src_lt.trans_eq ht.space⟩

theorem rowsAt_putRows (ht : Target cfg) (h : ∀ row ∈ rows, row.Valid cfg) :
    RowsAt cfg (m.putRows cfg a rows) a rows :=
  BitMachine.rowsAt_putRows fun row hr ↦ ht.fits (h row hr)

theorem roomy (ht : Target cfg) : Roomy cfg :=
  ⟨ht.slots, ht.space, ht.five_le, ht.layer.le.trans ht.two_pow_le⟩

end Target

namespace Roomy

variable {cfg : Config} {m : Bits} {a : Nat} {row : Instruction} {rows : List Instruction}

theorem layerBits_eq (ht : Roomy cfg) : cfg.layerBits = 256 * cfg.instructionSize := by
  rw [Config.layerBits, ht.slots]

theorem two_lt (ht : Roomy cfg) : 2 < 2 ^ cfg.nSize := by
  have h5 := ht.five_le
  have hpow := Nat.pow_le_pow_right (show 0 < 2 by decide) (show 2 ≤ cfg.nSize by
    unfold Config.nSize
    omega)
  omega

theorem rowsAt_putRows (ht : Roomy cfg) (h : ∀ row ∈ rows, row.Valid cfg) :
    RowsAt cfg (m.putRows cfg a rows) a rows :=
  BitMachine.rowsAt_putRows fun row hr ↦
    ⟨(h row hr).n_lt, (h row hr).dst_lt.trans_eq ht.space, (h row hr).src_lt.trans_eq ht.space⟩

end Roomy

namespace Emit

variable {cfg : Config} {image : CopyImage}

/-! ## Appending rows -/

theorem fits_iff {address width limit : Nat} : fits address width limit ↔ address + width ≤ limit :=
  ⟨fun h ↦ by unfold fits at h; omega, fun h ↦ by unfold fits; omega⟩

/-- The image is written for this emulator. -/
structure CopyImage.For (cfg : Config) (image : CopyImage) : Prop where
  addressBits : image.addressBits = cfg.addressSize
  countBits : image.countBits = cfg.nSize
  instructionBits : image.instructionBits = cfg.instructionSize
  spaceBits : image.spaceBits = cfg.spaceSize
  layerBits : image.layerBits = cfg.layerBits

/-- Append rows to the layer. -/
def CopyImage.append (cfg : Config) (rows : List Instruction) (image : CopyImage) : CopyImage :=
  { image with
    data := image.data.putRows cfg (image.layer + image.slot * cfg.instructionSize) rows
    slot := image.slot + rows.length }

theorem CopyImage.For.append (h : image.For cfg) (rows : List Instruction) :
    (image.append cfg rows).For cfg := ⟨h.1, h.2, h.3, h.4, h.5⟩

theorem CopyImage.append_append (rows rows' : List Instruction) :
    (image.append cfg rows).append cfg rows' = image.append cfg (rows ++ rows') := by
  simp only [CopyImage.append, Bits.putRows_append, List.length_append, Nat.add_mul, Nat.add_assoc]

theorem rowValid_iff (h : image.For cfg) {slot : Nat} (hs : slot < 256) {row : Instruction} :
    rowValid image slot row.n row.dst row.src ↔ row.Valid cfg := by
  unfold rowValid
  rw [fits_iff, fits_iff, h.spaceBits, h.countBits]
  exact ⟨fun ⟨_, h₁, h₂, h₃, h₄, h₅⟩ ↦ ⟨h₁, h₂, h₃, h₄, h₅⟩,
    fun ⟨h₁, h₂, h₃, h₄, h₅⟩ ↦ ⟨hs, h₁, h₂, h₃, h₄, h₅⟩⟩

/-- `cs_copy_row` writes a row. -/
theorem csCopyRow_eq (h : image.For cfg) {slot : Nat} (hs : slot < 256) {row : Instruction}
    (hr : row.Valid cfg) : csCopyRow image slot row.n row.dst row.src =
      (0, { image with
        data := image.data.putRow cfg (image.layer + slot * cfg.instructionSize) row }) := by
  rw [csCopyRow, if_neg (not_not.mpr ((rowValid_iff h hs).mpr hr))]
  simp only [CopyImage.field, Bits.putRow, h.instructionBits, h.countBits, h.addressBits]

/-- `cs_copy_emit` appends a row. -/
theorem csCopyEmit_eq (h : image.For cfg) (hs : image.slot < 255) {row : Instruction}
    (hr : row.Valid cfg) :
    csCopyEmit image row.n row.dst row.src = (0, image.append cfg [row]) := by
  rw [csCopyEmit, if_neg (by omega), csCopyRow_eq h (by omega) hr]
  rfl

/-- Emit rows, their statuses ignored. -/
def emitRows (rows : List Instruction) (image : CopyImage) : CopyImage :=
  rows.foldl (fun image row ↦ emit row.n row.dst row.src image) image

theorem emitRows_eq {rows : List Instruction} (h : image.For cfg)
    (hr : ∀ row ∈ rows, row.Valid cfg) (hs : image.slot + rows.length ≤ 255) :
    emitRows rows image = image.append cfg rows := by
  induction rows generalizing image with
  | nil => rfl
  | cons row rows ih =>
      rw [List.length_cons] at hs
      have he : emit row.n row.dst row.src image = image.append cfg [row] := by
        rw [emit, csCopyEmit_eq h (by omega) (hr row List.mem_cons_self)]
      rw [emitRows, List.foldl_cons, he]
      have hs : (image.append cfg [row]).slot + rows.length ≤ 255 := by
        change image.slot + 1 + rows.length ≤ 255
        omega
      rw [← emitRows, ih (h.append _) (fun r hr' ↦ hr r (List.mem_cons_of_mem _ hr')) hs,
        CopyImage.append_append]
      rfl

/-- A loop that emits the same number of rows for each number below `n`. -/
theorem foldl_append {f : CopyImage → Nat → CopyImage} {rows : Nat → List Instruction} {n c : Nat}
    (h : image.For cfg) (hc : ∀ b < n, (rows b).length = c)
    (hf : ∀ b < n, ∀ next : CopyImage, next.For cfg → next.slot = image.slot + c * b →
      f next b = next.append cfg (rows b)) :
    (List.range n).foldl f image = image.append cfg ((List.range n).flatMap rows) := by
  induction n with
  | zero => rfl
  | succ n ih =>
      rw [List.range_succ, List.foldl_append, List.flatMap_append, List.flatMap_singleton,
        ih (fun b hb ↦ hc b (by omega)) fun b hb ↦ hf b (by omega), ← CopyImage.append_append]
      refine hf n (Nat.lt_succ_self n) _ (h.append _) ?_
      change image.slot + _ = _
      rw [length_flatMap_range fun b hb ↦ hc b (Nat.lt_succ_of_lt hb)]

/-! ## Looking up bits -/

/-- The entry of an addition's table that the bits of the operands select. -/
def arithmeticEntry (left right table carry : Nat) (D : Bits) (bit : Nat) : Nat :=
  table + 2 * D.field (left + bit) 1 + 4 * D.field (right + bit) 1 + 8 * D.field carry 1

/-- What the rows for one bit of an addition do. -/
def arithmeticStep (destination left right table temporary carry : Nat) (D : Bits) (bit : Nat) :
    Bits :=
  ((D.blit 2 temporary (arithmeticEntry left right table carry D bit)).blit 1 (destination + bit)
    temporary).blit 1 carry (temporary + 1)

/-- What the rows for one bit of a bit operation do. -/
def bitsStep (destination left right table : Nat) (D : Bits) (bit : Nat) : Bits :=
  D.blit 1 (destination + bit) (table + D.field (left + bit) 1 + 2 * D.field (right + bit) 1)

/-- The rows for one bit of an addition, from slot `i` on. -/
def arithmeticRows (cfg : Config) (destination left right table temporary carry i bit : Nat) :
    List Instruction :=
  [⟨1, cfg.srcBit (i + 3) 1, left + bit⟩, ⟨1, cfg.srcBit (i + 3) 2, right + bit⟩,
    ⟨1, cfg.srcBit (i + 3) 3, carry⟩, ⟨2, temporary, table⟩, ⟨1, destination + bit, temporary⟩,
    ⟨1, carry, temporary + 1⟩]

/-- The rows for one bit of a bit operation, from slot `i` on. -/
def bitsRows (cfg : Config) (destination left right table i bit : Nat) : List Instruction :=
  [⟨1, cfg.srcBit (i + 2) 0, left + bit⟩, ⟨1, cfg.srcBit (i + 2) 1, right + bit⟩,
    ⟨1, destination + bit, table⟩]

/-- The rows of an addition or subtraction, from slot `i` on. -/
def arithmetic32Rows (cfg : Config) (destination left right table temporary carry i : Nat) :
    List Instruction :=
  ⟨1, carry, table⟩ :: (List.range 32).flatMap fun bit ↦
    arithmeticRows cfg destination left right table temporary carry (i + 1 + 6 * bit) bit

/-- The rows of a bit operation, from slot `i` on. -/
def bits32Rows (cfg : Config) (destination left right table i : Nat) : List Instruction :=
  (List.range 32).flatMap fun bit ↦
    bitsRows cfg destination left right table (i + 3 * bit) bit

/-- What the rows of an addition or subtraction do. -/
def arithmetic32Lookup (destination left right table temporary carry : Nat) (D : Bits) : Bits :=
  (List.range 32).foldl (arithmeticStep destination left right table temporary carry)
    (D.blit 1 carry table)

/-- What the rows of a bit operation do. -/
def bits32Lookup (destination left right table : Nat) (D : Bits) : Bits :=
  (List.range 32).foldl (bitsStep destination left right table) D

/-- What an addition or subtraction writes into the image besides its rows. -/
def arithmeticTables (subtract : Bool) (table carry : Nat) (m : Bits) : Bits :=
  ((List.range 8).foldl
    (fun m i ↦ m.putField (table + 2 * i) 2 (arithmeticTruth subtract i)) m).putField carry 1 0

variable {destination left right table temporary carry i bit : Nat} {D : Bits}

theorem performs_bitsRows (hi : 3 ≤ i) (h2 : 2 ≤ cfg.addressSize) (htable : table % 4 = 0)
    (hb : bit < 32) (hd : Behind cfg destination 32) (hl : Behind cfg left 32)
    (hr : Behind cfg right 32) (ht : Behind cfg table 4) :
    Performs cfg i (bitsRows cfg destination left right table i bit) D
      (bitsStep destination left right table D bit) := by
  have ha := Bits.field_lt D (left + bit) 1
  have hc := Bits.field_lt D (right + bit) 1
  have hsrc₁ : Bits.splice 0 1 (D.field (left + bit) 1) table =
      table + D.field (left + bit) 1 := by
    rw [Bits.splice_of_zero ha (by omega), Nat.pow_zero, Nat.one_mul]
  have hsrc₂ : Bits.splice 1 1 (D.field (right + bit) 1) (table + D.field (left + bit) 1) =
      table + D.field (left + bit) 1 + 2 * D.field (right + bit) 1 :=
    Bits.splice_of_zero hc (by omega)
  unfold Behind at hd hl hr ht
  refine .patchSrc (k := 1) hi one_ne_zero (by omega) (by simp) ⟨by omega, by omega⟩ ?_
  simp only [List.modify_succ_cons, List.modify_zero_cons, Instruction.patchSrc, hsrc₁]
  refine .patchSrc (k := 0) (by omega) one_ne_zero (by omega) (by simp) ⟨by omega, by omega⟩ ?_
  simp only [List.modify_zero_cons, Instruction.patchSrc, hsrc₂]
  exact .copy (by omega) (fun _ ↦ ⟨by omega, by omega⟩)
    (fun _ ↦ ⟨by omega, by omega⟩) performs_nil

theorem performs_arithmeticRows (hi : 3 ≤ i) (h5 : 5 ≤ cfg.addressSize) (htable : table % 16 = 0)
    (hb : bit < 32) (hd : Behind cfg destination 32) (hl : Behind cfg left 32)
    (hr : Behind cfg right 32) (ht : Behind cfg table 16) (hm : Behind cfg temporary 2)
    (hc : Behind cfg carry 1) :
    Performs cfg i (arithmeticRows cfg destination left right table temporary carry i bit) D
      (arithmeticStep destination left right table temporary carry D bit) := by
  have h₁ := Bits.field_lt D (left + bit) 1
  have h₂ := Bits.field_lt D (right + bit) 1
  have h₃ := Bits.field_lt D carry 1
  have hsrc₁ : Bits.splice 1 1 (D.field (left + bit) 1) table =
      table + 2 * D.field (left + bit) 1 := Bits.splice_of_zero h₁ (by omega)
  have hsrc₂ : Bits.splice 2 1 (D.field (right + bit) 1) (table + 2 * D.field (left + bit) 1) =
      table + 2 * D.field (left + bit) 1 + 4 * D.field (right + bit) 1 :=
    Bits.splice_of_zero h₂ (by omega)
  have hsrc₃ : Bits.splice 3 1 (D.field carry 1)
      (table + 2 * D.field (left + bit) 1 + 4 * D.field (right + bit) 1) =
      arithmeticEntry left right table carry D bit := Bits.splice_of_zero h₃ (by omega)
  have hentry : Behind cfg (arithmeticEntry left right table carry D bit) 2 := by
    unfold Behind arithmeticEntry at *
    omega
  unfold Behind at hd hl hr
  refine .patchSrc (k := 2) hi one_ne_zero (by omega) (by simp) ⟨by omega, by omega⟩ ?_
  simp only [List.modify_succ_cons, List.modify_zero_cons, Instruction.patchSrc, hsrc₁]
  refine .patchSrc (k := 1) (by omega) one_ne_zero (by omega) (by simp) ⟨by omega, by omega⟩ ?_
  simp only [List.modify_succ_cons, List.modify_zero_cons, Instruction.patchSrc, hsrc₂]
  refine .patchSrc (k := 0) (by omega) one_ne_zero (by omega) (by simp) hc ?_
  simp only [List.modify_zero_cons, Instruction.patchSrc, hsrc₃]
  refine .copy (by omega) (fun _ ↦ hm) (fun _ ↦ hentry) ?_
  unfold Behind at hm
  refine .copy (by omega) (fun _ ↦ ⟨by omega, by omega⟩)
    (fun _ ↦ ⟨by omega, by omega⟩) ?_
  exact .copy (by omega) (fun _ ↦ hc) (fun _ ↦ ⟨by omega, by omega⟩)
    performs_nil

theorem performs_bits32Rows (hi : 3 ≤ i) (h2 : 2 ≤ cfg.addressSize) (htable : table % 4 = 0)
    (hd : Behind cfg destination 32) (hl : Behind cfg left 32) (hr : Behind cfg right 32)
    (ht : Behind cfg table 4) :
    Performs cfg i (bits32Rows cfg destination left right table i) D
      (bits32Lookup destination left right table D) := by
  refine performs_range (c := 3) (fun _ _ ↦ rfl) (fun bit hb D ↦ ?_) D
  exact performs_bitsRows (by omega) h2 htable hb hd hl hr ht

theorem performs_arithmetic32Rows (hi : 3 ≤ i) (h5 : 5 ≤ cfg.addressSize)
    (htable : table % 16 = 0) (hd : Behind cfg destination 32) (hl : Behind cfg left 32)
    (hr : Behind cfg right 32) (ht : Behind cfg table 16) (hm : Behind cfg temporary 2)
    (hc : Behind cfg carry 1) :
    Performs cfg i (arithmetic32Rows cfg destination left right table temporary carry i) D
      (arithmetic32Lookup destination left right table temporary carry D) := by
  refine .copy hi (fun _ ↦ hc) (fun _ ↦ ⟨ht.1, by unfold Behind at ht; omega⟩) ?_
  refine performs_range (c := 6) (fun _ _ ↦ rfl) (fun bit hb D ↦ ?_) _
  exact performs_arithmeticRows (by omega) h5 htable hb hd hl hr ht hm hc

theorem length_arithmetic32Rows :
    (arithmetic32Rows cfg destination left right table temporary carry i).length = 193 := by
  rw [arithmetic32Rows, List.length_cons, length_flatMap_range (c := 6) fun _ _ ↦ rfl]

theorem length_bits32Rows : (bits32Rows cfg destination left right table i).length = 96 :=
  length_flatMap_range (c := 3) fun _ _ ↦ rfl

/-! ## The functions append these rows -/

theorem valid_patch (ht : Roomy cfg) {off src : Nat} (hi : i < 256)
    (hoff : off + 1 ≤ cfg.addressSize) (hsrc : Behind cfg src 1) :
    Instruction.Valid cfg ⟨1, cfg.srcBit i off, src⟩ := by
  have hI : cfg.instructionSize = cfg.nSize + 2 * cfg.addressSize := rfl
  have hlayer := ht.layerBits_eq
  have htwo := ht.two_lt
  have hle := ht.layer_le
  have hslot : (i + 1) * cfg.instructionSize ≤ 256 * cfg.instructionSize :=
    Nat.mul_le_mul_right _ hi
  have h5 := ht.five_le
  unfold Behind at hsrc
  rw [Nat.succ_mul] at hslot
  refine ⟨?_, ?_, ?_, ?_, ?_⟩
  all_goals
    dsimp only [Config.srcBit]
    omega

theorem valid_copy (ht : Roomy cfg) {n dst src : Nat} (h0 : 0 < n) (hn : n ≤ 2)
    (hdst : Behind cfg dst n) (hsrc : Behind cfg src n) :
    Instruction.Valid cfg ⟨n, dst, src⟩ := by
  have hI : cfg.instructionSize = cfg.nSize + 2 * cfg.addressSize := rfl
  have hlayer := ht.layerBits_eq
  have htwo := ht.two_lt
  have h5 := ht.five_le
  unfold Behind at hdst hsrc
  refine ⟨?_, ?_, ?_, ?_, ?_⟩
  all_goals
    dsimp only
    omega

theorem valid_arithmeticRows (hg : Roomy cfg) (hi : i + 6 ≤ 255) (hb : bit < 32)
    (hd : Behind cfg destination 32) (hl : Behind cfg left 32) (hr : Behind cfg right 32)
    (ht : Behind cfg table 16) (hm : Behind cfg temporary 2) (hc : Behind cfg carry 1) :
    ∀ row ∈ arithmeticRows cfg destination left right table temporary carry i bit,
      row.Valid cfg := by
  have h5 := hg.five_le
  unfold Behind at hd hl hr ht hm
  simp only [arithmeticRows, List.forall_mem_cons, List.not_mem_nil, IsEmpty.forall_iff,
    implies_true, and_true]
  exact ⟨valid_patch hg (by omega) (by omega) ⟨by omega, by omega⟩,
    valid_patch hg (by omega) (by omega) ⟨by omega, by omega⟩,
    valid_patch hg (by omega) (by omega) hc,
    valid_copy hg (by omega) le_rfl hm ⟨by omega, by omega⟩,
    valid_copy hg one_pos (by omega) ⟨by omega, by omega⟩ ⟨by omega, by omega⟩,
    valid_copy hg one_pos (by omega) hc ⟨by omega, by omega⟩⟩

theorem valid_bitsRows (hg : Roomy cfg) (hi : i + 3 ≤ 255) (hb : bit < 32)
    (hd : Behind cfg destination 32) (hl : Behind cfg left 32) (hr : Behind cfg right 32)
    (ht : Behind cfg table 4) :
    ∀ row ∈ bitsRows cfg destination left right table i bit, row.Valid cfg := by
  have h5 := hg.five_le
  unfold Behind at hd hl hr ht
  simp only [bitsRows, List.forall_mem_cons, List.not_mem_nil, IsEmpty.forall_iff,
    implies_true, and_true]
  exact ⟨valid_patch hg (by omega) (by omega) ⟨by omega, by omega⟩,
    valid_patch hg (by omega) (by omega) ⟨by omega, by omega⟩,
    valid_copy hg one_pos (by omega) ⟨by omega, by omega⟩ ⟨by omega, by omega⟩⟩

theorem valid_arithmetic32Rows (hg : Roomy cfg) (hi : i + 193 ≤ 255)
    (hd : Behind cfg destination 32) (hl : Behind cfg left 32) (hr : Behind cfg right 32)
    (ht : Behind cfg table 16) (hm : Behind cfg temporary 2) (hc : Behind cfg carry 1) :
    ∀ row ∈ arithmetic32Rows cfg destination left right table temporary carry i,
      row.Valid cfg := by
  intro row hrow
  rcases List.mem_cons.mp hrow with rfl | hrow
  · exact valid_copy hg one_pos (by omega) hc ⟨ht.1, by unfold Behind at ht; omega⟩
  · obtain ⟨bit, hb, hrow⟩ := List.mem_flatMap.mp hrow
    rw [List.mem_range] at hb
    exact valid_arithmeticRows hg (by omega) hb hd hl hr ht hm hc row hrow

theorem valid_bits32Rows (hg : Roomy cfg) (hi : i + 96 ≤ 255)
    (hd : Behind cfg destination 32) (hl : Behind cfg left 32) (hr : Behind cfg right 32)
    (ht : Behind cfg table 4) :
    ∀ row ∈ bits32Rows cfg destination left right table i, row.Valid cfg := by
  intro row hrow
  obtain ⟨bit, hb, hrow⟩ := List.mem_flatMap.mp hrow
  rw [List.mem_range] at hb
  exact valid_bitsRows hg (by omega) hb hd hl hr ht row hrow

theorem srcBit_eq (h : image.For cfg) (i off : Nat) :
    i * image.instructionBits + image.countBits + image.addressBits + off = cfg.srcBit i off := by
  rw [h.instructionBits, h.countBits, h.addressBits, Config.srcBit, Nat.add_assoc, Nat.add_assoc,
    Nat.add_assoc]

theorem arithmeticBit_eq (hg : Roomy cfg) (h : image.For cfg) (hs : image.slot + 6 ≤ 255)
    (hb : bit < 32) (hd : Behind cfg destination 32) (hl : Behind cfg left 32)
    (hr : Behind cfg right 32) (ht : Behind cfg table 16) (hm : Behind cfg temporary 2)
    (hc : Behind cfg carry 1) :
    arithmeticBit destination left right table temporary carry image bit =
      image.append cfg
        (arithmeticRows cfg destination left right table temporary carry image.slot bit) := by
  rw [← emitRows_eq h (valid_arithmeticRows hg hs hb hd hl hr ht hm hc) hs]
  simp only [arithmeticBit, srcBit_eq h]
  rfl

theorem bitsBit_eq (hg : Roomy cfg) (h : image.For cfg) (hs : image.slot + 3 ≤ 255)
    (hb : bit < 32) (hd : Behind cfg destination 32) (hl : Behind cfg left 32)
    (hr : Behind cfg right 32) (ht : Behind cfg table 4) :
    bitsBit destination left right table image bit =
      image.append cfg (bitsRows cfg destination left right table image.slot bit) := by
  rw [← emitRows_eq h (valid_bitsRows hg hs hb hd hl hr ht) hs]
  have h0 := srcBit_eq h (image.slot + 2) 0
  rw [Nat.add_zero] at h0
  simp only [bitsBit, h0]
  rfl

/-- Writes into the image apart from its rows. -/
def CopyImage.onData (f : Bits → Bits) (image : CopyImage) : CopyImage :=
  { image with data := f image.data }

theorem CopyImage.For.onData (h : image.For cfg) (f : Bits → Bits) : (image.onData f).For cfg :=
  ⟨h.1, h.2, h.3, h.4, h.5⟩

theorem foldl_field (a v : Nat → Nat) (w : Nat) (l : List Nat) (image : CopyImage) :
    l.foldl (fun image i ↦ image.field (a i) w (v i)) image =
      image.onData fun m ↦ l.foldl (fun m i ↦ m.putField (a i) w (v i)) m := by
  induction l generalizing image with
  | nil => rfl
  | cons i l ih => rw [List.foldl_cons, ih]; rfl

theorem foldl_arithmeticBit (hg : Roomy cfg) (h : image.For cfg) (hs : image.slot + 192 ≤ 255)
    (hd : Behind cfg destination 32) (hl : Behind cfg left 32) (hr : Behind cfg right 32)
    (ht : Behind cfg table 16) (hm : Behind cfg temporary 2) (hc : Behind cfg carry 1) :
    (List.range 32).foldl (arithmeticBit destination left right table temporary carry) image =
      image.append cfg ((List.range 32).flatMap fun bit ↦
        arithmeticRows cfg destination left right table temporary carry (image.slot + 6 * bit)
          bit) :=
  foldl_append (c := 6) h (fun _ _ ↦ rfl) fun bit hb next hf hslot ↦ by
  rw [arithmeticBit_eq hg hf (by omega) hb hd hl hr ht hm hc, hslot]

theorem foldl_bitsBit (hg : Roomy cfg) (h : image.For cfg) (hs : image.slot + 96 ≤ 255)
    (hd : Behind cfg destination 32) (hl : Behind cfg left 32) (hr : Behind cfg right 32)
    (ht : Behind cfg table 4) :
    (List.range 32).foldl (bitsBit destination left right table) image =
      image.append cfg (bits32Rows cfg destination left right table image.slot) :=
  foldl_append (c := 3) h (fun _ _ ↦ rfl) fun bit hb next hf hslot ↦ by
  rw [bitsBit_eq hg hf (by omega) hb hd hl hr ht, hslot]

/-- `arithmetic32` writes its table and appends its rows. -/
theorem arithmetic32_eq (hg : Roomy cfg) (h : image.For cfg) (subtract : Bool)
    (hv : addValid image destination left right table temporary carry)
    (hd : Behind cfg destination 32) (hl : Behind cfg left 32)
    (hr : Behind cfg right 32) (ht : Behind cfg table 16) (hm : Behind cfg temporary 2)
    (hc : Behind cfg carry 1) :
    arithmetic32 image subtract destination left right table temporary carry =
      (0, (image.onData (arithmeticTables subtract table carry)).append cfg
        (arithmetic32Rows cfg destination left right table temporary carry image.slot)) := by
  have hs : image.slot ≤ 255 - 193 := hv.1.2.1
  have hcarry : Instruction.Valid cfg ⟨1, carry, table⟩ :=
    valid_copy hg one_pos (by omega) hc ⟨ht.1, by unfold Behind at ht; omega⟩
  have h₁ := h.onData (arithmeticTables subtract table carry)
  have hemit : emit 1 carry table (image.onData (arithmeticTables subtract table carry)) =
      (image.onData (arithmeticTables subtract table carry)).append cfg [⟨1, carry, table⟩] :=
    congrArg Prod.snd (csCopyEmit_eq h₁ (show image.slot < 255 by omega) hcarry)
  rw [arithmetic32, if_neg (not_not.mpr hv), foldl_field]
  change (0, (List.range 32).foldl _ (emit 1 carry table
    (image.onData (arithmeticTables subtract table carry)))) = _
  rw [hemit, foldl_arithmeticBit hg (h₁.append _) _ hd hl hr ht hm hc, CopyImage.append_append]
  · rfl
  · change image.slot + 1 + 192 ≤ 255
    omega

/-- `cs_copy_bits32` writes its table and appends its rows. -/
theorem csCopyBits32_eq (hg : Roomy cfg) (h : image.For cfg) (operation : BitOperation)
    (hv : bitsValid image destination left right table)
    (hd : Behind cfg destination 32) (hl : Behind cfg left 32)
    (hr : Behind cfg right 32) (ht : Behind cfg table 4) :
    csCopyBits32 image operation destination left right table =
      (0, (image.onData fun m ↦ m.putField table 4 operation.truth).append cfg
        (bits32Rows cfg destination left right table image.slot)) := by
  have hs : image.slot ≤ 255 - 96 := hv.1.1
  rw [csCopyBits32, if_neg (not_not.mpr hv)]
  change (0, (List.range 32).foldl _
    (image.onData fun m ↦ m.putField table 4 operation.truth)) = _
  rw [foldl_bitsBit hg (h.onData _) (show image.slot + 96 ≤ 255 by omega) hd hl hr ht]
  rfl

end Emit

end CopySpace
