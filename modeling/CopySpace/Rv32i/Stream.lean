import CopySpace.Core.Image
import CopySpace.Lib.Numeral

/-!
# `rv32i_stream.py`: installation records

An installation record is four rows.  Row 1 copies nothing, and its two addresses carry a
literal; row 0 copies the literal from the buffer to its place, and row 3 loads the core again
from its second copy.  `encode_stream` writes such a record for every chunk, and behind them one
that loads a layer.  `cc-install` writes the same records into a space of 2 MiB.
-/

namespace CopySpace

/-! ## The core in a layout -/

namespace Rv32i.Layout

variable (layout : Layout)

/-- The sizes of the core have the same values in all layouts. -/
theorem core_sizes_config : layout.config.coreEntryShift = 9 ∧
    bitLength (4 * layout.instructionBits - 1) = 9 ∧
    layout.config.coreInputBits = 8 * layout.coreRecordBytes ∧
    layout.config.coreTableBits ≤ 2 ^ 20 := by
  have h₁ := layout.addressBits_ge
  have h₂ := layout.addressBits_le
  unfold Config.coreTableBits Config.coreEntryShift Config.coreStatusBits Config.coreInputBits
    Config.coreLayerBits coreRecordBytes
  rw [instructionSize_config, instructionBits, nBits]
  generalize layout.addressBits = A at h₁ h₂ ⊢
  interval_cases A <;> decide

theorem spaceSize_eq : layout.config.spaceSize = 2 ^ layout.addressBits := by
  rw [spaceSize_config, spaceBits_eq]

theorem coreLayerBits_config : layout.config.coreLayerBits = 4 * layout.instructionBits := by
  rw [Config.coreLayerBits, instructionSize_config]

theorem layerBits_eq : layout.layerBits = 256 * (3 * layout.addressBits - 1) := by
  have h := layout.addressBits_ge
  unfold layerBits instructionBits nBits slots
  omega

theorem processorBits_config : layout.config.processorBits = layout.layerBits := by
  have h₁ := layout.addressBits_le
  have h₂ := layout.layerBits_eq
  rw [Config.processorBits, instructionSize_config]
  exact u32_of_lt (show layout.layerBits < _ by omega)

/-- Every layout passes the checks of the headers, and the core ends where addresses reach. -/
theorem coreGood : layout.config.CoreGood := by
  have h₁ := layout.addressBits_ge
  have h₂ := layout.addressBits_le
  refine Config.coreGood ⟨(by decide : 4 ≤ slots), ?_, ?_, ?_⟩ ?_ ?_
  · rw [addressSize_config]; omega
  · rw [addressSize_config]; omega
  · rw [spaceSize_eq, processorBits_config, layerBits_eq]
    generalize layout.addressBits = A at h₁ h₂ ⊢
    interval_cases A <;> decide
  · unfold Config.CoreConfigurationValid Config.coreTableStart Config.coreErrorZeroStart
      Config.coreErrorMessageStart Config.coreRestartStart Config.coreBufferStart
      Config.coreBootBits Config.coreTableBits Config.coreEntryShift Config.coreStatusBits
      Config.coreInputBits Config.coreLayerBits
    rw [spaceSize_eq, processorBits_config, layerBits_eq, Config.instructionSize, Config.nSize,
      addressSize_config]
    generalize layout.addressBits = A at h₁ h₂ ⊢
    interval_cases A <;> decide
  · unfold Config.CoreExact Config.exactTable Config.exactZero Config.exactBuffer
      Config.coreBootBits Config.coreTableBits Config.coreEntryShift Config.coreStatusBits
      Config.coreInputBits Config.coreLayerBits Config.instructionSize Config.nSize
    rw [addressSize_config, show layout.config.processorN = 256 from rfl]
    generalize layout.addressBits = A at h₁ h₂ ⊢
    interval_cases A <;> decide

theorem coreBufferStart_config : layout.config.coreBufferStart = layout.coreBuffer := by
  have h₁ := layout.addressBits_le
  have h₂ := layout.layerBits_eq
  rw [Config.coreBufferStart, processorBits_config, coreBuffer, u32_of_lt (n := _ + 7) (by omega),
    u32_of_lt (by omega)]

theorem coreRestartStart_config : layout.config.coreRestartStart = layout.coreRestart := by
  obtain ⟨h₁, h₂, -, -⟩ := layout.core_sizes_config
  rw [layout.coreGood.restart_eq, layout.coreGood.boot_eq, coreBufferStart_config, coreRestart, h₁,
    h₂, Nat.one_shiftLeft]

end Rv32i.Layout

/-! ## Records -/

namespace Rv32i

/-- `NOP`. -/
def nop : List Int := [0, 0, 0]

namespace Layout

variable (layout : Layout)

/-- `value`: the bits of a chunk, the first one as the least significant. -/
def literalValue (chunk : List Byte) : Nat :=
  ((List.range (layout.literalBytes * 8)).map fun i ↦
    (((chunk.getD (i / 8) 0).toNat >>> (7 - i % 8)) &&& 1) <<< i).sum

/-- The rows that install `chunk` at byte `start`. -/
def installRows (start : Nat) (chunk : List Byte) : List (List Int) :=
  let value := layout.literalValue chunk
  [[(layout.literalBytes * 8 : Nat), (start * 8 : Nat),
      (layout.coreBuffer + layout.instructionBits + layout.nBits : Nat)],
    [0, (value &&& (1 <<< layout.addressBits - 1) : Nat), (value >>> layout.addressBits : Nat)],
    nop, [(4 * layout.instructionBits : Nat), 0, (layout.coreRestart : Nat)]]

/-- The rows that load the layer at `label`. -/
def loadRows (label : Nat) : List (List Int) :=
  [nop, nop, nop, [(layout.layerBits : Nat), 0, (label : Nat)]]

/-- The records of `encode_stream`, for chunks with the bytes at which they begin. -/
def installation (label : Nat) : List (Nat × List Byte) → ExceptT String Option (List Byte)
  | [] => do
      let raw ← record layout (layout.loadRows label)
      pure raw.toList
  | (start, chunk) :: chunks => do
      let raw ← record layout (layout.installRows start chunk)
      let installation ← installation label chunks
      pure (raw.toList ++ installation)

end Layout

end Rv32i

/-! ## The bits of a record -/

/-- The sum of bits at their places is the field that holds them. -/
theorem Bits.sum_eq_field (m : Bits) (n : Nat) :
    ((List.range n).map fun i ↦ (m i).toNat <<< i).sum = m.field 0 n := by
  induction n with
  | zero => rfl
  | succ n ih =>
      rw [List.range_succ, List.map_append, List.sum_append, ih, field_add, field_one, Nat.zero_add,
        List.map_singleton, List.sum_singleton, Nat.shiftLeft_eq, Nat.mul_comm]

theorem Array.getD_toList_byte (bs : Array Byte) (i : Nat) : bs.toList.getD i 0 = bs.getD i 0 := by
  simp [List.getD_eq_getElem?_getD, Array.getD_eq_getD_getElem?]

namespace Rv32i.Layout

variable {layout : Layout} {start label : Nat} {chunk : List Byte} {rows : List (List Int)}

theorem literalValue_eq :
    layout.literalValue chunk = (Bits.ofBytes chunk).field 0 (layout.literalBytes * 8) := by
  rw [← Bits.sum_eq_field, literalValue]
  refine congrArg List.sum (List.map_congr_left fun i _ ↦ congrArg (· <<< i) ?_)
  rw [Nat.and_one_is_mod, Nat.shiftRight_eq_div_pow, ← Nat.toNat_testBit]
  rfl

/-- The numbers of four rows, one after the other. -/
def numbers (rows : List (List Int)) (i : Nat) : Nat := (rows.flatten.getD i 0).toNat

theorem recordList_eq (hv : layout.RecordValid rows) :
    layout.recordList rows = rowFields layout.nBits layout.addressBits (numbers rows) 4 := by
  obtain ⟨hlen, hrows⟩ := hv
  match rows, hlen with
  | [r₀, r₁, r₂, r₃], _ =>
      match r₀, (hrows r₀ (by simp)).1, r₁, (hrows r₁ (by simp)).1, r₂, (hrows r₂ (by simp)).1,
        r₃, (hrows r₃ (by simp)).1 with
      | [_, _, _], _, [_, _, _], _, [_, _, _], _, [_, _, _], _ => rfl

/-- A record holds the four rows as the core encodes them. -/
theorem record_layer (hv : layout.RecordValid rows) : ∃ raw, record layout rows = some (.ok raw) ∧
    raw.size = layout.coreRecordBytes ∧ ∀ i < layout.config.coreLayerBits,
      Bits.ofBytes raw.toList i = Bits.layer layout.config (numbers rows) i := by
  obtain ⟨h', ev, hw, e⟩ := record_eq hv
  refine ⟨_, e, (congrFun ev.size_eq ()).trans layout.size_recordRaw, fun i hi ↦ ?_⟩
  have hbits := congrFun (hw ()) i
  rw [if_pos rfl, recordList_eq hv, show layout.recordRaw.bit () = fun _ ↦ false from
    funext fun b ↦ layout.bit_recordRaw () b] at hbits
  rw [Bits.layer, Bits.putLayer, nSize_config, addressSize_config, ← hbits, Bits.ofBytes,
    Array.getD_toList_byte]
  rfl

theorem size_record (hv : layout.RecordValid rows) {raw : Array Byte}
    (h : record layout rows = some (.ok raw)) : raw.size = layout.coreRecordBytes := by
  obtain ⟨raw', e, hsize, -⟩ := record_layer hv
  cases e.symm.trans h
  exact hsize

/-- Natural numbers that fit into the fields of a row. -/
theorem row_valid {n dst src : Nat} (hn : n < 2 ^ layout.nBits) (hdst : dst < 2 ^ layout.addressBits)
    (hsrc : src < 2 ^ layout.addressBits) : [(n : Int), dst, src].length = 3 ∧
      ∀ f ∈ [(n : Int), dst, src].zip layout.widths, 0 ≤ f.1 ∧ f.1 < 2 ^ f.2 := by
  have hcast : ∀ {x w : Nat}, x < 2 ^ w → 0 ≤ (x : Int) ∧ (x : Int) < 2 ^ w :=
    fun h ↦ ⟨Int.natCast_nonneg _, by exact_mod_cast h⟩
  refine ⟨rfl, fun f hf ↦ ?_⟩
  simp only [widths, List.zip_cons_cons, List.zip_nil_right, List.mem_cons, List.not_mem_nil,
    or_false] at hf
  rcases hf with rfl | rfl | rfl
  · exact hcast hn
  · exact hcast hdst
  · exact hcast hsrc

/-- The places and sizes in the rows of a record fit into their fields. -/
theorem fits : layout.literalBytes * 8 ≤ 2 * layout.addressBits ∧
    2 * layout.addressBits ≤ layout.layerBits ∧ 4 * layout.instructionBits ≤ layout.layerBits ∧
    layout.layerBits < 2 ^ layout.nBits ∧
    layout.coreRestart + layout.layerBits < 2 ^ layout.addressBits ∧
    layout.coreBuffer = layout.layerBits ∧ layout.coreRestart = layout.layerBits + 512 := by
  have h₁ := layout.addressBits_ge
  obtain ⟨-, h₂, -⟩ := layout.core_sizes_config
  have h₃ := layout.layerBits_eq
  have h₄ : layout.coreBuffer = layout.layerBits := by unfold coreBuffer; omega
  have h₅ : layout.coreRestart = layout.layerBits + 512 := by
    rw [coreRestart, h₂, h₄]
    rfl
  have h₆ : 2 ^ 23 ≤ 2 ^ layout.nBits := Nat.pow_le_pow_right (by decide) (by unfold nBits; omega)
  have h₇ : 2 ^ 24 ≤ 2 ^ layout.addressBits := Nat.pow_le_pow_right (by decide) h₁
  have h₈ := layout.addressBits_le
  refine ⟨?_, ?_, ?_, ?_, ?_, h₄, h₅⟩
  · unfold literalBytes; omega
  · omega
  · unfold instructionBits nBits; omega
  · omega
  · omega

theorem installRows_valid (hstart : start * 8 < 2 ^ layout.addressBits) :
    layout.RecordValid (layout.installRows start chunk) := by
  obtain ⟨h₁, h₂, h₃, h₄, h₅, h₆, h₇⟩ := layout.fits
  have hpow := Nat.two_pow_pos layout.addressBits
  have hvalue : layout.literalValue chunk >>> layout.addressBits < 2 ^ layout.addressBits := by
    rw [Nat.shiftRight_eq_div_pow, Nat.div_lt_iff_lt_mul hpow, ← Nat.pow_add, ← Nat.two_mul,
      literalValue_eq]
    exact (Bits.field_lt _ _ _).trans_le (Nat.pow_le_pow_right (by decide) h₁)
  have hn := Nat.two_pow_pos layout.nBits
  refine ⟨rfl, ?_⟩
  simp only [installRows, List.forall_mem_cons]
  refine ⟨row_valid (by omega) hstart (by unfold instructionBits at h₃ ⊢; omega),
    row_valid hn ?_ hvalue, row_valid hn hpow hpow,
    row_valid (by omega) hpow (by omega), List.forall_mem_nil _⟩
  rw [Nat.one_shiftLeft, Nat.and_two_pow_sub_one_eq_mod]
  exact Nat.mod_lt _ hpow

theorem loadRows_valid (hlabel : label < 2 ^ layout.addressBits) :
    layout.RecordValid (layout.loadRows label) := by
  obtain ⟨-, -, -, h₄, -⟩ := layout.fits
  have hpow := Nat.two_pow_pos layout.addressBits
  have hnop := row_valid (Nat.two_pow_pos layout.nBits) hpow hpow
  refine ⟨rfl, ?_⟩
  simp only [loadRows, List.forall_mem_cons]
  exact ⟨hnop, hnop, hnop, row_valid h₄ hpow hlabel, List.forall_mem_nil _⟩

/-- The addresses of row 1 hold the literal. -/
theorem literal_bits {i : Nat} (hi : i < layout.literalBytes * 8) :
    Bits.layer layout.config (numbers (layout.installRows start chunk))
      (layout.instructionBits + layout.nBits + i) = Bits.ofBytes chunk i := by
  obtain ⟨h₁, -⟩ := layout.fits
  have hlayer : ∀ i < layout.config.coreLayerBits,
      Bits.layer layout.config (numbers (layout.installRows start chunk)) i =
        Bits.layer layout.config (numbers (layout.installRows start chunk)) i := fun _ _ ↦ rfl
  obtain ⟨-, hdst, hsrc⟩ :=
    Instruction.mk.inj (Bits.row_of_layer hlayer (show 1 < 4 by decide))
  have hvalue : ∀ j < layout.literalBytes * 8,
      (layout.literalValue chunk).testBit j = Bits.ofBytes chunk j := fun j hj ↦ by
    rw [literalValue_eq, Bits.testBit_field, Nat.zero_add, decide_eq_true hj, Bool.true_and]
  rw [instructionSize_config, nSize_config, addressSize_config, Nat.one_mul] at hdst hsrc
  by_cases hlow : i < layout.addressBits
  · rw [Bits.bit_of_field hdst hlow, Nat.testBit_mod_two_pow, decide_eq_true hlow, Bool.true_and,
      ← hvalue i hi]
    change (layout.literalValue chunk &&& (1 <<< layout.addressBits - 1)).testBit i = _
    rw [Nat.testBit_and, Nat.one_shiftLeft, Nat.testBit_two_pow_sub_one, decide_eq_true hlow,
      Bool.and_true]
  · have hbit := Bits.bit_of_field hsrc (show i - layout.addressBits < layout.addressBits by omega)
    rw [show layout.instructionBits + (layout.nBits + layout.addressBits) +
      (i - layout.addressBits) = layout.instructionBits + layout.nBits + i by omega] at hbit
    rw [hbit, Nat.testBit_mod_two_pow, decide_eq_true (by omega), Bool.true_and, ← hvalue i hi]
    change (layout.literalValue chunk >>> layout.addressBits).testBit _ = _
    rw [Nat.testBit_shiftRight]
    exact congrArg _ (by omega)

theorem installation_nil {raw : Array Byte}
    (h : record layout (layout.loadRows label) = some (.ok raw)) :
    layout.installation label [] = some (.ok raw.toList) := by
  simp [installation, h, bind, ExceptT.bind, ExceptT.mk, ExceptT.bindCont, pure, ExceptT.pure]

theorem installation_cons {chunks : List (Nat × List Byte)} {raw : Array Byte} {bs : List Byte}
    (h : record layout (layout.installRows start chunk) = some (.ok raw))
    (hbs : layout.installation label chunks = some (.ok bs)) :
    layout.installation label ((start, chunk) :: chunks) = some (.ok (raw.toList ++ bs)) := by
  simp [installation, h, hbs, bind, ExceptT.bind, ExceptT.mk, ExceptT.bindCont, pure, ExceptT.pure]

end Rv32i.Layout

/-! ## `cc-install` -/

/-- The arrays of `cc-install`: the table of reversed bytes, `cc-chunk` and `cc-record`. -/
inductive InstallObj where
  | reversed
  | chunk
  | record
deriving DecidableEq

/-- `c@ cc-reversed + c@`: a byte of the chunk, reversed. -/
def ccReversed (address : Nat) : CM InstallObj Byte := do
  let b ← loadByte .chunk address
  loadByte .reversed b.toNat

/-- `cc-three`: three bytes of the chunk, as a field holds them. -/
def ccThree (address : Nat) : CM InstallObj Nat := do
  let r₀ ← ccReversed address
  let r₁ ← ccReversed (address + 1)
  let r₂ ← ccReversed (address + 2)
  pure (r₀.toNat ||| r₁.toNat <<< 8 ||| r₂.toNat <<< 16)

/-- `cc-row-at`, into the record. -/
def ccRowAt (n dst src : Nat) (bit : Nat) : CM InstallObj Unit := do
  let _ ← putBits (BitVec.ofNat 32 n) 23 bit .record .reversed
  let _ ← putBits (BitVec.ofNat 32 dst) 24 (bit + 23) .record .reversed
  let _ ← putBits (BitVec.ofNat 32 src) 24 (bit + 47) .record .reversed

/-- The record that `cc-install` makes of a chunk that is not zero. -/
def ccInstallRecord (target : Nat) : CM InstallObj Unit := do
  storeBytes .record 0 (List.replicate 37 0)
  ccRowAt 48 target 18270 0
  let low ← ccThree 0
  let high ← ccThree 3
  ccRowAt 0 low high 71
  ccRowAt 284 0 18688 213

section CcInstall

variable {h : Heap InstallObj}

theorem does_ccReversed {i : Nat} (ht : ReversalTable .reversed h) (hi : i < h.size .chunk) :
    Does (fun _ ↦ True) (ccReversed i) h fun r h' ↦
      r.toNat = (h.bit .chunk).field (8 * i) 8 ∧ h'.obj = h.obj := by
  unfold ccReversed
  refine .bind (.load (Q := fun b h' ↦ b = (h.bit .chunk).byte i ∧ h'.obj = h.obj) hi trivial
    ⟨(Buffer.byte_bits _ _).symm, rfl⟩) fun b h' _ ⟨hb, ho⟩ ↦ ?_
  have hlt := b.isLt
  refine .load (by have := ht.1; simp only [Heap.size, ho] at this ⊢; omega) trivial ⟨?_, ho⟩
  rw [ho, ← Buffer.byte_bits]
  refine Nat.eq_of_testBit_eq fun j ↦ ?_
  rw [Bits.testBit_field]
  by_cases hj : j < 8
  · rw [decide_eq_true hj, Bool.true_and]
    refine (ht.2 b j hj).trans ?_
    rw [hb, Bits.getLsbD_byte _ _ (by omega), show 7 - (7 - j) = j by omega]
  · rw [decide_eq_false hj, Bool.false_and]
    exact BitVec.getLsbD_of_ge _ _ (by omega)

theorem Bits.field_three (m : Bits) (i : Nat) : m.field (8 * i) 24 =
    m.field (8 * i) 8 + 2 ^ 8 * m.field (8 * (i + 1)) 8 + 2 ^ 16 * m.field (8 * (i + 2)) 8 := by
  have h₁ : m.field (8 * i) 24 = m.field (8 * i) 16 + 2 ^ 16 * m.field (8 * i + 16) 8 :=
    Bits.field_add m (8 * i) 16 8
  have h₂ : m.field (8 * i) 16 = m.field (8 * i) 8 + 2 ^ 8 * m.field (8 * i + 8) 8 :=
    Bits.field_add m (8 * i) 8 8
  rw [h₁, h₂, Nat.mul_add, Nat.mul_add]

theorem does_ccThree {i : Nat} (ht : ReversalTable .reversed h) (hi : i + 3 ≤ h.size .chunk) :
    Does (fun _ ↦ True) (ccThree i) h fun v h' ↦
      v = (h.bit .chunk).field (8 * i) 24 ∧ h'.obj = h.obj := by
  have hsame : ∀ h' : Heap InstallObj, h'.obj = h.obj → h'.bit = h.bit ∧ h'.size = h.size :=
    fun h' ho ↦ ⟨by funext q; simp [Heap.bit, ho], by funext q; simp [Heap.size, ho]⟩
  have hbyte : ∀ h' : Heap InstallObj, h'.obj = h.obj → ∀ j < i + 3,
      Does (fun _ ↦ True) (ccReversed j) h' fun r h'' ↦
        r.toNat = (h.bit .chunk).field (8 * j) 8 ∧ h''.obj = h.obj := fun h' ho j hj ↦ by
    obtain ⟨hb, hs⟩ := hsame h' ho
    refine (does_ccReversed (h := h') ?_ (by rw [hs]; omega)).imp fun r h'' _ hr ↦
      ⟨by rw [hr.1, hb], hr.2.trans ho⟩
    exact ⟨hs ▸ ht.1, hb ▸ ht.2⟩
  refine .bind (hbyte h rfl i (by omega)) fun r₀ h₁ _ hr₀ ↦ ?_
  obtain ⟨e₀, o₁⟩ := hr₀
  refine .bind (hbyte h₁ o₁ (i + 1) (by omega)) fun r₁ h₂ _ hr₁ ↦ ?_
  obtain ⟨e₁, o₂⟩ := hr₁
  refine .bind (hbyte h₂ o₂ (i + 2) (by omega)) fun r₂ h₃ _ hr₂ ↦ ?_
  obtain ⟨e₂, o₃⟩ := hr₂
  refine .pure ⟨?_, o₃⟩
  have l₀ := r₀.isLt
  have l₁ := r₁.isLt
  have hor : ∀ {x w : Nat} (y : Nat), x < 2 ^ w → x ||| y <<< w = x + 2 ^ w * y := fun y hx ↦ by
    rw [Nat.shiftLeft_eq, Nat.mul_comm y, Nat.or_comm, ← Nat.two_pow_add_eq_or_of_lt hx,
      Nat.add_comm]
  rw [hor _ l₀, hor _ (show _ < 2 ^ 16 by omega), e₀, e₁, e₂,
    Bits.field_three]

/-- A row in the record. -/
theorem does_ccRowAt {n dst src bit : Nat} (ht : ReversalTable .reversed h)
    (hbit : bit + 71 ≤ 8 * h.size .record) (h37 : h.size .record = 37) (hn : n < 2 ^ 32)
    (hdst : dst < 2 ^ 32) (hsrc : src < 2 ^ 32) :
    Does (fun _ ↦ True) (ccRowAt n dst src bit) h fun _ h' ↦
      FieldsWritten .record bit [(23, n), (24, dst), (24, src)] h h' := by
  have hput : ∀ h' : Heap InstallObj, h'.size = h.size → (∀ q ≠ .record, h'.bit q = h.bit q) →
      ∀ v < 2 ^ 32, ∀ a w, w ≤ 32 → a + w ≤ bit + 71 →
        Does (fun _ ↦ True) (putBits (BitVec.ofNat 32 v) w a .record .reversed) h' fun _ h'' ↦
          FieldWritten .record a v w h' h'' := fun h' hs hb v hv a w hw ha ↦ by
    have ht' : ReversalTable .reversed h' := by
      unfold ReversalTable
      rw [hs, hb .reversed (by decide)]
      exact ht
    refine ((does_putBits (by decide) ht' hw (by rw [hs]; omega) (by omega)).mono
      fun _ _ ↦ trivial).imp fun _ h'' _ ⟨_, hw⟩ ↦ ?_
    rwa [BitVec.toNat_ofNat, Nat.mod_eq_of_lt hv] at hw
  refine .bind (hput h rfl (fun _ _ ↦ rfl) n hn bit 23 (by decide) (by omega))
    fun _ h₁ e₁ w₁ ↦ ?_
  refine .bind (hput h₁ e₁.size_eq (fun q hq ↦ (w₁ q).trans (if_neg hq)) dst hdst (bit + 23) 24
    (by decide) (by omega)) fun _ h₂ e₂ w₂ ↦ ?_
  refine .bind (hput h₂ (e₂.size_eq.trans e₁.size_eq) (fun q hq ↦ (w₂ q).trans
    ((if_neg hq).trans ((w₁ q).trans (if_neg hq)))) src hsrc (bit + 47) 24
    (by decide) (by omega)) fun _ h₃ e₃ w₃ ↦ .pure (w₁.cons (w₂.cons ?_))
  rw [show bit + 23 + 24 = bit + 47 from rfl]
  exact w₃.single

/-- A field of zeros where zeros stand. -/
theorem Bits.putField_zeros {m : Bits} {a w : Nat} (hm : ∀ i < w, m (a + i) = false) :
    m.putField a w 0 = m := by
  funext p
  by_cases hp : a ≤ p ∧ p < a + w
  · obtain ⟨i, rfl⟩ := Nat.exists_eq_add_of_le hp.1
    rw [Bits.putField_of_mem _ hp, Nat.zero_testBit, hm i (by omega)]
  · rw [Bits.putField_of_notMem _ hp]

theorem Bits.putFields_zeros {m : Bits} {a : Nat} {fs : List (Nat × Nat)}
    (hm : ∀ i < Bits.fieldsWidth fs, m (a + i) = false) (hfs : ∀ f ∈ fs, f.2 = 0) :
    m.putFields a fs = m := by
  induction fs generalizing a with
  | nil => rfl
  | cons f fs ih =>
      obtain ⟨w, v⟩ := f
      obtain rfl : v = 0 := hfs _ List.mem_cons_self
      rw [Bits.fieldsWidth_cons] at hm
      rw [Bits.putFields, Bits.putField_zeros fun i hi ↦ hm i (by omega)]
      refine ih (fun i hi ↦ ?_) fun f hf ↦ hfs f (List.mem_cons_of_mem _ hf)
      rw [Nat.add_assoc]
      exact hm _ (by omega)

/-- The fields that `cc-install` writes; it leaves the third row as it is. -/
theorem does_ccInstallRecord (ht : ReversalTable .reversed h) (hrecord : h.size .record = 37)
    (hchunk : 6 ≤ h.size .chunk) {target : Nat} (htarget : target < 2 ^ 24) :
    Does (fun _ ↦ True) (ccInstallRecord target) h fun _ h' ↦ h'.bit .record =
      Bits.putFields 213 [(23, 284), (24, 0), (24, 18688)]
        (Bits.putFields 71 [(23, 0), (24, (h.bit .chunk).field 0 24), (24, (h.bit .chunk).field 24 24)]
          (Bits.putFields 0 [(23, 48), (24, target), (24, 18270)] fun _ ↦ false)) := by
  have htable : ∀ {h' : Heap InstallObj}, h'.size = h.size →
      (∀ q ≠ .record, h'.bit q = h.bit q) → ReversalTable .reversed h' := fun hs hb ↦ by
    unfold ReversalTable
    rw [hs, hb .reversed (by decide)]
    exact ht
  have hobj : ∀ {h₁ h₂ : Heap InstallObj}, h₂.obj = h₁.obj → h₂.bit = h₁.bit :=
    fun ho ↦ by funext q; simp [Heap.bit, ho]
  have hlt : ∀ a, (h.bit .chunk).field a 24 < 2 ^ 32 := fun a ↦
    (Bits.field_lt _ _ _).trans (by decide)
  refine .bind (.storeBytes _ (by simp [hrecord]) fun _ _ ↦ trivial) fun _ h₁ e₁ b₁ ↦ ?_
  have s₁ := e₁.size_eq
  have o₁ : ∀ q ≠ .record, h₁.bit q = h.bit q := fun q hq ↦ (b₁ q).trans (if_neg hq)
  have z₁ : h₁.bit .record = fun _ ↦ false := by
    funext p
    by_cases hp : p < 8 * 37
    · rw [b₁ .record, if_pos rfl, Bits.putBytes_of_mem _ (by rw [List.length_replicate]; omega),
        List.getD_eq_getElem?_getD, List.getElem?_replicate, if_pos (by omega)]
      exact BitVec.getLsbD_zero
    · exact Buffer.bits_of_size_le (by
        change 8 * h₁.size .record ≤ p
        rw [s₁, hrecord]
        omega)
  refine .bind (does_ccRowAt (htable s₁ o₁) (by rw [s₁, hrecord]; decide) (by rw [s₁, hrecord])
    (by decide) (by omega) (by decide)) fun _ h₂ e₂ w₂ ↦ ?_
  have s₂ := e₂.size_eq.trans s₁
  have o₂ : ∀ q ≠ .record, h₂.bit q = h.bit q := fun q hq ↦
    ((w₂ q).trans (if_neg hq)).trans (o₁ q hq)
  refine .bind (does_ccThree (i := 0) (htable s₂ o₂) (by rw [s₂]; omega))
    fun low h₃ e₃ hlow ↦ ?_
  obtain ⟨v₃, ob₃⟩ := hlow
  have s₃ := e₃.size_eq.trans s₂
  have o₃ : ∀ q ≠ .record, h₃.bit q = h.bit q := hobj ob₃ ▸ o₂
  refine .bind (does_ccThree (i := 3) (htable s₃ o₃) (by rw [s₃]; omega))
    fun high h₄ e₄ hhigh ↦ ?_
  obtain ⟨v₄, ob₄⟩ := hhigh
  have s₄ := e₄.size_eq.trans s₃
  have o₄ : ∀ q ≠ .record, h₄.bit q = h.bit q := hobj ob₄ ▸ o₃
  rw [o₂ .chunk (by decide)] at v₃
  rw [o₃ .chunk (by decide)] at v₄
  refine .bind (does_ccRowAt (htable s₄ o₄) (by rw [s₄, hrecord]; decide) (by rw [s₄, hrecord])
    (by decide) (v₃ ▸ hlt _) (v₄ ▸ hlt _)) fun _ h₅ e₅ w₅ ↦ ?_
  have s₅ := e₅.size_eq.trans s₄
  have o₅ : ∀ q ≠ .record, h₅.bit q = h.bit q := fun q hq ↦
    ((w₅ q).trans (if_neg hq)).trans (o₄ q hq)
  refine (does_ccRowAt (htable s₅ o₅) (by rw [s₅, hrecord]; decide) (by rw [s₅, hrecord])
    (by decide) (by decide) (by decide)).imp fun _ h₆ e₆ w₆ ↦ ?_
  rw [w₆ .record, w₅ .record, hobj ob₄, hobj ob₃, w₂ .record, z₁, v₃, v₄]
  rfl

/-- `cc-install` makes the record of `encode_stream` for a space of 2 MiB. -/
theorem ccInstallRecord_eq {layout : Rv32i.Layout} (hspace : layout.spaceBytes = 2097152)
    (ht : ReversalTable .reversed h) (hrecord : h.size .record = 37) (hchunk : 6 ≤ h.size .chunk)
    {start : Nat} (hstart : start * 8 < 2 ^ 24) :
    ∃ h', ccInstallRecord (start * 8) h = some ((), h') ∧
      record layout (layout.installRows start ((h.bit .chunk).bytes 0 6)) =
        some (.ok (h'.obj .record).bytes) := by
  have hA : layout.addressBits = 24 := layout.addressBits_of_pow (k := 21) hspace
  have hn : layout.nBits = 23 := by rw [Rv32i.Layout.nBits, hA]
  have hIB : layout.instructionBits = 71 := by rw [Rv32i.Layout.instructionBits, hn, hA]
  have hlay := layout.layerBits_eq
  obtain ⟨-, -, -, -, -, hbuf, hres⟩ := layout.fits
  rw [hA] at hlay
  have hlit : layout.literalBytes = 6 := by rw [Rv32i.Layout.literalBytes, hA]
  have hraw : layout.coreRecordBytes = 37 := by rw [Rv32i.Layout.coreRecordBytes, hIB]
  generalize hrows : layout.installRows start ((h.bit .chunk).bytes 0 6) = rows
  have hv : layout.RecordValid rows := hrows ▸ Rv32i.Layout.installRows_valid (by rwa [hA])
  have hvalue : layout.literalValue ((h.bit .chunk).bytes 0 6) =
      (h.bit .chunk).field 0 24 + 2 ^ 24 * (h.bit .chunk).field 24 24 := by
    rw [Rv32i.Layout.literalValue_eq, hlit]
    refine (Bits.field_congr fun i hi ↦ ?_).trans (Bits.field_add (h.bit .chunk) 0 24 24)
    rw [Bits.ofBytes, Bits.getD_bytes _ (by omega), Bits.getLsbD_byte _ _ (by omega)]
    exact congrArg _ (by omega)
  have hlow := Bits.field_lt (h.bit .chunk) 0 24
  have hfields : layout.recordList rows =
      [(23, 48), (24, start * 8), (24, 18270)] ++ ([(23, 0), (24, (h.bit .chunk).field 0 24),
        (24, (h.bit .chunk).field 24 24)] ++ ([(23, 0), (24, 0), (24, 0)] ++
          [(23, 284), (24, 0), (24, 18688)])) := by
    rw [Rv32i.Layout.recordList_eq hv, ← hrows]
    change [(layout.nBits, layout.literalBytes * 8), (layout.addressBits, start * 8),
      (layout.addressBits, layout.coreBuffer + layout.instructionBits + layout.nBits),
      (layout.nBits, 0), (layout.addressBits, _ &&& (1 <<< layout.addressBits - 1)),
      (layout.addressBits, _ >>> layout.addressBits), (layout.nBits, 0), (layout.addressBits, 0),
      (layout.addressBits, 0), (layout.nBits, 4 * layout.instructionBits),
      (layout.addressBits, 0), (layout.addressBits, layout.coreRestart)] = _
    rw [hres, hbuf, hlay, hlit, hIB, hn, hA, hvalue, Nat.one_shiftLeft,
      Nat.and_two_pow_sub_one_eq_mod, Nat.add_mul_mod_self_left, Nat.mod_eq_of_lt hlow,
      Nat.shiftRight_eq_div_pow, Nat.add_mul_div_left _ _ (Nat.two_pow_pos _),
      Nat.div_eq_of_lt hlow, Nat.zero_add]
    rfl
  obtain ⟨h'', ev, hw, e⟩ := record_eq hv
  obtain ⟨_, h', e', ev', hw'⟩ := does_ccInstallRecord ht hrecord hchunk hstart
  refine ⟨h', e', e.trans (congrArg (some ∘ Except.ok) ?_)⟩
  refine congrArg Buffer.bytes (Buffer.ext_bits ?_ fun p ↦ ?_)
  · change h''.size () = h'.size .record
    rw [ev.size_eq, ev'.size_eq, hrecord, Rv32i.Layout.size_recordRaw, hraw]
  · change h''.bit () p = h'.bit .record p
    rw [hw (), if_pos rfl, hw', hfields, Bits.putFields_append, Bits.putFields_append,
      Bits.putFields_append, show layout.recordRaw.bit () = fun _ ↦ false from
        funext fun b ↦ layout.bit_recordRaw () b]
    refine congrFun (congrArg (Bits.putFields 213 _) (Bits.putFields_zeros (fun i hi ↦ ?_) (by simp))) p
    simp only [Bits.fieldsWidth_cons, Bits.fieldsWidth_nil] at hi ⊢
    rw [Bits.putFields_of_notMem _ (by simp only [Bits.fieldsWidth_cons, Bits.fieldsWidth_nil]; omega),
      Bits.putFields_of_notMem _ (by simp only [Bits.fieldsWidth_cons, Bits.fieldsWidth_nil]; omega)]

end CcInstall

end CopySpace
