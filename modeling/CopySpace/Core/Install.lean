import CopySpace.Core.Boot
import CopySpace.Rv32i.Stream
import CopySpace.Space.Halt

/-!
# Installation records

The core executes a stream of installation records.  Every record takes three ticks: the first
reads it into the buffer, the second loads its rows, and in the third they copy the literal to
its place and load the core again.

`Ready` is the state between two records.  `Ready.reads` is what the first two ticks do with any
record, and `installation_runs` follows a whole stream.
-/

namespace CopySpace

/-! ## The state between two records -/

section Region

variable (cfg : Config)

/-- The buffer that the core reads into. -/
def InBuffer (p : Nat) : Prop :=
  cfg.coreBufferStart ≤ p ∧ p < cfg.coreBufferStart + cfg.coreInputBits

/-- The core region: the slots, the buffer, the second copy of the core, the message and the
table. -/
def InCore (p : Nat) : Prop :=
  p < cfg.processorBits ∨ InBuffer cfg p ∨
    (cfg.coreRestartStart ≤ p ∧ p < cfg.coreRestartStart + cfg.coreLayerBits) ∨
    (cfg.coreErrorMessageStart ≤ p ∧ p < cfg.coreErrorMessageStart + Config.coreErrorMessageBits) ∨
    (cfg.coreTableStart ≤ p ∧ p < cfg.coreTableStart + cfg.coreTableBits)

/-- The core is as `core_init` leaves it, whatever the buffer holds. -/
def Ready (m : Bits) : Prop := ∀ p, InCore cfg p → ¬ InBuffer cfg p → m p = coreBits cfg p

end Region

section Core

variable {φ : Type} {cfg : Config} (dev : Device φ) (hg : cfg.CoreGood)

include hg

/-- The parts of the core in their order. -/
theorem Config.CoreGood.places : cfg.processorN * cfg.instructionSize = cfg.processorBits ∧
    cfg.coreLayerBits ≤ cfg.processorBits ∧ cfg.processorBits ≤ cfg.coreBufferStart ∧
    cfg.coreBufferStart + cfg.coreInputBits ≤ cfg.coreRestartStart ∧
    cfg.coreRestartStart + cfg.coreLayerBits ≤ cfg.coreTableStart ∧
    cfg.coreTableStart + cfg.coreTableBits ≤ cfg.spaceSize := by
  have h₁ := hg.exact.processorBits_eq
  have h₂ := hg.processor_le
  have h₃ := hg.restart_eq
  have h₄ := hg.input_le_boot
  have h₅ := hg.message_le
  have h₆ := hg.zero_eq
  have h₇ := hg.zero_le
  have h₈ := hg.table_le
  have h₉ : cfg.coreLayerBits ≤ cfg.processorN * cfg.instructionSize :=
    Nat.mul_le_mul_right _ hg.four_le
  exact ⟨h₁.symm, by omega, h₂, by omega, by omega, h₈⟩

/-- The core region ends where the table ends. -/
theorem InCore.lt {p : Nat} (h : InCore cfg p) : p < cfg.coreTableStart + cfg.coreTableBits := by
  obtain ⟨-, -, h₃, h₄, h₅, -⟩ := hg.places
  have h₆ := hg.zero_eq
  have h₇ := hg.zero_le
  have h₈ := hg.toCoreLaid.entry_le (k := 0) (Nat.two_pow_pos _)
  rcases h with h | ⟨-, h⟩ | ⟨-, h⟩ | ⟨-, h⟩ | ⟨-, h⟩ <;> omega

/-- The second copy of the core is one. -/
theorem coreBits_restart {i : Nat} (hi : i < cfg.coreLayerBits) :
    coreBits cfg (cfg.coreRestartStart + i) = coreBits cfg i := by
  have h₁ := hg.layer_le_boot
  have h₂ := hg.message_le
  have h₃ := hg.message_mod
  have h₄ := hg.zero_eq
  have h₅ := hg.zero_le
  rw [coreBits_layer hg.toCoreLaid hi]
  unfold coreBits
  rw [Bits.putTable_of_notMem (by omega) h₁, Bits.putBytes_of_notMem _ (by omega)]
  exact Bits.putLayer_add hi

omit hg in
theorem ready_coreBits : Ready cfg (coreBits cfg) := fun _ _ _ ↦ rfl

variable {m m' : Bits} (hm : Ready cfg m)

include hm

theorem Ready.core {i : Nat} (hi : i < cfg.coreLayerBits) :
    m i = Bits.layer cfg (CopySpace.core cfg) i := by
  obtain ⟨-, h₂, h₃, -⟩ := hg.places
  rw [← coreBits_layer hg.toCoreLaid hi]
  exact hm i (.inl (by omega)) (by unfold InBuffer; omega)

theorem Ready.clear {p : Nat} (h₁ : cfg.coreLayerBits ≤ p)
    (h₂ : p < cfg.processorN * cfg.instructionSize) : m p = false := by
  obtain ⟨h₃, -, h₄, -⟩ := hg.places
  rw [← (coreSpace_coreBits hg.toCoreLaid).clear p h₁ (by omega)]
  exact hm p (.inl (by omega)) (by unfold InBuffer; omega)

theorem Ready.restart {i : Nat} (hi : i < cfg.coreLayerBits) :
    m (cfg.coreRestartStart + i) = coreBits cfg i := by
  obtain ⟨-, -, -, h₃, -⟩ := hg.places
  rw [← coreBits_restart hg hi]
  exact hm _ (.inr (.inr (.inl ⟨by omega, by omega⟩))) (by unfold InBuffer; omega)

/-- The entry of the table that stands for a complete record. -/
theorem Ready.entry {i : Nat} (hi : i < cfg.coreLayerBits) :
    m (cfg.coreTableStart + 2 * cfg.coreInputBits * cfg.coreBootBits + i) =
      Bits.layer cfg (activate cfg) i := by
  obtain ⟨-, -, -, h₃, h₄, -⟩ := hg.places
  have hlt : 2 * cfg.coreInputBits < 2 ^ cfg.coreStatusBits := by
    have := hg.input_lt
    omega
  have h₅ := hg.toCoreLaid.entry_le hlt
  have h₆ := hg.layer_le_boot
  have htable := (coreSpace_coreBits hg.toCoreLaid).table _ hlt i hi
  rw [tableRows, if_pos rfl] at htable
  rw [← htable]
  exact hm _ (.inr (.inr (.inr (.inr ⟨by omega, by omega⟩)))) (by unfold InBuffer; omega)

omit hm in
/-- The first two ticks after a complete record: it stands in the buffer, and its four rows in the
first slots. -/
theorem Ready.reads {x : BitMachine φ} (hx : Ready cfg x.bits) {raw : List Byte}
    (hread : (dev.fread x.inp (cfg.coreInputBits / 8)).1 = raw)
    (hlen : raw.length = cfg.coreInputBits / 8) :
    let f := (dev.fread x.inp (cfg.coreInputBits / 8)).2.2
    ∃ y z, BitMachine.step cfg dev x = (.done, ⟨y, f, x.out⟩) ∧
      BitMachine.step cfg dev ⟨y, f, x.out⟩ = (.done, ⟨z, f, x.out⟩) ∧ ¬ Ready cfg y ∧
      (∀ i < cfg.coreLayerBits, z i = Bits.ofBytes raw i) ∧
      (∀ i < cfg.coreInputBits, z (cfg.coreBufferStart + i) = Bits.ofBytes raw i) ∧
      ∀ p, cfg.coreLayerBits ≤ p → ¬ InBuffer cfg p → z p = x.bits p := by
  intro f
  obtain ⟨h₁, h₂, h₃, h₄, h₅, h₆⟩ := hg.places
  have hpow := hg.table_le_pow
  have hmod := hg.buffer_mod
  have hmod' : cfg.coreInputBits % 8 = 0 := Nat.mul_mod_left _ _
  have hle := hg.layer_le_input
  obtain ⟨-, f₂, -, -, -, -, f₇, -⟩ := hg.toCoreLaid.fits
  have hb : cfg.coreBufferStart < 2 ^ cfg.addressSize := by omega
  have htable := hg.toCoreLaid.entry_le (k := 0) (Nat.two_pow_pos _)
  have hboot := hg.layer_le_boot
  have tick := boot_tick_one dev hg.toCoreLaid hg.four_le (by omega) hb
    (fun i hi ↦ hx.core hg hi) fun p h₁ h₂ ↦ hx.clear hg h₁ h₂
  dsimp only at tick
  rw [Nat.mod_eq_of_lt (by omega), hread, (bootStatus_eq_iff _).mpr (by rw [hread, hlen])] at tick
  obtain ⟨y, hstep, hload, hkeep⟩ := tick (by omega)
  have hother : ∀ p, cfg.coreLayerBits ≤ p → ¬ InBuffer cfg p → y p = x.bits p :=
    fun p hp hnot ↦ (hkeep p hp).trans
      (Bits.putBytes_of_notMem _ (by unfold InBuffer at hnot; omega))
  have hbuffer : ∀ i < cfg.coreInputBits, y (cfg.coreBufferStart + i) = Bits.ofBytes raw i :=
    fun i hi ↦ by
      rw [hkeep _ (by omega), Bits.putBytes_of_mem _ (by omega), Bits.ofBytes,
        show (cfg.coreBufferStart + i) / 8 - cfg.coreBufferStart / 8 = i / 8 by omega,
        show (cfg.coreBufferStart + i) % 8 = i % 8 by omega]
  have hactivate : ∀ i < cfg.coreLayerBits, y i = Bits.layer cfg (activate cfg) i := fun i hi ↦ by
    rw [hload i hi, Bits.putBytes_of_notMem _ (by omega), hx.entry hg hi]
  have hnext := boot_tick_activate dev hg.toCoreLaid (x := ⟨y, f, x.out⟩) hg.four_le hb hactivate
    fun p h₁' h₂' ↦ (hother p h₁' (by unfold InBuffer; omega)).trans (hx.clear hg h₁' h₂')
  refine ⟨y, _, hstep, hnext, fun hy ↦ ?_, fun i hi ↦ ?_, fun i hi ↦ ?_, fun p hp hnot ↦ ?_⟩
  · -- slot 0 is empty
    have hrow := (activate_rows hg.toCoreLaid hb hactivate).1
    rw [(core_rows hg.toCoreLaid (fun i hi ↦ hy.core hg hi) hb).1] at hrow
    have := congrArg Instruction.n hrow
    dsimp only at this
    omega
  · rw [Bits.blit_of_mem _ (by omega), Nat.sub_zero]
    exact hbuffer i (by omega)
  · rw [Bits.blit_of_notMem _ (by omega)]
    exact hbuffer i hi
  · rw [Bits.blit_of_notMem _ (by omega)]
    exact hother p hp hnot

end Core

/-! ## The third tick -/

section Third

open Rv32i

variable {φ : Type} {layout : Layout} (dev : Device φ) {start label : Nat} {chunk : List Byte}
  {x : BitMachine φ}

/-- A chunk of the length of a literal whose place is in the space, outside the core region. -/
structure Rv32i.Layout.Target (layout : Layout) (start : Nat) (chunk : List Byte) : Prop where
  length_eq : chunk.length = layout.literalBytes
  le_space : start * 8 + layout.literalBytes * 8 ≤ layout.spaceBytes * 8
  outside : ∀ p, start * 8 ≤ p → p < start * 8 + layout.literalBytes * 8 → ¬ InCore layout.config p

/-- The rows of an installation record. -/
theorem install_rows (hstart : start * 8 < 2 ^ layout.addressBits)
    (h : ∀ i < layout.config.coreLayerBits,
      x.bits i = Bits.layer layout.config (Layout.numbers (layout.installRows start chunk)) i) :
    x.bits.row layout.config 0 = ⟨layout.literalBytes * 8, start * 8,
      layout.coreBuffer + layout.instructionBits + layout.nBits⟩ ∧
    (x.bits.row layout.config 1).n = 0 ∧ (x.bits.row layout.config 2).n = 0 ∧
    x.bits.row layout.config 3 = ⟨layout.config.coreLayerBits, 0, layout.coreRestart⟩ := by
  obtain ⟨h₁, h₂, h₃, h₄, h₅, h₆, h₇⟩ := layout.fits
  have hpow := Nat.two_pow_pos layout.addressBits
  have hn : layout.literalBytes * 8 < 2 ^ layout.nBits := by omega
  have hsrc : layout.coreBuffer + layout.instructionBits + layout.nBits <
      2 ^ layout.addressBits := by unfold Layout.instructionBits at h₃ ⊢; omega
  refine ⟨Bits.row_eq h (by decide) rfl rfl rfl ?_ ?_ ?_, ?_, ?_,
    Bits.row_eq h (by decide) ?_ rfl rfl ?_ ?_ ?_⟩
  case refine_4 | refine_5 => rw [Bits.row_of_layer h (by decide)]; exact Nat.zero_mod _
  case refine_6 => rw [layout.coreLayerBits_config]; rfl
  all_goals first | rw [layout.nSize_config] | rw [layout.addressSize_config]
  · exact hn
  · exact hstart
  · exact hsrc
  · rw [layout.coreLayerBits_config]; omega
  · exact hpow
  · omega

/-- The last row of a load record. -/
theorem load_rows (hlabel : label < 2 ^ layout.addressBits)
    (h : ∀ i < layout.config.coreLayerBits,
      x.bits i = Bits.layer layout.config (Layout.numbers (layout.loadRows label)) i) :
    (∀ i < 3, (x.bits.row layout.config i).n = 0) ∧
    x.bits.row layout.config 3 = ⟨layout.layerBits, 0, label⟩ := by
  obtain ⟨-, -, -, h₄, -⟩ := layout.fits
  refine ⟨fun i hi ↦ ?_, Bits.row_eq h (by decide) rfl rfl rfl ?_ ?_ ?_⟩
  · rw [Bits.row_of_layer h (by omega)]
    interval_cases i <;> exact Nat.zero_mod _
  · rwa [layout.nSize_config]
  · exact Nat.two_pow_pos _
  · rwa [layout.addressSize_config]

omit x in
/-- Channel rows that copy nothing. -/
theorem channels_of_zero {cfg : Config} {x : BitMachine φ} (h₁ : (x.bits.row cfg 1).n = 0)
    (h₂ : (x.bits.row cfg 2).n = 0) : BitMachine.channels cfg dev x = x := by
  rw [BitMachine.channels, BitMachine.channel_of_zero _ _ 2 _ _ _ h₂,
    BitMachine.channel_of_zero _ _ 1 _ _ _ h₁]

/-- In the third tick of an installation record the literal is copied from the buffer, and then
the core is loaded from its second copy. -/
theorem install_tick (hlo : layout.layerBits ≤ start * 8)
    (hhi : start * 8 + layout.literalBytes * 8 ≤ 2 ^ layout.addressBits)
    (h : ∀ i < layout.config.coreLayerBits,
      x.bits i = Bits.layer layout.config (Layout.numbers (layout.installRows start chunk)) i)
    (hclear : ∀ p, layout.config.coreLayerBits ≤ p →
      p < layout.config.processorN * layout.config.instructionSize → x.bits p = false) :
    BitMachine.step layout.config dev x = (.done, { x with
      bits := (x.bits.blit (layout.literalBytes * 8) (start * 8)
        (layout.coreBuffer + layout.instructionBits + layout.nBits)).blit
          layout.config.coreLayerBits 0 layout.coreRestart }) := by
  obtain ⟨f₁, f₂, f₃, f₄, f₅, f₆, f₇⟩ := layout.fits
  have hA := layout.addressBits_ge
  have hlit : 0 < layout.literalBytes := by unfold Layout.literalBytes; omega
  have hsize := layout.spaceSize_eq
  have hlay := layout.coreLayerBits_config
  have hsrc : layout.coreBuffer + layout.instructionBits + layout.nBits +
      layout.literalBytes * 8 ≤ layout.coreRestart := by
    have hA' := layout.addressBits_le
    unfold Layout.instructionBits Layout.nBits
    omega
  have hk : layout.config.processorN = 252 + 4 := rfl
  have hslots : layout.config.processorN * layout.config.instructionSize = layout.layerBits := by
    rw [layout.instructionSize_config]
    rfl
  have h4 : 4 * layout.config.instructionSize = layout.config.coreLayerBits := rfl
  obtain ⟨r₀, r₁, r₂, r₃⟩ := install_rows (by omega) h
  -- the literal goes behind the slots
  have hkeep : ∀ p < layout.layerBits, (x.bits.blit (layout.literalBytes * 8) (start * 8)
      (layout.coreBuffer + layout.instructionBits + layout.nBits)) p = x.bits p :=
    fun p hp ↦ Bits.blit_of_notMem _ (by omega)
  refine BitMachine.step_eq_done (active_of_row layout.coreGood.four_le (by decide) r₀ (by dsimp only; omega))
    (channels_of_zero dev r₁ r₂) ?_
  rw [hk, BitMachine.computationFrom_of_copy (by decide) (by rw [r₀]; dsimp only; omega)
    (by rw [r₀]; unfold Instruction.Leaves; dsimp only; omega), r₀,
    BitMachine.computationFrom_of_channel (.inl rfl),
    BitMachine.computationFrom_of_channel (.inr rfl)]
  refine load_computation layout.coreGood.toCoreLaid hk ?_ (by omega) fun p h₁ h₂ ↦ ?_
  · rw [← r₃]
    exact BitMachine.row_congr fun j hj ↦ hkeep _ (by omega)
  · rw [hkeep p (by omega), hclear p h₁ h₂]

/-- In the third tick of a load record a layer is loaded, and the tick goes on with its slots from
the fourth on. -/
theorem load_tick (hlabel : label + layout.layerBits ≤ 2 ^ layout.addressBits)
    (h : ∀ i < layout.config.coreLayerBits,
      x.bits i = Bits.layer layout.config (Layout.numbers (layout.loadRows label)) i) :
    BitMachine.step layout.config dev x =
      let rest := BitMachine.computationFrom layout.config (layout.config.processorN - 4) 4
        (x.bits.blit layout.layerBits 0 label)
      (if rest.1 = 0 then .done else .error, { x with bits := rest.2 }) := by
  obtain ⟨-, f₂, -, -, -, -, -⟩ := layout.fits
  have hA := layout.addressBits_ge
  have hsize := layout.spaceSize_eq
  obtain ⟨r, r₃⟩ := load_rows (by omega) h
  rw [BitMachine.step, if_pos (active_of_row layout.coreGood.four_le (by decide) r₃ (by dsimp only; omega)),
    channels_of_zero dev (r 1 (by decide)) (r 2 (by decide))]
  dsimp only
  rw [show layout.config.processorN = 252 + 4 from rfl,
    BitMachine.computationFrom_of_zero (r 0 (by decide)),
    BitMachine.computationFrom_of_channel (.inl rfl),
    BitMachine.computationFrom_of_channel (.inr rfl),
    BitMachine.computationFrom_of_copy (by decide) (by rw [r₃]; dsimp only; omega)
    (by rw [r₃]; unfold Instruction.Leaves; dsimp only; omega), r₃]

end Third

/-! ## One record -/

section Record

open Rv32i

variable {φ : Type} {layout : Layout} (dev : Device φ) {start label : Nat} {chunk : List Byte}
  {x : BitMachine φ}

/-- A target lies behind the slots. -/
theorem Rv32i.Layout.Target.bounds (ht : layout.Target start chunk) :
    layout.layerBits ≤ start * 8 ∧
      start * 8 + layout.literalBytes * 8 ≤ 2 ^ layout.addressBits ∧
      start * 8 < 2 ^ layout.addressBits := by
  have hA := layout.addressBits_ge
  have hlit : 0 < layout.literalBytes := by unfold Layout.literalBytes; omega
  have hle := ht.le_space
  rw [layout.spaceBits_eq] at hle
  refine ⟨Nat.le_of_not_lt fun hlt ↦ ?_, hle, by omega⟩
  exact ht.outside (start * 8) le_rfl (by omega) (.inl (by rwa [layout.processorBits_config]))

/-- The record fills what the core reads. -/
theorem length_record {raw : Array Byte} (hsize : raw.size = layout.coreRecordBytes) :
    raw.toList.length = layout.config.coreInputBits / 8 := by
  obtain ⟨-, -, h, -⟩ := layout.core_sizes_config
  rw [Array.length_toList, hsize, h]
  omega

/-- **One installation record.**  It takes three ticks to the next state that is ready; the literal
is then at its place, and nothing else outside the core region has changed. -/
theorem Ready.install (hx : Ready layout.config x.bits) (ht : layout.Target start chunk)
    {raw : Array Byte} (hraw : record layout (layout.installRows start chunk) = some (.ok raw))
    (hread : (dev.fread x.inp (layout.config.coreInputBits / 8)).1 = raw.toList) :
    let f := (dev.fread x.inp (layout.config.coreInputBits / 8)).2.2
    ∃ y z m, BitMachine.step layout.config dev x = (.done, ⟨y, f, x.out⟩) ∧
      BitMachine.step layout.config dev ⟨y, f, x.out⟩ = (.done, ⟨z, f, x.out⟩) ∧
      BitMachine.step layout.config dev ⟨z, f, x.out⟩ = (.done, ⟨m, f, x.out⟩) ∧
      ¬ Ready layout.config y ∧ ¬ Ready layout.config z ∧ Ready layout.config m ∧
      ∀ p, ¬ InCore layout.config p → m p = x.bits.putBytes start chunk p := by
  intro f
  obtain ⟨hlo, hhi, hstart⟩ := ht.bounds
  obtain ⟨f₁, f₂, f₃, f₄, f₅, f₆, f₇⟩ := layout.fits
  obtain ⟨h₁, h₂, h₃, h₄, h₅, h₆⟩ := layout.coreGood.places
  have hbuf := layout.coreBufferStart_config
  have hres := layout.coreRestartStart_config
  have hpro := layout.processorBits_config
  have hlay := layout.coreLayerBits_config
  have hle := layout.coreGood.layer_le_input
  have hA := layout.addressBits_ge
  have hIB : layout.instructionBits = layout.nBits + 2 * layout.addressBits := rfl
  have hlit : layout.instructionBits + layout.nBits + layout.literalBytes * 8 ≤
      layout.config.coreLayerBits := by omega
  obtain ⟨raw', e, hsize, hlayer⟩ := Layout.record_layer (Layout.installRows_valid hstart)
  obtain rfl : raw' = raw := by simpa using e.symm.trans hraw
  obtain ⟨y, z, step₁, step₂, hy, hslots, hbuffer, hkeep⟩ :=
    hx.reads dev layout.coreGood hread (length_record hsize)
  have hz : ∀ i < layout.config.coreLayerBits,
      z i = Bits.layer layout.config (Layout.numbers (layout.installRows start chunk)) i :=
    fun i hi ↦ (hslots i hi).trans (hlayer i hi)
  have hclear : ∀ p, layout.config.coreLayerBits ≤ p →
      p < layout.config.processorN * layout.config.instructionSize → z p = false :=
    fun p hp hp' ↦ (hkeep p hp (by unfold InBuffer; omega)).trans
      (hx.clear layout.coreGood hp hp')
  have step₃ := install_tick dev (x := ⟨z, f, x.out⟩) hlo hhi hz hclear
  refine ⟨y, z, _, step₁, step₂, step₃, hy, fun hready ↦ ?_, fun p hp hnot ↦ ?_, fun p hp ↦ ?_⟩
  · -- slot 1 copies nothing
    have hrow := (install_rows (x := ⟨z, f, x.out⟩) hstart hz).2.1
    dsimp only at hrow
    rw [(core_rows layout.coreGood.toCoreLaid (fun i hi ↦ hready.core layout.coreGood hi)
      (by rw [layout.addressSize_config]; omega)).2.1] at hrow
    dsimp only at hrow
    omega
  · have hout : ¬(start * 8 ≤ p ∧ p < start * 8 + layout.literalBytes * 8) :=
      fun hp' ↦ ht.outside p hp'.1 hp'.2 hp
    by_cases hslot : p < layout.config.coreLayerBits
    · have hcopy : InCore layout.config (layout.config.coreRestartStart + p) :=
        .inr (.inr (.inl ⟨by omega, by omega⟩))
      rw [Bits.blit_of_mem _ (by omega), Nat.sub_zero, ← hres, Bits.blit_of_notMem _ fun hp' ↦
        ht.outside _ hp'.1 hp'.2 hcopy]
      dsimp only
      rw [hkeep _ (by omega) (by unfold InBuffer; omega), hx.restart layout.coreGood hslot]
    · rw [Bits.blit_of_notMem _ (by omega), Bits.blit_of_notMem _ hout]
      exact (hkeep p (by omega) hnot).trans (hx p hp hnot)
  · have hbehind : layout.config.processorBits ≤ p := Nat.le_of_not_lt fun hlt ↦ hp (.inl hlt)
    rw [Bits.blit_of_notMem _ (by omega)]
    by_cases hp' : start * 8 ≤ p ∧ p < start * 8 + layout.literalBytes * 8
    · obtain ⟨i, rfl⟩ := Nat.exists_eq_add_of_le hp'.1
      rw [Bits.blit_of_mem _ hp', Bits.putBytes_of_mem _ (by rw [ht.length_eq]; omega),
        Nat.add_sub_cancel_left, ← hbuf, Nat.add_assoc, Nat.add_assoc]
      dsimp only
      rw [hbuffer _ (by omega), hlayer _ (by omega), ← Nat.add_assoc,
        Layout.literal_bits (by omega), Bits.ofBytes,
        show (start * 8 + i) / 8 - start = i / 8 by omega,
        show (start * 8 + i) % 8 = i % 8 by omega]
    · rw [Bits.blit_of_notMem _ hp', Bits.putBytes_of_notMem _ (by rw [ht.length_eq]; omega)]
      exact hkeep p (by omega) fun hb ↦ hp (.inr (.inl hb))

/-- The record that loads a layer. -/
theorem Ready.load (hx : Ready layout.config x.bits)
    (hlabel : label + layout.layerBits ≤ 2 ^ layout.addressBits) {raw : Array Byte}
    (hraw : record layout (layout.loadRows label) = some (.ok raw))
    (hread : (dev.fread x.inp (layout.config.coreInputBits / 8)).1 = raw.toList) :
    let f := (dev.fread x.inp (layout.config.coreInputBits / 8)).2.2
    ∃ y z, BitMachine.step layout.config dev x = (.done, ⟨y, f, x.out⟩) ∧
      BitMachine.step layout.config dev ⟨y, f, x.out⟩ = (.done, ⟨z, f, x.out⟩) ∧
      (BitMachine.step layout.config dev ⟨z, f, x.out⟩ =
        let rest := BitMachine.computationFrom layout.config (layout.config.processorN - 4) 4
          (z.blit layout.layerBits 0 label)
        (if rest.1 = 0 then .done else .error, ⟨rest.2, f, x.out⟩)) ∧
      ∀ p, ¬ InCore layout.config p → z p = x.bits p := by
  intro f
  have hA := layout.addressBits_ge
  obtain ⟨-, f₂, -⟩ := layout.fits
  obtain ⟨-, h₂, -⟩ := layout.coreGood.places
  have hvalid : layout.RecordValid (layout.loadRows label) := Layout.loadRows_valid (by omega)
  obtain ⟨raw', e, hsize, hlayer⟩ := Layout.record_layer hvalid
  obtain rfl : raw' = raw := by simpa using e.symm.trans hraw
  obtain ⟨y, z, step₁, step₂, -, hslots, -, hkeep⟩ :=
    hx.reads dev layout.coreGood hread (length_record hsize)
  refine ⟨y, z, step₁, step₂, load_tick dev (x := ⟨z, f, x.out⟩) hlabel
    fun i hi ↦ (hslots i hi).trans (hlayer i hi), fun p hp ↦ hkeep p ?_ fun hb ↦ hp (.inr (.inl hb))⟩
  exact Nat.le_of_not_lt fun hlt ↦ hp (.inl (by omega))

end Record

/-! ## Streams of records -/

section Stream

open Rv32i

variable {φ : Type} (layout : Layout) (dev : Device φ) (ahead : φ → List Byte)

/-- A read that the bytes ahead can serve is complete. -/
def Device.Serves : Prop :=
  ∀ f n, n ≤ (ahead f).length →
    (dev.fread f n).1 = (ahead f).take n ∧ ahead (dev.fread f n).2.2 = (ahead f).drop n

/-- The bytes of a file behind the position of the next read. -/
theorem File.serves : File.device.Serves fun f ↦ f.bytes.drop f.pos := by
  intro f n hn
  refine ⟨rfl, ?_⟩
  change f.bytes.drop (f.pos + ((f.bytes.drop f.pos).take n).length) = (f.bytes.drop f.pos).drop n
  rw [List.length_take_of_le hn, List.drop_drop]

/-- What an installation record does: in three ticks, and no fewer, it leads from one state that
is ready to the next.  Outside the core region only the literal is written, and the record has been
read from IN. -/
structure Installs (start : Nat) (chunk : List Byte) (σ σ' : Machine φ) : Prop where
  ticks : ∃ σ₁ σ₂, spaceStep layout.config dev σ = some (.done, σ₁) ∧
    spaceStep layout.config dev σ₁ = some (.done, σ₂) ∧
    spaceStep layout.config dev σ₂ = some (.done, σ') ∧
    ¬ Ready layout.config σ₁.view.bits ∧ ¬ Ready layout.config σ₂.view.bits
  ready : Ready layout.config σ'.view.bits
  bits : ∀ p, ¬ InCore layout.config p → σ'.view.bits p = σ.view.bits.putBytes start chunk p
  inp : ∃ raw, record layout (layout.installRows start chunk) = some (.ok raw) ∧
    ahead σ.inp = raw.toList ++ ahead σ'.inp
  out : σ'.out = σ.out

/-- One installation record after the other. -/
def InstallsAll : List (Nat × List Byte) → Machine φ → Machine φ → Prop
  | [], σ, σ' => σ' = σ
  | (start, chunk) :: chunks, σ, σ' =>
      ∃ σ₁, Installs layout dev ahead start chunk σ σ₁ ∧ InstallsAll chunks σ₁ σ'

/-- What the last record does: the third tick loads the layer at `label` into the slots, and goes on
with its slots from the fourth on. -/
structure Loads (label : Nat) (σ σ' : Machine φ) : Prop where
  ticks : ∃ σ₁ σ₂ loaded, spaceStep layout.config dev σ = some (.done, σ₁) ∧
    spaceStep layout.config dev σ₁ = some (.done, σ₂) ∧
    (∀ p, ¬ InCore layout.config p → σ₂.view.bits p = σ.view.bits p) ∧
    (∀ p < layout.layerBits, loaded p = σ₂.view.bits (label + p)) ∧
    (∀ p, layout.layerBits ≤ p → loaded p = σ₂.view.bits p) ∧
    let rest := BitMachine.computationFrom layout.config (layout.config.processorN - 4) 4 loaded
    spaceStep layout.config dev σ₂ = some (if rest.1 = 0 then .done else .error, σ') ∧
      σ'.view.bits = rest.2
  inp : ∃ raw, record layout (layout.loadRows label) = some (.ok raw) ∧
    ahead σ.inp = raw.toList ++ ahead σ'.inp
  out : σ'.out = σ.out

variable {layout dev ahead} (hd : dev.Serves ahead) {σ : Machine φ} (hs : σ.Sized layout.config)
  {start label : Nat} {chunk rest : List Byte}

include hd in
/-- The core reads a whole record. -/
theorem fread_record {raw : Array Byte} (hsize : raw.size = layout.coreRecordBytes) {f : φ}
    (hf : ahead f = raw.toList ++ rest) :
    (dev.fread f (layout.config.coreInputBits / 8)).1 = raw.toList ∧
      ahead (dev.fread f (layout.config.coreInputBits / 8)).2.2 = rest := by
  rw [← length_record hsize]
  obtain ⟨h₁, h₂⟩ := hd f raw.toList.length (by rw [hf, List.length_append]; omega)
  rw [h₁, h₂, hf]
  exact ⟨List.take_left, List.drop_left⟩

include hd hs

theorem installs (hr : Ready layout.config σ.view.bits) (ht : layout.Target start chunk)
    {raw : Array Byte} (hraw : record layout (layout.installRows start chunk) = some (.ok raw))
    (hrest : ahead σ.inp = raw.toList ++ rest) :
    ∃ σ', Installs layout dev ahead start chunk σ σ' ∧ ahead σ'.inp = rest ∧
      σ'.Sized layout.config := by
  have hg := layout.coreGood.good
  obtain ⟨-, -, hstart⟩ := ht.bounds
  obtain ⟨hread, hahead⟩ :=
    fread_record hd (Layout.size_record (Layout.installRows_valid hstart) hraw) hrest
  obtain ⟨y, z, m, step₁, step₂, step₃, hy, hz, hm, hbits⟩ := hr.install dev ht hraw hread
  obtain ⟨σ₁, e₁, hs₁, v₁⟩ := BitMachine.spaceStep_of_step hg hs step₁
  obtain ⟨σ₂, e₂, hs₂, v₂⟩ := BitMachine.spaceStep_of_step hg hs₁ (v₁ ▸ step₂)
  obtain ⟨σ', e₃, hs₃, v₃⟩ := BitMachine.spaceStep_of_step hg hs₂ (v₂ ▸ step₃)
  obtain ⟨-, hi, ho⟩ := BitMachine.mk.inj v₃
  have hinp : ahead σ'.inp = rest := by rw [hi]; exact hahead
  refine ⟨σ', ⟨⟨σ₁, σ₂, e₁, e₂, e₃, by rwa [v₁], by rwa [v₂]⟩, by rwa [v₃], by rwa [v₃],
    ⟨raw, hraw, ?_⟩, ho⟩, hinp, hs₃⟩
  rw [hinp, hrest]

theorem loads (hr : Ready layout.config σ.view.bits)
    (hlabel : label + layout.layerBits ≤ 2 ^ layout.addressBits) {raw : Array Byte}
    (hraw : record layout (layout.loadRows label) = some (.ok raw))
    (hrest : ahead σ.inp = raw.toList ++ rest) :
    ∃ σ', Loads layout dev ahead label σ σ' ∧ ahead σ'.inp = rest := by
  have hg := layout.coreGood.good
  have hA := layout.addressBits_ge
  obtain ⟨-, f₂, -⟩ := layout.fits
  obtain ⟨hread, hahead⟩ :=
    fread_record hd (Layout.size_record (Layout.loadRows_valid (by omega)) hraw) hrest
  obtain ⟨y, z, step₁, step₂, step₃, hkeep⟩ := hr.load dev hlabel hraw hread
  obtain ⟨σ₁, e₁, hs₁, v₁⟩ := BitMachine.spaceStep_of_step hg hs step₁
  obtain ⟨σ₂, e₂, hs₂, v₂⟩ := BitMachine.spaceStep_of_step hg hs₁ (v₁ ▸ step₂)
  obtain ⟨σ', e₃, hs₃, v₃⟩ := BitMachine.spaceStep_of_step hg hs₂ (v₂ ▸ step₃)
  obtain ⟨hb, hi, ho⟩ := BitMachine.mk.inj v₃
  have hinp : ahead σ'.inp = rest := by rw [hi]; exact hahead
  refine ⟨σ', ⟨⟨σ₁, σ₂, z.blit layout.layerBits 0 label, e₁, e₂, by rwa [v₂], fun p hp ↦ ?_,
    fun p hp ↦ ?_, e₃, hb⟩, ⟨raw, hraw, ?_⟩, ho⟩, hinp⟩
  · rw [v₂, Bits.blit_of_mem _ (by omega), Nat.sub_zero]
  · rw [v₂, Bits.blit_of_notMem _ (by omega)]
  · rw [hinp, hrest]

omit hs in
/-- A stream of records, from any state that is ready. -/
theorem installs_all (hlabel : label + layout.layerBits ≤ 2 ^ layout.addressBits)
    {chunks : List (Nat × List Byte)} (hchunks : ∀ c ∈ chunks, layout.Target c.1 c.2) :
    ∃ stream, layout.installation label chunks = some (.ok stream) ∧
      ∀ σ rest, σ.Sized layout.config → Ready layout.config σ.view.bits →
        ahead σ.inp = stream ++ rest → ∃ σ' σ'', InstallsAll layout dev ahead chunks σ σ' ∧
          Loads layout dev ahead label σ' σ'' ∧ ahead σ''.inp = rest := by
  induction chunks with
  | nil =>
      have hA := layout.addressBits_ge
      obtain ⟨-, f₂, -⟩ := layout.fits
      have hvalid : layout.RecordValid (layout.loadRows label) := Layout.loadRows_valid (by omega)
      obtain ⟨raw, e, -⟩ := Layout.record_layer hvalid
      refine ⟨raw.toList, Layout.installation_nil e, fun σ rest hs hr hrest ↦ ?_⟩
      obtain ⟨σ', hloads, hahead⟩ := loads hd hs hr hlabel e hrest
      exact ⟨σ, σ', rfl, hloads, hahead⟩
  | cons c chunks ih =>
      obtain ⟨start, chunk⟩ := c
      have ht : layout.Target start chunk := hchunks _ List.mem_cons_self
      have hvalid : layout.RecordValid (layout.installRows start chunk) :=
        Layout.installRows_valid ht.bounds.2.2
      obtain ⟨raw, e, -⟩ := Layout.record_layer hvalid
      obtain ⟨stream, hstream, hrun⟩ := ih fun c hc ↦ hchunks c (List.mem_cons_of_mem _ hc)
      refine ⟨raw.toList ++ stream, Layout.installation_cons e hstream, fun σ rest hs hr hrest ↦ ?_⟩
      rw [List.append_assoc] at hrest
      obtain ⟨σ₁, hinstalls, hahead, hs₁⟩ := installs hd hs hr ht e hrest
      obtain ⟨σ', σ'', hall, hloads, hend⟩ := hrun σ₁ rest hs₁ hinstalls.ready hahead
      exact ⟨σ', σ'', ⟨σ₁, hinstalls, hall⟩, hloads, hend⟩

end Stream

section Installation

open Rv32i

/-- **Installation records.**  In every layout and for every list of chunks whose places lie outside
the core region, `encode_stream` makes a stream that the core, as `core_init` leaves it, executes
record by record; then the layer at `label` is loaded, and IN has been read up to the end of the
last record.  In the layout of 2 MiB `cc-install` makes the same records. -/
theorem installation_runs (layout : Layout) {φ : Type} (dev : Device φ) (ahead : φ → List Byte)
    (hd : dev.Serves ahead) (chunks : List (Nat × List Byte)) (label : Nat)
    (hchunks : ∀ c ∈ chunks, layout.Target c.1 c.2)
    (hlabel : label + layout.layerBits ≤ layout.spaceBytes * 8) :
    (∃ stream, layout.installation label chunks = some (.ok stream) ∧
      ∀ (σ : Machine φ) rest, σ.Sized layout.config → ahead σ.inp = stream ++ rest →
        ∃ σ₀ σ' σ'', coreInit layout.config true σ = some (0, σ₀) ∧
          Ready layout.config σ₀.view.bits ∧ InstallsAll layout dev ahead chunks σ₀ σ' ∧
          Loads layout dev ahead label σ' σ'' ∧ ahead σ''.inp = rest) ∧
    (layout.spaceBytes = 2097152 → ∀ (h : Heap InstallObj) start, ReversalTable .reversed h →
      h.size .record = 37 → 6 ≤ h.size .chunk → start * 8 < 2 ^ 24 →
        ∃ h', ccInstallRecord (start * 8) h = some ((), h') ∧
          record layout (layout.installRows start ((h.bit .chunk).bytes 0 6)) =
            some (.ok (h'.obj .record).bytes)) := by
  constructor
  · rw [layout.spaceBits_eq] at hlabel
    obtain ⟨stream, hstream, hrun⟩ := installs_all hd hlabel hchunks
    refine ⟨stream, hstream, fun σ rest hs hrest ↦ ?_⟩
    obtain ⟨σ₀, e, hs₀, v⟩ := does_coreInit layout.coreGood.toCoreLaid hs
    have hready : Ready layout.config σ₀.view.bits := v ▸ ready_coreBits
    have hinp : σ₀.inp = σ.inp := (BitMachine.mk.inj v).2.1
    obtain ⟨σ', σ'', hrest⟩ := hrun σ₀ rest hs₀ hready (hinp ▸ hrest)
    exact ⟨σ₀, σ', σ'', e, hready, hrest⟩
  · exact fun hspace h start ht hrecord hchunk hstart ↦
      ccInstallRecord_eq hspace ht hrecord hchunk hstart

/-- The layout of 2 MiB. -/
def smallLayout : Layout := ⟨2097152, by decide, by decide, by decide⟩

theorem installation_runs_small : ∃ stream,
    smallLayout.installation 7372800 [(921600, [1, 2, 3, 4, 5, 6])] = some (.ok stream) ∧
    ∃ σ₀ σ' σ'', coreInit smallLayout.config true
        (Machine.zero smallLayout.config ⟨stream ++ [7], 0⟩ ⟨[], 0⟩) = some (0, σ₀) ∧
      Ready smallLayout.config σ₀.view.bits ∧
      InstallsAll smallLayout File.device (fun f ↦ f.bytes.drop f.pos)
        [(921600, [1, 2, 3, 4, 5, 6])] σ₀ σ' ∧
      Loads smallLayout File.device (fun f ↦ f.bytes.drop f.pos) 7372800 σ' σ'' ∧
      σ''.inp.bytes.drop σ''.inp.pos = [7] := by
  obtain ⟨⟨stream, hstream, hrun⟩, -⟩ := installation_runs smallLayout File.device _ File.serves
    [(921600, [1, 2, 3, 4, 5, 6])] 7372800 (by
      rw [List.forall_mem_singleton]
      refine ⟨by decide, by decide, fun p hp _ hin ↦ ?_⟩
      have hlt := hin.lt smallLayout.coreGood
      have hend : smallLayout.config.coreTableStart + smallLayout.config.coreTableBits ≤ 7372800 := by
        decide
      omega) (by decide)
  exact ⟨stream, hstream, hrun _ [7] (Machine.zero_sized _ _ _) rfl⟩

end Installation

end CopySpace
