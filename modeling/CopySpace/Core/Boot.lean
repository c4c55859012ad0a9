import CopySpace.Core.Image
import CopySpace.Space.Safety

/-!
# The boot sequence

Two ticks of the emulator read a record and put its first four rows in place of the core.

* Tick 1: the IN channel reads the record into the buffer and leaves its status in slot 1;
  slot 0 copies the status into the source address of slot 3; slot 3 loads the entry of the
  table that the status selects.
* Tick 2: after a complete record the entry loads the buffer.  After any other status it
  writes the error message to OUT and loads a layer of zeros.

The proof follows the space through these ticks on the level of bits.
-/

namespace CopySpace

/-! ## The ticks -/

section Ticks

variable {φ : Type} {cfg : Config} (dev : Device φ) (hl : cfg.CoreLaid)

/-- The status that a read of the record leaves. -/
def bootStatus (cfg : Config) (r : List Byte × Bool × φ) : Nat :=
  16 * r.1.length + (if r.1.length ≠ cfg.coreInputBits / 8 ∧ r.2.1 = true then 1 else 0)

include hl

/-- The numbers of the core fit into the fields of its rows. -/
theorem Config.CoreLaid.fits : cfg.coreStatusBits ≤ cfg.addressSize ∧
    cfg.addressSize < cfg.coreLayerBits ∧ cfg.coreLayerBits < 2 ^ cfg.nSize ∧
    cfg.coreInputBits < 2 ^ cfg.nSize ∧ 2 ^ cfg.nSize < cfg.spaceSize ∧
    2 ^ cfg.addressSize = 2 * 2 ^ cfg.nSize ∧ 0 < cfg.coreStatusBits ∧
    coreErrorMessageBits < cfg.spaceSize / 2 := by
  have h₁ := hl.layer_le_boot
  have h₂ := hl.boot_lt
  have h₃ := hl.input_le_boot
  have h₄ := hl.shift_le
  have h₅ := hl.le_addressSize
  have h₆ : cfg.coreLayerBits = 4 * (cfg.nSize + 2 * cfg.addressSize) := rfl
  have h₇ := hl.input_lt
  have h₈ : cfg.coreStatusBits ≠ 0 := fun hc ↦ by rw [hc] at h₇; omega
  have h₉ : 2 ^ 17 ≤ 2 ^ cfg.nSize := Nat.pow_le_pow_right (by decide) (by unfold nSize; omega)
  have h₁₀ := cfg.two_pow_nSize_lt (by omega)
  have hm := coreErrorMessageBits_eq
  exact ⟨by omega, by omega, by omega, by omega, h₁₀, cfg.two_pow_addressSize (by omega),
    by omega, by omega⟩

theorem bootStatus_lt (r : List Byte × Bool × φ) (h : r.1.length ≤ cfg.coreInputBits / 8) :
    bootStatus cfg r < 2 ^ cfg.coreStatusBits := by
  have h₁ := hl.input_lt
  unfold bootStatus
  split <;> omega

omit hl in
/-- The status selects the entry `activate` exactly after a complete read. -/
theorem bootStatus_eq_iff (r : List Byte × Bool × φ) :
    bootStatus cfg r = 2 * cfg.coreInputBits ↔ r.1.length = cfg.coreInputBits / 8 := by
  have h₁ : cfg.coreInputBits % 8 = 0 := Nat.mul_mod_left _ _
  unfold bootStatus
  split <;> omega

/-- The source address of slot 3 after its low bits have been patched. -/
theorem field_patched {m : Bits} {a t entry : Nat} (he : entry < 2 ^ cfg.coreStatusBits)
    (hm : m.field a cfg.addressSize = t) (ht : t % cfg.coreTableBits = 0)
    (hle : t + cfg.coreTableBits ≤ 2 ^ cfg.addressSize) {b : Nat}
    (hb : m.field b cfg.coreStatusBits = entry) :
    (m.blit cfg.coreStatusBits (a + cfg.coreEntryShift) b).field a cfg.addressSize =
      t + entry * cfg.coreBootBits := by
  have hlt := hl.entry_le he
  have hpos : 0 < cfg.coreBootBits := by rw [hl.boot_eq]; exact Nat.two_pow_pos _
  -- the table begins at a multiple of its size
  obtain ⟨q, hq⟩ : ∃ q, t = 2 ^ (cfg.coreEntryShift + cfg.coreStatusBits) * q := by
    refine Nat.dvd_of_mod_eq_zero ?_
    rwa [Nat.pow_add, Nat.mul_comm (2 ^ _), ← hl.boot_eq, ← hl.table_eq]
  refine Bits.field_eq (by omega) fun i hi ↦ ?_
  have hval : t + entry * cfg.coreBootBits =
      2 ^ cfg.coreEntryShift * (2 ^ cfg.coreStatusBits * q + entry) := by
    rw [hq, hl.boot_eq, Nat.pow_add, Nat.mul_add, Nat.mul_assoc, Nat.mul_comm entry]
  have hT : ∀ j, t.testBit j = (decide (cfg.coreEntryShift + cfg.coreStatusBits ≤ j) &&
      q.testBit (j - (cfg.coreEntryShift + cfg.coreStatusBits))) := fun j ↦ by
    rw [hq, Nat.testBit_two_pow_mul]
  rw [hval, Nat.testBit_two_pow_mul, Nat.testBit_two_pow_mul_add _ he]
  by_cases h₁ : cfg.coreEntryShift ≤ i
  · by_cases h₂ : i < cfg.coreEntryShift + cfg.coreStatusBits
    · rw [Bits.blit_of_mem _ (by omega), if_pos (by omega),
        show b + (a + i - (a + cfg.coreEntryShift)) = b + (i - cfg.coreEntryShift) by omega,
        Bits.bit_of_field hb (by omega)]
      simp [h₁]
    · rw [Bits.blit_of_notMem _ (by omega), Bits.bit_of_field hm hi, hT, if_neg (by omega)]
      simp [h₁, show cfg.coreEntryShift + cfg.coreStatusBits ≤ i by omega, Nat.sub_sub]
  · rw [Bits.blit_of_notMem _ (by omega), Bits.bit_of_field hm hi, hT]
    simp [h₁, show ¬ cfg.coreEntryShift + cfg.coreStatusBits ≤ i by omega]

/-- The rows of the core, as the emulator decodes them. -/
theorem core_rows {m : Bits} (h : ∀ i < cfg.coreLayerBits, m i = Bits.layer cfg (core cfg) i)
    (hb : cfg.coreBufferStart < 2 ^ cfg.addressSize) :
    m.row cfg 0 = ⟨cfg.coreStatusBits,
      3 * cfg.instructionSize + cfg.nSize + cfg.addressSize + cfg.coreEntryShift,
      cfg.instructionSize + cfg.nSize + cfg.addressSize⟩ ∧
    m.row cfg 1 = ⟨cfg.coreInputBits, cfg.coreBufferStart, 0⟩ ∧
    m.row cfg 2 = ⟨0, 0, 0⟩ ∧
    m.row cfg 3 = ⟨cfg.coreLayerBits, 0, cfg.coreTableStart % 2 ^ cfg.addressSize⟩ := by
  obtain ⟨f₁, f₂, f₃, f₄, f₅, f₆, f₇, f₈⟩ := hl.fits
  have h₁ := hl.shift_le
  have h₇ : cfg.coreLayerBits = 4 * (cfg.nSize + 2 * cfg.addressSize) := rfl
  have h₈ : cfg.instructionSize = cfg.nSize + 2 * cfg.addressSize := rfl
  refine ⟨Bits.row_eq h (by decide) rfl rfl rfl ?_ ?_ ?_,
    Bits.row_eq h (by decide) rfl rfl rfl ?_ ?_ ?_,
    Bits.row_eq h (by decide) rfl rfl rfl ?_ ?_ ?_, ?row⟩
  case row =>
    rw [Bits.row_of_layer h (by decide)]
    exact congrArg (Instruction.mk · 0 _) (Nat.mod_eq_of_lt f₃)
  all_goals omega

theorem activate_rows {m : Bits} (hb : cfg.coreBufferStart < 2 ^ cfg.addressSize)
    (h : ∀ i < cfg.coreLayerBits, m i = Bits.layer cfg (activate cfg) i) :
    m.row cfg 0 = ⟨0, 0, 0⟩ ∧ m.row cfg 1 = ⟨0, 0, 0⟩ ∧ m.row cfg 2 = ⟨0, 0, 0⟩ ∧
    m.row cfg 3 = ⟨cfg.coreLayerBits, 0, cfg.coreBufferStart⟩ := by
  obtain ⟨f₁, f₂, f₃, f₄, f₅, f₆, f₇, f₈⟩ := hl.fits
  refine ⟨Bits.row_eq h (by decide) rfl rfl rfl ?_ ?_ ?_,
    Bits.row_eq h (by decide) rfl rfl rfl ?_ ?_ ?_, Bits.row_eq h (by decide) rfl rfl rfl ?_ ?_ ?_,
    Bits.row_eq h (by decide) rfl rfl rfl ?_ ?_ ?_⟩ <;> omega

theorem failure_rows {m : Bits} (hz : cfg.coreErrorZeroStart < 2 ^ cfg.addressSize)
    (h : ∀ i < cfg.coreLayerBits, m i = Bits.layer cfg (failure cfg) i) :
    m.row cfg 0 = ⟨0, 0, 0⟩ ∧ m.row cfg 1 = ⟨0, 0, 0⟩ ∧
    m.row cfg 2 = ⟨Config.coreErrorMessageBits, cfg.coreErrorMessageStart, 0⟩ ∧
    m.row cfg 3 = ⟨cfg.coreLayerBits, 0, cfg.coreErrorZeroStart⟩ := by
  obtain ⟨f₁, f₂, f₃, f₄, f₅, f₆, f₇, f₈⟩ := hl.fits
  have h₁ := hl.message_lt
  have h₂ := hl.zero_eq
  refine ⟨Bits.row_eq h (by decide) rfl rfl rfl ?_ ?_ ?_,
    Bits.row_eq h (by decide) rfl rfl rfl ?_ ?_ ?_, Bits.row_eq h (by decide) rfl rfl rfl ?_ ?_ ?_,
    Bits.row_eq h (by decide) rfl rfl rfl ?_ ?_ ?_⟩ <;> omega

/-- The channels of tick 1: the record is read into the buffer, and slot 1 holds the status. -/
theorem boot_channels {x : BitMachine φ} (h₁ : x.bits.row cfg 1 =
      ⟨cfg.coreInputBits, cfg.coreBufferStart, 0⟩) (h₂ : x.bits.row cfg 2 = ⟨0, 0, 0⟩) :
    let r := dev.fread x.inp (cfg.coreInputBits / 8)
    BitMachine.channels cfg dev x = ⟨(x.bits.putBytes (cfg.coreBufferStart / 8) r.1).putField
      (BitMachine.statusAt cfg 1) cfg.addressSize (bootStatus cfg r), r.2.2, x.out⟩ := by
  obtain ⟨f₁, f₂, f₃, f₄, f₅, f₆, f₇, f₈⟩ := hl.fits
  intro r
  have hlen : r.1.length ≤ cfg.coreInputBits / 8 := dev.fread_le x.inp _
  have h32 : 2 ^ cfg.addressSize ≤ 2 ^ 31 :=
    Nat.pow_le_pow_right (by decide) cfg.addressSize_le
  have hmod : cfg.coreInputBits % 8 = 0 := Nat.mul_mod_left _ _
  have h₃ := hl.table_le
  have h₄ := hl.zero_le
  have h₅ := hl.zero_eq
  have h₆ := hl.message_le
  have h₇ := hl.restart_eq
  have h₈ := hl.input_le_boot
  have h₉ := hl.layer_le_input
  have hnot : ¬ ChannelRejects cfg cfg.coreInputBits cfg.coreBufferStart := by
    have := hl.input_lt_space
    have := hl.buffer_mod
    unfold ChannelRejects
    omega
  rw [BitMachine.channels, h₁, h₂, BitMachine.channel_of_zero cfg dev 2 true ⟨0, 0, 0⟩ x rfl,
    BitMachine.channel_input _ _ _ _ (by dsimp only; omega) hnot,
    channelStatus_eq (by change r.1.length < _; omega)]
  congr 2
  change 2 * (8 * r.1.length) + (if (if r.1.length ≠ cfg.coreInputBits / 8 then
    (if r.2.1 = true then 2 else 1) else 0) = 2 then 1 else 0) = bootStatus cfg r
  unfold bootStatus
  by_cases hl : r.1.length = cfg.coreInputBits / 8
  · simp [hl]; omega
  · by_cases he : r.2.1 = true
    · simp [hl, he]; omega
    · simp [hl, he]; omega

/-- The load in slot 3 is the last copy of a tick. -/
theorem load_computation {m : Bits} {k src : Nat} (hk : cfg.processorN = k + 4)
    (h₃ : m.row cfg 3 = ⟨cfg.coreLayerBits, 0, src⟩)
    (hsrc : src + cfg.coreLayerBits ≤ cfg.spaceSize)
    (hclear : ∀ p, cfg.coreLayerBits ≤ p → p < cfg.processorN * cfg.instructionSize →
      m p = false) :
    BitMachine.computationFrom cfg (k + 1) 3 m = (0, m.blit cfg.coreLayerBits 0 src) := by
  obtain ⟨f₁, f₂, f₃, f₄, f₅, f₆, f₇, f₈⟩ := hl.fits
  have hlay : cfg.coreLayerBits = 4 * cfg.instructionSize := rfl
  rw [BitMachine.computationFrom_of_copy (by decide) (by rw [h₃]; dsimp only; omega)
    (by rw [h₃]; unfold Instruction.Leaves; dsimp only; omega), h₃]
  refine BitMachine.computationFrom_of_empty fun j h₁ h₂ ↦ ?_
  have hj : j * cfg.instructionSize + cfg.instructionSize ≤
      cfg.processorN * cfg.instructionSize := Config.slot_end_le (by omega)
  have hj' : 4 * cfg.instructionSize ≤ j * cfg.instructionSize := Nat.mul_le_mul_right _ h₁
  rw [BitMachine.row_eq_zero fun b hb ↦ ?_]
  rw [Bits.blit_of_notMem _ (by dsimp only; omega), hclear _ (by omega) (by omega)]

/-- The copies of tick 1: slot 0 patches the address in slot 3, slot 3 loads the entry. -/
theorem boot_computation {m : Bits} {t entry : Nat} (h4 : 4 ≤ cfg.processorN)
    (he : entry < 2 ^ cfg.coreStatusBits)
    (h₀ : m.row cfg 0 = ⟨cfg.coreStatusBits,
      3 * cfg.instructionSize + cfg.nSize + cfg.addressSize + cfg.coreEntryShift,
      cfg.instructionSize + cfg.nSize + cfg.addressSize⟩)
    (hs : m.field (BitMachine.statusAt cfg 1) cfg.addressSize = entry)
    (h₃ : m.row cfg 3 = ⟨cfg.coreLayerBits, 0, t⟩) (ht : t % cfg.coreTableBits = 0)
    (hle : t + cfg.coreTableBits ≤ 2 ^ cfg.addressSize)
    (hle' : t + cfg.coreTableBits ≤ cfg.spaceSize)
    (hsrc : cfg.coreLayerBits ≤ t + entry * cfg.coreBootBits)
    (hclear : ∀ p, cfg.coreLayerBits ≤ p → p < cfg.processorN * cfg.instructionSize →
      m p = false) :
    ∃ m', BitMachine.computationFrom cfg cfg.processorN 0 m = (0, m') ∧
      (∀ i < cfg.coreLayerBits, m' i = m (t + entry * cfg.coreBootBits + i)) ∧
      ∀ p, cfg.coreLayerBits ≤ p → m' p = m p := by
  obtain ⟨f₁, f₂, f₃, f₄, f₅, f₆, f₇, f₈⟩ := hl.fits
  have g₁ := hl.shift_le
  have g₂ := hl.entry_le he
  have g₃ := hl.layer_le_boot
  have hlay : cfg.coreLayerBits = 4 * cfg.instructionSize := rfl
  have hIS : cfg.instructionSize = cfg.nSize + 2 * cfg.addressSize := rfl
  obtain ⟨k, hk⟩ : ∃ k, cfg.processorN = k + 4 := ⟨cfg.processorN - 4, by omega⟩
  rw [hk, BitMachine.computationFrom_of_copy (by decide) (by rw [h₀]; dsimp only; omega)
    (by rw [h₀]; unfold Instruction.Leaves; dsimp only; omega), h₀,
    BitMachine.computationFrom_of_channel (.inl rfl),
    BitMachine.computationFrom_of_channel (.inr rfl)]
  dsimp only
  -- slot 3 after the patch
  have hrow : (m.blit cfg.coreStatusBits
      (3 * cfg.instructionSize + cfg.nSize + cfg.addressSize + cfg.coreEntryShift)
      (cfg.instructionSize + cfg.nSize + cfg.addressSize)).row cfg 3 =
        ⟨cfg.coreLayerBits, 0, t + entry * cfg.coreBootBits⟩ := by
    unfold Bits.row at h₃ ⊢
    obtain ⟨e₁, e₂, e₃⟩ := Instruction.mk.inj h₃
    rw [Bits.field_blit_of_disjoint _ (by omega), Bits.field_blit_of_disjoint _ (by omega), e₁, e₂]
    congr 1
    rw [show 3 * cfg.instructionSize + cfg.nSize + cfg.addressSize + cfg.coreEntryShift =
      3 * cfg.instructionSize + (cfg.nSize + cfg.addressSize) + cfg.coreEntryShift by omega]
    refine field_patched hl he e₃ ht hle (Bits.field_eq he fun i hi ↦ ?_)
    rw [← Bits.bit_of_field hs (by omega), BitMachine.statusAt, Nat.one_mul]
    exact congrArg m (by omega)
  generalize hm₂ : m.blit cfg.coreStatusBits _ _ = m₂ at hrow ⊢
  have hsame : ∀ p, cfg.coreLayerBits ≤ p → m₂ p = m p := fun p hp ↦ by
    rw [← hm₂, Bits.blit_of_notMem _ (by omega)]
  refine ⟨_, load_computation hl hk hrow (by omega) fun p h₁ h₂ ↦ ?_, fun i hi ↦ ?_, fun p hp ↦ ?_⟩
  · rw [hsame p h₁, hclear p h₁ h₂]
  · rw [Bits.blit_of_mem _ (by omega), Nat.sub_zero, hsame _ (by omega)]
  · rw [Bits.blit_of_notMem _ (by omega), hsame p hp]

omit hl in
/-- A slot that copies something makes the processor active. -/
theorem active_of_row {m : Bits} {i : Nat} {row : Instruction} (h4 : 4 ≤ cfg.processorN)
    (hi : i < 4) (h : m.row cfg i = row) (h0 : row.n ≠ 0) : BitMachine.active cfg m :=
  ⟨i, by omega, by rwa [h]⟩

/-- Tick 1 of the core. -/
theorem boot_tick_one {x : BitMachine φ} (h4 : 4 ≤ cfg.processorN)
    (hp : cfg.processorN * cfg.instructionSize ≤ cfg.coreBufferStart)
    (hb : cfg.coreBufferStart < 2 ^ cfg.addressSize)
    (hm : ∀ i < cfg.coreLayerBits, x.bits i = Bits.layer cfg (core cfg) i)
    (hclear : ∀ p, cfg.coreLayerBits ≤ p → p < cfg.processorN * cfg.instructionSize →
      x.bits p = false) :
    let r := dev.fread x.inp (cfg.coreInputBits / 8)
    let t := cfg.coreTableStart % 2 ^ cfg.addressSize + bootStatus cfg r * cfg.coreBootBits
    let m := x.bits.putBytes (cfg.coreBufferStart / 8) r.1
    cfg.coreLayerBits ≤ t → ∃ m', BitMachine.step cfg dev x = (.done, ⟨m', r.2.2, x.out⟩) ∧
      (∀ i < cfg.coreLayerBits, m' i = m (t + i)) ∧ ∀ p, cfg.coreLayerBits ≤ p → m' p = m p := by
  intro r t m hsrc
  obtain ⟨f₁, f₂, f₃, f₄, f₅, f₆, f₇, f₈⟩ := hl.fits
  obtain ⟨r₀, r₁, r₂, r₃⟩ := core_rows hl hm hb
  have hlay : cfg.coreLayerBits = 4 * cfg.instructionSize := rfl
  have hIS : cfg.instructionSize = cfg.nSize + 2 * cfg.addressSize := rfl
  have h4IS : 4 * cfg.instructionSize ≤ cfg.processorN * cfg.instructionSize :=
    Nat.mul_le_mul_right _ h4
  have hst : bootStatus cfg r < 2 ^ cfg.coreStatusBits :=
    bootStatus_lt hl r (dev.fread_le x.inp _)
  have hmod := hl.buffer_mod
  have hend := hl.table_le
  -- the truncated address of the table is aligned as the table is
  have hdvd : cfg.coreTableBits ∣ 2 ^ cfg.addressSize := by
    rw [hl.table_eq, hl.boot_eq, ← Nat.pow_add]
    exact Nat.pow_dvd_pow 2 (by have := hl.shift_le; omega)
  have ht : cfg.coreTableStart % 2 ^ cfg.addressSize % cfg.coreTableBits = 0 := by
    rw [Nat.mod_mod_of_dvd _ hdvd, hl.table_mod]
  have hle : cfg.coreTableStart % 2 ^ cfg.addressSize + cfg.coreTableBits ≤
      2 ^ cfg.addressSize := by
    have hlt := Nat.mod_lt cfg.coreTableStart (Nat.two_pow_pos cfg.addressSize)
    have := Nat.le_of_dvd (by omega) (Nat.dvd_sub hdvd (Nat.dvd_of_mod_eq_zero ht))
    omega
  have hle' := Nat.mod_le cfg.coreTableStart (2 ^ cfg.addressSize)
  have hch := boot_channels dev hl r₁ r₂
  -- the state after the channels
  generalize hm₁ : m.putField (BitMachine.statusAt cfg 1) cfg.addressSize (bootStatus cfg r) = m₁
    at hch
  have hlow : ∀ p, p < cfg.coreLayerBits → m p = x.bits p := fun p hlt ↦
    Bits.putBytes_of_notMem _ (by omega)
  have hhigh : ∀ p, cfg.coreLayerBits ≤ p → m₁ p = m p := fun p hge ↦ by
    rw [← hm₁, Bits.putField_of_notMem _ (by unfold BitMachine.statusAt; omega)]
  have hrow : ∀ i < 4, i ≠ 1 → m₁.row cfg i = x.bits.row cfg i := fun i hi h1 ↦ by
    refine BitMachine.row_congr fun j hj ↦ ?_
    have hj' : i * cfg.instructionSize + cfg.instructionSize ≤ cfg.coreLayerBits := by
      rw [← Nat.succ_mul]
      exact Nat.mul_le_mul_right _ hi
    rw [← hlow _ (by omega), ← hm₁, Bits.putField_of_notMem _ ?_]
    unfold BitMachine.statusAt
    interval_cases i <;> omega
  have hstatus : m₁.field (BitMachine.statusAt cfg 1) cfg.addressSize = bootStatus cfg r := by
    rw [← hm₁, Bits.field_putField_self]
    exact Nat.mod_eq_of_lt (hst.trans_le (Nat.pow_le_pow_right (by decide) f₁))
  obtain ⟨m', hcomp, hload, hsame⟩ := boot_computation hl h4 hst
    ((hrow 0 (by decide) (by decide)).trans r₀) hstatus ((hrow 3 (by decide) (by decide)).trans r₃)
    ht hle (by omega) hsrc fun p h₁ h₂ ↦ by
      rw [hhigh p h₁, show m p = x.bits p from Bits.putBytes_of_notMem _ (by omega),
        hclear p h₁ h₂]
  refine ⟨m', ?_, fun i hi ↦ ?_, fun p hp ↦ ?_⟩
  · exact BitMachine.step_eq_done (active_of_row h4 (by decide) r₀ (by dsimp only; omega))
      (hch.trans (congrArg (BitMachine.mk · r.2.2 x.out) hm₁)) hcomp
  · rw [hload i hi, hhigh _ (by omega)]
  · rw [hsame p hp, hhigh p hp]

/-- Tick 2 after a complete record. -/
theorem boot_tick_activate {x : BitMachine φ} (h4 : 4 ≤ cfg.processorN)
    (hb : cfg.coreBufferStart < 2 ^ cfg.addressSize)
    (hm : ∀ i < cfg.coreLayerBits, x.bits i = Bits.layer cfg (activate cfg) i)
    (hclear : ∀ p, cfg.coreLayerBits ≤ p → p < cfg.processorN * cfg.instructionSize →
      x.bits p = false) :
    BitMachine.step cfg dev x =
      (.done, { x with bits := x.bits.blit cfg.coreLayerBits 0 cfg.coreBufferStart }) := by
  obtain ⟨f₁, f₂, f₃, f₄, f₅, f₆, f₇, f₈⟩ := hl.fits
  obtain ⟨r₀, r₁, r₂, r₃⟩ := activate_rows hl hb hm
  have h₁ := hl.table_le
  have h₂ := hl.zero_le
  have h₃ := hl.zero_eq
  have h₄ := hl.message_le
  have h₅ := hl.restart_eq
  obtain ⟨k, hk⟩ : ∃ k, cfg.processorN = k + 4 := ⟨cfg.processorN - 4, by omega⟩
  refine BitMachine.step_eq_done (active_of_row h4 (by decide) r₃ (by dsimp only; omega))
    (y := x) ?_ ?_
  · simp [BitMachine.channels, BitMachine.channel, r₁, r₂]
  · rw [hk, BitMachine.computationFrom_of_zero (by rw [r₀]),
      BitMachine.computationFrom_of_channel (.inl rfl),
      BitMachine.computationFrom_of_channel (.inr rfl),
      load_computation hl hk r₃ (by omega) hclear]

/-- Tick 2 after an incomplete record. -/
theorem boot_tick_failure {x : BitMachine φ} (h4 : 4 ≤ cfg.processorN)
    (hp : cfg.processorN * cfg.instructionSize ≤ cfg.coreBufferStart)
    (hz : cfg.coreErrorZeroStart < 2 ^ cfg.addressSize)
    (hm : ∀ i < cfg.coreLayerBits, x.bits i = Bits.layer cfg (failure cfg) i)
    (hs : CoreSpace cfg x.bits) :
    ∃ m', BitMachine.step cfg dev x =
        (.done, ⟨m', x.inp, (dev.fwrite x.out coreErrorMessage).2.2⟩) ∧
      (∀ i < cfg.coreLayerBits, m' i = false) ∧ ∀ p, cfg.coreLayerBits ≤ p → m' p = x.bits p := by
  obtain ⟨f₁, f₂, f₃, f₄, f₅, f₆, f₇, f₈⟩ := hl.fits
  obtain ⟨r₀, r₁, r₂, r₃⟩ := failure_rows hl hz hm
  have h₁ := hl.table_le
  have h₂ := hl.zero_le
  have h₃ := hl.zero_eq
  have h₄ := hl.message_le
  have h₅ := hl.restart_eq
  have h₆ := hl.message_mod
  have hlay : cfg.coreLayerBits = 4 * cfg.instructionSize := rfl
  have hIS : cfg.instructionSize = cfg.nSize + 2 * cfg.addressSize := rfl
  have h4IS : 4 * cfg.instructionSize ≤ cfg.processorN * cfg.instructionSize :=
    Nat.mul_le_mul_right _ h4
  obtain ⟨k, hk⟩ : ∃ k, cfg.processorN = k + 4 := ⟨cfg.processorN - 4, by omega⟩
  -- the channel writes the message
  have hmsg : x.bits.bytes (cfg.coreErrorMessageStart / 8) (Config.coreErrorMessageBits / 8) =
      coreErrorMessage := by
    rw [show Config.coreErrorMessageBits / 8 = coreErrorMessage.length from
      Nat.mul_div_cancel _ (by decide)]
    exact Bits.bytes_eq fun p h₁ h₂ ↦ hs.message p (by omega)
      (by unfold Config.coreErrorMessageBits at h₃; omega)
  obtain ⟨status, hch⟩ : ∃ status, BitMachine.channels cfg dev x =
      ⟨x.bits.putField (BitMachine.statusAt cfg 2) cfg.addressSize status, x.inp,
        (dev.fwrite x.out coreErrorMessage).2.2⟩ := by
    have hnot : ¬ ChannelRejects cfg Config.coreErrorMessageBits cfg.coreErrorMessageStart := by
      have hmb : Config.coreErrorMessageBits % 8 = 0 := Nat.mul_mod_left _ _
      unfold ChannelRejects
      omega
    have h0 : Config.coreErrorMessageBits ≠ 0 := by
      rw [Config.coreErrorMessageBits_eq]; decide
    have h := BitMachine.channel_output dev 2
      ⟨Config.coreErrorMessageBits, cfg.coreErrorMessageStart, 0⟩ x h0 hnot
    dsimp only at h
    rw [hmsg] at h
    rw [BitMachine.channels, r₁, r₂, BitMachine.channel_of_zero _ _ _ _ _ _ rfl]
    exact ⟨_, h⟩
  generalize hm₁ : x.bits.putField _ _ status = m₁ at hch
  have hother : ∀ p, ¬(2 * cfg.instructionSize ≤ p ∧ p < 3 * cfg.instructionSize) →
      m₁ p = x.bits p := fun p hp ↦ by
    rw [← hm₁, Bits.putField_of_notMem _ (by unfold BitMachine.statusAt; omega)]
  have hrow : ∀ i < 4, i ≠ 2 → m₁.row cfg i = x.bits.row cfg i := fun i hi h2 ↦ by
    refine BitMachine.row_congr fun j hj ↦ hother _ ?_
    interval_cases i <;> omega
  have hload := load_computation hl hk ((hrow 3 (by decide) (by decide)).trans r₃) (by omega)
    fun p h₁ h₂ ↦ by rw [hother p (by omega), hs.clear p h₁ (by omega)]
  have hcomp : BitMachine.computationFrom cfg cfg.processorN 0 m₁ =
      (0, m₁.blit cfg.coreLayerBits 0 cfg.coreErrorZeroStart) := by
    rw [hk, BitMachine.computationFrom_of_zero (by rw [hrow 0 (by decide) (by decide), r₀]),
      BitMachine.computationFrom_of_channel (.inl rfl),
      BitMachine.computationFrom_of_channel (.inr rfl), hload]
  refine ⟨_, BitMachine.step_eq_done (active_of_row h4 (by decide) r₃ (by dsimp only; omega)) hch
    hcomp, fun i hi ↦ ?_, fun p hp ↦ ?_⟩
  · rw [Bits.blit_of_mem _ (by omega), hother _ (by omega), hs.zero _ (by omega) (by omega)]
  · rw [Bits.blit_of_notMem _ (by omega), hother p (by omega)]

/-- The space of the core keeps its shape as long as only the buffer and the first slots change. -/
theorem CoreSpace.congr {m m' : Bits} (hs : CoreSpace cfg m)
    (h : ∀ p, cfg.coreLayerBits ≤ p →
      ¬(cfg.coreBufferStart ≤ p ∧ p < cfg.coreBufferStart + cfg.coreBootBits) → m' p = m p) :
    CoreSpace cfg m' := by
  have h₁ := hl.layer_le_boot
  have h₂ := hl.zero_le
  have h₃ := hl.zero_eq
  have h₄ := hl.message_le
  have h₅ := hl.restart_eq
  constructor
  case clear => exact fun p h₁ h₂ ↦ (h p h₁ (by omega)).trans (hs.clear p h₁ h₂)
  case message => exact fun p h₁ h₂ ↦ (h p (by omega) (by omega)).trans (hs.message p h₁ h₂)
  case zero => exact fun p h₁ h₂ ↦ (h p (by omega) (by omega)).trans (hs.zero p h₁ h₂)
  case table => exact fun k hk i hi ↦ (h _ (by omega) (by omega)).trans (hs.table k hk i hi)

end Ticks

/-! ## The protocol -/

section Protocol

variable {φ : Type} (cfg : Config) (dev : Device φ)

/-- The slots from slot 4 on are zero. -/
def Machine.LaterSlotsZero (σ : Machine φ) : Prop :=
  ∀ p, cfg.coreLayerBits ≤ p → p < cfg.processorN * cfg.instructionSize → σ.view.bits p = false

/-- What is to happen after a complete record `bs`. -/
def Activated (bs : List Byte) (σ₁ σ₂ : Machine φ) : Prop :=
  (∀ i < 3, σ₁.view.bits.row cfg i = ⟨0, 0, 0⟩) ∧
  σ₁.view.bits.row cfg 3 = ⟨cfg.coreLayerBits, processorStart, cfg.coreBufferStart⟩ ∧
  ∀ i < cfg.coreLayerBits, σ₂.view.bits i = (bs.getD (i / 8) 0).getLsbD (7 - i % 8)

/-- What is to happen after any other read; `out` is OUT before the run. -/
def Failed (out : φ) (σ₂ : Machine φ) : Prop :=
  σ₂.out = (dev.fwrite out coreErrorMessage).2.2 ∧
  (∀ p < cfg.processorN * cfg.instructionSize, σ₂.view.bits p = false) ∧
  ∃ σ₃, spaceStep cfg dev σ₂ = some (.idle, σ₃) ∧ σ₃.view = σ₂.view

/-- The boot protocol, from the state `σ` in which `core_init` is called. -/
def Boots (σ : Machine φ) : Prop :=
  ∃ σ₀ σ₁ σ₂, coreInit cfg true σ = some (0, σ₀) ∧
    spaceStep cfg dev σ₀ = some (.done, σ₁) ∧ spaceStep cfg dev σ₁ = some (.done, σ₂) ∧
    (∀ τ ∈ [σ₀, σ₁, σ₂], τ.LaterSlotsZero cfg) ∧
    let record := (dev.fread σ.inp (cfg.coreInputBits / 8)).1
    if record.length = cfg.coreInputBits / 8 then Activated cfg record σ₁ σ₂
    else Failed cfg dev σ.out σ₂

variable {cfg}

section Good

variable (hg : cfg.CoreGood)

include hg

/-- Between the first slots and the buffer there are only empty slots. -/
theorem CoreSpace.laterSlotsZero {σ : Machine φ} (hs : CoreSpace cfg σ.view.bits) :
    σ.LaterSlotsZero cfg := by
  have hp := hg.processor_le
  rw [hg.exact.processorBits_eq] at hp
  exact fun p h₁ h₂ ↦ hs.clear p h₁ (by omega)

/-- `core_init` and tick 1. -/
theorem boots_first {σ : Machine φ} (hs : σ.Sized cfg) :
    let r := dev.fread σ.inp (cfg.coreInputBits / 8)
    ∃ σ₀ σ₁, coreInit cfg true σ = some (0, σ₀) ∧ spaceStep cfg dev σ₀ = some (.done, σ₁) ∧
      σ₀.LaterSlotsZero cfg ∧ σ₁.Sized cfg ∧ σ₁.out = σ.out ∧ CoreSpace cfg σ₁.view.bits ∧
      (∀ i < cfg.coreLayerBits,
        σ₁.view.bits i = Bits.layer cfg (tableRows cfg (bootStatus cfg r)) i) ∧
      ∀ i < cfg.coreLayerBits, i / 8 < r.1.length →
        σ₁.view.bits (cfg.coreBufferStart + i) = (r.1.getD (i / 8) 0).getLsbD (7 - i % 8) := by
  intro r
  have hl := hg.toCoreLaid
  have hpow := hg.table_le_pow
  have h₁ := hl.layer_le_boot
  have h₂ := hl.zero_le
  have h₃ := hl.zero_eq
  have h₄ := hl.message_le
  have h₅ := hl.restart_eq
  have h₆ := hl.input_le_boot
  have h₇ := hl.buffer_mod
  have hp := hl.processor_le
  rw [hg.exact.processorBits_eq] at hp
  have hlay : cfg.coreLayerBits = 4 * cfg.instructionSize := rfl
  have h4IS : 4 * cfg.instructionSize ≤ cfg.processorN * cfg.instructionSize :=
    Nat.mul_le_mul_right _ hg.four_le
  have hlen : r.1.length ≤ cfg.coreInputBits / 8 := dev.fread_le σ.inp _
  have hst := bootStatus_lt hl r hlen
  have hentry := hl.entry_le hst
  obtain ⟨-, f₂, -, -, -, -, -, -⟩ := hl.fits
  obtain ⟨σ₀, e₀, s₀, v₀⟩ := does_coreInit hl hs
  obtain ⟨hb₀, hi₀, ho₀⟩ := BitMachine.mk.inj v₀
  have hb₀ : σ₀.view.bits = coreBits cfg := hb₀
  have hspace : CoreSpace cfg σ₀.view.bits := hb₀ ▸ coreSpace_coreBits hl
  have hcore : ∀ i < cfg.coreLayerBits, σ₀.view.bits i = Bits.layer cfg (core cfg) i :=
    fun i hi ↦ hb₀ ▸ coreBits_layer hl hi
  have tick := boot_tick_one dev hl hg.four_le hp (by omega) hcore
    fun p h₁ h₂ ↦ hspace.clear p h₁ (by omega)
  dsimp only at tick
  rw [Nat.mod_eq_of_lt (by omega), show σ₀.view.inp = σ.inp from hi₀,
    show σ₀.view.out = σ.out from ho₀] at tick
  obtain ⟨m₁, step₁, load₁, keep₁⟩ := tick (by omega)
  obtain ⟨_, σ₁, f₁, i₁, w₁⟩ := does_spaceStep dev hg.good s₀
  rw [step₁] at w₁
  obtain ⟨rfl, v₁⟩ := Prod.mk.inj w₁
  obtain ⟨hb₁, -, ho₁⟩ := BitMachine.mk.inj v₁
  have hbuf : ∀ p, ¬(cfg.coreBufferStart ≤ p ∧ p < cfg.coreBufferStart + cfg.coreBootBits) →
      (σ₀.view.bits.putBytes (cfg.coreBufferStart / 8) r.1) p = σ₀.view.bits p :=
    fun p hp ↦ Bits.putBytes_of_notMem _ (by omega)
  refine ⟨σ₀, σ₁, e₀, f₁, hspace.laterSlotsZero hg, i₁.sized s₀, ho₁,
    hspace.congr hl fun p h₁ h₂ ↦ ?_, fun i hi ↦ ?_, fun i hi hr ↦ ?_⟩
  · exact (congrFun hb₁ p).trans ((keep₁ p h₁).trans (hbuf p h₂))
  · exact (congrFun hb₁ i).trans ((load₁ i hi).trans
      ((hbuf _ (by omega)).trans (hspace.table _ hst i hi)))
  · have hq : (cfg.coreBufferStart + i) / 8 = cfg.coreBufferStart / 8 + i / 8 := by omega
    refine (congrFun hb₁ _).trans ((keep₁ _ (by omega)).trans ?_)
    refine (Bits.putBytes_of_mem _ (by rw [hq]; exact ⟨by omega, Nat.add_lt_add_left hr _⟩)).trans ?_
    rw [hq, Nat.add_sub_cancel_left, show (cfg.coreBufferStart + i) % 8 = i % 8 by omega]

/-- Tick 2 after a complete record. -/
theorem activated {σ₁ : Machine φ} {bs : List Byte} (s₁ : σ₁.Sized cfg)
    (hs : CoreSpace cfg σ₁.view.bits)
    (hm : ∀ i < cfg.coreLayerBits, σ₁.view.bits i = Bits.layer cfg (activate cfg) i)
    (hbs : ∀ i < cfg.coreLayerBits,
      σ₁.view.bits (cfg.coreBufferStart + i) = (bs.getD (i / 8) 0).getLsbD (7 - i % 8)) :
    ∃ σ₂, spaceStep cfg dev σ₁ = some (.done, σ₂) ∧ σ₂.LaterSlotsZero cfg ∧
      Activated cfg bs σ₁ σ₂ := by
  have hl := hg.toCoreLaid
  have hpow := hg.table_le_pow
  have h₂ := hl.zero_le
  have h₃ := hl.zero_eq
  have h₄ := hl.message_le
  have h₅ := hl.restart_eq
  have hlater := hs.laterSlotsZero hg
  obtain ⟨-, f₂, -, -, -, -, -, -⟩ := hl.fits
  have step₂ := boot_tick_activate dev hl hg.four_le (by omega) hm hlater
  obtain ⟨r₀, r₁, r₂, r₃⟩ := activate_rows hl (by omega) hm
  obtain ⟨_, σ₂, f₂, i₂, w₂⟩ := does_spaceStep dev hg.good s₁
  rw [step₂] at w₂
  obtain ⟨rfl, v₂⟩ := Prod.mk.inj w₂
  obtain ⟨hb₂, -, -⟩ := BitMachine.mk.inj v₂
  refine ⟨σ₂, f₂, fun p h₁ h₂ ↦ ?_, fun i hi ↦ ?_, r₃, fun i hi ↦ ?_⟩
  · exact (congrFun hb₂ p).trans ((Bits.blit_of_notMem _ (by omega)).trans (hlater p h₁ h₂))
  · interval_cases i
    · exact r₀
    · exact r₁
    · exact r₂
  · refine (congrFun hb₂ i).trans ((Bits.blit_of_mem _ (by omega)).trans ?_)
    rw [Nat.sub_zero, hbs i hi]

/-- Tick 2 after any other read, and the idle step behind it. -/
theorem failed {σ₁ : Machine φ} (s₁ : σ₁.Sized cfg) (hs : CoreSpace cfg σ₁.view.bits)
    (hm : ∀ i < cfg.coreLayerBits, σ₁.view.bits i = Bits.layer cfg (failure cfg) i) :
    ∃ σ₂, spaceStep cfg dev σ₁ = some (.done, σ₂) ∧ σ₂.LaterSlotsZero cfg ∧
      Failed cfg dev σ₁.out σ₂ := by
  have hl := hg.toCoreLaid
  have hpow := hg.table_le_pow
  have hp := hl.processor_le
  rw [hg.exact.processorBits_eq] at hp
  have h₂ := hl.zero_le
  obtain ⟨-, f₂, -, -, -, -, -, -⟩ := hl.fits
  have hlater := hs.laterSlotsZero hg
  obtain ⟨m₂, step₂, zero₂, keep₂⟩ :=
    boot_tick_failure dev hl hg.four_le hp (by omega) hm hs
  obtain ⟨_, σ₂, f₂, i₂, w₂⟩ := does_spaceStep dev hg.good s₁
  rw [step₂] at w₂
  obtain ⟨rfl, v₂⟩ := Prod.mk.inj w₂
  obtain ⟨hb₂, -, ho₂⟩ := BitMachine.mk.inj v₂
  have hclear : ∀ p < cfg.processorN * cfg.instructionSize, σ₂.view.bits p = false := by
    intro p hlt
    refine (congrFun hb₂ p).trans ?_
    by_cases hp : p < cfg.coreLayerBits
    · exact zero₂ p hp
    · exact (keep₂ p (by omega)).trans (hlater p (by omega) hlt)
  obtain ⟨r, σ₃, f₃, -, w₃⟩ := does_spaceStep dev hg.good (i₂.sized s₁)
  have hidle : ¬ BitMachine.active cfg σ₂.view.bits := by
    rintro ⟨i, hi, hn⟩
    refine hn (congrArg Instruction.n (BitMachine.row_eq_zero fun j hj ↦ hclear _ ?_))
    have := Config.slot_end_le hi
    omega
  rw [BitMachine.step, if_neg hidle] at w₃
  obtain ⟨rfl, v₃⟩ := Prod.mk.inj w₃
  exact ⟨σ₂, f₂, fun p _ ↦ hclear p, ho₂, hclear, σ₃, f₃, v₃⟩

/-- The code follows the protocol when the layout is as intended. -/
theorem boots_of_coreGood {σ : Machine φ} (hs : σ.Sized cfg) : Boots cfg dev σ := by
  obtain ⟨σ₀, σ₁, e₀, f₁, z₀, s₁, o₁, hspace, hm, hbs⟩ := boots_first dev hg hs
  have z₁ := hspace.laterSlotsZero hg
  have hle := hg.layer_le_input
  generalize hr : dev.fread σ.inp (cfg.coreInputBits / 8) = r at hm hbs
  unfold tableRows at hm
  by_cases hcomplete : r.1.length = cfg.coreInputBits / 8
  · rw [if_pos ((bootStatus_eq_iff r).mpr hcomplete)] at hm
    obtain ⟨σ₂, f₂, z₂, ha⟩ := activated dev hg s₁ hspace hm fun i hi ↦ hbs i hi (by
      have h8 : cfg.coreInputBits % 8 = 0 := Nat.mul_mod_left _ _
      omega)
    refine ⟨σ₀, σ₁, σ₂, e₀, f₁, f₂, by simp [z₀, z₁, z₂], ?_⟩
    rwa [hr, if_pos hcomplete]
  · rw [if_neg fun hc ↦ hcomplete ((bootStatus_eq_iff r).mp hc)] at hm
    obtain ⟨σ₂, f₂, z₂, hf⟩ := failed dev hg s₁ hspace hm
    refine ⟨σ₀, σ₁, σ₂, e₀, f₁, f₂, by simp [z₀, z₁, z₂], ?_⟩
    rwa [hr, if_neg hcomplete, ← o₁]

end Good

/-! ## Layouts for which the protocol fails -/

/-- An input stream of zeros without an end, and an output that accepts everything. -/
def Device.zeros : Device Unit where
  fread := fun f n ↦ (List.replicate n 0, false, f)
  fwrite := fun f bs ↦ (bs.length, false, f)
  fread_le := fun _ _ ↦ by simp
  fwrite_le := fun _ _ ↦ le_rfl

/-- There is only one state after `core_init`. -/
theorem coreInit_view (hl : cfg.CoreLaid) {σ σ₀ : Machine φ} (hs : σ.Sized cfg)
    (h : coreInit cfg true σ = some (0, σ₀)) :
    σ₀.Sized cfg ∧ σ₀.view = ⟨coreBits cfg, σ.inp, σ.out⟩ := by
  obtain ⟨σ', e, s, v⟩ := does_coreInit hl hs
  rw [h] at e
  obtain rfl : σ₀ = σ' := (Prod.mk.inj (Option.some.inj e)).2
  exact ⟨s, v⟩

/-- When the slots reach behind the buffer the error message lies in slots. -/
theorem exact_of_boots (hl : cfg.CoreLaid) {σ : Machine φ} (hs : σ.Sized cfg)
    (h : Boots cfg dev σ) : cfg.Exact := by
  by_contra he
  obtain ⟨σ₀, σ₁, σ₂, e₀, -, -, hlater, -⟩ := h
  obtain ⟨-, v₀⟩ := coreInit_view hl hs e₀
  have h₂ := hl.zero_le
  have h₃ := hl.zero_eq
  have h₄ := hl.message_le
  have h₅ := hl.message_mod
  have h₆ := hl.table_le
  have h₇ := cfg.spaceSize_lt
  have hm := Config.coreErrorMessageBits_eq
  unfold Config.Exact at he
  -- a bit of the line feed
  have hbit := (coreSpace_coreBits hl).message (cfg.coreErrorMessageStart + 4) (by omega) (by omega)
  rw [show (cfg.coreErrorMessageStart + 4) / 8 - cfg.coreErrorMessageStart / 8 = 0 by omega,
    show (cfg.coreErrorMessageStart + 4) % 8 = 4 by omega] at hbit
  have hzero := hlater σ₀ (by simp) (cfg.coreErrorMessageStart + 4) (by omega) (by omega)
  rw [v₀] at hzero
  exact absurd (hzero.symm.trans hbit) (by decide)

/-- A row cannot hold an address that needs more than `ADDRESS_SIZE` bits. -/
theorem buffer_lt_of_boots {σ : Machine φ} (h : Boots cfg dev σ)
    (hfull : (dev.fread σ.inp (cfg.coreInputBits / 8)).1.length = cfg.coreInputBits / 8) :
    cfg.coreBufferStart < 2 ^ cfg.addressSize := by
  obtain ⟨σ₀, σ₁, σ₂, -, -, -, -, h⟩ := h
  rw [if_pos hfull] at h
  obtain ⟨-, hrow, -⟩ := h
  have hsrc : _ = cfg.coreBufferStart := congrArg Instruction.src hrow
  rw [← hsrc]
  exact Bits.field_lt _ _ _

/-- A table that ends where addresses do not reach begins there, in a space of more than
`2 ^ 31` bits. -/
theorem table_far (hl : cfg.CoreLaid)
    (h : ¬ cfg.coreTableStart + cfg.coreTableBits ≤ 2 ^ cfg.addressSize) :
    2 ^ cfg.addressSize = 2147483648 ∧ 2 ^ cfg.addressSize ≤ cfg.coreTableStart := by
  have hA := cfg.addressSize_le
  have h₁ := hl.table_le
  have hpos : 0 < cfg.coreTableBits := by
    rw [hl.table_eq, hl.boot_eq]
    exact Nat.mul_pos (Nat.two_pow_pos _) (Nat.two_pow_pos _)
  have hdvd : cfg.coreTableBits ∣ 2 ^ cfg.addressSize - cfg.coreTableStart := by
    refine Nat.dvd_sub ?_ (Nat.dvd_of_mod_eq_zero hl.table_mod)
    rw [hl.table_eq, hl.boot_eq, ← Nat.pow_add]
    exact Nat.pow_dvd_pow 2 (by have := hl.shift_le; omega)
  have hge : 2 ^ cfg.addressSize ≤ cfg.coreTableStart := by
    by_contra hlt
    have := Nat.le_of_dvd (by omega) hdvd
    omega
  have hA31 : cfg.addressSize = 31 := by
    by_contra hne
    have := cfg.spaceSize_le_of_lt (by omega)
    omega
  exact ⟨by rw [hA31]; rfl, hge⟩

/-- When the table lies where addresses do not reach, tick 1 loads zeros. -/
theorem table_le_of_boots (hl : cfg.CoreLaid) (h4 : 4 ≤ cfg.processorN) (he : cfg.Exact)
    (hb : cfg.coreBufferStart < 2 ^ cfg.addressSize)
    (h : Boots cfg Device.zeros (Machine.zero cfg () ())) :
    cfg.coreTableStart + cfg.coreTableBits ≤ 2 ^ cfg.addressSize := by
  by_contra hgt
  obtain ⟨hpow, hge⟩ := table_far hl hgt
  have h₁ := hl.table_le
  have h₂ := hl.table_lt
  have h₃ := hl.zero_eq
  have h₄ := hl.message_lt_restart
  have h₅ := hl.restart_eq
  have hm := Config.coreErrorMessageBits_eq
  have h32 := cfg.spaceSize_lt
  obtain ⟨s₁, s₂, s₃, s₄, -, -, -, s₈, s₉⟩ := Config.core_sizes hl.le_addressSize
  obtain ⟨-, f₂, -, -, -, -, -, -⟩ := hl.fits
  have hp := hl.processor_le
  rw [he.processorBits_eq] at hp
  have hmod : cfg.coreTableStart % 2 ^ cfg.addressSize =
      cfg.coreTableStart - 2147483648 := by
    rw [hpow]
    omega
  have hfull : (Device.zeros.fread () (cfg.coreInputBits / 8)).1.length =
      cfg.coreInputBits / 8 := List.length_replicate
  obtain ⟨σ₀, σ₁, σ₂, e₀, f₁, -, -, h⟩ := h
  rw [if_pos hfull] at h
  obtain ⟨-, hrow, -⟩ := h
  obtain ⟨sized₀, v₀⟩ := coreInit_view hl (Machine.zero_sized cfg () ()) e₀
  have hspace := coreSpace_coreBits hl
  -- the source of the load lies between the first slots and the buffer
  have hentry := hl.entry_le (k := 2 * cfg.coreInputBits) (by omega)
  have hsrc : cfg.coreLayerBits ≤ 2 * cfg.coreInputBits * cfg.coreBootBits :=
    (show cfg.coreLayerBits ≤ 2 * cfg.coreInputBits by omega).trans
      (Nat.le_mul_of_pos_right _ (by omega))
  have tick := boot_tick_one Device.zeros hl (x := σ₀.view) h4 hp hb
    (fun i hi ↦ v₀ ▸ coreBits_layer hl hi)
    fun p h₁ h₂ ↦ v₀ ▸ hspace.clear p h₁ (by omega)
  have hi₀ : σ₀.view.inp = () := rfl
  dsimp only at tick
  rw [hi₀, (bootStatus_eq_iff _).mpr hfull, hmod] at tick
  obtain ⟨m₁, step₁, load₁, keep₁⟩ := tick (by omega)
  obtain ⟨r, σ', f', -, w₁⟩ := does_spaceStep Device.zeros (hl.good h4 he) sized₀
  obtain rfl : σ₁ = σ' := (Prod.mk.inj (Option.some.inj (f₁.symm.trans f'))).2
  rw [step₁] at w₁
  obtain ⟨hb₁, -, -⟩ := BitMachine.mk.inj (Prod.mk.inj w₁).2
  -- so slot 3 is empty after tick 1
  have hzero : ∀ i < cfg.coreLayerBits, σ₁.view.bits i = false := fun i hi ↦ by
    refine (congrFun hb₁ i).trans ((load₁ i hi).trans ?_)
    rw [Bits.putBytes_of_notMem _ (by have := hl.buffer_mod; omega), v₀]
    exact hspace.clear _ (by omega) (by omega)
  have hrow₀ : σ₁.view.bits.row cfg 3 = ⟨0, 0, 0⟩ :=
    BitMachine.row_eq_zero fun j hj ↦ hzero _ (by unfold Config.coreLayerBits; omega)
  rw [hrow₀] at hrow
  have := congrArg Instruction.n hrow
  dsimp only at this
  omega

/-- The boot sequence follows the protocol, over any streams, if and only if the layout, computed
without overflow, ends where addresses reach. -/
theorem boots_iff_coreExact (cfg : Config) (hv : cfg.SpaceConfigurationValid)
    (hc : cfg.CoreConfigurationValid) :
    (∀ (φ : Type) (dev : Device φ) (σ : Machine φ), σ.Sized cfg → Boots cfg dev σ) ↔
      cfg.CoreExact := by
  constructor
  · intro h
    have h₁ := h Unit Device.zeros (Machine.zero cfg () ()) (Machine.zero_sized cfg () ())
    have hb := buffer_lt_of_boots _ h₁ List.length_replicate
    have hb31 : cfg.coreBufferStart < 2 ^ 31 :=
      hb.trans_le (Nat.pow_le_pow_right (by decide) cfg.addressSize_le)
    have hl := Config.coreLaid hv hc hb31
    have he := exact_of_boots _ hl (Machine.zero_sized cfg () ()) h₁
    exact (Config.coreExact_iff hv hc).mpr ⟨he, hb31, table_le_of_boots hl hv.1 he hb h₁⟩
  · intro he φ dev σ hs
    exact boots_of_coreGood dev (Config.coreGood hv hc he) hs

/-- The default build: 2 MiB and 256 slots. -/
theorem boots_default : (∀ (φ : Type) (dev : Device φ) (σ : Machine φ),
    σ.Sized ⟨2097152, 256, by decide, by decide⟩ →
      Boots ⟨2097152, 256, by decide, by decide⟩ dev σ) ↔
    Config.CoreExact ⟨2097152, 256, by decide, by decide⟩ :=
  boots_iff_coreExact ⟨2097152, 256, by decide, by decide⟩ (by decide) (by decide)

/-- With 2 MiB and 60492498 slots `PROCESSOR_BITS` wraps around to 62, both checks pass, and the
core lies in slots. -/
theorem boots_overflow : let cfg : Config := ⟨2097152, 60492498, by decide, by decide⟩
    cfg.SpaceConfigurationValid ∧ cfg.CoreConfigurationValid ∧
      ¬ Boots cfg Device.zeros (Machine.zero cfg () ()) := by
  intro cfg
  have hv : cfg.SpaceConfigurationValid := by decide
  have hc : cfg.CoreConfigurationValid := by decide
  have hl : cfg.CoreLaid := Config.coreLaid hv hc (by decide)
  refine ⟨hv, hc, fun h ↦ ?_⟩
  exact absurd (exact_of_boots _ hl (Machine.zero_sized cfg () ()) h) (by decide)

end Protocol

end CopySpace
