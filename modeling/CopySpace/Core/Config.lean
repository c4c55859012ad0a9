import CopySpace.Space.Bitwise

/-!
# `core.h`: where the standard core lies

The boot core is four rows in the first slots, and behind the processor a buffer for the
record it reads, a second copy of the four rows, an error message, a layer of zeros and a
table of layers with one entry for every status a read can leave.  All places are computed
in 32 bits, from a `PROCESSOR_BITS` that is itself a 32-bit product.

`Config.CoreExact` says that the core ends where addresses reach when the same computation is
done with natural numbers.  It does not follow from `core_configuration_valid`, which checks
the result of the 32-bit computation.
-/

namespace CopySpace

/-- `CORE_ERROR_MESSAGE`. -/
def coreErrorMessage : List Byte :=
  "\n[space:C:00000001:00000000]\n".toList.map fun c ↦ BitVec.ofNat 8 c.toNat

theorem length_coreErrorMessage : coreErrorMessage.length = 29 := by decide

namespace Config

variable (cfg : Config)

def coreLayerBits : Nat := 4 * cfg.instructionSize

def coreInputBits : Nat := ((cfg.coreLayerBits + 7) / 8 + 1) * 8

def coreBufferStart : Nat := u32 (u32 (cfg.processorBits + 7) / 8 * 8)

def coreStatusBits : Nat := ceilLog2U32 (2 * cfg.coreInputBits + 2)

def coreEntryShift : Nat := ceilLog2U32 cfg.coreLayerBits

def coreBootBits : Nat := u32 (2 ^ cfg.coreEntryShift)

def coreRestartStart : Nat := u32 (cfg.coreBufferStart + cfg.coreBootBits)

def coreErrorMessageStart : Nat := u32 (u32 (cfg.coreRestartStart + cfg.coreLayerBits + 7) / 8 * 8)

def coreErrorMessageBits : Nat := coreErrorMessage.length * 8

theorem coreErrorMessageBits_eq : coreErrorMessageBits = 232 := by
  rw [coreErrorMessageBits, length_coreErrorMessage]

def coreErrorZeroStart : Nat := u32 (cfg.coreErrorMessageStart + coreErrorMessageBits)

def coreTableBits : Nat := u32 (2 ^ (cfg.coreStatusBits + cfg.coreEntryShift))

def coreTableStart : Nat :=
  u32 (u32 (cfg.coreErrorZeroStart + cfg.coreLayerBits + cfg.coreTableBits - 1) /
    cfg.coreTableBits * cfg.coreTableBits)

/-- The compile-time check `core_configuration_valid`. -/
def CoreConfigurationValid : Prop :=
  u32 (cfg.coreTableStart + cfg.coreTableBits) ≤ cfg.spaceSize ∧
    cfg.coreInputBits < cfg.spaceSize / 2

instance : Decidable cfg.CoreConfigurationValid := by
  unfold CoreConfigurationValid; infer_instance

/-! ## The layout without overflow -/

/-- Where the buffer begins. -/
def exactBuffer : Nat := (cfg.processorN * cfg.instructionSize + 7) / 8 * 8

/-- Where the layer of zeros begins. -/
def exactZero : Nat :=
  (cfg.exactBuffer + cfg.coreBootBits + cfg.coreLayerBits + 7) / 8 * 8 + coreErrorMessageBits

/-- Where the table begins. -/
def exactTable : Nat :=
  (cfg.exactZero + cfg.coreLayerBits + cfg.coreTableBits - 1) / cfg.coreTableBits *
    cfg.coreTableBits

/-- The core, laid out without overflow, ends where addresses reach. -/
def CoreExact : Prop := cfg.exactTable + cfg.coreTableBits ≤ 2 ^ cfg.addressSize

instance : Decidable cfg.CoreExact := by unfold CoreExact; infer_instance

/-- The parts of the core in the order of the header, without overflow behind the buffer. -/
structure CoreLaid : Prop where
  le_addressSize : 18 ≤ cfg.addressSize
  /-- The sizes of the parts. -/
  layer_le_boot : cfg.coreLayerBits ≤ cfg.coreBootBits
  input_le_boot : cfg.coreInputBits ≤ cfg.coreBootBits
  layer_le_input : cfg.coreLayerBits ≤ cfg.coreInputBits
  input_lt : 2 * cfg.coreInputBits + 1 < 2 ^ cfg.coreStatusBits
  boot_eq : cfg.coreBootBits = 2 ^ cfg.coreEntryShift
  table_eq : cfg.coreTableBits = 2 ^ cfg.coreStatusBits * cfg.coreBootBits
  shift_le : cfg.coreEntryShift + cfg.coreStatusBits ≤ cfg.addressSize
  boot_lt : cfg.coreBootBits < 2 ^ cfg.nSize
  message_lt : coreErrorMessageBits < 2 ^ cfg.nSize
  input_lt_space : cfg.coreInputBits < cfg.spaceSize / 2
  /-- Their places. -/
  processor_le : cfg.processorBits ≤ cfg.coreBufferStart
  buffer_mod : cfg.coreBufferStart % 8 = 0
  restart_eq : cfg.coreRestartStart = cfg.coreBufferStart + cfg.coreBootBits
  message_le : cfg.coreRestartStart + cfg.coreLayerBits ≤ cfg.coreErrorMessageStart
  message_lt_restart : cfg.coreErrorMessageStart < cfg.coreRestartStart + cfg.coreLayerBits + 8
  message_mod : cfg.coreErrorMessageStart % 8 = 0
  zero_eq : cfg.coreErrorZeroStart = cfg.coreErrorMessageStart + coreErrorMessageBits
  zero_le : cfg.coreErrorZeroStart + cfg.coreLayerBits ≤ cfg.coreTableStart
  table_lt : cfg.coreTableStart < cfg.coreErrorZeroStart + cfg.coreLayerBits + cfg.coreTableBits
  table_mod : cfg.coreTableStart % cfg.coreTableBits = 0
  table_le : cfg.coreTableStart + cfg.coreTableBits ≤ cfg.spaceSize

/-- What the boot sequence needs: the slots end before the buffer, and addresses reach the end
of the table. -/
structure CoreGood : Prop extends CoreLaid cfg where
  four_le : 4 ≤ cfg.processorN
  exact : cfg.Exact
  table_le_pow : cfg.coreTableStart + cfg.coreTableBits ≤ 2 ^ cfg.addressSize

variable {cfg}

/-- The sizes of the parts depend on `ADDRESS_SIZE` alone. -/
theorem core_sizes (h₁ : 18 ≤ cfg.addressSize) :
    cfg.coreLayerBits ≤ cfg.coreBootBits ∧ cfg.coreInputBits ≤ cfg.coreBootBits ∧
    cfg.coreLayerBits ≤ cfg.coreInputBits ∧
    2 * cfg.coreInputBits + 1 < 2 ^ cfg.coreStatusBits ∧
    cfg.coreBootBits = 2 ^ cfg.coreEntryShift ∧
    cfg.coreTableBits = 2 ^ cfg.coreStatusBits * cfg.coreBootBits ∧
    cfg.coreEntryShift + cfg.coreStatusBits ≤ cfg.addressSize ∧
    cfg.coreBootBits ≤ 512 ∧ cfg.coreTableBits ≤ 2 ^ 19 := by
  have h₂ := cfg.addressSize_le
  unfold coreTableBits coreBootBits coreStatusBits coreEntryShift coreInputBits coreLayerBits
    instructionSize nSize
  generalize cfg.addressSize = A at h₁ h₂ ⊢
  interval_cases A <;> decide

/-- Rounding up to a multiple. -/
theorem le_roundUp {x m : Nat} (hm : 0 < m) : x ≤ (x + m - 1) / m * m ∧
    (x + m - 1) / m * m < x + m := by
  have h := Nat.div_add_mod (x + m - 1) m
  have h₁ := Nat.mod_lt (x + m - 1) hm
  rw [Nat.mul_comm] at h
  omega

section Places

variable (hv : cfg.SpaceConfigurationValid)

include hv

/-- The buffer begins behind the processor, as far as `PROCESSOR_BITS` tells. -/
theorem coreBufferStart_eq : cfg.coreBufferStart = (cfg.processorBits + 7) / 8 * 8 := by
  have h₁ := hv.2.2.2
  have h₂ := cfg.spaceSize_lt
  have h₃ := cfg.spaceSize_mod
  rw [coreBufferStart, u32_of_lt (n := _ + 7) (by omega), u32_of_lt (by omega)]

omit hv in
/-- The places behind the buffer. -/
theorem core_places (hb : cfg.coreBufferStart < 2 ^ 31) (h₁ : cfg.coreLayerBits ≤ 512)
    (h₂ : cfg.coreBootBits ≤ 512) (h₃ : cfg.coreTableBits ≤ 2 ^ 19) (h₄ : 0 < cfg.coreTableBits) :
    cfg.coreRestartStart = cfg.coreBufferStart + cfg.coreBootBits ∧
    cfg.coreErrorMessageStart =
      (cfg.coreBufferStart + cfg.coreBootBits + cfg.coreLayerBits + 7) / 8 * 8 ∧
    cfg.coreErrorZeroStart = cfg.coreErrorMessageStart + coreErrorMessageBits ∧
    cfg.coreTableStart = (cfg.coreErrorZeroStart + cfg.coreLayerBits + cfg.coreTableBits - 1) /
      cfg.coreTableBits * cfg.coreTableBits ∧
    cfg.coreTableStart + cfg.coreTableBits < 2 ^ 32 := by
  have hm := coreErrorMessageBits_eq
  have e₁ : cfg.coreRestartStart = cfg.coreBufferStart + cfg.coreBootBits := by
    rw [coreRestartStart, u32_of_lt (by omega)]
  have e₂ : cfg.coreErrorMessageStart =
      (cfg.coreBufferStart + cfg.coreBootBits + cfg.coreLayerBits + 7) / 8 * 8 := by
    rw [coreErrorMessageStart, e₁, u32_of_lt (n := _ + 7) (by omega), u32_of_lt (by omega)]
  have e₃ : cfg.coreErrorZeroStart = cfg.coreErrorMessageStart + coreErrorMessageBits := by
    rw [coreErrorZeroStart, u32_of_lt (by omega)]
  have hr := le_roundUp (x := cfg.coreErrorZeroStart + cfg.coreLayerBits) h₄
  have e₄ : cfg.coreTableStart = (cfg.coreErrorZeroStart + cfg.coreLayerBits +
      cfg.coreTableBits - 1) / cfg.coreTableBits * cfg.coreTableBits := by
    rw [coreTableStart, u32_of_lt (n := _ - 1) (by omega), u32_of_lt (by omega)]
  exact ⟨e₁, e₂, e₃, e₄, by omega⟩

variable (hc : cfg.CoreConfigurationValid)

include hc

/-- In a smaller address space the table alone would not fit. -/
theorem le_addressSize_of_valid : 18 ≤ cfg.addressSize := by
  by_contra hlt
  have h₁ := hv.2.1
  have hsize : cfg.coreLayerBits ≤ 512 ∧ cfg.coreBootBits ≤ 512 ∧ cfg.coreTableBits ≤ 2 ^ 19 ∧
      2 ^ cfg.addressSize < 2 * cfg.coreTableBits := by
    unfold coreTableBits coreBootBits coreStatusBits coreEntryShift coreInputBits coreLayerBits
      instructionSize nSize
    generalize cfg.addressSize = A at h₁ hlt ⊢
    have hlt : A < 18 := by omega
    interval_cases A <;> decide
  obtain ⟨h₂, h₃, h₄, h₅⟩ := hsize
  have hspace : cfg.spaceSize ≤ 2 ^ cfg.addressSize := cfg.spaceSize_le_of_lt (by omega)
  have hpow : 2 ^ cfg.addressSize ≤ 2 ^ 17 := Nat.pow_le_pow_right (by decide) (by omega)
  have hpos : 0 < cfg.coreTableBits := by have := Nat.two_pow_pos cfg.addressSize; omega
  have hb := coreBufferStart_eq hv
  have hp := hv.2.2.2
  obtain ⟨-, -, e₃, e₄, h₆⟩ := core_places (by omega) h₂ h₃ h₄ hpos
  have hm := coreErrorMessageBits_eq
  -- the table does not begin at zero, so it begins at its size or later
  have hle : cfg.coreTableBits ≤ cfg.coreTableStart := by
    rw [e₄]
    exact Nat.le_mul_of_pos_left _ (Nat.div_pos (by omega) hpos)
  have hvalid := hc.1
  rw [u32_of_lt h₆] at hvalid
  omega

theorem coreLaid (hb : cfg.coreBufferStart < 2 ^ 31) : cfg.CoreLaid := by
  have hA := le_addressSize_of_valid hv hc
  obtain ⟨s₁, s₂, s₃, s₄, s₅, s₆, s₇, s₈, s₉⟩ := core_sizes hA
  have hm := coreErrorMessageBits_eq
  have hpos : 0 < cfg.coreTableBits := by
    rw [s₆, s₅]
    exact Nat.mul_pos (Nat.two_pow_pos _) (Nat.two_pow_pos _)
  obtain ⟨e₁, e₂, e₃, e₄, h₆⟩ := core_places hb (by omega) s₈ s₉ hpos
  have hn : 2 ^ 17 ≤ 2 ^ cfg.nSize :=
    Nat.pow_le_pow_right (by decide) (by unfold nSize; omega)
  have hr := le_roundUp (x := cfg.coreErrorZeroStart + cfg.coreLayerBits) hpos
  have hbuf := coreBufferStart_eq hv
  have hvalid := hc.1
  rw [u32_of_lt h₆] at hvalid
  exact ⟨hA, s₁, s₂, s₃, s₄, s₅, s₆, s₇, by omega, by omega, hc.2, by omega, by omega, e₁,
    by omega, by omega, by omega, e₃, by omega, by omega, by rw [e₄, Nat.mul_mod_left], hvalid⟩

/-- The layout is as intended iff the slots are counted without overflow and addresses reach the
end of the table. -/
theorem coreExact_iff : cfg.CoreExact ↔ cfg.Exact ∧ cfg.coreBufferStart < 2 ^ 31 ∧
    cfg.coreTableStart + cfg.coreTableBits ≤ 2 ^ cfg.addressSize := by
  have hpow : 2 ^ cfg.addressSize ≤ 2 ^ 31 :=
    Nat.pow_le_pow_right (by decide) cfg.addressSize_le
  obtain ⟨s₁, s₂, s₃, s₄, s₅, s₆, s₇, s₈, s₉⟩ := core_sizes (le_addressSize_of_valid hv hc)
  have hpos : 0 < cfg.coreTableBits := by
    rw [s₆, s₅]
    exact Nat.mul_pos (Nat.two_pow_pos _) (Nat.two_pow_pos _)
  have hbuf : cfg.Exact → cfg.exactBuffer = cfg.coreBufferStart := fun he ↦ by
    rw [coreBufferStart_eq hv, he.processorBits_eq, exactBuffer]
  have htab : cfg.Exact → cfg.coreBufferStart < 2 ^ 31 →
      cfg.exactTable = cfg.coreTableStart := fun he hb ↦ by
    obtain ⟨e₁, e₂, e₃, e₄, h₆⟩ := core_places hb (by omega) s₈ s₉ hpos
    rw [exactTable, e₄, e₃, e₂, exactZero, hbuf he]
  constructor
  · intro h
    -- the buffer begins below the end of the table
    have hle : cfg.exactBuffer + cfg.coreTableBits ≤ 2 ^ cfg.addressSize := by
      have h₁ := (le_roundUp (x := cfg.exactZero + cfg.coreLayerBits) hpos).1
      have h₂ : cfg.exactBuffer ≤ cfg.exactZero := by unfold exactZero; omega
      unfold CoreExact exactTable at h
      omega
    have he : cfg.Exact := by unfold Exact; unfold exactBuffer at hle; omega
    have hb : cfg.coreBufferStart < 2 ^ 31 := by rw [← hbuf he]; omega
    exact ⟨he, hb, htab he hb ▸ h⟩
  · rintro ⟨he, hb, h⟩
    rwa [CoreExact, htab he hb]

theorem coreGood (h : cfg.CoreExact) : cfg.CoreGood := by
  obtain ⟨h₁, h₂, h₃⟩ := (coreExact_iff hv hc).mp h
  exact ⟨coreLaid hv hc h₂, hv.1, h₁, h₃⟩

end Places

theorem CoreLaid.good (hl : cfg.CoreLaid) (h4 : 4 ≤ cfg.processorN) (he : cfg.Exact) :
    cfg.Good := by
  have h₁ := hl.processor_le
  have h₂ := hl.table_le
  have h₃ := hl.zero_le
  have h₄ := hl.zero_eq
  have h₅ := hl.message_le
  have h₆ := hl.restart_eq
  have h₇ := hl.le_addressSize
  have hm := coreErrorMessageBits_eq
  rw [he.processorBits_eq] at h₁
  exact ⟨h4, by omega, by omega⟩

theorem CoreGood.good (hg : cfg.CoreGood) : cfg.Good := hg.toCoreLaid.good hg.four_le hg.exact

end Config

end CopySpace
