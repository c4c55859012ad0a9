import Mathlib.Data.Nat.Bitwise
import Mathlib.Tactic.IntervalCases
import Mathlib.Tactic.Linarith

/-!
# The space configuration

The two macros `VM_SPACE_BYTES` and `PROCESSOR_N` determine the whole layout of
`space.h`.  The header computes it in 32-bit unsigned arithmetic, and
`space_configuration_valid` is checked on the values so computed, so every product here
goes through `u32`: a large `PROCESSOR_N` can make `PROCESSOR_BITS` wrap around and pass
the check (`Config.Exact` says that it does not).
-/

namespace CopySpace

/-- The value of an expression of the type `size`, a `uint32_t`. -/
def u32 (n : Nat) : Nat := n % 2 ^ 32

theorem u32_lt (n : Nat) : u32 n < 2 ^ 32 := Nat.mod_lt _ (by decide)

theorem u32_le (n : Nat) : u32 n ≤ n := Nat.mod_le _ _

theorem u32_of_lt {n : Nat} (h : n < 2 ^ 32) : u32 n = n := Nat.mod_eq_of_lt h

/-- `CEIL_LOG2_U32`: the first `k ≤ 30` with `x ≤ 2 ^ k`, else 31. -/
def ceilLog2U32 (x : Nat) : Nat := ((List.range 31).find? fun k ↦ x ≤ 2 ^ k).getD 31

theorem ceilLog2U32_le (x : Nat) : ceilLog2U32 x ≤ 31 := by
  unfold ceilLog2U32
  cases h : (List.range 31).find? fun k ↦ x ≤ 2 ^ k with
  | none => simp
  | some k =>
      have := List.mem_of_find?_eq_some h
      simp only [List.mem_range] at this
      simp only [Option.getD_some]
      omega

theorem le_two_pow_ceilLog2U32 {x : Nat} (hx : x ≤ 2 ^ 31) : x ≤ 2 ^ ceilLog2U32 x := by
  unfold ceilLog2U32
  cases h : (List.range 31).find? fun k ↦ x ≤ 2 ^ k with
  | none => exact hx
  | some k => simpa using List.find?_some h

theorem le_two_pow_of_ceilLog2U32_lt {x : Nat} (h : ceilLog2U32 x < 31) :
    x ≤ 2 ^ ceilLog2U32 x := by
  unfold ceilLog2U32 at h ⊢
  cases hf : (List.range 31).find? fun k ↦ x ≤ 2 ^ k with
  | none => simp [hf] at h
  | some k => simpa using List.find?_some hf

theorem two_pow_lt_of_lt_ceilLog2U32 {x k : Nat} (hk : k < ceilLog2U32 x) : 2 ^ k < x := by
  unfold ceilLog2U32 at hk
  cases h : (List.range 31).find? fun k ↦ x ≤ 2 ^ k with
  | none =>
      rw [h, Option.getD_none] at hk
      have := List.find?_eq_none.mp h k (List.mem_range.mpr hk)
      simpa using this
  | some j =>
      rw [h, Option.getD_some] at hk
      rw [List.find?_eq_some_iff_append] at h
      obtain ⟨-, as, bs, hl, has⟩ := h
      have hj : j = as.length := by
        have hj31 : as.length < (List.range 31).length := by rw [hl]; simp
        have h₁ : (List.range 31)[as.length]? = some j := by rw [hl]; simp
        rw [List.getElem?_range (by simpa using hj31)] at h₁
        exact (Option.some.inj h₁).symm
      have hk' : k ∈ as := by
        have h₁ : (List.range 31)[k]? = as[k]? := by
          rw [hl, List.getElem?_append_left (by omega)]
        have hk31 : k < 31 := by
          have : as.length < (List.range 31).length := by rw [hl]; simp
          simp only [List.length_range] at this
          omega
        rw [List.getElem?_range hk31] at h₁
        exact List.mem_of_getElem? h₁.symm
      simpa using has k hk'

theorem ceilLog2U32_eq {x k : Nat} (hk : k ≤ 31) (hx : x ≤ 2 ^ k) (hx' : ∀ j < k, 2 ^ j < x) :
    ceilLog2U32 x = k := by
  have h₁ : ¬ k < ceilLog2U32 x := fun h ↦ absurd (two_pow_lt_of_lt_ceilLog2U32 h) (by omega)
  have h₂ : ¬ ceilLog2U32 x < k := fun h ↦ by
    have hle := le_two_pow_ceilLog2U32 (hx.trans (Nat.pow_le_pow_right (by decide) hk))
    exact absurd (hx' _ h) (by omega)
  omega

/-- `PROCESSOR_START`. -/
def processorStart : Nat := 0

/-- The macros of one build of the emulator. -/
structure Config where
  /-- `VM_SPACE_BYTES`: the size of the array `space`. -/
  vmSpaceBytes : Nat
  /-- `PROCESSOR_N`: the number of instruction slots, an `unsigned` constant. -/
  processorN : Nat
  addressable : 8 * vmSpaceBytes < 2 ^ 64
  unsigned : processorN < 2 ^ 32

namespace Config

variable (cfg : Config)

def spaceSize : Nat := u32 (u32 cfg.vmSpaceBytes * 8)

def addressSize : Nat := ceilLog2U32 cfg.spaceSize

def nSize : Nat := cfg.addressSize - 1

def instructionSize : Nat := cfg.nSize + 2 * cfg.addressSize

def processorBits : Nat := u32 (cfg.processorN * cfg.instructionSize)

/-- The offsets of the fields in an instruction, the table `o`. -/
def o (field : Nat) : Nat := #[0, cfg.nSize, cfg.nSize + cfg.addressSize].getD field 0

/-- The widths of the fields, the table `s`. -/
def s (field : Nat) : Nat := #[cfg.nSize, cfg.addressSize, cfg.addressSize].getD field 0

/-- The compile-time check `space_configuration_valid`. -/
def SpaceConfigurationValid : Prop :=
  4 ≤ cfg.processorN ∧ 1 < cfg.addressSize ∧ cfg.addressSize ≤ 31 ∧
    cfg.processorBits < cfg.spaceSize

instance : Decidable cfg.SpaceConfigurationValid := by
  unfold SpaceConfigurationValid; infer_instance

/-- `PROCESSOR_BITS` is the number of bits the slots take, and not that number modulo
`2 ^ 32`. -/
def Exact : Prop := cfg.processorN * cfg.instructionSize < 2 ^ 32

instance : Decidable cfg.Exact := by unfold Exact; infer_instance

@[simp] theorem o_zero : cfg.o 0 = 0 := rfl
@[simp] theorem o_one : cfg.o 1 = cfg.nSize := rfl
@[simp] theorem o_two : cfg.o 2 = cfg.nSize + cfg.addressSize := rfl
@[simp] theorem s_zero : cfg.s 0 = cfg.nSize := rfl
@[simp] theorem s_one : cfg.s 1 = cfg.addressSize := rfl
@[simp] theorem s_two : cfg.s 2 = cfg.addressSize := rfl

variable {cfg}

theorem spaceSize_lt : cfg.spaceSize < 2 ^ 32 := u32_lt _

theorem spaceSize_le : cfg.spaceSize ≤ 8 * cfg.vmSpaceBytes := by
  have h₁ := u32_le cfg.vmSpaceBytes
  have h₂ := u32_le (u32 cfg.vmSpaceBytes * 8)
  unfold spaceSize
  omega

theorem spaceSize_mod : cfg.spaceSize % 8 = 0 := by
  unfold spaceSize u32
  omega

theorem addressSize_le : cfg.addressSize ≤ 31 := ceilLog2U32_le _

/-- The space is more than half as large as the addresses can reach. -/
theorem two_pow_nSize_lt (h : 0 < cfg.addressSize) : 2 ^ cfg.nSize < cfg.spaceSize :=
  two_pow_lt_of_lt_ceilLog2U32 (show cfg.addressSize - 1 < cfg.addressSize by omega)

theorem spaceSize_le_two_pow (h : cfg.spaceSize ≤ 2 ^ 31) :
    cfg.spaceSize ≤ 2 ^ cfg.addressSize := le_two_pow_ceilLog2U32 h

theorem spaceSize_le_of_lt (cfg : Config) (h : cfg.addressSize < 31) :
    cfg.spaceSize ≤ 2 ^ cfg.addressSize := le_two_pow_of_ceilLog2U32_lt h

theorem two_pow_addressSize (cfg : Config) (h : 0 < cfg.addressSize) :
    2 ^ cfg.addressSize = 2 * 2 ^ cfg.nSize := by
  rw [← Nat.pow_succ', nSize, Nat.succ_eq_add_one, Nat.sub_add_cancel h]

theorem Exact.processorBits_eq (h : cfg.Exact) :
    cfg.processorBits = cfg.processorN * cfg.instructionSize := u32_of_lt h

/-- Slot `i`, and every field of it, ends inside the processor region. -/
theorem slot_end_le {i : Nat} (hi : i < cfg.processorN) :
    i * cfg.instructionSize + cfg.instructionSize ≤ cfg.processorN * cfg.instructionSize := by
  rw [← Nat.succ_mul]
  exact Nat.mul_le_mul_right _ hi

end Config

end CopySpace
