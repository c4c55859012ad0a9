import CopySpace.Space.Config
import Mathlib.Data.Nat.Log
import Mathlib.Tactic.IntervalCases
import Mathlib.Tactic.NormNum

/-!
# `Layout`: the geometry of an RV32I image

The Python generators place a virtual machine of 256 slots in a space whose size is a power
of two.  A `Layout` is a value that the constructor accepts; every other number of the
layout is computed from the size.  There are eight layouts (`Layout.exists_pow`).
-/

namespace CopySpace.Rv32i

/-- `SPACE_BYTES`. -/
def spaceBytes : Nat := 2097152

/-- `SLOTS`. -/
def slots : Nat := 256

/-- A layout that passes `__post_init__`. -/
structure Layout where
  spaceBytes : Nat
  le_spaceBytes : Rv32i.spaceBytes ≤ spaceBytes
  spaceBytes_le : spaceBytes ≤ 256 * 1024 * 1024
  spaceBytes_and : spaceBytes &&& (spaceBytes - 1) = 0

/-- Python's `int.bit_length` of a natural number. -/
def bitLength (n : Nat) : Nat := if n = 0 then 0 else Nat.log2 n + 1

theorem bitLength_two_pow_sub_one (k : Nat) : bitLength (2 ^ k - 1) = k := by
  unfold bitLength
  cases k with
  | zero => rfl
  | succ k =>
      have h1 := Nat.two_pow_pos k
      have hne : 2 ^ (k + 1) - 1 ≠ 0 := by rw [Nat.pow_succ]; omega
      rw [if_neg hne, Nat.add_right_cancel_iff, Nat.log2_eq_iff hne]
      constructor <;> rw [Nat.pow_succ] <;> omega

namespace Layout

variable (layout : Layout)

def addressBits : Nat := bitLength (layout.spaceBytes * 8 - 1)

def nBits : Nat := layout.addressBits - 1

def instructionBits : Nat := layout.nBits + 2 * layout.addressBits

def layerBits : Nat := slots * layout.instructionBits

def memoryBit : Nat := layout.spaceBytes * 4

def coreRecordBytes : Nat := (4 * layout.instructionBits + 7) / 8 + 1

def coreBuffer : Nat := (layout.layerBits + 7) / 8 * 8

def coreRestart : Nat := layout.coreBuffer + 1 <<< bitLength (4 * layout.instructionBits - 1)

def literalBytes : Nat := 2 * layout.addressBits / 8

/-- The space is `2 ^ k` bytes large for some `k` from 21 to 28. -/
theorem exists_pow : ∃ k, 21 ≤ k ∧ k ≤ 28 ∧ layout.spaceBytes = 2 ^ k := by
  have hlo := layout.le_spaceBytes
  have hhi := layout.spaceBytes_le
  have hne : layout.spaceBytes ≠ 0 := by unfold Rv32i.spaceBytes at hlo; omega
  obtain ⟨k, hk⟩ :=
    (Nat.and_sub_one_eq_zero_iff_isPowerOfTwo hne).mp layout.spaceBytes_and
  rw [hk] at hlo hhi
  refine ⟨k, ?_, ?_, hk⟩
  · exact (Nat.pow_le_pow_iff_right (by decide : 1 < 2)).mp hlo
  · exact (Nat.pow_le_pow_iff_right (by decide : 1 < 2)).mp (hhi.trans_eq (by norm_num))

theorem addressBits_of_pow {k : Nat} (h : layout.spaceBytes = 2 ^ k) :
    layout.addressBits = k + 3 := by
  rw [addressBits, h, show 2 ^ k * 8 = 2 ^ (k + 3) by rw [Nat.pow_add], bitLength_two_pow_sub_one]

theorem spaceBits_eq : layout.spaceBytes * 8 = 2 ^ layout.addressBits := by
  obtain ⟨k, _, _, h⟩ := layout.exists_pow
  rw [layout.addressBits_of_pow h, h, Nat.pow_add]

theorem addressBits_ge : 24 ≤ layout.addressBits := by
  obtain ⟨k, h₁, _, h⟩ := layout.exists_pow
  rw [layout.addressBits_of_pow h]
  omega

theorem addressBits_le : layout.addressBits ≤ 31 := by
  obtain ⟨k, _, h₂, h⟩ := layout.exists_pow
  rw [layout.addressBits_of_pow h]
  omega

/-- The build of the emulator that runs images of this layout. -/
def config : Config where
  vmSpaceBytes := layout.spaceBytes
  processorN := slots
  addressable := by have := layout.spaceBytes_le; omega
  unsigned := by decide

theorem spaceSize_config : layout.config.spaceSize = layout.spaceBytes * 8 := by
  have h := layout.spaceBytes_le
  rw [Config.spaceSize, config, u32_of_lt (n := layout.spaceBytes) (by omega), u32_of_lt (by omega)]

theorem addressSize_config : layout.config.addressSize = layout.addressBits := by
  have hle := layout.addressBits_le
  rw [Config.addressSize, spaceSize_config, spaceBits_eq]
  refine ceilLog2U32_eq hle le_rfl fun j hj ↦ Nat.pow_lt_pow_right (by decide) hj

theorem nSize_config : layout.config.nSize = layout.nBits := by
  rw [Config.nSize, addressSize_config, nBits]

theorem instructionSize_config : layout.config.instructionSize = layout.instructionBits := by
  rw [Config.instructionSize, nSize_config, addressSize_config, instructionBits]

end Layout

end CopySpace.Rv32i
