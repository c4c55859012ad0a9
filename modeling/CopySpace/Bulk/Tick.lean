import CopySpace.Bulk.Level
import CopySpace.Lib.Schedule
import CopySpace.Rv32i.Layout
import CopySpace.Space.Bitwise

/-!
# The bulk-synchronous tick

In one tick all instructions of PROCESSOR are fetched and all their sources read at the start,
and all copies commit together.  A block of `rv32i_bulk.py` is laid out as a chain of layers,
one for each level: the nodes of the level in its first slots, in list order, and in the last
slot the link to the next layer, or the terminator of the block.

The run of a block is to be compared with the execution of its nodes one after another
(`Block.sequential`).  The order of writes, and of reads after writes, is what the levels
provide as far as operands are known beforehand; a read that a later writer overtakes they do
not see.  `Block.Unhurried` says that no copy is overtaken.
-/

namespace CopySpace.Bulk

open Rv32i (Layout slots)

/-! ## One tick -/

section Tick

variable (layout : Layout)

/-- The instruction whose row begins at `a`. -/
def rowFrom (m : Bits) (a : Nat) : Instruction :=
  ⟨m.field a layout.nBits, m.field (a + layout.nBits) layout.addressBits,
    m.field (a + (layout.nBits + layout.addressBits)) layout.addressBits⟩

/-- The instruction writes the position. -/
def Writes (row : Instruction) (p : Nat) : Prop := row.dst ≤ p ∧ p < row.dst + row.n

/-- The instruction reads the position. -/
def Reads (row : Instruction) (p : Nat) : Prop := row.src ≤ p ∧ p < row.src + row.n

instance (row : Instruction) (p : Nat) : Decidable (Writes row p) := by
  unfold Writes; infer_instance

/-- What a copy writes at a position, from the space it reads. -/
def written (m : Bits) (row : Instruction) (p : Nat) : Option Bool :=
  if Writes row p then some (m (row.src + (p - row.dst))) else none

/-- Commit one copy that has read the space `m`. -/
def commitRow (m acc : Bits) (row : Instruction) : Bits := fun p ↦ (written m row p).getD (acc p)

/-- The rows of PROCESSOR. -/
def processorRows (m : Bits) : List Instruction :=
  (List.range slots).map fun i ↦ rowFrom layout m (i * layout.instructionBits)

/-- One tick. -/
def tick (m : Bits) : Bits := (processorRows layout m).foldl (commitRow m) m

theorem mem_processorRows {layout : Layout} {m : Bits} {row : Instruction} :
    row ∈ processorRows layout m ↔
      ∃ s < slots, rowFrom layout m (s * layout.instructionBits) = row := by
  simp [processorRows]

/-- A row is determined by its bits. -/
theorem rowFrom_congr {layout : Layout} {m m' : Bits} {a a' : Nat}
    (h : ∀ b < layout.instructionBits, m (a + b) = m' (a' + b)) :
    rowFrom layout m a = rowFrom layout m' a' := by
  have hI : layout.instructionBits = layout.nBits + 2 * layout.addressBits := rfl
  unfold rowFrom
  congr 1 <;> refine Bits.field_congr fun b hb ↦ ?_
  · exact h b (by omega)
  · simpa only [Nat.add_assoc] using h (layout.nBits + b) (by omega)
  · simpa only [Nat.add_assoc] using h (layout.nBits + (layout.addressBits + b)) (by omega)

variable {layout} {m acc : Bits} {rows : List Instruction} {p : Nat}

theorem written_eq_none {row : Instruction} : written m row p = none ↔ ¬ Writes row p := by
  unfold written
  split <;> simp_all

theorem not_writes_of_n_eq_zero {row : Instruction} (h : row.n = 0) : ¬ Writes row p := by
  rintro ⟨h₁, h₂⟩
  omega

/-- What a copy reads for a position it writes. -/
theorem reads_of_writes {row : Instruction} (h : Writes row p) :
    Reads row (row.src + (p - row.dst)) := by
  obtain ⟨h₁, h₂⟩ := h
  constructor <;> omega

theorem foldl_commitRow_of_none (h : ∀ row ∈ rows, ¬ Writes row p) :
    rows.foldl (commitRow m) acc p = acc p := by
  induction rows generalizing acc with
  | nil => rfl
  | cons row rows ih =>
      rw [List.foldl_cons, ih fun r hr ↦ h r (List.mem_cons_of_mem _ hr), commitRow,
        written_eq_none.mpr (h row List.mem_cons_self), Option.getD_none]

/-- Copies that write a position and are not the same would be a conflict. -/
theorem foldl_commitRow_of_mem {row : Instruction} (hr : row ∈ rows) (hw : Writes row p)
    (h : ∀ r ∈ rows, Writes r p → r = row) :
    rows.foldl (commitRow m) acc p = m (row.src + (p - row.dst)) := by
  induction rows generalizing acc with
  | nil => exact absurd hr List.not_mem_nil
  | cons r rows ih =>
      rw [List.foldl_cons]
      by_cases hmem : row ∈ rows
      · exact ih hmem fun r' hr' ↦ h r' (List.mem_cons_of_mem _ hr')
      · obtain rfl : row = r := (List.mem_cons.mp hr).resolve_right hmem
        rw [foldl_commitRow_of_none, commitRow, written, if_pos hw, Option.getD_some]
        intro r' hr' hw'
        exact hmem (h r' (List.mem_cons_of_mem _ hr') hw' ▸ hr')

end Tick

/-! ## The layers of a block -/

/-- A block, the place of its first layer and the layer that the terminator loads. -/
structure Block where
  ops : List Copy
  base : Nat
  target : Nat

def fieldOffset (layout : Layout) : FieldName → Nat
  | .n => 0
  | .dst => layout.nBits
  | .src => layout.nBits + layout.addressBits

def fieldWidth (layout : Layout) : FieldName → Nat
  | .n => layout.nBits
  | .dst | .src => layout.addressBits

def fieldValue (row : Instruction) : FieldName → Nat
  | .n => row.n
  | .dst => row.dst
  | .src => row.src

namespace Block

variable (layout : Layout) (block : Block)

/-- How many of the first `i` nodes have this level. -/
def countAt (level i : Nat) : Nat :=
  ((List.range i).filter fun j ↦ levelAt block.ops j = level).length

/-- The slot of a node: the nodes of a level stand in list order. -/
def slot (i : Nat) : Nat := block.countAt (levelAt block.ops i) i

/-- The layer of a level. -/
def layer (level : Nat) : Nat := block.base + (level - 1) * layout.layerBits

/-- Where the row of an instruction begins in its layer. -/
def rowPosition (i : Nat) : Nat :=
  if i < block.ops.length then
    block.layer layout (levelAt block.ops i) + block.slot i * layout.instructionBits
  else block.layer layout (last block.ops) + (slots - 1) * layout.instructionBits

def resolve : Operand → Nat
  | .int value => value
  | .field instruction name offset =>
      block.rowPosition layout instruction + fieldOffset layout name + offset

/-- The row of an instruction as `place` writes it. -/
def rowOf (i : Nat) : Instruction :=
  if i < block.ops.length then
    ⟨(node block.ops i).n, block.resolve layout (node block.ops i).dst,
      block.resolve layout (node block.ops i).src⟩
  else ⟨layout.layerBits, 0, block.target⟩

/-- The link in the last slot of a level. -/
def link (level : Nat) : Instruction := ⟨layout.layerBits, 0, block.layer layout (level + 1)⟩

/-- Some node writes into this field. -/
def Patched (i : Nat) (name : FieldName) : Prop :=
  ∃ j < block.ops.length, ∃ offset, (node block.ops j).dst = .field i name offset

/-- The space holds the layers of the block, the first of them loaded.  The fields that nodes
write into may hold anything. -/
structure Encoded (m : Bits) : Prop where
  layerBits_le : layout.layerBits ≤ block.base
  slot_lt : ∀ i < block.ops.length, block.slot i < slots - 1
  field_eq : ∀ i ≤ block.ops.length, ∀ name, ¬ block.Patched i name →
    m.field (block.rowPosition layout i + fieldOffset layout name) (fieldWidth layout name) =
      fieldValue (block.rowOf layout i) name
  link : ∀ level, 1 ≤ level → level < last block.ops →
    rowFrom layout m (block.layer layout level + (slots - 1) * layout.instructionBits) =
      block.link layout level
  empty : ∀ level, 1 ≤ level → level ≤ last block.ops → ∀ s < slots - 1,
    (∀ i < block.ops.length, levelAt block.ops i = level → block.slot i ≠ s) →
      (rowFrom layout m (block.layer layout level + s * layout.instructionBits)).n = 0
  loaded : ∀ p < layout.layerBits, m p = m (block.base + p)

/-! ## One node after another -/

/-- The space after the first `i` instructions in list order, the terminator last. -/
def sequential (m : Bits) : Nat → Bits
  | 0 => m
  | i + 1 =>
      let row := rowFrom layout (sequential m i) (block.rowPosition layout i)
      (sequential m i).blit row.n row.dst row.src

/-- The row of instruction `i` when its turn comes. -/
def rowIn (m : Bits) (i : Nat) : Instruction :=
  rowFrom layout (block.sequential layout m i) (block.rowPosition layout i)

/-- No copy of a block is overtaken, in the run from `m`. -/
structure Unhurried (m : Bits) : Prop where
  /-- A copy writes data, or the row of a later instruction that it names. -/
  outside : ∀ i < block.ops.length, ∀ p, Writes (block.rowIn layout m i) p →
    (layout.layerBits ≤ p ∧ ¬(block.base ≤ p ∧ p < block.layer layout (last block.ops + 1))) ∨
    ∃ target name offset, (node block.ops i).dst = .field target name offset ∧ i < target ∧
      target ≤ block.ops.length ∧ block.rowPosition layout target ≤ p ∧
      p < block.rowPosition layout target + layout.instructionBits
  /-- No copy reads PROCESSOR. -/
  reads : ∀ i ≤ block.ops.length, ∀ p, Reads (block.rowIn layout m i) p → layout.layerBits ≤ p
  /-- A copy that writes what an earlier copy reads does not overtake it. -/
  read_write : ∀ i j, i < j → j < block.ops.length → ∀ p, Reads (block.rowIn layout m i) p →
    Writes (block.rowIn layout m j) p → NotOvertaken block.ops i j
  /-- A copy that reads what an earlier copy writes comes after it. -/
  write_read : ∀ i j, i < j → j < block.ops.length → ∀ p, Writes (block.rowIn layout m i) p →
    Reads (block.rowIn layout m j) p → Precedes block.ops i j
  /-- A copy that writes what an earlier copy writes comes after it. -/
  write_write : ∀ i j, i < j → j < block.ops.length → ∀ p, Writes (block.rowIn layout m i) p →
    Writes (block.rowIn layout m j) p → Precedes block.ops i j

/-! ## Where the rows lie -/

section Geometry

variable {layout block} {i j p : Nat}

theorem layerBits_eq : layout.layerBits = (slots - 1) * layout.instructionBits +
    layout.instructionBits := by
  rw [Layout.layerBits, ← Nat.succ_mul]
  rfl

theorem layer_succ {level : Nat} (h : 1 ≤ level) :
    block.layer layout (level + 1) = block.layer layout level + layout.layerBits := by
  obtain ⟨level, rfl⟩ := Nat.exists_eq_add_of_le' h
  rw [layer, layer, Nat.add_sub_cancel, Nat.add_sub_cancel, Nat.succ_mul, Nat.add_assoc]

variable (layout block) in
theorem layer_mono {l l' : Nat} (h : l ≤ l') : block.layer layout l ≤ block.layer layout l' :=
  Nat.add_le_add_left (Nat.mul_le_mul_right _ (Nat.sub_le_sub_right h 1)) _

/-- The level of an instruction, the terminator included. -/
def levelOfIndex (block : Block) (i : Nat) : Nat :=
  if i < block.ops.length then levelAt block.ops i else last block.ops

/-- The slot of an instruction, the terminator included. -/
def slotOfIndex (block : Block) (i : Nat) : Nat :=
  if i < block.ops.length then block.slot i else slots - 1

theorem rowPosition_eq : block.rowPosition layout i =
    block.layer layout (block.levelOfIndex i) + block.slotOfIndex i * layout.instructionBits := by
  unfold rowPosition levelOfIndex slotOfIndex
  split <;> rfl

theorem one_le_levelOfIndex : 1 ≤ block.levelOfIndex i := by
  unfold levelOfIndex
  split
  · exact one_le_levelAt
  · exact Nat.one_le_of_lt top_lt_last

theorem levelOfIndex_le : block.levelOfIndex i ≤ last block.ops := by
  unfold levelOfIndex
  split
  case isTrue h => exact Nat.le_of_lt (levelAt_lt_last h)
  case isFalse => exact le_rfl

theorem countAt_succ (level : Nat) : block.countAt level (i + 1) =
    block.countAt level i + if levelAt block.ops i = level then 1 else 0 := by
  unfold countAt
  rw [List.range_succ, List.filter_append, List.length_append]
  split <;> simp [*]

variable (block) in
theorem countAt_mono (level : Nat) (h : i ≤ j) :
    block.countAt level i ≤ block.countAt level j := by
  induction j, h using Nat.le_induction with
  | base => exact le_rfl
  | succ j _ ih =>
      rw [countAt_succ]
      omega

/-- The nodes of one level have different slots. -/
theorem slot_lt_slot (hij : i < j) (hl : levelAt block.ops i = levelAt block.ops j) :
    block.slot i < block.slot j := by
  have h₁ := block.countAt_mono (levelAt block.ops j) hij
  rw [Nat.succ_eq_add_one, countAt_succ, if_pos hl] at h₁
  unfold slot
  rw [hl]
  omega

/-- Instructions have rows of their own. -/
theorem eq_of_levelOfIndex (hs : ∀ i < block.ops.length, block.slot i < slots - 1)
    (hi : i ≤ block.ops.length) (hj : j ≤ block.ops.length)
    (hl : block.levelOfIndex i = block.levelOfIndex j)
    (h : block.slotOfIndex i = block.slotOfIndex j) : i = j := by
  unfold levelOfIndex at hl
  unfold slotOfIndex at h
  by_cases hi' : i < block.ops.length <;> by_cases hj' : j < block.ops.length
  · rw [if_pos hi', if_pos hj'] at hl h
    rcases Nat.lt_trichotomy i j with hlt | rfl | hlt
    · exact absurd (slot_lt_slot hlt hl) (by omega)
    · rfl
    · exact absurd (slot_lt_slot hlt hl.symm) (by omega)
  · rw [if_pos hi', if_neg hj'] at h
    exact absurd (hs i hi') (by omega)
  · rw [if_neg hi', if_pos hj'] at h
    exact absurd (hs j hj') (by omega)
  · omega

/-- The position `p` belongs to slot `s` of the layer of a level. -/
def InRow (layout : Layout) (block : Block) (level s p : Nat) : Prop :=
  block.layer layout level + s * layout.instructionBits ≤ p ∧
    p < block.layer layout level + s * layout.instructionBits + layout.instructionBits

theorem InRow.layer_le {level s : Nat} (h : block.InRow layout level s p) :
    block.layer layout level ≤ p := (Nat.le_add_right _ _).trans h.1

theorem InRow.lt_layer {level s : Nat} (hs : s < slots) (hl : 1 ≤ level)
    (h : block.InRow layout level s p) : p < block.layer layout (level + 1) := by
  have hle : s * layout.instructionBits + layout.instructionBits ≤ layout.layerBits := by
    rw [← Nat.succ_mul]
    exact Nat.mul_le_mul_right _ hs
  rw [layer_succ hl]
  exact h.2.trans_le (by omega)

/-- Rows do not overlap. -/
theorem InRow.inj {l l' s s' : Nat} (hl : 1 ≤ l) (hl' : 1 ≤ l') (hs : s < slots) (hs' : s' < slots)
    (h : block.InRow layout l s p) (h' : block.InRow layout l' s' p) : l = l' ∧ s = s' := by
  have hll : l = l' := by
    rcases Nat.lt_trichotomy l l' with hlt | heq | hlt
    · have h₁ := h.lt_layer hs hl
      have h₂ := h'.layer_le
      have h₃ := layer_mono layout block (show l + 1 ≤ l' from hlt)
      omega
    · exact heq
    · have h₁ := h'.lt_layer hs' hl'
      have h₂ := h.layer_le
      have h₃ := layer_mono layout block (show l' + 1 ≤ l from hlt)
      omega
  subst hll
  refine ⟨rfl, ?_⟩
  obtain ⟨h₁, h₂⟩ := h
  obtain ⟨h₃, h₄⟩ := h'
  rcases Nat.lt_trichotomy s s' with hlt | heq | hlt
  · have : (s + 1) * layout.instructionBits ≤ s' * layout.instructionBits :=
      Nat.mul_le_mul_right _ hlt
    rw [Nat.succ_mul] at this
    omega
  · exact heq
  · have : (s' + 1) * layout.instructionBits ≤ s * layout.instructionBits :=
      Nat.mul_le_mul_right _ hlt
    rw [Nat.succ_mul] at this
    omega

end Geometry

end Block

end CopySpace.Bulk
