import CopySpace.Space.Layer

/-!
# Writing rows

`Bits.putRow` writes a row as the compilers do, field by field, and `rowAt_putRow` reads it back.
-/

namespace CopySpace

namespace Bits

/-- Write a row. -/
def putRow (cfg : Config) (a : Nat) (row : Instruction) (m : Bits) : Bits :=
  ((m.putField a cfg.nSize row.n).putField (a + cfg.nSize) cfg.addressSize row.dst).putField
    (a + cfg.nSize + cfg.addressSize) cfg.addressSize row.src

/-- Write rows one behind the other. -/
def putRows (cfg : Config) : Nat → List Instruction → Bits → Bits
  | _, [], m => m
  | a, row :: rows, m => putRows cfg (a + cfg.instructionSize) rows (m.putRow cfg a row)

variable {cfg : Config} {m : Bits} {a p : Nat} {row : Instruction} {rows rows' : List Instruction}

theorem putRow_of_notMem (h : ¬(a ≤ p ∧ p < a + cfg.instructionSize)) :
    m.putRow cfg a row p = m p := by
  have hI : cfg.instructionSize = cfg.nSize + 2 * cfg.addressSize := rfl
  rw [putRow, putField_of_notMem _ (by omega), putField_of_notMem _ (by omega),
    putField_of_notMem _ (by omega)]

theorem putRows_of_notMem (h : ¬(a ≤ p ∧ p < a + rows.length * cfg.instructionSize)) :
    m.putRows cfg a rows p = m p := by
  induction rows generalizing a m with
  | nil => rfl
  | cons row rows ih =>
      rw [List.length_cons, Nat.succ_mul] at h
      rw [putRows, ih (by omega), putRow_of_notMem (by omega)]

theorem putRows_append : m.putRows cfg a (rows ++ rows') =
    (m.putRows cfg a rows).putRows cfg (a + rows.length * cfg.instructionSize) rows' := by
  induction rows generalizing a m with
  | nil => simp [putRows]
  | cons row rows ih =>
      rw [List.cons_append, putRows, ih, putRows, List.length_cons, Nat.succ_mul, Nat.add_assoc,
        Nat.add_comm cfg.instructionSize]

end Bits

/-- The numbers of the row fit into its fields. -/
structure Instruction.Fits (cfg : Config) (row : Instruction) : Prop where
  n_lt : row.n < 2 ^ cfg.nSize
  dst_lt : row.dst < 2 ^ cfg.addressSize
  src_lt : row.src < 2 ^ cfg.addressSize

namespace BitMachine

variable {cfg : Config} {m : Bits} {a : Nat} {row : Instruction} {rows : List Instruction}

theorem rowAt_putRow (h : row.Fits cfg) : (m.putRow cfg a row).rowAt cfg a = row := by
  rw [Bits.rowAt, Bits.putRow, ← Nat.add_assoc, Bits.field_putField_self,
    Bits.field_putField_of_disjoint _ (by omega), Bits.field_putField_of_disjoint _ (by omega),
    Bits.field_putField_self, Bits.field_putField_of_disjoint _ (by omega),
    Bits.field_putField_self, Nat.mod_eq_of_lt h.n_lt, Nat.mod_eq_of_lt h.dst_lt,
    Nat.mod_eq_of_lt h.src_lt]

theorem rowsAt_putRows (h : ∀ row ∈ rows, row.Fits cfg) :
    RowsAt cfg (m.putRows cfg a rows) a rows := by
  induction rows generalizing a m with
  | nil => trivial
  | cons row rows ih =>
      have hrow : (m.putRow cfg a row).rowAt cfg a = row := rowAt_putRow (h row List.mem_cons_self)
      refine ⟨.trans (rowAt_congr fun b hb ↦ ?_) hrow, ih fun r hr ↦
        h r (List.mem_cons_of_mem _ hr)⟩
      rw [Bits.putRows, Bits.putRows_of_notMem]
      omega

theorem rowAt_eq_zero (h : ∀ b < cfg.instructionSize, m (a + b) = false) :
    m.rowAt cfg a = ⟨0, 0, 0⟩ := by
  have hI : cfg.instructionSize = cfg.nSize + 2 * cfg.addressSize := rfl
  unfold Bits.rowAt
  congr 1 <;> refine Bits.field_eq_zero_iff.mpr fun b hb ↦ ?_
  · exact h b (by omega)
  · rw [Nat.add_assoc]; exact h _ (by omega)
  · rw [Nat.add_assoc]; exact h _ (by omega)

theorem rowsAt_zero {n : Nat} (h : ∀ b < n * cfg.instructionSize, m (a + b) = false) :
    RowsAt cfg m a (List.replicate n ⟨0, 0, 0⟩) := by
  induction n generalizing a with
  | zero => trivial
  | succ n ih =>
      rw [Nat.succ_mul] at h
      refine ⟨rowAt_eq_zero fun b hb ↦ h b (by omega), ih fun b hb ↦ ?_⟩
      rw [Nat.add_assoc]
      exact h _ (by omega)

/-- The rows that stand one behind the other in a space. -/
theorem rowsAt_range {n : Nat} : RowsAt cfg m a
    ((List.range n).map fun i ↦ m.rowAt cfg (a + i * cfg.instructionSize)) := by
  induction n with
  | zero => trivial
  | succ n ih =>
      rw [List.range_succ, List.map_append, List.map_singleton]
      refine rowsAt_append.mpr ⟨ih, ?_, trivial⟩
      rw [List.length_map, List.length_range]

/-- The bits of a row. -/
theorem rowAt_inj {m' : Bits} {a' : Nat} (h : m.rowAt cfg a = m'.rowAt cfg a') {b : Nat}
    (hb : b < cfg.instructionSize) : m (a + b) = m' (a' + b) := by
  have hI : cfg.instructionSize = cfg.nSize + 2 * cfg.addressSize := rfl
  obtain ⟨hn, hdst, hsrc⟩ := Instruction.mk.inj h
  by_cases h₁ : b < cfg.nSize
  · rw [Bits.bit_of_field hn h₁, Bits.testBit_field, decide_eq_true h₁, Bool.true_and]
  by_cases h₂ : b < cfg.nSize + cfg.addressSize
  · have h₂ : b - cfg.nSize < cfg.addressSize := by omega
    have hbit := Bits.bit_of_field hdst h₂
    rwa [Bits.testBit_field, decide_eq_true h₂, Bool.true_and,
      show a + cfg.nSize + (b - cfg.nSize) = a + b by omega,
      show a' + cfg.nSize + (b - cfg.nSize) = a' + b by omega] at hbit
  · have h₃ : b - (cfg.nSize + cfg.addressSize) < cfg.addressSize := by omega
    have hbit := Bits.bit_of_field hsrc h₃
    rwa [Bits.testBit_field, decide_eq_true h₃, Bool.true_and, Nat.add_assoc a, Nat.add_assoc a',
      Nat.add_sub_cancel' (Nat.not_lt.mp h₂)] at hbit

/-- Rows determine the bits that they take. -/
theorem RowsAt.bits_eq {m' : Bits} {a' : Nat} (h : RowsAt cfg m a rows)
    (h' : RowsAt cfg m' a' rows) {b : Nat} (hb : b < rows.length * cfg.instructionSize) :
    m (a + b) = m' (a' + b) := by
  induction rows generalizing a a' b with
  | nil => simp at hb
  | cons row rows ih =>
      rw [List.length_cons, Nat.succ_mul] at hb
      by_cases hlow : b < cfg.instructionSize
      · exact rowAt_inj (h.1.trans h'.1.symm) hlow
      · have hrest := ih h.2 h'.2 (show b - cfg.instructionSize < _ by omega)
        rwa [Nat.add_assoc, Nat.add_assoc, Nat.add_sub_cancel' (Nat.not_lt.mp hlow)] at hrest

end BitMachine

end CopySpace
