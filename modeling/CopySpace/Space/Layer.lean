import CopySpace.Lib.Numeral
import CopySpace.Space.Bitwise

/-!
# Executing a layer

Programs for the emulator are made of *layers*: as many rows as the processor has slots, the
last of which loads the next layer.  Rows may change rows that come after them in the same
layer, which is how an address is computed.

While a layer is executed, what matters of the space are the rows that are still to come and
what stands behind the processor: `Holds`.  A row either copies behind the processor
(`executes_copy`) or changes an address of a later row (`executes_patch_dst`,
`executes_patch_src`), and `Performs` says what a list of rows does that may stand before any
others.  `step_layer` puts the rows of a layer and its link together to one step of the machine.
-/

namespace CopySpace

/-- The row that begins at `a`. -/
def Bits.rowAt (cfg : Config) (m : Bits) (a : Nat) : Instruction :=
  ⟨m.field a cfg.nSize, m.field (a + cfg.nSize) cfg.addressSize,
    m.field (a + (cfg.nSize + cfg.addressSize)) cfg.addressSize⟩

/-- The bits of the processor. -/
def Config.layerBits (cfg : Config) : Nat := cfg.processorN * cfg.instructionSize

namespace BitMachine

variable {φ : Type} {cfg : Config} {dev : Device φ} {m m' m'' : Bits} {i j k a a' : Nat}
  {row : Instruction} {rows rows' : List Instruction}

/-! ## Rows -/

theorem rowAt_congr (h : ∀ b < cfg.instructionSize, m (a + b) = m' (a' + b)) :
    m.rowAt cfg a = m'.rowAt cfg a' := by
  have hI : cfg.instructionSize = cfg.nSize + 2 * cfg.addressSize := rfl
  unfold Bits.rowAt
  congr 1 <;> refine Bits.field_congr fun b hb ↦ ?_
  · exact h b (by omega)
  · simpa only [Nat.add_assoc] using h (cfg.nSize + b) (by omega)
  · simpa only [Nat.add_assoc] using h (cfg.nSize + (cfg.addressSize + b)) (by omega)

/-- A copy that writes elsewhere leaves a row as it is. -/
theorem rowAt_blit_of_disjoint {n dst src : Nat}
    (h : a + cfg.instructionSize ≤ dst ∨ dst + n ≤ a) :
    (m.blit n dst src).rowAt cfg a = m.rowAt cfg a :=
  rowAt_congr fun b hb ↦ Bits.blit_of_notMem m (by omega)

/-- A copy into a field changes some of its bits. -/
theorem field_blit_splice {n src off w : Nat} (h : off + n ≤ w) :
    (m.blit n (a + off) src).field a w = Bits.splice off n (m.field src n) (m.field a w) := by
  apply Nat.eq_of_testBit_eq
  intro b
  rw [Bits.testBit_splice, Bits.testBit_field, Bits.testBit_field, Bits.testBit_field]
  by_cases hb : off ≤ b ∧ b < off + n
  · rw [if_pos hb, Bits.blit_of_mem _ (by omega), show a + b - (a + off) = b - off by omega]
    simp [show b < w by omega, show b - off < n by omega]
  · rw [if_neg hb, Bits.blit_of_notMem _ (by omega)]

/-- A copy into the destination of a row. -/
theorem rowAt_blit_dst {n src off : Nat} (h : off + n ≤ cfg.addressSize) :
    (m.blit n (a + cfg.nSize + off) src).rowAt cfg a =
      { m.rowAt cfg a with
        dst := Bits.splice off n (m.field src n) (m.rowAt cfg a).dst } := by
  simp only [Bits.rowAt]
  rw [field_blit_splice h, Bits.field_blit_of_disjoint m (by omega),
    Bits.field_blit_of_disjoint m (by omega)]

/-- A copy into the source of a row. -/
theorem rowAt_blit_src {n src off : Nat} (h : off + n ≤ cfg.addressSize) :
    (m.blit n (a + (cfg.nSize + cfg.addressSize) + off) src).rowAt cfg a =
      { m.rowAt cfg a with
        src := Bits.splice off n (m.field src n) (m.rowAt cfg a).src } := by
  simp only [Bits.rowAt]
  rw [field_blit_splice h, Bits.field_blit_of_disjoint m (by omega),
    Bits.field_blit_of_disjoint m (by omega)]

/-- Rows stand one behind the other, from `a` on. -/
def RowsAt (cfg : Config) (m : Bits) : Nat → List Instruction → Prop
  | _, [] => True
  | a, row :: rows => m.rowAt cfg a = row ∧ RowsAt cfg m (a + cfg.instructionSize) rows

theorem rowsAt_append : RowsAt cfg m a (rows ++ rows') ↔
    RowsAt cfg m a rows ∧ RowsAt cfg m (a + rows.length * cfg.instructionSize) rows' := by
  induction rows generalizing a with
  | nil => simp [RowsAt]
  | cons row rows ih =>
      rw [List.cons_append, RowsAt, RowsAt, ih, and_assoc, List.length_cons, Nat.succ_mul,
        Nat.add_assoc, Nat.add_comm cfg.instructionSize]

/-- The row of a slot. -/
theorem RowsAt.get (h : RowsAt cfg m (i * cfg.instructionSize) rows) (hk : rows[k]? = some row) :
    m.rowAt cfg ((i + k) * cfg.instructionSize) = row := by
  induction rows generalizing i k with
  | nil => nomatch hk
  | cons r rows ih =>
      cases k with
      | zero =>
          cases hk
          exact h.1
      | succ k =>
          rw [List.getElem?_cons_succ] at hk
          rw [RowsAt, ← Nat.succ_mul] at h
          rw [show i + (k + 1) = i.succ + k by omega]
          exact ih h.2 hk

theorem RowsAt.congr (h : RowsAt cfg m a rows)
    (hm : ∀ b < rows.length * cfg.instructionSize, m' (a' + b) = m (a + b)) :
    RowsAt cfg m' a' rows := by
  induction rows generalizing a a' with
  | nil => trivial
  | cons row rows ih =>
      rw [List.length_cons, Nat.succ_mul] at hm
      refine ⟨?_, ih h.2 fun b hb ↦ ?_⟩
      · rw [← h.1]
        exact rowAt_congr fun b hb ↦ hm b (by omega)
      · rw [Nat.add_assoc, Nat.add_assoc]
        exact hm _ (by omega)

/-! ## Executing slots -/

/-- The slots from `i` up to `j` turn the space `m` into `m'`. -/
def Exec (cfg : Config) (i j : Nat) (m m' : Bits) : Prop :=
  ∃ d, j = i + d ∧ ∀ k, computationFrom cfg (k + d) i m = computationFrom cfg k j m'

theorem Exec.refl (cfg : Config) (i : Nat) (m : Bits) : Exec cfg i i m m := ⟨0, rfl, fun _ ↦ rfl⟩

theorem Exec.trans (h : Exec cfg i j m m') (h' : Exec cfg j k m' m'') : Exec cfg i k m m'' := by
  obtain ⟨d, rfl, hd⟩ := h
  obtain ⟨d', rfl, hd'⟩ := h'
  refine ⟨d + d', Nat.add_assoc _ _ _, fun k ↦ ?_⟩
  rw [← hd', ← hd, ← Nat.add_assoc, Nat.add_right_comm]

/-- A row that stays in the space; an empty row does nothing. -/
theorem exec_row (hi : 3 ≤ i) (hrow : m.rowAt cfg (i * cfg.instructionSize) = row)
    (hfit : row.n ≠ 0 → ¬ row.Leaves cfg) : Exec cfg i (i + 1) m (m.blit row.n row.dst row.src) := by
  have hrow : m.row cfg i = row := hrow
  refine ⟨1, rfl, fun k ↦ ?_⟩
  by_cases h0 : row.n = 0
  · rw [computationFrom_of_zero (by rw [hrow, h0]), h0, Bits.blit_zero]
  · rw [computationFrom_of_copy (by omega) (by rwa [hrow]) (by rw [hrow]; exact hfit h0), hrow]

/-- What still matters before slot `i` is executed: the rows from there on, and `D` behind the
processor. -/
structure Holds (cfg : Config) (i : Nat) (rows : List Instruction) (D m : Bits) : Prop where
  length : i + rows.length = cfg.processorN
  rows : RowsAt cfg m (i * cfg.instructionSize) rows
  data : ∀ p, cfg.layerBits ≤ p → m p = D p

/-- The slots from `i` up to `j` lead from the rows `rows` and `D` to `rows'` and `D'`. -/
def Executes (cfg : Config) (i : Nat) (rows : List Instruction) (D : Bits) (j : Nat)
    (rows' : List Instruction) (D' : Bits) : Prop :=
  ∀ m, Holds cfg i rows D m → ∃ m', Exec cfg i j m m' ∧ Holds cfg j rows' D' m'

theorem Executes.trans {rows'' : List Instruction} {D D' D'' : Bits}
    (h : Executes cfg i rows D j rows' D') (h' : Executes cfg j rows' D' k rows'' D'') :
    Executes cfg i rows D k rows'' D'' := fun m hm ↦ by
  obtain ⟨m₁, e₁, h₁⟩ := h m hm
  obtain ⟨m₂, e₂, h₂⟩ := h' m₁ h₁
  exact ⟨m₂, e₁.trans e₂, h₂⟩

/-- An interval behind the processor. -/
def Behind (cfg : Config) (a n : Nat) : Prop := cfg.layerBits ≤ a ∧ a + n ≤ cfg.spaceSize

instance (cfg : Config) (a n : Nat) : Decidable (Behind cfg a n) := by
  unfold Behind; infer_instance

theorem Holds.end_le {D : Bits} (h : Holds cfg i rows D m) :
    i * cfg.instructionSize + rows.length * cfg.instructionSize = cfg.layerBits := by
  rw [← Nat.add_mul, h.length, Config.layerBits]

theorem blit_data {D : Bits} {n dst src : Nat} (h : ∀ p, cfg.layerBits ≤ p → m p = D p)
    (hsrc : n ≠ 0 → cfg.layerBits ≤ src) {p : Nat} (hp : cfg.layerBits ≤ p) :
    m.blit n dst src p = D.blit n dst src p := by
  by_cases hw : dst ≤ p ∧ p < dst + n
  · rw [Bits.blit_of_mem _ hw, Bits.blit_of_mem _ hw]
    exact h _ ((hsrc (by omega)).trans (Nat.le_add_right _ _))
  · rw [Bits.blit_of_notMem _ hw, Bits.blit_of_notMem _ hw]
    exact h p hp

/-- A copy from behind the processor to behind the processor. -/
theorem executes_copy {D : Bits} {n dst src : Nat} (hi : 3 ≤ i)
    (hdst : n ≠ 0 → Behind cfg dst n) (hsrc : n ≠ 0 → Behind cfg src n) :
    Executes cfg i (⟨n, dst, src⟩ :: rows) D (i + 1) rows (D.blit n dst src) := fun m h ↦ by
  obtain ⟨hrow, hrows⟩ := h.rows
  have hend := h.end_le
  rw [List.length_cons, Nat.succ_mul] at hend
  refine ⟨m.blit n dst src, exec_row hi hrow fun hn hl ↦ ?_, ?_, ?_, fun p hp ↦ blit_data h.data
    (fun hn ↦ (hsrc hn).1) hp⟩
  · obtain ⟨-, hd⟩ := hdst hn
    obtain ⟨-, hs⟩ := hsrc hn
    unfold Instruction.Leaves at hl
    dsimp only at hn hl
    omega
  · rw [← h.length, List.length_cons]
    omega
  · rw [Nat.succ_mul]
    refine hrows.congr fun b hb ↦ Bits.blit_of_notMem m fun hw ↦ ?_
    have := (hdst (by omega)).1
    omega

/-- A copy into a slot changes its row, and no other. -/
theorem RowsAt.modify {f : Instruction → Instruction} {n off src : Nat}
    (h : RowsAt cfg m a rows) (hoff : off + n ≤ cfg.instructionSize)
    (hf : ∀ a, (m.blit n (a + off) src).rowAt cfg a = f (m.rowAt cfg a)) :
    RowsAt cfg (m.blit n (a + k * cfg.instructionSize + off) src) a (rows.modify k f) := by
  induction rows generalizing a k with
  | nil =>
      rw [List.modify_nil]
      trivial
  | cons r rows ih =>
      cases k with
      | zero =>
          rw [Nat.zero_mul, Nat.add_zero, List.modify_zero_cons]
          refine ⟨by rw [hf, h.1], h.2.congr fun b _ ↦ Bits.blit_of_notMem m (by omega)⟩
      | succ k =>
          rw [List.modify_succ_cons, Nat.succ_mul, Nat.add_comm (k * _), ← Nat.add_assoc]
          exact ⟨by rw [rowAt_blit_of_disjoint (by omega), h.1], ih h.2⟩

/-- A copy from behind the processor into a later slot. -/
theorem executes_patch {f : Instruction → Instruction} {D : Bits} {n off src : Nat} (hi : 3 ≤ i)
    (hn : n ≠ 0) (hoff : off + n ≤ cfg.instructionSize)
    (hf : ∀ m : Bits, (∀ p, cfg.layerBits ≤ p → m p = D p) → ∀ a,
      (m.blit n (a + off) src).rowAt cfg a = f (m.rowAt cfg a))
    (hk : k < rows.length) (hsrc : Behind cfg src n) :
    Executes cfg i (⟨n, (i + 1 + k) * cfg.instructionSize + off, src⟩ :: rows) D
      (i + 1) (rows.modify k f) D := fun m h ↦ by
  obtain ⟨hrow, hrows⟩ := h.rows
  have hend := h.end_le
  have hk' : (k + 1) * cfg.instructionSize ≤ rows.length * cfg.instructionSize :=
    Nat.mul_le_mul_right _ hk
  have hdst : (i + 1 + k) * cfg.instructionSize =
      i * cfg.instructionSize + cfg.instructionSize + k * cfg.instructionSize := by
    rw [Nat.add_mul, Nat.succ_mul]
  rw [List.length_cons, Nat.succ_mul] at hend
  rw [Nat.succ_mul] at hk'
  obtain ⟨hs₁, hs₂⟩ := hsrc
  refine ⟨_, exec_row hi hrow fun _ hl ↦ ?_, ?_, ?_, fun p hp ↦ ?_⟩
  · unfold Instruction.Leaves at hl
    dsimp only at hl
    omega
  · rw [List.length_modify, ← h.length, List.length_cons]
    omega
  · dsimp only
    rw [hdst, Nat.succ_mul]
    exact hrows.modify hoff (hf m h.data)
  · dsimp only
    rw [Bits.blit_of_notMem _ (by omega)]
    exact h.data p hp

theorem field_data {D : Bits} {n src : Nat} (h : ∀ p, cfg.layerBits ≤ p → m p = D p)
    (hsrc : cfg.layerBits ≤ src) : m.field src n = D.field src n :=
  Bits.field_congr fun _ _ ↦ h _ (hsrc.trans (Nat.le_add_right _ _))

end BitMachine

/-- Replace bits of the destination. -/
def Instruction.patchDst (off n v : Nat) (row : Instruction) : Instruction :=
  { row with dst := Bits.splice off n v row.dst }

/-- Replace bits of the source. -/
def Instruction.patchSrc (off n v : Nat) (row : Instruction) : Instruction :=
  { row with src := Bits.splice off n v row.src }

/-- The position of bit `off` of the destination in slot `i`. -/
def Config.dstBit (cfg : Config) (i off : Nat) : Nat :=
  i * cfg.instructionSize + (cfg.nSize + off)

/-- The position of bit `off` of the source in slot `i`. -/
def Config.srcBit (cfg : Config) (i off : Nat) : Nat :=
  i * cfg.instructionSize + (cfg.nSize + cfg.addressSize + off)

namespace BitMachine

variable {φ : Type} {cfg : Config} {dev : Device φ} {m m' m'' D D' D'' : Bits} {i j k : Nat}
  {row : Instruction} {rows rows' : List Instruction}

/-- A row that sets bits of the destination of a later row. -/
theorem executes_patch_dst {n off src : Nat} (hi : 3 ≤ i) (hn : n ≠ 0)
    (hoff : off + n ≤ cfg.addressSize) (hk : k < rows.length) (hsrc : Behind cfg src n) :
    Executes cfg i (⟨n, cfg.dstBit (i + 1 + k) off, src⟩ :: rows) D (i + 1)
      (rows.modify k (.patchDst off n (D.field src n))) D := by
  have hI : cfg.instructionSize = cfg.nSize + 2 * cfg.addressSize := rfl
  refine executes_patch hi hn (by omega) (fun m hm a ↦ ?_) hk hsrc
  rw [← field_data hm hsrc.1, ← Nat.add_assoc]
  exact rowAt_blit_dst hoff

/-- A row that sets bits of the source of a later row. -/
theorem executes_patch_src {n off src : Nat} (hi : 3 ≤ i) (hn : n ≠ 0)
    (hoff : off + n ≤ cfg.addressSize) (hk : k < rows.length) (hsrc : Behind cfg src n) :
    Executes cfg i (⟨n, cfg.srcBit (i + 1 + k) off, src⟩ :: rows) D (i + 1)
      (rows.modify k (.patchSrc off n (D.field src n))) D := by
  have hI : cfg.instructionSize = cfg.nSize + 2 * cfg.addressSize := rfl
  refine executes_patch hi hn (by omega) (fun m hm a ↦ ?_) hk hsrc
  rw [← field_data hm hsrc.1, ← Nat.add_assoc]
  exact rowAt_blit_src hoff

/-! ## What a list of rows does -/

/-- The rows, standing from slot `i` on before any others, lead from `D` to `D'`. -/
def Performs (cfg : Config) (i : Nat) (rows : List Instruction) (D D' : Bits) : Prop :=
  ∀ rest, Executes cfg i (rows ++ rest) D (i + rows.length) rest D'

theorem performs_nil : Performs cfg i [] D D := fun _ m h ↦ ⟨m, .refl cfg i m, h⟩

theorem Performs.append (h : Performs cfg i rows D D')
    (h' : Performs cfg (i + rows.length) rows' D' D'') : Performs cfg i (rows ++ rows') D D'' :=
  fun rest ↦ by
  rw [List.append_assoc, List.length_append, ← Nat.add_assoc]
  exact (h (rows' ++ rest)).trans (h' rest)

/-- The first row copies. -/
theorem Performs.copy {n dst src : Nat} (hi : 3 ≤ i) (hdst : n ≠ 0 → Behind cfg dst n)
    (hsrc : n ≠ 0 → Behind cfg src n) (h : Performs cfg (i + 1) rows (D.blit n dst src) D') :
    Performs cfg i (⟨n, dst, src⟩ :: rows) D D' := fun rest ↦ by
  rw [List.length_cons, Nat.add_comm rows.length, ← Nat.add_assoc]
  exact (executes_copy hi hdst hsrc).trans (h rest)

theorem modify_append {f : Instruction → Instruction} (h : k < rows.length) :
    (rows ++ rows').modify k f = rows.modify k f ++ rows' := by
  induction rows generalizing k with
  | nil => exact absurd h (Nat.not_lt_zero k)
  | cons r rows ih =>
      cases k with
      | zero => rfl
      | succ k =>
          rw [List.cons_append, List.modify_succ_cons, List.modify_succ_cons,
            ih (Nat.lt_of_succ_lt_succ h), List.cons_append]

/-- The first row changes a later one. -/
theorem Performs.patch {f : Instruction → Instruction} (hk : k < rows.length)
    (hpatch : ∀ {rows : List Instruction}, k < rows.length →
      Executes cfg i (row :: rows) D (i + 1) (rows.modify k f) D)
    (h : Performs cfg (i + 1) (rows.modify k f) D D') : Performs cfg i (row :: rows) D D' :=
  fun rest ↦ by
  have hpatch := hpatch (show k < (rows ++ rest).length by rw [List.length_append]; omega)
  have h := h rest
  rw [modify_append hk] at hpatch
  rw [List.length_modify] at h
  rw [List.length_cons, Nat.add_comm rows.length, ← Nat.add_assoc]
  exact hpatch.trans h

/-- The first row sets bits of the destination of a later one. -/
theorem Performs.patchDst {n off src : Nat} (hi : 3 ≤ i) (hn : n ≠ 0)
    (hoff : off + n ≤ cfg.addressSize) (hk : k < rows.length) (hsrc : Behind cfg src n)
    (h : Performs cfg (i + 1) (rows.modify k (.patchDst off n (D.field src n))) D D') :
    Performs cfg i (⟨n, cfg.dstBit (i + 1 + k) off, src⟩ :: rows) D D' :=
  .patch hk (fun hk ↦ executes_patch_dst hi hn hoff hk hsrc) h

/-- The first row sets bits of the source of a later one. -/
theorem Performs.patchSrc {n off src : Nat} (hi : 3 ≤ i) (hn : n ≠ 0)
    (hoff : off + n ≤ cfg.addressSize) (hk : k < rows.length) (hsrc : Behind cfg src n)
    (h : Performs cfg (i + 1) (rows.modify k (.patchSrc off n (D.field src n))) D D') :
    Performs cfg i (⟨n, cfg.srcBit (i + 1 + k) off, src⟩ :: rows) D D' :=
  .patch hk (fun hk ↦ executes_patch_src hi hn hoff hk hsrc) h

theorem length_flatMap_range {n c : Nat} {rows : Nat → List Instruction}
    (hc : ∀ b < n, (rows b).length = c) : ((List.range n).flatMap rows).length = c * n := by
  induction n with
  | zero => rfl
  | succ n ih =>
      rw [List.range_succ, List.flatMap_append, List.length_append, List.flatMap_singleton,
        ih fun b hb ↦ hc b (by omega), hc n (Nat.lt_succ_self n), Nat.mul_succ]

/-- Rows for the numbers below `n`, the same number of them for each. -/
theorem performs_range {n c : Nat} {rows : Nat → List Instruction} {f : Bits → Nat → Bits}
    (hc : ∀ b < n, (rows b).length = c)
    (h : ∀ b < n, ∀ D, Performs cfg (i + c * b) (rows b) D (f D b)) (D : Bits) :
    Performs cfg i ((List.range n).flatMap rows) D ((List.range n).foldl f D) := by
  induction n with
  | zero => exact performs_nil
  | succ n ih =>
      rw [List.range_succ, List.flatMap_append, List.flatMap_singleton, List.foldl_append]
      refine (ih (fun b hb ↦ hc b (by omega)) fun b hb ↦ h b (by omega)).append ?_
      rw [length_flatMap_range fun b hb ↦ hc b (Nat.lt_succ_of_lt hb)]
      exact h n (Nat.lt_succ_self n) _

/-- Empty rows do nothing. -/
theorem performs_empty (hi : 3 ≤ i) (n : Nat) :
    Performs cfg i (List.replicate n ⟨0, 0, 0⟩) D D := by
  induction n generalizing i with
  | zero => exact performs_nil
  | succ n ih =>
      refine .copy hi (fun hn ↦ absurd rfl hn) (fun hn ↦ absurd rfl hn) ?_
      rw [Bits.blit_zero]
      exact ih (hi.trans (Nat.le_succ i))

/-! ## A step of the machine -/

/-- The layer at `a` is loaded, and `D` stands behind the processor. -/
structure Loaded (cfg : Config) (a : Nat) (D m : Bits) : Prop where
  layer : ∀ p < cfg.layerBits, m p = D (a + p)
  data : ∀ p, cfg.layerBits ≤ p → m p = D p

/-- The first slots, when they are empty. -/
theorem exec_start (dev : Device φ) (h : ∀ i < 3, m.row cfg i = ⟨0, 0, 0⟩) (inp out : φ) :
    channels cfg dev ⟨m, inp, out⟩ = ⟨m, inp, out⟩ ∧ Exec cfg 0 3 m m := by
  refine ⟨?_, (Exec.trans ⟨1, rfl, fun k ↦ computationFrom_of_zero (by rw [h 0 (by decide)])⟩
    ⟨1, rfl, fun k ↦ computationFrom_of_channel (.inl rfl)⟩).trans
      ⟨1, rfl, fun k ↦ computationFrom_of_channel (.inr rfl)⟩⟩
  rw [channels, channel_of_zero cfg dev 2 true (m.row cfg 2) _ (by rw [h 2 (by decide)]),
    channel_of_zero cfg dev 1 false (m.row cfg 1) _ (by rw [h 1 (by decide)])]

/-- A step whose slots have been executed up to the last one, which loads the next layer. -/
theorem step_of_exec {x y : BitMachine φ} {next : Nat} (hN : 4 ≤ cfg.processorN)
    (hactive : active cfg x.bits) (hchannels : channels cfg dev x = y)
    (hexec : Exec cfg 0 (cfg.processorN - 1) y.bits m)
    (h : Holds cfg (cfg.processorN - 1) [⟨cfg.layerBits, 0, next⟩] D m)
    (hnext : Behind cfg next cfg.layerBits) :
    ∃ m', step cfg dev x = (.done, { y with bits := m' }) ∧ Loaded cfg next D m' := by
  have hlast := exec_row (by omega) h.rows.1 fun hn hl ↦ by
    unfold Instruction.Leaves at hl
    unfold Behind at hnext
    dsimp only at hn hl
    omega
  obtain ⟨d, hd, hrun⟩ := hexec.trans hlast
  have hrun := hrun 0
  rw [Nat.zero_add, show d = cfg.processorN by omega] at hrun
  refine ⟨_, step_eq_done hactive hchannels hrun, fun p hp ↦ ?_, fun p hp ↦ ?_⟩
  · dsimp only
    rw [Bits.blit_of_mem _ (by omega), Nat.sub_zero]
    exact h.data _ (hnext.1.trans (Nat.le_add_right _ _))
  · dsimp only
    rw [Bits.blit_of_notMem _ (by omega)]
    exact h.data p hp

variable (dev) in
/-- One step on a loaded layer.  Its rows are executed, and the last of them, which they may
have changed, loads the next layer. -/
theorem step_load {next : Nat} (hN : 4 ≤ cfg.processorN)
    (hrows : RowsAt cfg m 0 ([⟨0, 0, 0⟩, ⟨0, 0, 0⟩, ⟨0, 0, 0⟩] ++ rows))
    (hdata : ∀ p, cfg.layerBits ≤ p → m p = D p)
    (hlength : 3 + rows.length = cfg.processorN) (hactive : ∃ row ∈ rows, row.n ≠ 0)
    (h : Executes cfg 3 rows D (cfg.processorN - 1) [⟨cfg.layerBits, 0, next⟩] D')
    (hnext : Behind cfg next cfg.layerBits) (inp out : φ) :
    ∃ m', step cfg dev ⟨m, inp, out⟩ = (.done, ⟨m', inp, out⟩) ∧ Loaded cfg next D' m' := by
  obtain ⟨h₀, hrows⟩ := rowsAt_append.mp hrows
  rw [Nat.zero_add] at hrows
  have h₀ : ∀ i < 3, m.row cfg i = ⟨0, 0, 0⟩ := fun i hi ↦ by
    have hrow : RowsAt cfg m (0 * cfg.instructionSize) (List.replicate 3 ⟨0, 0, 0⟩) := by
      rw [Nat.zero_mul]
      exact h₀
    have hrow := hrow.get (List.getElem?_replicate_of_lt hi)
    rwa [Nat.zero_add] at hrow
  obtain ⟨hchannels, hstart⟩ := exec_start dev h₀ inp out
  have hactive : active cfg m := by
    obtain ⟨row, hrow, hn⟩ := hactive
    obtain ⟨k, hk, rfl⟩ := List.mem_iff_getElem.mp hrow
    refine ⟨3 + k, by omega, ?_⟩
    rwa [show m.row cfg (3 + k) = rows[k] from hrows.get (List.getElem?_eq_getElem hk)]
  obtain ⟨m₁, hexec, hlink⟩ := h m ⟨hlength, hrows, hdata⟩
  exact step_of_exec hN hactive hchannels (hstart.trans hexec) hlink hnext

/-- The rows of a layer: the channels are empty, and the last row loads the next layer. -/
def layerRows (cfg : Config) (rows : List Instruction) (next : Nat) : List Instruction :=
  [⟨0, 0, 0⟩, ⟨0, 0, 0⟩, ⟨0, 0, 0⟩] ++
    (rows ++ List.replicate (cfg.processorN - 4 - rows.length) ⟨0, 0, 0⟩ ++
      [⟨cfg.layerBits, 0, next⟩])

theorem length_layerRows {next : Nat} (h : rows.length + 4 ≤ cfg.processorN) :
    (layerRows cfg rows next).length = cfg.processorN := by
  simp only [layerRows, List.length_append, List.length_cons, List.length_nil,
    List.length_replicate]
  omega

variable (dev) in
/-- One step on a layer whose link is not changed. -/
theorem step_layer {next : Nat} (hN : rows.length + 4 ≤ cfg.processorN)
    (hrows : RowsAt cfg m 0 (layerRows cfg rows next))
    (hdata : ∀ p, cfg.layerBits ≤ p → m p = D p) (h : Performs cfg 3 rows D D')
    (h0 : cfg.layerBits ≠ 0) (hnext : Behind cfg next cfg.layerBits) (inp out : φ) :
    ∃ m', step cfg dev ⟨m, inp, out⟩ = (.done, ⟨m', inp, out⟩) ∧ Loaded cfg next D' m' := by
  have hlength : (layerRows cfg rows next).length = cfg.processorN := length_layerRows hN
  rw [layerRows, List.length_append] at hlength
  refine step_load dev (by omega) hrows hdata hlength
    ⟨_, List.mem_append_right _ (List.mem_singleton_self _), h0⟩ ?_ hnext inp out
  have hall := (h.append (performs_empty (by omega) (cfg.processorN - 4 - rows.length)))
    [⟨cfg.layerBits, 0, next⟩]
  rwa [List.length_append, List.length_replicate,
    show 3 + (rows.length + (cfg.processorN - 4 - rows.length)) = cfg.processorN - 1 by omega]
    at hall

/-- A space whose processor is empty is at rest. -/
theorem step_idle (h : ∀ p < cfg.layerBits, m p = false) (inp out : φ) :
    step cfg dev ⟨m, inp, out⟩ = (.idle, ⟨m, inp, out⟩) := by
  rw [step, if_neg]
  rintro ⟨i, hi, hn⟩
  refine hn (Bits.field_eq_zero_iff.mpr fun b hb ↦ h _ ?_)
  have := Config.slot_end_le hi
  have hI : cfg.instructionSize = cfg.nSize + 2 * cfg.addressSize := rfl
  rw [Config.layerBits]
  omega

end BitMachine

end CopySpace
