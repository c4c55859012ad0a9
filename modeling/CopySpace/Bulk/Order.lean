import CopySpace.Bulk.Encode

/-!
# Levels keep the order of a block

The run of a block through its layers is compared with the execution of its nodes in list
order.  Between the ticks the space outside PROCESSOR is the space of `Schedule.commits`: every
node whose level has passed has written what it writes in list order.  PROCESSOR holds the
layer of the next level as it stood one tick earlier, when the link copied it.
-/

namespace CopySpace.Bulk.Block

open Rv32i (Layout slots)

section Run

variable {layout : Layout} {block : Block} {m : Bits} (hE : block.Encoded layout m)
  (hU : block.Unhurried layout m)

/-! ## What the nodes write -/

/-- What node `i` writes, in list order. -/
def write (layout : Layout) (block : Block) (m : Bits) (i p : Nat) : Option Bool :=
  written (block.sequential layout m i) (block.rowIn layout m i) p

theorem sequential_eq_inOrder (layout : Layout) (block : Block) (m : Bits) (i p : Nat) :
    block.sequential layout m i p = Schedule.inOrder (block.write layout m) m i p := by
  induction i generalizing p with
  | zero => rfl
  | succ i ih =>
      rw [Schedule.inOrder, ← ih, sequential, write, written]
      by_cases h : Writes (block.rowIn layout m i) p
      · rw [if_pos h]
        exact Bits.blit_of_mem _ h
      · rw [if_neg h]
        exact Bits.blit_of_notMem _ h

/-- A position that the first nodes do not write. -/
theorem sequential_of_not_writes {i p : Nat}
    (h : ∀ j < i, ¬ Writes (block.rowIn layout m j) p) : block.sequential layout m i p = m p := by
  induction i with
  | zero => rfl
  | succ i ih =>
      rw [sequential_eq_inOrder, Schedule.inOrder, ← sequential_eq_inOrder,
        ih fun j hj ↦ h j (Nat.lt_succ_of_lt hj), write,
        written_eq_none.mpr (h i (Nat.lt_succ_self i)), Option.getD_none]

include hE hU

omit hU in
theorem slotOfIndex_lt (i : Nat) : block.slotOfIndex i < slots := by
  unfold slotOfIndex
  split
  case isTrue h => exact (hE.slot_lt i h).trans (by decide)
  case isFalse => decide

/-- Only a patch writes into the layers: into the row it names. -/
theorem patch_of_inRow {i level s p : Nat} (hi : i < block.ops.length)
    (hl : 1 ≤ level) (hle : level ≤ last block.ops) (hs : s < slots)
    (hw : Writes (block.rowIn layout m i) p) (hp : block.InRow layout level s p) :
    ∃ target name offset, (node block.ops i).dst = .field target name offset ∧ i < target ∧
      target ≤ block.ops.length ∧ block.levelOfIndex target = level ∧
      block.slotOfIndex target = s := by
  rcases hU.outside i hi p hw with ⟨-, hout⟩ | ⟨t, name, offset, hd, hit, ht, h₁, h₂⟩
  · have h₁ := hp.layer_le
    have h₂ := hp.lt_layer hs hl
    have h₃ := layer_mono layout block (Nat.succ_le_succ hle)
    have h₄ : block.base ≤ block.layer layout level := Nat.le_add_right _ _
    exact absurd ⟨h₄.trans h₁, h₂.trans_le h₃⟩ hout
  · have hrow : block.InRow layout (block.levelOfIndex t) (block.slotOfIndex t) p := by
      rw [InRow, ← rowPosition_eq]
      exact ⟨h₁, h₂⟩
    obtain ⟨e₁, e₂⟩ := hrow.inj one_le_levelOfIndex hl (slotOfIndex_lt hE t) hs hp
    exact ⟨t, name, offset, hd, hit, ht, e₁, e₂⟩

/-- A copy into the row of an instruction comes two levels before it. -/
theorem levelAt_of_writes_row {i j p : Nat} (hi : i < block.ops.length)
    (hj : j ≤ block.ops.length) (hw : Writes (block.rowIn layout m i) p)
    (hp : block.InRow layout (block.levelOfIndex j) (block.slotOfIndex j) p) :
    i < j ∧ levelAt block.ops i + 2 ≤ block.levelOfIndex j := by
  obtain ⟨t, name, offset, hd, hit, ht, hl, hs⟩ := patch_of_inRow hE hU hi one_le_levelOfIndex
    levelOfIndex_le (slotOfIndex_lt hE j) hw hp
  obtain rfl := eq_of_levelOfIndex hE.slot_lt ht hj hl hs
  refine ⟨hit, ?_⟩
  unfold levelOfIndex
  split
  case isTrue h => exact levelAt_of_patch hit hd
  case isFalse h =>
    obtain rfl : t = block.ops.length := by omega
    exact last_of_patch hi hd

/-! ## The orders -/

omit hE in
theorem levelAt_lt_of_writes {i j p : Nat} (hij : i < j) (hj : j < block.ops.length)
    (hi' : Writes (block.rowIn layout m i) p) (hj' : Writes (block.rowIn layout m j) p) :
    levelAt block.ops i < levelAt block.ops j :=
  precedes_iff.mp (hU.write_write i j hij hj p hi' hj')

omit hE in
theorem levelAt_lt_of_reads {i j p : Nat} (hij : i < j) (hj : j < block.ops.length)
    (hi' : Writes (block.rowIn layout m i) p) (hj' : Reads (block.rowIn layout m j) p) :
    levelAt block.ops i < levelAt block.ops j :=
  precedes_iff.mp (hU.write_read i j hij hj p hi' hj')

omit hE in
theorem levelAt_le_of_reads {i j p : Nat} (hij : i < j) (hj : j < block.ops.length)
    (hi' : Reads (block.rowIn layout m i) p) (hj' : Writes (block.rowIn layout m j) p) :
    levelAt block.ops i ≤ levelAt block.ops j :=
  notOvertaken_iff.mp (hU.read_write i j hij hj p hi' hj')

/-! ## The space between the ticks -/

omit hE hU in
/-- The space after the nodes of the first `t` levels. -/
def committed (layout : Layout) (block : Block) (m : Bits) (t : Nat) : Bits :=
  Schedule.commits (levelAt block.ops) (block.write layout m) m t block.ops.length

/-- The space after `t` ticks. -/
structure AfterTicks (layout : Layout) (block : Block) (m : Bits) (t : Nat) (m' : Bits) :
    Prop where
  data : ∀ p, layout.layerBits ≤ p → m' p = block.committed layout m t p
  loaded : ∀ p < layout.layerBits,
    m' p = block.committed layout m (t - 1) (block.layer layout (t + 1) + p)

omit hE hU in
theorem write_ne_none {i p : Nat} :
    block.write layout m i p ≠ none ↔ Writes (block.rowIn layout m i) p :=
  not_iff_comm.mp written_eq_none.symm

omit hE hU in
/-- Before the first level. -/
theorem committed_zero : block.committed layout m 0 = m :=
  Schedule.commits_of_lt fun _ _ ↦ one_le_levelAt

/-- The row of an instruction, two levels before it. -/
theorem committed_row {i p : Nat} (hi : i ≤ block.ops.length)
    (hp : block.InRow layout (block.levelOfIndex i) (block.slotOfIndex i) p) :
    block.committed layout m (block.levelOfIndex i - 2) p = block.sequential layout m i p := by
  rw [sequential_eq_inOrder]
  refine Schedule.commits_eq_inOrder_of_read hi (fun j hj hw ↦ ?_) fun j hij hj hw ↦ ?_
  · have := (levelAt_of_writes_row hE hU (hj.trans_le hi) hi (write_ne_none.mp hw) hp).2
    omega
  · have := (levelAt_of_writes_row hE hU hj hi (write_ne_none.mp hw) hp).1
    omega

/-- A slot that belongs to no instruction never changes. -/
theorem committed_free {level s p t : Nat} (hl : 1 ≤ level) (hle : level ≤ last block.ops)
    (hs : s < slots) (hp : block.InRow layout level s p)
    (hfree : ∀ i ≤ block.ops.length, block.levelOfIndex i = level → block.slotOfIndex i ≠ s) :
    block.committed layout m t p = m p := by
  refine Schedule.commits_eq_of_pending (Nat.zero_le _) fun j _ hj hw ↦ ?_
  obtain ⟨i, -, -, -, -, hi, h₁, h₂⟩ :=
    patch_of_inRow hE hU hj hl hle hs (write_ne_none.mp hw) hp
  exact absurd h₂ (hfree i hi h₁)

omit hE in
/-- What a node reads at its level is what it reads in list order. -/
theorem committed_read {j p : Nat} {t : Nat} (hj : j < block.ops.length)
    (hl : levelAt block.ops j = t + 1) (hr : Reads (block.rowIn layout m j) p) :
    block.committed layout m t p = block.sequential layout m j p := by
  rw [sequential_eq_inOrder]
  refine Schedule.commits_eq_inOrder_of_read (Nat.le_of_lt hj) (fun i hi hw ↦ ?_)
    fun i hji hi hw ↦ ?_
  · have := levelAt_lt_of_reads hU hi hj (write_ne_none.mp hw) hr
    omega
  · rcases Nat.eq_or_lt_of_le hji with rfl | hlt
    · omega
    · have := levelAt_le_of_reads hU hlt hi hr (write_ne_none.mp hw)
      omega

section AfterTicks

variable {t : Nat} {m' : Bits} (hA : block.AfterTicks layout m t m')

include hA

omit hE hU in
/-- What PROCESSOR holds in a slot. -/
theorem rowFrom_slot {s : Nat} (hs : s < slots) :
    rowFrom layout m' (s * layout.instructionBits) =
      rowFrom layout (block.committed layout m (t - 1))
        (block.layer layout (t + 1) + s * layout.instructionBits) := by
  refine rowFrom_congr fun b hb ↦ ?_
  have hle : s * layout.instructionBits + layout.instructionBits ≤ layout.layerBits := by
    rw [← Nat.succ_mul]
    exact Nat.mul_le_mul_right _ hs
  rw [hA.loaded _ (by omega), Nat.add_assoc]

/-- The row of an instruction whose level is next. -/
theorem rowFrom_of_level {i : Nat} (hi : i ≤ block.ops.length)
    (hl : block.levelOfIndex i = t + 1) :
    rowFrom layout m' (block.slotOfIndex i * layout.instructionBits) =
      block.rowIn layout m i := by
  rw [rowFrom_slot hA (slotOfIndex_lt hE i), rowIn, rowPosition_eq, hl]
  refine rowFrom_congr fun b hb ↦ ?_
  have h := committed_row hE hU hi (p := block.layer layout (t + 1) +
    block.slotOfIndex i * layout.instructionBits + b) (by rw [InRow, hl]; omega)
  rwa [hl] at h

/-- The row of a slot that belongs to no instruction of the level. -/
theorem rowFrom_of_free {s : Nat} (hs : s < slots) (ht : t < last block.ops)
    (hfree : ∀ i ≤ block.ops.length, block.levelOfIndex i = t + 1 → block.slotOfIndex i ≠ s) :
    rowFrom layout m' (s * layout.instructionBits) =
      rowFrom layout m (block.layer layout (t + 1) + s * layout.instructionBits) := by
  rw [rowFrom_slot hA hs]
  refine rowFrom_congr fun b hb ↦ ?_
  exact committed_free hE hU (Nat.le_add_left 1 t) ht hs
    ⟨by omega, by omega⟩ hfree

/-- The rows of PROCESSOR are those of the instructions of the level, the link, and empty
ones. -/
theorem processorRows_cases (ht : t < last block.ops) {row : Instruction}
    (hr : row ∈ processorRows layout m') :
    row.n = 0 ∨
      (∃ i ≤ block.ops.length, block.levelOfIndex i = t + 1 ∧ row = block.rowIn layout m i) ∨
      t + 1 < last block.ops ∧ row = block.link layout (t + 1) := by
  obtain ⟨s, hs, rfl⟩ := mem_processorRows.mp hr
  by_cases h : ∃ i ≤ block.ops.length, block.levelOfIndex i = t + 1 ∧ block.slotOfIndex i = s
  · obtain ⟨i, hi, hl, rfl⟩ := h
    exact .inr (.inl ⟨i, hi, hl, rowFrom_of_level hE hU hA hi hl⟩)
  · have hfree : ∀ i ≤ block.ops.length, block.levelOfIndex i = t + 1 →
        block.slotOfIndex i ≠ s := fun i hi hl he ↦ h ⟨i, hi, hl, he⟩
    rw [rowFrom_of_free hE hU hA hs ht hfree]
    rcases Nat.eq_or_lt_of_le (Nat.le_sub_one_of_lt hs) with rfl | hlt
    · -- the last slot of the last level is the terminator's
      have hne : t + 1 ≠ last block.ops := fun he ↦
        hfree block.ops.length le_rfl (by rw [levelOfIndex, if_neg (Nat.lt_irrefl _), he])
          (by rw [slotOfIndex, if_neg (Nat.lt_irrefl _)])
      have hlt : t + 1 < last block.ops := Nat.lt_of_le_of_ne ht hne
      exact .inr (.inr ⟨hlt, hE.link (t + 1) (Nat.le_add_left 1 t) hlt⟩)
    · refine .inl (hE.empty (t + 1) (Nat.le_add_left 1 t) ht s hlt fun i hi hl ↦ ?_)
      have h := hfree i (Nat.le_of_lt hi)
      rw [levelOfIndex, slotOfIndex, if_pos hi, if_pos hi] at h
      exact h hl

/-- The row of an instruction whose level is next is in PROCESSOR. -/
theorem rowIn_mem {i : Nat} (hi : i ≤ block.ops.length) (hl : block.levelOfIndex i = t + 1) :
    block.rowIn layout m i ∈ processorRows layout m' :=
  mem_processorRows.mpr ⟨_, slotOfIndex_lt hE i, rowFrom_of_level hE hU hA hi hl⟩

/-- Before the last level the link is in PROCESSOR. -/
theorem link_mem (ht : t + 1 < last block.ops) :
    block.link layout (t + 1) ∈ processorRows layout m' := by
  refine mem_processorRows.mpr ⟨slots - 1, by decide, ?_⟩
  rw [rowFrom_of_free hE hU hA (by decide) (Nat.lt_of_succ_lt ht) fun i hi hl he ↦ ?_]
  · exact hE.link (t + 1) (Nat.le_add_left 1 t) ht
  · unfold levelOfIndex at hl
    unfold slotOfIndex at he
    split at he
    case isTrue h => exact absurd he (Nat.ne_of_lt (hE.slot_lt i h))
    case isFalse h =>
      rw [if_neg h] at hl
      omega

end AfterTicks

/-! ## One tick -/

theorem layerBits_le_of_writes {i p : Nat} (hi : i < block.ops.length)
    (hw : Writes (block.rowIn layout m i) p) : layout.layerBits ≤ p := by
  rcases hU.outside i hi p hw with ⟨h, -⟩ | ⟨t, -, -, -, -, -, h, -⟩
  · exact h
  · refine hE.layerBits_le.trans (le_trans ?_ h)
    rw [rowPosition_eq, layer, Nat.add_assoc]
    exact Nat.le_add_right _ _

omit hE hU in
/-- Before the last level an instruction is a node. -/
theorem node_of_levelOfIndex {i level : Nat} (hlt : level < last block.ops)
    (hl : block.levelOfIndex i = level) :
    i < block.ops.length ∧ levelAt block.ops i = level := by
  unfold levelOfIndex at hl
  split at hl
  case isTrue h => exact ⟨h, hl⟩
  case isFalse => omega

/-- What the rows of PROCESSOR write outside it, the nodes of the level write. -/
theorem eq_rowIn_of_writes {t p : Nat} {m' : Bits} {row : Instruction}
    (hA : block.AfterTicks layout m t m') (ht : t + 1 < last block.ops)
    (hp : layout.layerBits ≤ p) (hr : row ∈ processorRows layout m') (hw : Writes row p) :
    ∃ i < block.ops.length, levelAt block.ops i = t + 1 ∧ row = block.rowIn layout m i := by
  rcases processorRows_cases hE hU hA (Nat.lt_of_succ_lt ht) hr with hn | ⟨i, -, hl, rfl⟩ | ⟨-, rfl⟩
  · exact absurd hw (not_writes_of_n_eq_zero hn)
  · obtain ⟨hi, hl⟩ := node_of_levelOfIndex ht hl
    exact ⟨i, hi, hl, rfl⟩
  · have := hw.2
    simp only [link] at this
    omega

/-- Outside PROCESSOR a tick commits the nodes of the next level. -/
theorem tick_data {t p : Nat} {m' : Bits} (hA : block.AfterTicks layout m t m')
    (ht : t + 1 < last block.ops) (hp : layout.layerBits ≤ p) :
    tick layout m' p = block.committed layout m (t + 1) p := by
  by_cases h : ∃ i < block.ops.length, levelAt block.ops i = t + 1 ∧
      Writes (block.rowIn layout m i) p
  · obtain ⟨i, hi, hl, hw⟩ := h
    have hli : block.levelOfIndex i = t + 1 := by rw [levelOfIndex, if_pos hi, hl]
    have hread : Reads (block.rowIn layout m i)
        ((block.rowIn layout m i).src + (p - (block.rowIn layout m i).dst)) := reads_of_writes hw
    rw [tick, foldl_commitRow_of_mem (rowIn_mem hE hU hA (Nat.le_of_lt hi) hli) hw,
      hA.data _ (hU.reads i (Nat.le_of_lt hi) _ hread), committed_read hU hi hl hread]
    · refine (Schedule.commits_succ_of_some hi hl (by rw [write, written, if_pos hw]) ?_).symm
      intro k hik hk hwk
      rw [← hl]
      exact levelAt_lt_of_writes hU hik hk hw (write_ne_none.mp hwk)
    · -- two nodes of one level do not write one position
      intro r hr hwr
      obtain ⟨k, hk, hlk, rfl⟩ := eq_rowIn_of_writes hE hU hA ht hp hr hwr
      rcases Nat.lt_trichotomy k i with hlt | rfl | hlt
      · exact absurd (levelAt_lt_of_writes hU hlt hi hwr hw) (by omega)
      · rfl
      · exact absurd (levelAt_lt_of_writes hU hlt hk hw hwr) (by omega)
  · rw [tick, foldl_commitRow_of_none, hA.data p hp, committed, committed,
      Schedule.commits_succ_of_none fun i hi hl ↦ ?_]
    · exact written_eq_none.mpr fun hw ↦ h ⟨i, hi, hl, hw⟩
    · intro row hr hw
      obtain ⟨i, hi, hl, rfl⟩ := eq_rowIn_of_writes hE hU hA ht hp hr hw
      exact h ⟨i, hi, hl, hw⟩

/-- The link loads the next layer as it stands at the start of the tick. -/
theorem tick_loaded {t p : Nat} {m' : Bits} (hA : block.AfterTicks layout m t m')
    (ht : t + 1 < last block.ops) (hp : p < layout.layerBits) :
    tick layout m' p = block.committed layout m t (block.layer layout (t + 2) + p) := by
  have hw : Writes (block.link layout (t + 1)) p := ⟨Nat.zero_le p, by simpa [link] using hp⟩
  rw [tick, foldl_commitRow_of_mem (link_mem hE hU hA ht) hw]
  · refine hA.data _ (le_trans hE.layerBits_le ?_)
    rw [link, layer, Nat.add_assoc]
    exact Nat.le_add_right _ _
  · intro r hr hwr
    rcases processorRows_cases hE hU hA (Nat.lt_of_succ_lt ht) hr with hn | ⟨i, -, hl, rfl⟩ | ⟨-, h⟩
    · exact absurd hwr (not_writes_of_n_eq_zero hn)
    · obtain ⟨hi, -⟩ := node_of_levelOfIndex ht hl
      exact absurd hp (Nat.not_lt.mpr (layerBits_le_of_writes hE hU hi hwr))
    · exact h

theorem afterTicks_succ {t : Nat} {m' : Bits} (hA : block.AfterTicks layout m t m')
    (ht : t + 1 < last block.ops) : block.AfterTicks layout m (t + 1) (tick layout m') where
  data _ hp := tick_data hE hU hA ht hp
  loaded _ hp := tick_loaded hE hU hA ht hp

/-- The run up to the last level. -/
theorem afterTicks {t : Nat} (ht : t < last block.ops) :
    block.AfterTicks layout m t ((tick layout)^[t] m) := by
  induction t with
  | zero =>
      refine ⟨fun p _ ↦ by rw [committed_zero]; rfl, fun p hp ↦ ?_⟩
      rw [committed_zero, layer, Nat.sub_self, Nat.zero_mul, Nat.add_zero]
      exact hE.loaded p hp
  | succ t ih =>
      rw [Function.iterate_succ_apply']
      exact afterTicks_succ hE hU (ih (Nat.lt_of_succ_lt ht)) ht

/-- The last tick executes the terminator. -/
theorem tick_last {t p : Nat} {m' : Bits} (hA : block.AfterTicks layout m t m')
    (ht : t + 1 = last block.ops) (hp : layout.layerBits ≤ p) :
    tick layout m' p = block.sequential layout m (block.ops.length + 1) p := by
  have hdata : ∀ p, layout.layerBits ≤ p →
      m' p = block.sequential layout m block.ops.length p := by
    intro p hp
    rw [hA.data p hp, sequential_eq_inOrder]
    refine Schedule.commits_eq_inOrder fun i hi _ ↦ ?_
    have := levelAt_lt_last hi
    omega
  have hlast : block.levelOfIndex block.ops.length = t + 1 := by
    rw [levelOfIndex, if_neg (Nat.lt_irrefl _), ht]
  have hrows : ∀ row ∈ processorRows layout m', Writes row p →
      row = block.rowIn layout m block.ops.length := by
    intro row hr hw
    rcases processorRows_cases hE hU hA (by omega) hr with hn | ⟨i, hi, hl, rfl⟩ | ⟨hlt, -⟩
    · exact absurd hw (not_writes_of_n_eq_zero hn)
    · rcases Nat.lt_or_eq_of_le hi with hi | rfl
      · rw [levelOfIndex, if_pos hi] at hl
        exact absurd (levelAt_lt_last hi) (by omega)
      · rfl
    · omega
  rw [sequential]
  by_cases hw : Writes (block.rowIn layout m block.ops.length) p
  · rw [tick, foldl_commitRow_of_mem (rowIn_mem hE hU hA le_rfl hlast) hw hrows,
      hdata _ (hU.reads _ le_rfl _ (reads_of_writes hw))]
    exact (Bits.blit_of_mem _ hw).symm
  · rw [tick, foldl_commitRow_of_none fun row hr h ↦ hw (hrows row hr h ▸ h), hdata p hp]
    exact (Bits.blit_of_notMem _ hw).symm

/-- When no copy is overtaken, the layers of a block leave the space as its nodes do one after
another. -/
theorem bulk_eq_sequential {p : Nat} (hp : layout.layerBits ≤ p) :
    (tick layout)^[last block.ops] m p =
      block.sequential layout m (block.ops.length + 1) p := by
  obtain ⟨t, ht⟩ := Nat.exists_eq_add_of_lt (Nat.zero_lt_of_lt (show top block.ops < last block.ops from top_lt_last))
  rw [Nat.zero_add] at ht
  rw [ht, Function.iterate_succ_apply']
  exact tick_last hE hU (afterTicks hE hU (by omega)) ht.symm hp

end Run

/-! ## Blocks whose operands are positions -/

section Int

variable {layout : Layout} {block : Block} {m : Bits} (hE : block.Encoded layout m)

/-- A block that writes into no instruction, and keeps away from its own code. -/
structure OnlyData (layout : Layout) (block : Block) : Prop where
  int : ∀ i < block.ops.length, ∃ dst src, node block.ops i = ⟨(node block.ops i).n, .int dst,
    .int src⟩ ∧ layout.layerBits ≤ dst ∧ layout.layerBits ≤ src ∧
    (dst + (node block.ops i).n ≤ block.base ∨ block.layer layout (last block.ops + 1) ≤ dst)
  target : layout.layerBits ≤ block.target

theorem OnlyData.not_patched (hD : block.OnlyData layout) (i : Nat) (name : FieldName) :
    ¬ block.Patched i name := by
  rintro ⟨j, hj, offset, hd⟩
  obtain ⟨dst, src, he, -⟩ := hD.int j hj
  rw [he] at hd
  nomatch hd

/-- What a row of the block writes lies outside the layers. -/
theorem OnlyData.outside (hD : block.OnlyData layout) {i p : Nat} (hi : i < block.ops.length)
    (hw : Writes (block.rowOf layout i) p) : p ∈ span (node block.ops i).dst (node block.ops i).n ∧
      layout.layerBits ≤ p ∧ ¬(block.base ≤ p ∧ p < block.layer layout (last block.ops + 1)) := by
  obtain ⟨dst, src, he, h₁, -, h₂⟩ := hD.int i hi
  obtain ⟨h₃, h₄⟩ := hw
  rw [rowOf, if_pos hi, he] at h₃ h₄
  simp only [resolve] at h₃ h₄
  rw [he]
  exact ⟨mem_span_int.mpr ⟨h₃, h₄⟩, by omega, by omega⟩

theorem OnlyData.reads (hD : block.OnlyData layout) {i p : Nat} (hi : i < block.ops.length)
    (hr : Reads (block.rowOf layout i) p) : p ∈ span (node block.ops i).src (node block.ops i).n ∧
      layout.layerBits ≤ p := by
  obtain ⟨dst, src, he, -, h₁, -⟩ := hD.int i hi
  obtain ⟨h₃, h₄⟩ := hr
  rw [rowOf, if_pos hi, he] at h₃ h₄
  simp only [resolve] at h₃ h₄
  rw [he]
  exact ⟨mem_span_int.mpr ⟨h₃, h₄⟩, by omega⟩

include hE

/-- Its rows stay as they are. -/
theorem OnlyData.rowIn_eq (hD : block.OnlyData layout) {i : Nat} (hi : i ≤ block.ops.length) :
    block.rowIn layout m i = block.rowOf layout i := by
  induction i using Nat.strongRecOn with
  | _ i ih =>
      have hrow : block.rowIn layout m i = rowFrom layout m (block.rowPosition layout i) := by
        refine rowFrom_congr fun b hb ↦ sequential_of_not_writes fun j hj hw ↦ ?_
        have hj' : j < block.ops.length := hj.trans_le hi
        rw [ih j hj (Nat.le_of_lt hj')] at hw
        have hin : block.InRow layout (block.levelOfIndex i) (block.slotOfIndex i)
            (block.rowPosition layout i + b) := by
          rw [InRow, ← rowPosition_eq]
          exact ⟨Nat.le_add_right _ _, Nat.add_lt_add_left hb _⟩
        have hlt := hin.lt_layer (slotOfIndex_lt hE i) one_le_levelOfIndex
        have hle : block.base ≤ block.layer layout (block.levelOfIndex i) := Nat.le_add_right _ _
        exact (hD.outside hj' hw).2.2 ⟨hle.trans hin.layer_le,
          hlt.trans_le (layer_mono layout block (Nat.succ_le_succ levelOfIndex_le))⟩
      have hn := hE.field_eq i hi .n (hD.not_patched i _)
      have hdst := hE.field_eq i hi .dst (hD.not_patched i _)
      have hsrc := hE.field_eq i hi .src (hD.not_patched i _)
      simp only [fieldOffset, fieldWidth, fieldValue, Nat.add_zero] at hn hdst hsrc
      rw [hrow, rowFrom, hn, hdst, hsrc]

/-- For such a block only the reads are in question. -/
theorem OnlyData.unhurried (hD : block.OnlyData layout)
    (h : ∀ i j, i < j → j < block.ops.length →
      ∀ p ∈ span (node block.ops i).src (node block.ops i).n,
      p ∈ span (node block.ops j).dst (node block.ops j).n →
        NotOvertaken block.ops i j) : block.Unhurried layout m where
  outside i hi p hw := by
    rw [hD.rowIn_eq hE (Nat.le_of_lt hi)] at hw
    exact .inl (hD.outside hi hw).2
  reads i hi p hr := by
    rw [hD.rowIn_eq hE hi] at hr
    rcases Nat.lt_or_eq_of_le hi with hi | rfl
    · exact (hD.reads hi hr).2
    · rw [rowOf, if_neg (Nat.lt_irrefl _)] at hr
      exact hD.target.trans hr.1
  read_write i j hij hj p hi' hj' := by
    rw [hD.rowIn_eq hE (Nat.le_of_lt (hij.trans hj))] at hi'
    rw [hD.rowIn_eq hE (Nat.le_of_lt hj)] at hj'
    exact h i j hij hj p (hD.reads (hij.trans hj) hi').1 (hD.outside hj hj').1
  write_read i j hij hj p hi' hj' := by
    rw [hD.rowIn_eq hE (Nat.le_of_lt (hij.trans hj))] at hi'
    rw [hD.rowIn_eq hE (Nat.le_of_lt hj)] at hj'
    exact (Depends.read hij (hD.outside (hij.trans hj) hi').1 (hD.reads hj hj').1).precedes
  write_write i j hij hj p hi' hj' := by
    rw [hD.rowIn_eq hE (Nat.le_of_lt (hij.trans hj))] at hi'
    rw [hD.rowIn_eq hE (Nat.le_of_lt hj)] at hj'
    exact (Depends.write hij (hD.outside (hij.trans hj) hi').1 (hD.outside hj hj').1).precedes

end Int

/-! ## Two blocks -/

/-- The smallest layout. -/
def smallest : Layout := ⟨Rv32i.spaceBytes, le_rfl, by decide, by decide⟩

/-- An exchange of two bits through a third one. -/
def exchange : Block :=
  ⟨[⟨1, .int 0x20040, .int 0x20000⟩, ⟨1, .int 0x20000, .int 0x20020⟩,
    ⟨1, .int 0x20020, .int 0x20040⟩], 0x40000, 0x40000⟩

/-- The second copy waits for the first, and the third overwrites what it is to read. -/
def overtaken : Block :=
  ⟨[⟨1, .int 0x20021, .int 0x20000⟩, ⟨2, .int 0x20040, .int 0x20020⟩,
    ⟨1, .int 0x20020, .int 0x20000⟩], 0x40000, 0x40000⟩

/-- An image in which the bit `0x20000` is set. -/
def oneBit : Nat := 1 <<< 0x20000

theorem oneBit_zero {p : Nat} (h : 0x40000 ≤ p) : Bits.ofNat oneBit p = false := by
  have hne : p - 0x20000 ≠ 0 := by omega
  rw [Bits.ofNat, oneBit, Nat.testBit_shiftLeft, Bool.and_eq_false_iff]
  exact .inr (Bool.eq_false_iff.mpr fun ht ↦ hne (Nat.testBit_one_eq_true_iff_self_eq_zero.mp ht))

theorem encodable_exchange : exchange.Encodable smallest :=
  ⟨by decide, by decide, by decide⟩

theorem encodable_overtaken : overtaken.Encodable smallest :=
  ⟨by decide, by decide, by decide⟩

/-- A block whose operands are among given positions. -/
theorem onlyData_of_mem {layout : Layout} {block : Block} {dsts srcs : List Nat}
    (h : ∀ i < block.ops.length, ∃ dst ∈ dsts, ∃ src ∈ srcs,
      node block.ops i = ⟨(node block.ops i).n, .int dst, .int src⟩ ∧
        dst + (node block.ops i).n ≤ block.base)
    (hd : ∀ dst ∈ dsts, layout.layerBits ≤ dst) (hs : ∀ src ∈ srcs, layout.layerBits ≤ src)
    (ht : layout.layerBits ≤ block.target) : block.OnlyData layout where
  int i hi := by
    obtain ⟨dst, hdst, src, hsrc, he, hb⟩ := h i hi
    exact ⟨dst, src, he, hd dst hdst, hs src hsrc, .inl hb⟩
  target := ht

theorem onlyData_exchange : exchange.OnlyData smallest :=
  onlyData_of_mem (show ∀ i < 3, ∃ dst ∈ [0x20040, 0x20000, 0x20020],
    ∃ src ∈ [0x20000, 0x20020, 0x20040], _ by decide) (by decide) (by decide) (by decide)

theorem onlyData_overtaken : overtaken.OnlyData smallest :=
  onlyData_of_mem (show ∀ i < 3, ∃ dst ∈ [0x20021, 0x20040, 0x20020],
    ∃ src ∈ [0x20000, 0x20020], _ by decide) (by decide) (by decide) (by decide)

/-- The exchange under the tick. -/
theorem bulk_exchange :
    (tick smallest)^[last exchange.ops] (exchange.encode smallest (Bits.ofNat oneBit)) 0x20020 =
      exchange.sequential smallest (exchange.encode smallest (Bits.ofNat oneBit))
        (exchange.ops.length + 1) 0x20020 := by
  have hE : exchange.Encoded smallest (exchange.encode smallest (Bits.ofNat oneBit)) :=
    encoded_encode encodable_exchange fun p hp _ ↦ oneBit_zero hp
  refine bulk_eq_sequential hE (onlyData_exchange.unhurried hE fun i j hij hj p hi hj' ↦ ?_)
    (by decide)
  -- every level of this block is above the ones before
  have h : ∀ j < 3, ∀ i < j, levelAt exchange.ops i ≤ levelAt exchange.ops j := by decide
  exact notOvertaken_iff.mpr (h j hj i hij)

/-- A copy that waits reads what a later copy has written. -/
theorem bulk_overtaken :
    overtaken.Encoded smallest (overtaken.encode smallest (Bits.ofNat oneBit)) ∧
      overtaken.OnlyData smallest ∧
      (tick smallest)^[last overtaken.ops] (overtaken.encode smallest (Bits.ofNat oneBit))
          0x20040 ≠
        overtaken.sequential smallest (overtaken.encode smallest (Bits.ofNat oneBit))
          (overtaken.ops.length + 1) 0x20040 := by
  refine ⟨encoded_encode encodable_overtaken fun p hp _ ↦ oneBit_zero hp, onlyData_overtaken, ?_⟩
  have hl : last overtaken.ops = 3 := by decide
  rw [encode_ofNat, sequential_ofNat, hl, Function.iterate_succ_apply, tick_ofNat,
    Function.iterate_succ_apply, tick_ofNat, Function.iterate_one, tick_ofNat]
  have hb : (tickNat smallest (tickNat smallest (tickNat smallest
      (overtaken.encodeNat smallest oneBit)))).testBit 0x20040 = true := by decide +kernel
  have hs : (overtaken.sequentialNat smallest (overtaken.encodeNat smallest oneBit)
      (overtaken.ops.length + 1)).testBit 0x20040 = false := by decide +kernel
  rw [Bits.ofNat, Bits.ofNat, hb, hs]
  exact Bool.noConfusion

end CopySpace.Bulk.Block
