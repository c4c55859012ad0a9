import CopySpace.Bulk.Tick
import CopySpace.Lib.Numeral

/-!
# `BulkImage.encode`: placing the layers of a block

`encode` writes the rows of a block level by level, a link into the last slot of every level
but the last, and loads the first layer.  What it writes is an encoded block
(`encoded_encode`), whatever the rest of the image holds.
-/

namespace CopySpace.Bulk.Block

open Rv32i (Layout slots)

variable (layout : Layout) (block : Block)

/-- `place`: the three fields of a row. -/
def place (a : Nat) (row : Instruction) (m : Bits) : Bits :=
  Bits.putFields a
    [(layout.nBits, row.n), (layout.addressBits, row.dst), (layout.addressBits, row.src)] m

/-- The rows of a level and where they go. -/
def placedAt (level : Nat) : List (Nat × Instruction) :=
  ((List.range block.ops.length).filter fun i ↦ levelAt block.ops i = level).map
      (fun i ↦ (block.rowPosition layout i, block.rowOf layout i)) ++
    [if level = last block.ops then
        (block.rowPosition layout block.ops.length, block.rowOf layout block.ops.length)
      else (block.layer layout level + (slots - 1) * layout.instructionBits,
        block.link layout level)]

/-- The rows of all levels. -/
def placed : List (Nat × Instruction) :=
  (List.range (last block.ops)).flatMap fun k ↦ block.placedAt layout (k + 1)

/-- The part of `encode` that writes the code. -/
def encode (m : Bits) : Bits :=
  Bits.blit layout.layerBits 0 block.base
    ((block.placed layout).foldl (fun m x ↦ place layout x.1 x.2 m) m)

/-- The values that `bits` accepts. -/
structure RowFits (row : Instruction) : Prop where
  n_lt : row.n < 2 ^ layout.nBits
  dst_lt : row.dst < 2 ^ layout.addressBits
  src_lt : row.src < 2 ^ layout.addressBits

instance (row : Instruction) : Decidable (RowFits layout row) :=
  decidable_of_iff
    (row.n < 2 ^ layout.nBits ∧ row.dst < 2 ^ layout.addressBits ∧
      row.src < 2 ^ layout.addressBits)
    ⟨fun h ↦ ⟨h.1, h.2.1, h.2.2⟩, fun h ↦ ⟨h.n_lt, h.dst_lt, h.src_lt⟩⟩

/-! ## Rows that do not overlap -/

section Place

variable {layout block} {m : Bits} {a b p : Nat} {row row' : Instruction}

theorem rowFrom_place (h : RowFits layout row) : rowFrom layout (place layout a row m) a = row := by
  have h₁ := Bits.field_putFields a [] layout.nBits row.n
    [(layout.addressBits, row.dst), (layout.addressBits, row.src)] m
  have h₂ := Bits.field_putFields a [(layout.nBits, row.n)] layout.addressBits row.dst
    [(layout.addressBits, row.src)] m
  have h₃ := Bits.field_putFields a [(layout.nBits, row.n), (layout.addressBits, row.dst)]
    layout.addressBits row.src [] m
  rw [Nat.mod_eq_of_lt h.n_lt] at h₁
  rw [Nat.mod_eq_of_lt h.dst_lt] at h₂
  rw [Nat.mod_eq_of_lt h.src_lt] at h₃
  simp only [Bits.fieldsWidth_nil, Bits.fieldsWidth_cons, Nat.add_zero, List.nil_append,
    List.cons_append] at h₁ h₂ h₃
  rw [rowFrom, place, h₁, h₂, h₃]

theorem place_of_notMem (h : ¬(a ≤ p ∧ p < a + layout.instructionBits)) :
    place layout a row m p = m p := by
  refine Bits.putFields_of_notMem m ?_
  have hI : layout.instructionBits = layout.nBits + 2 * layout.addressBits := rfl
  simp only [Bits.fieldsWidth_cons, Bits.fieldsWidth_nil]
  rintro ⟨h₁, h₂⟩
  exact h ⟨h₁, by omega⟩

theorem rowFrom_place_of_disjoint
    (h : a + layout.instructionBits ≤ b ∨ b + layout.instructionBits ≤ a) :
    rowFrom layout (place layout a row m) b = rowFrom layout m b :=
  rowFrom_congr fun i hi ↦ place_of_notMem (by omega)

/-- A row that is written, or was there, is there afterwards when the other rows go elsewhere. -/
theorem rowFrom_foldl_place {rows : List (Nat × Instruction)} (hf : RowFits layout row)
    (hmem : (a, row) ∈ rows ∨ rowFrom layout m a = row)
    (h : ∀ x ∈ rows, x = (a, row) ∨ x.1 + layout.instructionBits ≤ a ∨
      a + layout.instructionBits ≤ x.1) :
    rowFrom layout (rows.foldl (fun m x ↦ place layout x.1 x.2 m) m) a = row := by
  induction rows generalizing m with
  | nil => exact hmem.resolve_left List.not_mem_nil
  | cons x rows ih =>
      refine ih ?_ fun y hy ↦ h y (List.mem_cons_of_mem _ hy)
      rcases h x List.mem_cons_self with rfl | hx
      · exact .inr (rowFrom_place hf)
      · rcases hmem with hmem | hrow
        · rcases List.mem_cons.mp hmem with rfl | hmem
          · exact .inr (rowFrom_place hf)
          · exact .inl hmem
        · exact .inr (by rw [rowFrom_place_of_disjoint hx, hrow])

theorem foldl_place_of_notMem {rows : List (Nat × Instruction)}
    (h : ∀ x ∈ rows, ¬(x.1 ≤ p ∧ p < x.1 + layout.instructionBits)) :
    rows.foldl (fun m x ↦ place layout x.1 x.2 m) m p = m p := by
  induction rows generalizing m with
  | nil => rfl
  | cons x rows ih =>
      rw [List.foldl_cons, ih fun y hy ↦ h y (List.mem_cons_of_mem _ hy),
        place_of_notMem (h x List.mem_cons_self)]

end Place

/-! ## What is placed in a slot -/

/-- The row that `encode` puts into a slot of a level. -/
def PlacedIn (level s : Nat) (row : Instruction) : Prop :=
  (∃ i ≤ block.ops.length, block.levelOfIndex i = level ∧ block.slotOfIndex i = s ∧
    row = block.rowOf layout i) ∨
  (1 ≤ level ∧ level < last block.ops ∧ s = slots - 1 ∧ row = block.link layout level)

section PlacedIn

variable {layout block} {m : Bits} {level s : Nat} {row : Instruction}
  (hs : ∀ i < block.ops.length, block.slot i < slots - 1)

theorem PlacedIn.level_bounds (h : block.PlacedIn layout level s row) :
    1 ≤ level ∧ level ≤ last block.ops := by
  rcases h with ⟨i, -, rfl, -⟩ | ⟨h₁, h₂, -⟩
  · exact ⟨one_le_levelOfIndex, levelOfIndex_le⟩
  · exact ⟨h₁, Nat.le_of_lt h₂⟩

include hs

theorem PlacedIn.slot_lt (h : block.PlacedIn layout level s row) : s < slots := by
  rcases h with ⟨i, -, -, rfl, -⟩ | ⟨-, -, rfl, -⟩
  · unfold slotOfIndex
    split
    case isTrue h => exact (hs i h).trans (by decide)
    case isFalse => decide
  · decide

/-- The last slot is the terminator's or the link's. -/
theorem eq_length_of_slotOfIndex {i : Nat} (hi : i ≤ block.ops.length)
    (h : block.slotOfIndex i = slots - 1) : i = block.ops.length := by
  unfold slotOfIndex at h
  split at h
  case isTrue hlt => exact absurd h (Nat.ne_of_lt (hs i hlt))
  case isFalse hlt => exact Nat.le_antisymm hi (Nat.not_lt.mp hlt)

theorem PlacedIn.unique {row' : Instruction} (h : block.PlacedIn layout level s row)
    (h' : block.PlacedIn layout level s row') : row = row' := by
  have hlink : ∀ i ≤ block.ops.length, block.levelOfIndex i = level →
      block.slotOfIndex i = slots - 1 → level = last block.ops := by
    rintro i hi rfl he
    rw [eq_length_of_slotOfIndex hs hi he, levelOfIndex, if_neg (Nat.lt_irrefl _)]
  rcases h with ⟨i, hi, hl, he, rfl⟩ | ⟨-, hlt, he, rfl⟩ <;>
    rcases h' with ⟨j, hj, hl', he', rfl⟩ | ⟨-, hlt', he', rfl⟩
  · rw [eq_of_levelOfIndex hs hi hj (hl.trans hl'.symm) (he.trans he'.symm)]
  · exact absurd (hlink i hi hl (he.trans he')) (Nat.ne_of_lt hlt')
  · exact absurd (hlink j hj hl' (he'.trans he)) (Nat.ne_of_lt hlt)
  · rfl

omit hs in
/-- The rows of `placed`, by level and slot. -/
theorem mem_placed {x : Nat × Instruction} : x ∈ block.placed layout ↔
    ∃ level s, block.PlacedIn layout level s x.2 ∧
      x.1 = block.layer layout level + s * layout.instructionBits := by
  obtain ⟨a, row⟩ := x
  simp only [placed, placedAt, List.mem_flatMap, List.mem_range, List.mem_append, List.mem_map,
    List.mem_filter, decide_eq_true_eq, List.mem_singleton]
  constructor
  · rintro ⟨k, hk, ⟨i, ⟨hi, hl⟩, he⟩ | he⟩
    · cases he
      exact ⟨_, _, .inl ⟨i, Nat.le_of_lt hi, rfl, rfl, rfl⟩, rowPosition_eq⟩
    · split at he
      case isTrue h =>
        cases he
        exact ⟨_, _, .inl ⟨_, le_rfl, rfl, rfl, rfl⟩, rowPosition_eq⟩
      case isFalse h =>
        cases he
        exact ⟨_, _, .inr ⟨Nat.le_add_left 1 k, Nat.lt_of_le_of_ne hk h, rfl, rfl⟩, rfl⟩
  · rintro ⟨level, s, ⟨i, hi, rfl, rfl, rfl⟩ | ⟨h₁, h₂, rfl, rfl⟩, rfl⟩
    · obtain ⟨k, hk⟩ := Nat.exists_eq_add_of_le' (show 1 ≤ block.levelOfIndex i from one_le_levelOfIndex)
      have hle : block.levelOfIndex i ≤ last block.ops := levelOfIndex_le
      refine ⟨k, by omega, ?_⟩
      rw [← rowPosition_eq]
      unfold levelOfIndex at hk
      split at hk
      case isTrue h => exact .inl ⟨i, ⟨h, hk⟩, rfl⟩
      case isFalse h =>
        obtain rfl : i = block.ops.length := by omega
        exact .inr (by rw [if_pos hk.symm])
    · obtain ⟨k, rfl⟩ := Nat.exists_eq_add_of_le' h₁
      exact ⟨k, Nat.lt_of_succ_lt h₂, .inr (by rw [if_neg (Nat.ne_of_lt h₂)])⟩

/-- Rows of different slots lie apart. -/
theorem PlacedIn.disjoint {level' s' : Nat} {row' : Instruction}
    (h : block.PlacedIn layout level s row) (h' : block.PlacedIn layout level' s' row')
    (hne : ¬(level' = level ∧ s' = s)) :
    block.layer layout level' + s' * layout.instructionBits + layout.instructionBits ≤
        block.layer layout level + s * layout.instructionBits ∨
      block.layer layout level + s * layout.instructionBits + layout.instructionBits ≤
        block.layer layout level' + s' * layout.instructionBits := by
  rcases Nat.le_total (block.layer layout level + s * layout.instructionBits)
    (block.layer layout level' + s' * layout.instructionBits) with hle | hle
  · refine .inr (Nat.le_of_not_lt fun hlt ↦ hne ?_)
    exact InRow.inj h'.level_bounds.1 h.level_bounds.1 (h'.slot_lt hs) (h.slot_lt hs)
      ⟨le_rfl, by omega⟩ ⟨hle, hlt⟩
  · refine .inl (Nat.le_of_not_lt fun hlt ↦ hne ?_)
    exact InRow.inj h'.level_bounds.1 h.level_bounds.1 (h'.slot_lt hs) (h.slot_lt hs)
      ⟨hle, hlt⟩ ⟨le_rfl, by omega⟩

end PlacedIn

/-- `encode` accepts the block: every level fits a layer and every value its field. -/
structure Encodable : Prop where
  layerBits_le : layout.layerBits ≤ block.base
  slot_lt : ∀ i < block.ops.length, block.slot i < slots - 1
  fits : ∀ x ∈ block.placed layout, RowFits layout x.2

section Encoded

variable {layout block} {m : Bits} (h : block.Encodable layout)

include h

theorem layerBits_le_layer (level : Nat) : layout.layerBits ≤ block.layer layout level :=
  h.layerBits_le.trans (Nat.le_add_right _ _)

/-- The row of a slot in the image. -/
theorem rowFrom_encode {level s : Nat} {row : Instruction}
    (hp : block.PlacedIn layout level s row) :
    rowFrom layout (block.encode layout m)
      (block.layer layout level + s * layout.instructionBits) = row := by
  have hle := layerBits_le_layer h level
  have hmem : (block.layer layout level + s * layout.instructionBits, row) ∈
      block.placed layout := mem_placed.mpr ⟨level, s, hp, rfl⟩
  have hplaced : rowFrom layout ((block.placed layout).foldl
      (fun m x ↦ place layout x.1 x.2 m) m)
      (block.layer layout level + s * layout.instructionBits) = row := by
    refine rowFrom_foldl_place (h.fits _ hmem) (.inl hmem) fun x hx ↦ ?_
    obtain ⟨level', s', hp', he⟩ := mem_placed.mp hx
    by_cases heq : level' = level ∧ s' = s
    · obtain ⟨rfl, rfl⟩ := heq
      exact .inl (Prod.ext he (hp'.unique h.slot_lt hp))
    · rw [he]
      exact .inr (PlacedIn.disjoint h.slot_lt hp hp' heq)
  rw [← hplaced]
  exact rowFrom_congr fun b hb ↦ Bits.blit_of_notMem _ (by omega)

/-- A slot without a row holds what it held. -/
theorem encode_of_free {level s p : Nat} (hl : 1 ≤ level) (hs : s < slots)
    (hp : block.InRow layout level s p) (hfree : ∀ row, ¬ block.PlacedIn layout level s row) :
    block.encode layout m p = m p := by
  have hle := (layerBits_le_layer h level).trans hp.layer_le
  rw [encode, Bits.blit_of_notMem _ (by omega), foldl_place_of_notMem]
  intro x hx hxp
  obtain ⟨level', s', hp', he⟩ := mem_placed.mp hx
  rw [he] at hxp
  obtain ⟨rfl, rfl⟩ := InRow.inj hp'.level_bounds.1 hl (hp'.slot_lt h.slot_lt) hs hxp hp
  exact hfree _ hp'

/-- The rows of a block, placed into an image that is zero where the layers go. -/
theorem encoded_encode (hz : ∀ p, block.base ≤ p → p < block.layer layout (last block.ops + 1) →
    m p = false) : block.Encoded layout (block.encode layout m) where
  layerBits_le := h.layerBits_le
  slot_lt := h.slot_lt
  field_eq i hi name _ := by
    have hrow := rowFrom_encode (m := m) h (.inl ⟨i, hi, rfl, rfl, rfl⟩)
    rw [← rowPosition_eq] at hrow
    rw [← hrow]
    cases name <;> rfl
  link level h₁ h₂ := rowFrom_encode h (.inr ⟨h₁, h₂, rfl, rfl⟩)
  empty level h₁ h₂ s hs hfree := by
    have hrow : rowFrom layout (block.encode layout m)
        (block.layer layout level + s * layout.instructionBits) =
        rowFrom layout m (block.layer layout level + s * layout.instructionBits) := by
      refine rowFrom_congr fun b hb ↦ encode_of_free h h₁ (hs.trans (by decide))
        ⟨Nat.le_add_right _ _, Nat.add_lt_add_left hb _⟩ ?_
      rintro row (⟨i, hi, hl, he, -⟩ | ⟨-, -, he, -⟩)
      · unfold levelOfIndex at hl
        unfold slotOfIndex at he
        split at he
        case isTrue h' =>
          rw [if_pos h'] at hl
          exact hfree i h' hl he
        case isFalse => omega
      · omega
    rw [hrow]
    refine Bits.field_eq_zero_iff.mpr fun b hb ↦ hz _ ?_ ?_
    · exact (Nat.le_add_right _ _).trans ((Nat.le_add_right _ _).trans (Nat.le_add_right _ _))
    · have hI : layout.instructionBits = layout.nBits + 2 * layout.addressBits := rfl
      have hrow : block.InRow layout level s
          (block.layer layout level + s * layout.instructionBits + b) := ⟨by omega, by omega⟩
      exact (hrow.lt_layer (hs.trans (by decide)) h₁).trans_le
        (layer_mono layout block (Nat.succ_le_succ h₂))
  loaded p hp := by
    have hle := h.layerBits_le
    rw [encode, Bits.blit_of_mem _ (by omega), Bits.blit_of_notMem _ (by omega), Nat.sub_zero]

end Encoded

/-! ## Images as numbers -/

/-- `place` on an image that is a number. -/
def placeNat (a : Nat) (row : Instruction) (N : Nat) : Nat :=
  Bits.splice (a + layout.nBits + layout.addressBits) layout.addressBits row.src
    (Bits.splice (a + layout.nBits) layout.addressBits row.dst
      (Bits.splice a layout.nBits row.n N))

/-- `encode` on an image that is a number. -/
def encodeNat (N : Nat) : Nat :=
  let code := (block.placed layout).foldl (fun N x ↦ placeNat layout x.1 x.2 N) N
  Bits.blitNat layout.layerBits 0 block.base code code

/-- `rowFrom` on a space that is a number. -/
def rowFromNat (N a : Nat) : Instruction :=
  ⟨(N >>> a) % 2 ^ layout.nBits, (N >>> (a + layout.nBits)) % 2 ^ layout.addressBits,
    (N >>> (a + (layout.nBits + layout.addressBits))) % 2 ^ layout.addressBits⟩

/-- `tick` on a space that is a number. -/
def tickNat (N : Nat) : Nat :=
  (List.range slots).foldl (fun acc s ↦
    let row := rowFromNat layout N (s * layout.instructionBits)
    Bits.blitNat row.n row.dst row.src N acc) N

/-- `sequential` on a space that is a number. -/
def sequentialNat (N : Nat) : Nat → Nat
  | 0 => N
  | i + 1 =>
      let M := sequentialNat N i
      let row := rowFromNat layout M (block.rowPosition layout i)
      Bits.blitNat row.n row.dst row.src M M

theorem place_ofNat (a : Nat) (row : Instruction) (N : Nat) :
    place layout a row (Bits.ofNat N) = Bits.ofNat (placeNat layout a row N) := by
  simp only [place, Bits.putFields, Bits.putField_ofNat, placeNat]

theorem encode_ofNat (N : Nat) :
    block.encode layout (Bits.ofNat N) = Bits.ofNat (block.encodeNat layout N) := by
  have hfold : ∀ (rows : List (Nat × Instruction)) (N : Nat),
      rows.foldl (fun m x ↦ place layout x.1 x.2 m) (Bits.ofNat N) =
        Bits.ofNat (rows.foldl (fun N x ↦ placeNat layout x.1 x.2 N) N) := by
    intro rows
    induction rows with
    | nil => exact fun N ↦ rfl
    | cons x rows ih =>
        intro N
        rw [List.foldl_cons, place_ofNat, ih, List.foldl_cons]
  rw [encode, hfold, Bits.blit_ofNat]
  rfl

theorem rowFrom_ofNat (N a : Nat) :
    rowFrom layout (Bits.ofNat N) a = rowFromNat layout N a := by
  simp only [rowFrom, Bits.field_ofNat, rowFromNat]

theorem commitRow_ofNat (M N : Nat) (row : Instruction) :
    commitRow (Bits.ofNat M) (Bits.ofNat N) row =
      Bits.ofNat (Bits.blitNat row.n row.dst row.src M N) := by
  funext p
  rw [commitRow, written, Bits.ofNat, Bits.ofNat, Bits.ofNat, Bits.testBit_blitNat]
  by_cases h : Writes row p
  · rw [if_pos h, Option.getD_some]
    exact (if_pos h).symm
  · rw [if_neg h, Option.getD_none]
    exact (if_neg h).symm

theorem tick_ofNat (N : Nat) : tick layout (Bits.ofNat N) = Bits.ofNat (tickNat layout N) := by
  have hfold : ∀ (l : List Nat) (acc : Nat),
      (l.map fun i ↦ rowFrom layout (Bits.ofNat N) (i * layout.instructionBits)).foldl
        (commitRow (Bits.ofNat N)) (Bits.ofNat acc) =
      Bits.ofNat (l.foldl (fun acc s ↦
        let row := rowFromNat layout N (s * layout.instructionBits)
        Bits.blitNat row.n row.dst row.src N acc) acc) := by
    intro l
    induction l with
    | nil => exact fun acc ↦ rfl
    | cons s l ih =>
        intro acc
        rw [List.map_cons, List.foldl_cons, rowFrom_ofNat, commitRow_ofNat, ih, List.foldl_cons]
  exact hfold _ N

theorem sequential_ofNat (N i : Nat) :
    block.sequential layout (Bits.ofNat N) i = Bits.ofNat (block.sequentialNat layout N i) := by
  induction i with
  | zero => rfl
  | succ i ih => rw [sequential, ih, rowFrom_ofNat, Bits.blit_ofNat, sequentialNat]

end CopySpace.Bulk.Block
