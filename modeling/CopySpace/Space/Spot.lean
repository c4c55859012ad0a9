import CopySpace.Space.Chain
import CopySpace.Space.Row

/-!
# Places between rows

A program does not care where one of its layers ends and the next begins, so what a part of it
does is said from one `Spot` to another: a slot of a layer that is being executed.  `Leads` says
that a machine that is at the first spot, with some data behind the processor, comes to the
second after finishing the ticks between.
-/

namespace CopySpace.BitMachine

/-- A layer, and the slot of it that comes next. -/
structure Spot where
  layer : Nat
  slot : Nat

variable {φ : Type} {cfg : Config} {dev : Device φ} {M D D' D'' m m' : Bits} {a b i j : Nat}
  {x y : BitMachine φ} {rows rows' : List Instruction} {s s' s'' : Spot}

/-- The machine `x`, in the middle of a tick, has executed the slots below `i` and has the space
`m` now. -/
structure Within (cfg : Config) (dev : Device φ) (x : BitMachine φ) (i : Nat) (m : Bits) : Prop where
  active : active cfg x.bits
  channels : channels cfg dev x = x
  exec : Exec cfg 0 i x.bits m

/-- The rows of the layer at `a` from slot `i` on. -/
def rowsFrom (cfg : Config) (M : Bits) (a i : Nat) : List Instruction :=
  (List.range' i (cfg.processorN - i)).map fun j ↦ M.rowAt cfg (a + j * cfg.instructionSize)

/-- The machine is at this spot of a program `M`, with `D` behind the processor. -/
def At (cfg : Config) (dev : Device φ) (M : Bits) (s : Spot) (D : Bits) (x : BitMachine φ) : Prop :=
  ∃ m, Within cfg dev x s.slot m ∧ Holds cfg s.slot (rowsFrom cfg M s.layer s.slot) D m

/-- A machine at the first spot comes to the second, whatever its device is. -/
def Leads (cfg : Config) (M : Bits) (s : Spot) (D : Bits) (s' : Spot) (D' : Bits) : Prop :=
  ∀ (φ : Type) (dev : Device φ) (x : BitMachine φ), At cfg dev M s D x →
    ∃ y, Ticks cfg dev x y ∧ y.inp = x.inp ∧ y.out = x.out ∧ At cfg dev M s' D' y

theorem Leads.refl (s : Spot) (D : Bits) : Leads cfg M s D s D :=
  fun _ _ x h ↦ ⟨x, .refl, rfl, rfl, h⟩

theorem Leads.trans (h : Leads cfg M s D s' D') (h' : Leads cfg M s' D' s'' D'') :
    Leads cfg M s D s'' D'' := fun φ dev x hx ↦ by
  obtain ⟨y, hxy, hin, hout, hy⟩ := h φ dev x hx
  obtain ⟨z, hyz, hin', hout', hz⟩ := h' φ dev y hy
  exact ⟨z, hxy.trans hyz, hin'.trans hin, hout'.trans hout, hz⟩

theorem length_rowsFrom : (rowsFrom cfg M a i).length = cfg.processorN - i := by
  rw [rowsFrom, List.length_map, List.length_range']

/-- Rows that stand in a layer come before the rest of it. -/
theorem rowsFrom_eq_append (h : RowsAt cfg M (a + i * cfg.instructionSize) rows)
    (hi : i + rows.length ≤ cfg.processorN) :
    rowsFrom cfg M a i = rows ++ rowsFrom cfg M a (i + rows.length) := by
  induction rows generalizing i with
  | nil => rfl
  | cons row rows ih =>
      rw [List.length_cons] at hi
      obtain ⟨hrow, hrows⟩ := h
      obtain ⟨n, hn⟩ := Nat.exists_eq_add_of_le (show i + 1 ≤ cfg.processorN by omega)
      have hrest := ih (i := i + 1) (by rwa [Nat.succ_mul, ← Nat.add_assoc]) (by omega)
      have hhead : rowsFrom cfg M a i = row :: rowsFrom cfg M a (i + 1) := by
        rw [rowsFrom, show cfg.processorN - i = n + 1 by omega, List.range'_succ, List.map_cons,
          hrow, rowsFrom, show cfg.processorN - (i + 1) = n by omega]
      rw [hhead, hrest, List.cons_append, List.length_cons,
        show i + 1 + rows.length = i + (rows.length + 1) by omega]

/-- Slots of one layer. -/
theorem leads_of_executes (h : Executes cfg i (rowsFrom cfg M a i) D j (rowsFrom cfg M a j) D') :
    Leads cfg M ⟨a, i⟩ D ⟨a, j⟩ D' := by
  rintro φ dev x ⟨m, hw, hm⟩
  obtain ⟨m', he, hm'⟩ := h m hm
  exact ⟨x, .refl, rfl, rfl, m', ⟨hw.active, hw.channels, hw.exec.trans he⟩, hm'⟩

/-- Rows that stand in a layer are executed. -/
theorem leads_of_performs (h : Performs cfg i rows D D')
    (hrows : RowsAt cfg M (a + i * cfg.instructionSize) rows)
    (hi : i + rows.length ≤ cfg.processorN) :
    Leads cfg M ⟨a, i⟩ D ⟨a, i + rows.length⟩ D' :=
  leads_of_executes (by rw [rowsFrom_eq_append hrows hi]; exact h _)

/-- The layer at `b` can be loaded: its channels are empty, and it has a link. -/
structure Loadable (cfg : Config) (M : Bits) (b : Nat) : Prop where
  behind : Behind cfg b cfg.layerBits
  channels : ∀ p < 3 * cfg.instructionSize, M (b + p) = false
  link : ∃ next, M.rowAt cfg (b + (cfg.processorN - 1) * cfg.instructionSize) =
    ⟨cfg.layerBits, 0, next⟩

/-- The link of a layer, which may have been changed by its rows, loads another one. -/
theorem At.load (hN : 4 ≤ cfg.processorN) (hx : At cfg dev M ⟨a, i⟩ D x)
    (h : Executes cfg i (rowsFrom cfg M a i) D (cfg.processorN - 1) [⟨cfg.layerBits, 0, b⟩] D')
    (hb : Behind cfg b cfg.layerBits) :
    ∃ m, step cfg dev x = (.done, ⟨m, x.inp, x.out⟩) ∧ Loaded cfg b D' m := by
  obtain ⟨m, hw, hm⟩ := hx
  obtain ⟨m₁, he, hm₁⟩ := h m hm
  exact step_of_exec hN hw.active hw.channels (hw.exec.trans he) hm₁ hb

/-- A layer that has been loaded is executed from its first row on. -/
theorem Loaded.at (hN : 4 ≤ cfg.processorN) (h0 : cfg.layerBits ≠ 0) (h : Loaded cfg b D m)
    (hb : Loadable cfg M b) (hD : ∀ p < cfg.layerBits, D (b + p) = M (b + p)) (inp out : φ) :
    At cfg dev M ⟨b, 3⟩ D ⟨m, inp, out⟩ := by
  obtain ⟨next, hlink⟩ := hb.link
  have hlast := Config.slot_end_le (show cfg.processorN - 1 < cfg.processorN by omega)
  have hI : cfg.instructionSize = cfg.nSize + 2 * cfg.addressSize := rfl
  have h3 : 3 * cfg.instructionSize ≤ cfg.layerBits := Nat.mul_le_mul_right _ (by omega)
  have hlayer : ∀ p < cfg.layerBits, m p = M (b + p) := fun p hp ↦ (h.layer p hp).trans (hD p hp)
  have hrow : ∀ j, j < cfg.processorN →
      m.rowAt cfg (j * cfg.instructionSize) = M.rowAt cfg (b + j * cfg.instructionSize) := by
    intro j hj
    have hend := Config.slot_end_le hj
    refine rowAt_congr fun p hp ↦ ?_
    rw [hlayer _ (by unfold Config.layerBits; omega), Nat.add_assoc]
  have hchannels : ∀ j < 3, m.row cfg j = ⟨0, 0, 0⟩ := fun j hj ↦ by
    refine (hrow j (by omega)).trans (rowAt_eq_zero fun p hp ↦ ?_)
    rw [Nat.add_assoc]
    refine hb.channels _ ?_
    have := Nat.mul_le_mul_right cfg.instructionSize (show j + 1 ≤ 3 by omega)
    rw [Nat.succ_mul] at this
    omega
  obtain ⟨hch, hstart⟩ := exec_start dev hchannels inp out
  have hactive : active cfg m := by
    refine ⟨cfg.processorN - 1, by omega, ?_⟩
    rw [show m.row cfg (cfg.processorN - 1) = ⟨cfg.layerBits, 0, next⟩ from
      (hrow _ (by omega)).trans hlink]
    exact h0
  refine ⟨m, ⟨hactive, hch, hstart⟩, ?_, ?_, h.data⟩
  · rw [length_rowsFrom]
    dsimp only
    omega
  · have hall : RowsAt cfg m (3 * cfg.instructionSize) ((List.range (cfg.processorN - 3)).map
        fun j ↦ m.rowAt cfg (3 * cfg.instructionSize + j * cfg.instructionSize)) := rowsAt_range
    have heq : rowsFrom cfg M b 3 = (List.range (cfg.processorN - 3)).map
        fun j ↦ m.rowAt cfg (3 * cfg.instructionSize + j * cfg.instructionSize) := by
      rw [rowsFrom, List.range'_eq_map_range, List.map_map]
      refine List.map_congr_left fun j hj ↦ ?_
      rw [List.mem_range] at hj
      rw [← Nat.add_mul, hrow _ (by omega)]
      rfl
    dsimp only
    rwa [heq]

/-- The layer that a link loads is executed next. -/
theorem leads_link (hN : 4 ≤ cfg.processorN) (h0 : cfg.layerBits ≠ 0)
    (h : Executes cfg i (rowsFrom cfg M a i) D (cfg.processorN - 1) [⟨cfg.layerBits, 0, b⟩] D')
    (hb : Loadable cfg M b) (hD : ∀ p < cfg.layerBits, D' (b + p) = M (b + p)) :
    Leads cfg M ⟨a, i⟩ D ⟨b, 3⟩ D' := fun φ dev x hx ↦ by
  obtain ⟨m, hstep, hload⟩ := hx.load hN h hb.behind
  exact ⟨⟨m, x.inp, x.out⟩, .single hstep, rfl, rfl, hload.at hN h0 hb hD x.inp x.out⟩

/-- The rest of a layer that has only its link. -/
theorem rowsFrom_empty (hi : i + 1 ≤ cfg.processorN)
    (hempty : ∀ p, i * cfg.instructionSize ≤ p → p < (cfg.processorN - 1) * cfg.instructionSize →
      M (a + p) = false)
    (hlink : M.rowAt cfg (a + (cfg.processorN - 1) * cfg.instructionSize) = ⟨cfg.layerBits, 0, b⟩) :
    rowsFrom cfg M a i =
      List.replicate (cfg.processorN - 1 - i) ⟨0, 0, 0⟩ ++ [⟨cfg.layerBits, 0, b⟩] := by
  obtain ⟨n, hn⟩ := Nat.exists_eq_add_of_le (show i ≤ cfg.processorN - 1 by omega)
  have hrows : RowsAt cfg M (a + i * cfg.instructionSize)
      (List.replicate n ⟨0, 0, 0⟩ ++ [⟨cfg.layerBits, 0, b⟩]) := by
    refine rowsAt_append.mpr ⟨rowsAt_zero fun p hp ↦ ?_, ?_, trivial⟩
    · rw [Nat.add_assoc]
      refine hempty _ (Nat.le_add_right _ _) ?_
      rw [hn, Nat.add_mul]
      omega
    · rw [List.length_replicate, Nat.add_assoc, ← Nat.add_mul, ← hn]
      exact hlink
  have hlen : (List.replicate n (⟨0, 0, 0⟩ : Instruction) ++
      [(⟨cfg.layerBits, 0, b⟩ : Instruction)]).length = n + 1 := by
    rw [List.length_append, List.length_replicate]
    rfl
  have hfrom := rowsFrom_eq_append hrows (by rw [hlen]; omega)
  have hnil : rowsFrom cfg M a (i + (n + 1)) = [] :=
    List.length_eq_zero_iff.mp (by rw [length_rowsFrom]; omega)
  rw [hlen, hnil, List.append_nil] at hfrom
  rw [hfrom, hn, Nat.add_sub_cancel_left]

/-- Empty rows up to the link of a layer. -/
theorem leads_next (hi : 3 ≤ i) (hi' : i + 1 ≤ cfg.processorN) (hN : 4 ≤ cfg.processorN)
    (h0 : cfg.layerBits ≠ 0)
    (hempty : ∀ p, i * cfg.instructionSize ≤ p → p < (cfg.processorN - 1) * cfg.instructionSize →
      M (a + p) = false)
    (hlink : M.rowAt cfg (a + (cfg.processorN - 1) * cfg.instructionSize) = ⟨cfg.layerBits, 0, b⟩)
    (hb : Loadable cfg M b) (hD : ∀ p < cfg.layerBits, D (b + p) = M (b + p)) :
    Leads cfg M ⟨a, i⟩ D ⟨b, 3⟩ D := by
  refine leads_link hN h0 ?_ hb hD
  rw [rowsFrom_empty hi' hempty hlink]
  have hperform : Performs cfg i _ D D := performs_empty hi (cfg.processorN - 1 - i)
  have hperform := hperform [⟨cfg.layerBits, 0, b⟩]
  rwa [List.length_replicate, show i + (cfg.processorN - 1 - i) = cfg.processorN - 1 by omega]
    at hperform

theorem modify_length {α : Type} (f : α → α) (l : List α) (x : α) :
    (l ++ [x]).modify l.length f = l ++ [f x] := by
  induction l with
  | nil => rfl
  | cons y l ih => rw [List.cons_append, List.length_cons, List.modify_succ_cons, ih, List.cons_append]

/-- A row that gives the link of its layer another address, with empty rows between. -/
theorem executes_link {cell n next : Nat} (hi : 3 ≤ i) (hn : i + 1 + n = cfg.processorN - 1)
    (h0 : cfg.addressSize ≠ 0) (hnext : next < 2 ^ cfg.addressSize)
    (hcell : Behind cfg cell cfg.addressSize) :
    Executes cfg i (⟨cfg.addressSize, cfg.srcBit (cfg.processorN - 1) 0, cell⟩ ::
        (List.replicate n ⟨0, 0, 0⟩ ++ [⟨cfg.layerBits, 0, next⟩])) D (cfg.processorN - 1)
      [⟨cfg.layerBits, 0, D.field cell cfg.addressSize⟩] D := by
  have hpatch := executes_patch_src (D := D) hi h0 (show 0 + cfg.addressSize ≤ cfg.addressSize by omega) (show n <
    (List.replicate n (⟨0, 0, 0⟩ : Instruction) ++
      [(⟨cfg.layerBits, 0, next⟩ : Instruction)]).length by simp) hcell
  have hsplice : Bits.splice 0 cfg.addressSize (D.field cell cfg.addressSize) next =
      D.field cell cfg.addressSize := by
    have := Bits.splice_top (show 0 < 2 ^ 0 by decide) hnext (Bits.field_lt D cell _)
    rwa [Nat.pow_zero, Nat.one_mul, Nat.one_mul, Nat.zero_add, Nat.zero_add] at this
  have hmodify : (List.replicate n (⟨0, 0, 0⟩ : Instruction) ++
      [(⟨cfg.layerBits, 0, next⟩ : Instruction)]).modify n
      (.patchSrc 0 cfg.addressSize (D.field cell cfg.addressSize)) =
      List.replicate n ⟨0, 0, 0⟩ ++ [⟨cfg.layerBits, 0, D.field cell cfg.addressSize⟩] := by
    have hlast := modify_length (.patchSrc 0 cfg.addressSize (D.field cell cfg.addressSize))
      (List.replicate n ⟨0, 0, 0⟩) (⟨cfg.layerBits, 0, next⟩ : Instruction)
    rw [List.length_replicate] at hlast
    rw [hlast, Instruction.patchSrc, hsplice]
  rw [hmodify, hn] at hpatch
  have hperform : Performs cfg (i + 1) _ D D := performs_empty (Nat.le_succ_of_le hi) n
  have hperform := hperform [⟨cfg.layerBits, 0, D.field cell cfg.addressSize⟩]
  rw [List.length_replicate, hn] at hperform
  exact hpatch.trans hperform

end CopySpace.BitMachine
