import CopySpace.Link.Sound

/-!
# What the linker emits

`Emits` relates two contexts: what has been emitted between them does something to the data, in
every image that the linker may finish.  Rows that are appended, and new layers, are the pieces
from which the operators are made.
-/

namespace CopySpace.Link

open Emit BitMachine

variable {cfg : Config} {ctx ctx' ctx₁ ctx₂ : Context} {F : Linked}
  {m m' D D' : Bits} {R R' : Bits → Bits → Prop} {rows : List Instruction} {f : Bits → Bits}

/-- What stands between two contexts relates the data before and after it. -/
structure Emits (cfg : Config) (ctx : Context) (R : Bits → Bits → Prop)
    (ctx' : Context) : Prop where
  sound : ctx'.Sound cfg
  extension : Extends cfg ctx ctx'
  leads : ∀ F : Linked, F.Final cfg ctx' → ∀ D, F.Runs D →
    ∃ D', R D D' ∧ F.Runs D' ∧ Leads cfg F.data ctx.spot D ctx'.spot D'

theorem Emits.refl (hs : ctx.Sound cfg) : Emits cfg ctx (fun D D' ↦ D' = D) ctx :=
  ⟨hs, .refl ctx, fun _ _ D hD ↦ ⟨D, rfl, hD, .refl _ _⟩⟩

theorem Emits.trans (hs : ctx.Sound cfg) (h : Emits cfg ctx R ctx₁)
    (h' : Emits cfg ctx₁ R' ctx₂) : Emits cfg ctx (Relation.Comp R R') ctx₂ := by
  refine ⟨h'.sound, h.extension.trans hs h'.extension, fun F hF D hD ↦ ?_⟩
  obtain ⟨D₁, hR, hD₁, hl⟩ := h.leads F (hF.mono h.sound h'.extension) D hD
  obtain ⟨D₂, hR', hD₂, hl'⟩ := h'.leads F hF D₁ hD₁
  exact ⟨D₂, ⟨D₁, hR, hR'⟩, hD₂, hl.trans hl'⟩

/-- The relation may be changed by what is known of the image. -/
theorem Emits.imp (h : Emits cfg ctx R ctx')
    (hR : ∀ F : Linked, F.Final cfg ctx' → ∀ D D', F.Runs D → F.Runs D' → R D D' → R' D D') :
    Emits cfg ctx R' ctx' := by
  refine ⟨h.sound, h.extension, fun F hF D hD ↦ ?_⟩
  obtain ⟨D', h', hD', hl⟩ := h.leads F hF D hD
  exact ⟨D', hR F hF D D' hD hD' h', hD', hl⟩

/-! ## Positions -/

theorem Context.Sound.layerBits_le (hs : ctx.Sound cfg) : cfg.layerBits ≤ constantBase := by
  have hL := hs.target.layerBits_eq
  have hI := hs.target.instructionSize_eq
  have ha := hs.address_le
  dsimp only [constantBase]
  omega

theorem Context.codeBegin_ge (ctx : Context) : branchTable ≤ ctx.capacities.codeBegin := by
  unfold Capacities.codeBegin Capacities.symbolTable Capacities.callTable
  omega

theorem Context.Sound.spaceSize_ge (hs : ctx.Sound cfg) :
    ctx.capacities.codeBegin ≤ cfg.spaceSize := by
  have hfor := hs.laid.toFor
  have h₁ := hfor.begin_le
  have h₂ := hfor.limit_le
  have h₃ := hfor.bytes_le
  omega

/-- The cells of the linker are behind the processor. -/
theorem Context.Sound.behind (hs : ctx.Sound cfg) {a n : Nat} (ha : constantBase ≤ a)
    (hn : a + n ≤ branchTable) : Behind cfg a n :=
  ⟨hs.layerBits_le.trans ha, hn.trans (ctx.codeBegin_ge.trans hs.spaceSize_ge)⟩

/-- The cells that the operators write. -/
def Scratch (a n : Nat) : Prop :=
  regBase ≤ a ∧ a + n ≤ addTable ∨ temporary ≤ a ∧ a + n ≤ shiftZero ∨
    shiftZero < a ∧ a + n ≤ eqTable ∨ eqTable + 16 ≤ a ∧ a + n ≤ memBitAddress ∨
    memBitAddress + 32 ≤ a ∧ a + n ≤ zeroLayer

instance (a n : Nat) : Decidable (Scratch a n) := by
  unfold Scratch
  infer_instance

theorem Scratch.not_kept {a n p : Nat} (h : Scratch a n) (hp : a ≤ p) (hp' : p < a + n) :
    ¬ F.Kept p := by
  dsimp only [Scratch, Linked.Kept, regBase, addTable, temporary, shiftZero, eqTable,
    memBitAddress, zeroLayer, constantBase] at *
  omega

theorem Scratch.behind {a n : Nat} (h : Scratch a n) (hs : ctx.Sound cfg) : Behind cfg a n := by
  refine hs.behind ?_ ?_ <;> dsimp only [Scratch, regBase, addTable, temporary, shiftZero, eqTable,
    memBitAddress, zeroLayer, constantBase, branchTable] at * <;> omega

theorem Linked.Landing.runs {a : Nat} (h : F.Landing cfg a) (hD : F.Runs D) :
    ∀ p < cfg.layerBits, D (a + p) = F.data (a + p) := fun p hp ↦ by
  obtain ⟨hle, hlimit, -⟩ := h
  refine hD _ (.inr (.inr (.inr (.inr (.inl ⟨?_, by omega⟩)))))
  exact (show zeroLayer ≤ branchTable by decide).trans (hle.trans (Nat.le_add_right _ _))

/-! ## Changes of the program -/

/-- What may happen to the data in front of the code. -/
structure KeepsCells (lo : Nat) (m m' : Bits) : Prop where
  tables : Tables m → Tables m'
  arithmetic : ∀ subtract, HasArithmetic subtract m → HasArithmetic subtract m'
  rest : ∀ p < lo, p < addTable ∨ carry < p → m' p = m p

theorem KeepsCells.of_eq {lo : Nat} (hlo : branchTable ≤ lo) (h : ∀ p < lo, m' p = m p) :
    KeepsCells lo m m' where
  tables ht := ht.congr fun p hp ↦ h p (by
    dsimp only [InTables, andTable, temporary, shiftZero, eqTable, branchTable] at *
    omega)
  arithmetic _ ha := ha.congr fun p _ hp ↦ h p (by
    dsimp only [andTable, branchTable] at *
    omega)
  rest p hp _ := h p hp

/-- Another program in its place. -/
theorem Context.Sound.step (hs : ctx.Sound cfg) {program : CopyProgram}
    (hlaid : Laid cfg ctx.capacities.codeBegin program)
    (hlimit : program.codeLimit = ctx.program.codeLimit)
    (hbytes : program.image.bytes = ctx.program.image.bytes)
    (hposition : program.image.layer = ctx.program.image.layer ∧
        program.codeEnd = ctx.program.codeEnd ∧ ctx.program.image.slot ≤ program.image.slot ∨
      ctx.program.codeEnd ≤ program.image.layer ∧ ctx.program.codeEnd ≤ program.codeEnd)
    (hcode : ∀ p, ctx.capacities.codeBegin ≤ p → p < ctx.position cfg →
      program.image.data p = ctx.program.image.data p)
    (hcells : KeepsCells ctx.capacities.codeBegin ctx.program.image.data program.image.data)
    (hbeyond : ∀ p, program.codeEnd ≤ p → program.image.data p = ctx.program.image.data p) :
    Context.Sound cfg { ctx with program := program } ∧
      Extends cfg ctx { ctx with program := program } := by
  have hlo := ctx.codeBegin_ge
  have hend := hs.laid.codeEnd
  have hlow : ∀ p, p < regBase ∨ carry < p ∧ p < ctx.capacities.codeBegin →
      program.image.data p = ctx.program.image.data p := fun p hp ↦ hcells.rest p (by
    dsimp only [regBase, branchTable] at *
    omega) (by
    dsimp only [regBase, addTable] at *
    omega)
  have hlayer : ctx.program.image.layer ≤ program.image.layer := by omega
  have hcalls : ∀ i < ctx.capacities.call,
      program.image.data.field (ctx.capacities.callTable + 32 * i) 32 =
        ctx.program.image.data.field (ctx.capacities.callTable + 32 * i) 32 := by
    refine fun i hi ↦ Bits.field_congr fun b hb ↦ hlow _ (.inr ?_)
    dsimp only [Capacities.codeBegin, Capacities.symbolTable, Capacities.callTable, carry,
      branchTable] at *
    omega
  refine ⟨⟨hs.target, hs.address_le, hlaid, hcells.tables hs.tables, hs.constants_le,
    fun i v hv ↦ ?_, hs.jumps_le, fun j hj ht ↦ (hs.jumps j hj ht).trans hlayer, hs.jumpTables,
    fun j hj ↦ ⟨⟨(hs.jumpLayers j hj).1.1, (hs.jumpLayers j hj).1.2.trans hlayer⟩, fun ht ↦
      ⟨((hs.jumpLayers j hj).2 ht).1, ((hs.jumpLayers j hj).2 ht).2.trans hlayer⟩⟩,
    hs.jumpsApart, fun i hi hcount ↦ (hcalls i hi).trans (hs.calls i hi hcount),
    hs.internals, hs.memoryBytes, hs.memory_ge, fun hm ↦ ?_⟩, ⟨rfl, rfl, rfl, rfl, hbytes,
    hlayer, hposition, hcode, fun p hp ↦ ?_, hbeyond, List.prefix_refl _, List.prefix_refl _,
    fun j hj ↦ .inl hj, fun k hk ↦ ⟨hk, rfl, rfl⟩, fun k hk _ ↦ .inl hk, hcells.arithmetic,
    fun _ ↦ ⟨rfl, rfl, fun hb ↦ ?_⟩, fun i hi _ ↦ hcalls i hi⟩⟩
  · have hi : i < ctx.constants.length := (List.getElem?_eq_some_iff.mp hv).1
    have hle := hs.constants_le
    rw [← hs.constants i v hv]
    refine Bits.field_congr fun b hb ↦ hlow _ (.inl ?_)
    dsimp only [constantBase, constantCapacity, regBase] at *
    omega
  · obtain ⟨h₁, h₂, h₃⟩ := hs.memory hm
    exact ⟨hlimit.trans h₁, by dsimp only; rwa [hbytes], h₃⟩
  · refine hcells.rest p ?_ ?_ <;>
      dsimp only [IsCell, regBase, addTable, carry, shiftZero, eqTable, memBitAddress,
        branchTable] at * <;> omega
  · rw [← hb]
    have ha := hs.address_le
    refine Bits.field_congr fun b hb ↦ hlow _ (.inr ?_)
    dsimp only [memBitAddress, carry, branchTable] at *
    omega

/-- The layer that is being written can be loaded. -/
theorem Linked.Final.landing (hf : F.Final cfg ctx) (hs : ctx.Sound cfg) :
    F.Landing cfg ctx.program.image.layer := by
  obtain ⟨k, hk⟩ := hs.laid.layer
  have hL := hs.target.layerBits_eq
  have hend := hs.laid.codeEnd
  have hlimit := hf.limit
  have hle := hf.limit_le
  have hlo := hs.laid.toFor.layer_le
  have hcode := ctx.codeBegin_ge
  have h3 := Nat.mul_le_mul_right cfg.instructionSize hs.laid.three_le
  refine ⟨by omega, by omega, ⟨by omega, by omega⟩, fun p hp ↦ ?_, ?_⟩
  · rw [hf.code _ (by omega) (by unfold Context.position; omega) fun j hj ht ↦ ?_]
    · rw [hk]
      exact hs.laid.channels k (by omega) p hp
    · have := hs.jumps j hj ht
      omega
  · obtain ⟨next, hnext⟩ := hf.links k (by omega)
    refine ⟨next, ?_⟩
    rw [hk, hs.target.slots]
    exact hnext

/-! ## New layers -/

theorem Context.next_eq_some (h : ctx.next = some ctx') : ∃ program,
    csCopyProgramNext ctx.program = (0, program) ∧ ctx' = { ctx with program := program } := by
  unfold Context.next Context.onProgram at h
  split at h
  · next h0 => exact ⟨_, Prod.ext h0 rfl, (Option.some.inj h).symm⟩
  · cases h

theorem step_next (hs : ctx.Sound cfg) (h : ctx.next = some ctx') :
    ctx'.Sound cfg ∧ Extends cfg ctx ctx' := by
  obtain ⟨program, hnext, rfl⟩ := Context.next_eq_some h
  obtain ⟨hlaid, hlayer, hslot, hlimit, hbytes, hdata, -⟩ := hs.laid.next hs.target hnext
  have hL := hs.target.layerBits_eq
  have hlo := hs.laid.lo_le
  have hend := hs.laid.codeEnd
  have hslot := Nat.mul_le_mul_right cfg.instructionSize hs.laid.slot_le
  refine hs.step hlaid hlimit hbytes (.inr ⟨hlayer.ge, ?_⟩) (fun p hp hp' ↦ ?_)
    (.of_eq ctx.codeBegin_ge fun p hp ↦ hdata p (.inl (by omega))) fun p hp ↦ hdata p (.inr ?_)
  · have := hlaid.codeEnd
    omega
  · refine hdata p (.inl ?_)
    unfold Context.position at hp'
    omega
  · have := hlaid.codeEnd
    omega

theorem spot_next (hs : ctx.Sound cfg) (h : ctx.next = some ctx') :
    ctx'.spot = ⟨ctx.program.codeEnd, 3⟩ := by
  obtain ⟨program, hnext, rfl⟩ := Context.next_eq_some h
  obtain ⟨-, hlayer, hslot, -⟩ := hs.laid.next hs.target hnext
  exact congrArg₂ Spot.mk hlayer hslot

/-- The rest of a layer that the linker has left is empty; its link may be that of a jump. -/
theorem Linked.Final.empty (hs : ctx.Sound cfg) (h : ctx.next = some ctx₁) (hf : F.Final cfg ctx')
    (hprogram : ctx'.program = ctx₁.program) (hcapacities : ctx'.capacities = ctx.capacities)
    (hjumps : ∀ j ∈ ctx'.jumps, j.table = 0 →
      j.layer + cfg.layerBits ≤ ctx.program.image.layer ∨ j.layer = ctx.program.image.layer)
    {p : Nat} (hp : ctx.program.image.slot * cfg.instructionSize ≤ p)
    (hp' : p < 255 * cfg.instructionSize) : F.data (ctx.program.image.layer + p) = false := by
  obtain ⟨program, hnext, rfl⟩ := Context.next_eq_some h
  obtain ⟨-, hlayer, -, -, -, hdata, -⟩ := hs.laid.next hs.target hnext
  have hL := hs.target.layerBits_eq
  have hlo := hs.laid.lo_le
  have hend := hs.laid.codeEnd
  rw [hf.code _ (by rw [hcapacities]; omega) ?_ fun j hj ht ↦ ?_, hprogram]
  · dsimp only
    rw [hdata _ (.inl (by omega))]
    exact hs.laid.empty p hp (by omega)
  · unfold Context.position
    rw [hprogram]
    dsimp only
    omega
  · obtain hle | heq := hjumps j hj ht <;> omega

/-- From the rest of a layer to the layer that its link loads. -/
theorem leads_rest (hs : ctx.Sound cfg) {target : Nat} (hD : F.Runs D)
    (hempty : ∀ p, ctx.program.image.slot * cfg.instructionSize ≤ p →
      p < 255 * cfg.instructionSize → F.data (ctx.program.image.layer + p) = false)
    (hlink : F.data.rowAt cfg (ctx.program.image.layer + 255 * cfg.instructionSize) =
      ⟨cfg.layerBits, 0, target⟩)
    (htarget : F.Landing cfg target) : Leads cfg F.data ctx.spot D ⟨target, 3⟩ D := by
  have hN := hs.target.slots
  have hL := hs.target.layerBits_eq
  have hI := hs.target.instructionSize_eq
  have h5 := hs.target.five_le
  have hslot := hs.laid.slot_le
  refine leads_next hs.laid.three_le (by omega) (by omega) (by omega) (fun p hp hp' ↦ ?_) ?_
    htarget.2.2 (htarget.runs hD)
  · rw [hN] at hp'
    exact hempty p hp hp'
  · rw [hN]
    exact hlink

/-- A new layer. -/
theorem emits_next (hs : ctx.Sound cfg) (h : ctx.next = some ctx') :
    Emits cfg ctx (fun D D' ↦ D' = D) ctx' := by
  have hspot := spot_next hs h
  obtain ⟨hs', hx⟩ := step_next hs h
  refine ⟨hs', hx, fun F hF D hD ↦ ⟨D, rfl, hD, ?_⟩⟩
  obtain ⟨program, hnext, rfl⟩ := Context.next_eq_some h
  obtain ⟨-, hlayer, -, -, -, -, hlink⟩ := hs.laid.next hs.target hnext
  have hL := hs.target.layerBits_eq
  have hend := hs.laid.codeEnd
  have hlo := hs.laid.lo_le
  rw [hspot]
  refine leads_rest hs hD (fun p hp hp' ↦ hF.empty hs h rfl rfl (fun j hj ht ↦ .inl ?_) hp hp') ?_ ?_
  · exact hs.jumps j hj ht
  · refine (rowAt_congr fun p hp ↦ ?_).trans hlink
    refine hF.code _ (by dsimp only; omega) ?_ fun j hj ht ↦ ?_
    · unfold Context.position
      dsimp only
      omega
    · have := hs.jumps j hj ht
      omega
  · rw [← hlayer]
    exact hF.landing hs'

/-! ## Rows -/

/-- The context with more rows in its layer, and other changes of the image. -/
def Context.append (cfg : Config) (f : Bits → Bits) (rows : List Instruction) (ctx : Context) :
    Context := { ctx with program := ctx.program.append cfg f rows }

theorem step_append (hs : ctx.Sound cfg) (hslot : ctx.program.image.slot + rows.length ≤ 255)
    (hf : ∀ m p, ctx.capacities.codeBegin ≤ p → f m p = m p)
    (hcells : KeepsCells ctx.capacities.codeBegin ctx.program.image.data
      (f ctx.program.image.data)) :
    (ctx.append cfg f rows).Sound cfg ∧ Extends cfg ctx (ctx.append cfg f rows) := by
  have hlo := hs.laid.lo_le
  have hlow : ∀ p < ctx.position cfg, (ctx.program.append cfg f rows).image.data p =
      f ctx.program.image.data p := fun p hp ↦ CopyProgram.data_append_of_notMem fun h ↦ by
    unfold Context.position at hp
    omega
  have hposition : ctx.capacities.codeBegin ≤ ctx.position cfg :=
    hlo.trans (Nat.le_add_right _ _)
  refine hs.step (hs.laid.append hs.target hslot fun m p hp _ ↦ hf m p hp) rfl rfl
    (.inl ⟨rfl, rfl, Nat.le_add_right _ _⟩) (fun p hp hp' ↦ (hlow p hp').trans (hf _ p hp))
    ⟨fun ht ↦ (hcells.tables ht).congr fun p hp ↦ hlow p ?_, fun s ha ↦
      (hcells.arithmetic s ha).congr fun p _ hp ↦ hlow p ?_, fun p hp hp' ↦
      (hlow p (hp.trans_le hposition)).trans (hcells.rest p hp hp')⟩ fun p hp ↦ ?_
  · have hbegin := ctx.codeBegin_ge
    dsimp only [InTables, andTable, temporary, shiftZero, eqTable, branchTable] at *
    omega
  · have hbegin := ctx.codeBegin_ge
    dsimp only [andTable, branchTable] at *
    omega
  · have hp : ctx.program.codeEnd ≤ p := hp
    have hL := hs.target.layerBits_eq
    have hend := hs.laid.codeEnd
    have hrows := Nat.mul_le_mul_right cfg.instructionSize hslot
    rw [CopyProgram.data_append_of_notMem (by omega), hf _ p (by omega)]

/-- The rows that have been appended are in the image. -/
theorem Linked.Final.rowsAt (hs : ctx.Sound cfg) (hv : ∀ row ∈ rows, row.Valid cfg)
    (hf : F.Final cfg (ctx.append cfg f rows)) :
    RowsAt cfg F.data (ctx.position cfg) rows := by
  have hlo := hs.laid.lo_le
  have hL := hs.target.layerBits_eq
  have hrows : RowsAt cfg (ctx.append cfg f rows).program.image.data (ctx.position cfg) rows :=
    CopyProgram.rowsAt_append hs.target hv
  refine hrows.congr fun b hb ↦ ?_
  refine hf.code _ (hlo.trans ((Nat.le_add_right _ _).trans (Nat.le_add_right _ _))) ?_
    fun j hj ht ↦ ?_
  · change _ < ctx.program.image.layer +
      (ctx.program.image.slot + rows.length) * cfg.instructionSize
    rw [Nat.add_mul]
    unfold Context.position
    omega
  · have := hs.jumps j hj ht
    unfold Context.position
    omega

theorem leads_append (hs : ctx.Sound cfg) (hv : ∀ row ∈ rows, row.Valid cfg)
    (hslot : ctx.program.image.slot + rows.length ≤ 255)
    (hperform : Performs cfg ctx.program.image.slot rows D D')
    (hf : F.Final cfg (ctx.append cfg f rows)) :
    Leads cfg F.data ctx.spot D (ctx.append cfg f rows).spot D' :=
  leads_of_performs hperform (hf.rowsAt hs hv) (by rw [hs.target.slots]; omega)

/-- Rows are appended. -/
theorem emits_append (hs : ctx.Sound cfg) (hv : ∀ row ∈ rows, row.Valid cfg)
    (hslot : ctx.program.image.slot + rows.length ≤ 255)
    (hf : ∀ m p, ctx.capacities.codeBegin ≤ p → f m p = m p)
    (hcells : KeepsCells ctx.capacities.codeBegin ctx.program.image.data
      (f ctx.program.image.data)) {E : Bits → Bits}
    (hperform : ∀ D, Performs cfg ctx.program.image.slot rows D (E D))
    (hkept : ∀ F : Linked, F.Final cfg (ctx.append cfg f rows) → ∀ D p, F.Kept p → E D p = D p) :
    Emits cfg ctx (fun D D' ↦ D' = E D) (ctx.append cfg f rows) := by
  obtain ⟨hs', hx⟩ := step_append hs hslot hf hcells
  refine ⟨hs', hx, fun F hF D hD ↦ ⟨E D, rfl, fun p hp ↦ ?_, ?_⟩⟩
  · rw [hkept F hF D p hp, hD p hp]
  · exact leads_append hs hv hslot (hperform D) hF

end CopySpace.Link
