import CopySpace.Link.Pieces

/-!
# Constants, labels and jumps

A conditional jump patches the link of the layer that is being executed.  With a label that the
linker makes for itself it skips a part of an operator, or repeats it.
-/

namespace CopySpace.Link

open Emit BitMachine

variable {cfg : Config} {ctx ctx' ctx₁ ctx₂ ctx₃ : Context}
  {F : Linked} {m m' D D' : Bits} {R R' : Bits → Bits → Prop} {k : Key} {n d s : Nat}

/-! ## What keeps the labels -/

section Labels

theorem labels_onProgram {r : Int × CopyProgram} (h : ctx.onProgram r = some ctx') :
    ctx'.labels = ctx.labels := by
  obtain ⟨program, -, rfl⟩ := Context.onProgram_eq_some h
  rfl

theorem labels_fitSlots {limit : Nat} (h : ctx.fitSlots limit = some ctx') :
    ctx'.labels = ctx.labels := by
  obtain ⟨rfl, -⟩ | hnext := Context.fitSlots_eq_some h
  · rfl
  · exact labels_onProgram hnext

theorem labels_bind {f g : Context → Option Context}
    (hf : ∀ {ctx ctx' : Context}, f ctx = some ctx' → ctx'.labels = ctx.labels)
    (hg : ∀ {ctx ctx' : Context}, g ctx = some ctx' → ctx'.labels = ctx.labels)
    (h : (f ctx).bind g = some ctx') : ctx'.labels = ctx.labels := by
  obtain ⟨ctx₁, h₁, h₂⟩ := Option.bind_eq_some_iff.mp h
  exact (hg h₂).trans (hf h₁)

theorem labels_foldlM {α : Type} {f : Context → α → Option Context}
    (hf : ∀ {ctx ctx' : Context} {a : α}, f ctx a = some ctx' → ctx'.labels = ctx.labels)
    {l : List α} (h : l.foldlM f ctx = some ctx') : ctx'.labels = ctx.labels := by
  induction l generalizing ctx with
  | nil =>
      cases h
      rfl
  | cons a l ih =>
      rw [List.foldlM_cons] at h
      obtain ⟨ctx₁, h₁, h₂⟩ := Option.bind_eq_some_iff.mp h
      exact (ih h₂).trans (hf h₁)

theorem labels_lookup {destination table a b c inputs : Nat}
    (h : ctx.lookup destination table a b c inputs = some ctx') : ctx'.labels = ctx.labels := by
  unfold Context.lookup at h
  obtain ⟨ctx₁, h₁, h⟩ := Option.bind_eq_some_iff.mp h
  obtain ⟨ctx₂, h₂, h⟩ := Option.bind_eq_some_iff.mp h
  obtain ⟨ctx₃, h₃, h⟩ := Option.bind_eq_some_iff.mp h
  obtain ⟨ctx₄, h₄, h⟩ := Option.bind_eq_some_iff.mp h
  have h₄' : ctx₄.labels = ctx₃.labels := by
    split at h₄
    · exact labels_onProgram h₄
    · cases h₄
      rfl
  rw [labels_onProgram h, h₄', labels_onProgram h₃, labels_onProgram h₂, labels_fitSlots h₁]

end Labels

/-! ## Constants -/

/-- The address of a constant of the program. -/
def IsConstant (ctx : Context) (a v : Nat) : Prop :=
  ∃ i, a = constantBase + 32 * i ∧ ctx.constants[i]? = some v

theorem IsConstant.mono {a v : Nat} (h : IsConstant ctx a v) (hx : Extends cfg ctx ctx') :
    IsConstant ctx' a v := by
  obtain ⟨i, ha, hi⟩ := h
  obtain ⟨rest, hrest⟩ := hx.constants
  exact ⟨i, ha, by rw [← hrest, List.getElem?_append_left (List.getElem?_eq_some_iff.mp hi).1, hi]⟩

theorem IsConstant.bounds {a v : Nat} (h : IsConstant ctx a v) (hs : ctx.Sound cfg) :
    constantBase ≤ a ∧ a + 32 ≤ regBase := by
  obtain ⟨i, rfl, hi⟩ := h
  have hlt : i < ctx.constants.length := (List.getElem?_eq_some_iff.mp hi).1
  have hle := hs.constants_le
  dsimp only [constantCapacity, constantBase, regBase] at *
  omega

theorem IsConstant.behind {a v : Nat} (h : IsConstant ctx a v) (hs : ctx.Sound cfg) {n : Nat}
    (hn : n ≤ 32) : Behind cfg a n := by
  obtain ⟨h₁, h₂⟩ := h.bounds hs
  refine hs.behind h₁ ?_
  dsimp only [regBase, branchTable] at *
  omega

/-- A constant has its value in every run. -/
theorem IsConstant.field {a v : Nat} (h : IsConstant ctx a v) (hs : ctx.Sound cfg)
    (hF : F.Final cfg ctx) (hD : F.Runs D) : D.field a 32 = v := by
  obtain ⟨h₁, h₂⟩ := h.bounds hs
  obtain ⟨i, rfl, hi⟩ := h
  rw [← hF.constants i v hi]
  refine Bits.field_congr fun b hb ↦ hD _ (.inl ⟨?_, ?_⟩) <;> omega

theorem IsConstant.word {a v : Nat} (h : IsConstant ctx a v) (hs : ctx.Sound cfg)
    (hF : F.Final cfg ctx) (hD : F.Runs D) : word D a = BitVec.ofNat 32 v := by
  have hfield := h.field hs hF hD
  rw [← hfield]
  rfl

theorem IsConstant.bit {a v : Nat} (h : IsConstant ctx a v) (hs : ctx.Sound cfg)
    (hF : F.Final cfg ctx) (hD : F.Runs D) {i : Nat} (hi : i < 32) : D (a + i) = v.testBit i :=
  Bits.bit_of_field (h.field hs hF hD) hi

theorem IsConstant.zero {a : Nat} (h : IsConstant ctx a 0) (hs : ctx.Sound cfg)
    (hF : F.Final cfg ctx) (hD : F.Runs D) : D a = false :=
  (h.bit hs hF hD (i := 0) (by decide)).trans (Nat.zero_testBit 0)

/-- A change of the data in front of the code. -/
def Context.onData (f : Bits → Bits) (ctx : Context) : Context :=
  { ctx with program := { ctx.program with image := ctx.program.image.onData f } }

/-- A number is written in front of the code. -/
theorem step_onData (hs : ctx.Sound cfg) {f : Bits → Bits} {constants : List Nat}
    (hcode : ∀ m p, ctx.capacities.codeBegin ≤ p → f m p = m p)
    (htables : ∀ m p, addTable ≤ p → p < memBitAddress → f m p = m p)
    (hcells : ∀ m p, IsCell p → f m p = m p)
    (hinitial : ctx.constants <+: constants) (hlength : constants.length ≤ constantCapacity)
    (hconstants : ∀ i v, constants[i]? = some v →
      (f ctx.program.image.data).field (constantBase + 32 * i) 32 = v)
    (hbit : ctx.dataBegin ≠ 0 →
      ctx.program.image.data.field memBitAddress cfg.addressSize = ctx.dataBegin →
      (f ctx.program.image.data).field memBitAddress cfg.addressSize = ctx.dataBegin)
    (hcalls : ∀ m p, ctx.capacities.callTable ≤ p → f m p = m p) :
    Context.Sound cfg { ctx.onData f with constants := constants } ∧
      Extends cfg ctx { ctx.onData f with constants := constants } := by
  have hlo := hs.laid.lo_le
  have hcell : ∀ i, (f ctx.program.image.data).field (ctx.capacities.callTable + 32 * i) 32 =
      ctx.program.image.data.field (ctx.capacities.callTable + 32 * i) 32 := fun i ↦
    Bits.field_congr fun b _ ↦ hcalls _ _ (by omega)
  refine ⟨⟨hs.target, hs.address_le, hs.laid.append hs.target
    (show _ + ([] : List Instruction).length ≤ 255 from hs.laid.slot_le) fun m p hp _ ↦ hcode m p hp,
    hs.tables.congr fun p hp ↦ htables _ p ?_ ?_, hlength, hconstants,
    hs.jumps_le, hs.jumps, hs.jumpTables, hs.jumpLayers, hs.jumpsApart,
    fun i hi hcount ↦ (hcell i).trans (hs.calls i hi hcount), hs.internals,
    hs.memoryBytes, hs.memory_ge, hs.memory⟩, ⟨rfl, rfl, rfl, rfl, rfl, le_rfl,
    .inl ⟨rfl, rfl, Nat.le_refl _⟩,
    fun p hp _ ↦ hcode _ p hp, fun p hp ↦ hcells _ p hp, fun p hp ↦ hcode _ p ?_, hinitial,
    List.prefix_refl _, fun j hj ↦ .inl hj,
    fun k hk ↦ ⟨hk, rfl, rfl⟩, fun k hk _ ↦ .inl hk,
    fun s ha ↦ ha.congr fun p hp hp' ↦ htables _ p hp ?_,
    fun hm ↦ ⟨rfl, rfl, hbit hm⟩, fun i _ _ ↦ hcell i⟩⟩
  · dsimp only [InTables, andTable, temporary, shiftZero, eqTable, addTable] at *
    omega
  · dsimp only [InTables, andTable, temporary, shiftZero, eqTable, memBitAddress] at *
    omega
  · have hend := hs.laid.codeEnd
    have hp : ctx.program.codeEnd ≤ p := hp
    omega
  · dsimp only [andTable, memBitAddress] at *
    omega

theorem emits_onData {f : Bits → Bits} {constants : List Nat}
    (h : Context.Sound cfg { ctx.onData f with constants := constants } ∧
      Extends cfg ctx { ctx.onData f with constants := constants }) :
    Emits cfg ctx (fun D D' ↦ D' = D) { ctx.onData f with constants := constants } :=
  ⟨h.1, h.2, fun _ _ D hD ↦ ⟨D, rfl, hD, .refl _ _⟩⟩

theorem Context.putConstant_eq_some {at_ width value : Nat}
    (h : ctx.putConstant at_ width value = some ctx') : at_ + width ≤ ctx.program.image.bytes * 8 ∧
    ctx' = ctx.onData (Bits.putField at_ width value) := by
  unfold Context.putConstant Context.onImage at h
  unfold csCopyConstant at h
  by_cases hv : width = 0 ∨ width > 32 ∨ ¬ fits at_ width (ctx.program.image.bytes * 8)
  · rw [if_pos hv] at h
    cases h
  · rw [if_neg hv] at h
    obtain ⟨-, hfits⟩ := not_or.mp (not_or.mp hv).2 |>.imp_right not_not.mp
    exact ⟨fits_iff.mp hfits, (Option.some.inj h).symm⟩

theorem emits_constant (hs : ctx.Sound cfg) {v a : Nat} (hv : v < 2 ^ 32)
    (h : ctx.constant v = some (a, ctx')) :
    Emits cfg ctx (fun D D' ↦ D' = D) ctx' ∧ IsConstant ctx' a v ∧ ctx'.spot = ctx.spot ∧
      ctx'.labels = ctx.labels := by
  unfold Context.constant at h
  split at h
  · next i hi =>
      obtain ⟨rfl, rfl⟩ := Prod.mk.inj (Option.some.inj h)
      obtain ⟨hlt, heq, -⟩ := List.findIdx?_eq_some_iff_getElem.mp hi
      exact ⟨.refl hs, ⟨i, rfl, by
        rw [List.getElem?_eq_getElem hlt]
        exact congrArg some (of_decide_eq_true heq)⟩, rfl, rfl⟩
  · split at h
    · cases h
    · next hlength =>
        obtain ⟨ctx₁, hput, h⟩ := Option.bind_eq_some_iff.mp h
        obtain ⟨rfl, rfl⟩ := Prod.mk.inj (Option.some.inj h)
        obtain ⟨-, rfl⟩ := Context.putConstant_eq_some hput
        have hlt : ctx.constants.length < constantCapacity :=
          Nat.lt_of_le_of_ne hs.constants_le hlength
        have hcode := ctx.codeBegin_ge
        have hend : constantBase + 32 * ctx.constants.length + 32 ≤ regBase := by
          dsimp only [constantCapacity, constantBase, regBase] at *
          omega
        have hcall : branchTable ≤ ctx.capacities.callTable := Nat.le_add_right _ _
        have hrest : ∀ (m : Bits) p, regBase ≤ p →
            m.putField (constantBase + 32 * ctx.constants.length) 32 v p = m p :=
          fun m p hp ↦ Bits.putField_of_notMem _ (by omega)
        refine ⟨emits_onData (step_onData hs (fun m p hp ↦ hrest m p ?_) (fun m p hp _ ↦
          hrest m p ?_) (fun m p hp ↦ hrest m p ?_) (List.prefix_append _ _) ?_
          (fun i w hi ↦ ?_) (fun _ hb ↦ ?_)
          fun m p hp ↦ hrest m p ?_), ⟨ctx.constants.length, rfl, List.getElem?_concat_length⟩,
          rfl, rfl⟩
        · exact (show regBase ≤ branchTable by decide).trans (hcode.trans hp)
        · exact (show regBase ≤ addTable by decide).trans hp
        · dsimp only [IsCell, regBase, shiftZero, eqTable, memBitAddress] at *
          omega
        · rw [List.length_append]
          exact hlt
        · rcases Nat.lt_or_ge i ctx.constants.length with hi' | hi'
          · rw [List.getElem?_append_left hi'] at hi
            rw [Bits.field_putField_of_disjoint _ (.inl (by omega)), hs.constants i w hi]
          · have hlen := (List.getElem?_eq_some_iff.mp hi).1
            rw [List.length_append, List.length_singleton] at hlen
            obtain rfl : i = ctx.constants.length := by omega
            rw [List.getElem?_concat_length] at hi
            obtain rfl := Option.some.inj hi
            rw [Bits.field_putField_self, Nat.mod_eq_of_lt hv]
        · rw [Bits.field_putField_of_disjoint _ (.inr ?_), hb]
          exact hend.trans (by decide)
        · exact (show regBase ≤ branchTable by decide).trans (hcall.trans hp)

/-! ## Labels of the linker -/

/-- A label that the linker has made for itself and not defined yet. -/
structure Pending (ctx : Context) (k : Key) : Prop where
  internal : ∃ i < ctx.labels.internals, k = .internal i
  undefined : (ctx.labels.label k).defined = false
  data : (ctx.labels.label k).data = 0

theorem Pending.congr (h : Pending ctx k) (hlabels : ctx'.labels = ctx.labels) : Pending ctx' k := by
  obtain ⟨h₁, h₂, h₃⟩ := h
  exact ⟨by rwa [hlabels], by rwa [hlabels], by rwa [hlabels]⟩

/-- A label of the text that has been defined. -/
structure Defined (ctx : Context) (k : Key) (a : Nat) : Prop where
  defined : (ctx.labels.label k).defined = true
  data : (ctx.labels.label k).data = 0
  address : (ctx.labels.label k).address = a

theorem Defined.mono {a : Nat} (h : Defined ctx k a) (hx : Extends cfg ctx ctx') :
    Defined ctx' k a := by
  obtain ⟨h₁, h₂, h₃⟩ := hx.labels k h.defined
  exact ⟨h₁, h₃.trans h.data, h₂.trans h.address⟩

theorem Defined.target {a : Nat} (h : Defined ctx k a) (hF : F.Final cfg ctx) :
    F.target (some k) = a := (hF.labels k h.defined h.data).trans h.address

theorem emits_internalLabel (hs : ctx.Sound cfg) (h : ctx.internalLabel = some (k, ctx')) :
    Emits cfg ctx (fun D D' ↦ D' = D) ctx' ∧ Pending ctx' k ∧ ctx'.spot = ctx.spot ∧
      ∀ k', Pending ctx k' → Pending ctx' k' ∧ k' ≠ k := by
  unfold Context.internalLabel internalLabel at h
  split at h
  · cases h
  · obtain ⟨rfl, rfl⟩ := Prod.mk.inj (Option.some.inj h)
    obtain ⟨hundefined, hdata⟩ := hs.internals _ le_rfl
    refine ⟨⟨⟨hs.target, hs.address_le, hs.laid, hs.tables, hs.constants_le, hs.constants,
      hs.jumps_le, hs.jumps, hs.jumpTables, hs.jumpLayers, hs.jumpsApart, hs.calls,
      fun i hi ↦ hs.internals i (Nat.le_of_succ_le hi),
      hs.memoryBytes, hs.memory_ge, hs.memory⟩, ⟨rfl, rfl, rfl, rfl, rfl, le_rfl,
      .inl ⟨rfl, rfl, le_rfl⟩, fun _ _ _ ↦ rfl, fun _ _ ↦ rfl, fun _ _ ↦ rfl,
      List.prefix_refl _, List.prefix_refl _, fun _ hj ↦ .inl hj,
      fun _ hk ↦ ⟨hk, rfl, rfl⟩, fun _ hk _ ↦ .inl hk, fun _ ha ↦ ha,
      fun _ ↦ ⟨rfl, rfl, id⟩, fun _ _ _ ↦ rfl⟩,
      fun _ _ D hD ↦ ⟨D, rfl, hD, .refl _ _⟩⟩,
      ⟨⟨_, Nat.lt_succ_self _, rfl⟩, hundefined, hdata⟩, rfl, fun k' hk' ↦ ?_⟩
    obtain ⟨⟨i, hi, rfl⟩, hundefined', hdata'⟩ := hk'
    refine ⟨⟨⟨i, Nat.lt_succ_of_lt hi, rfl⟩, hundefined', hdata'⟩, fun he ↦ ?_⟩
    obtain rfl := Key.internal.inj he
    exact absurd hi (Nat.lt_irrefl _)

theorem label_defineHere (ctx : Context) (k : Key) : (ctx.defineHere k).labels.label k =
    { ctx.labels.label k with defined := true, address := ctx.program.image.layer } :=
  Function.update_self _ _ _

theorem label_defineHere_of_ne {k' : Key} (hne : k' ≠ k) :
    (ctx.defineHere k).labels.label k' = ctx.labels.label k' := Function.update_of_ne hne _ _

/-- A label is defined where the linker is. -/
theorem emits_define (hs : ctx.Sound cfg)
    (hinternal : ∀ i, k = .internal i → i < ctx.labels.internals)
    (hundefined : (ctx.labels.label k).defined = false) (hdata : (ctx.labels.label k).data = 0) :
    Emits cfg ctx (fun D D' ↦ D' = D) (ctx.defineHere k) ∧
      Defined (ctx.defineHere k) k ctx.program.image.layer := by
  have hself := label_defineHere ctx k
  refine ⟨⟨⟨hs.target, hs.address_le, hs.laid, hs.tables, hs.constants_le, hs.constants,
    hs.jumps_le, hs.jumps, hs.jumpTables, hs.jumpLayers, hs.jumpsApart, hs.calls,
    fun j hj ↦ ?_, hs.memoryBytes, hs.memory_ge, hs.memory⟩,
    ⟨rfl, rfl, rfl, rfl, rfl, le_rfl, .inl ⟨rfl, rfl, le_rfl⟩, fun _ _ _ ↦ rfl, fun _ _ ↦ rfl,
      fun _ _ ↦ rfl, List.prefix_refl _, List.prefix_refl _,
      fun _ hj ↦ .inl hj, fun k' hk' ↦ ?_, fun k' hk' _ ↦ ?_, fun _ ha ↦ ha, fun _ ↦ ⟨rfl, rfl, id⟩,
      fun _ _ _ ↦ rfl⟩, fun _ _ D hD ↦ ⟨D, rfl, hD, .refl _ _⟩⟩, ⟨?_, ?_, ?_⟩⟩
  · have hj : ctx.labels.internals ≤ j := hj
    rw [label_defineHere_of_ne fun he ↦ absurd (hinternal j he.symm) (Nat.not_lt.mpr hj)]
    exact hs.internals j hj
  · have hne : k' ≠ k := by
      rintro rfl
      rw [hundefined] at hk'
      cases hk'
    rw [label_defineHere_of_ne hne]
    exact ⟨hk', rfl, rfl⟩
  · by_cases hk : k' = k
    · subst hk
      refine .inr ⟨?_, ?_⟩
      · rw [hself]
        exact hs.laid.layer
      · rw [hself]
        exact le_rfl
    · rw [label_defineHere_of_ne hk] at hk'
      exact .inl hk'
  · rw [hself]
  · rw [hself]
    exact hdata
  · rw [hself]

theorem emits_defineHere (hs : ctx.Sound cfg) (hk : Pending ctx k) :
    Emits cfg ctx (fun D D' ↦ D' = D) (ctx.defineHere k) ∧
      Defined (ctx.defineHere k) k ctx.program.image.layer ∧
      ∀ k', k' ≠ k → Pending ctx k' → Pending (ctx.defineHere k) k' := by
  obtain ⟨⟨i, hi, rfl⟩, hundefined, hdata⟩ := hk
  obtain ⟨hemits, hdefined⟩ := emits_define hs (fun j hj ↦ Key.internal.inj hj ▸ hi) hundefined hdata
  refine ⟨hemits, hdefined, fun k' hne hk' ↦ ⟨hk'.internal, ?_, ?_⟩⟩
  · rw [label_defineHere_of_ne hne]
    exact hk'.undefined
  · rw [label_defineHere_of_ne hne]
    exact hk'.data

theorem spot_defineHere (ctx : Context) (k : Key) : (ctx.defineHere k).spot = ctx.spot := rfl

theorem emits_bindInternal (hs : ctx.Sound cfg) (hk : Pending ctx k)
    (h : ctx.bindInternal k = some ctx') : Emits cfg ctx (fun D D' ↦ D' = D) ctx' ∧
      Defined ctx' k ctx'.program.image.layer ∧ ctx'.program.image.slot = 3 ∧
      ∀ k', k' ≠ k → Pending ctx k' → Pending ctx' k' := by
  obtain ⟨ctx₁, hnext, rfl⟩ := Option.map_eq_some_iff.mp h
  have hlabels := labels_onProgram hnext
  have hslot := spot_slot hs hnext
  have hnext' := emits_next hs hnext
  obtain ⟨hdefine, hdefined, hpending⟩ :=
    emits_defineHere hnext'.sound (hk.congr hlabels)
  refine ⟨(hnext'.trans hs hdefine).imp ?_, hdefined, hslot,
    fun k' hne hk' ↦ hpending k' hne (hk'.congr hlabels)⟩
  rintro F - D D' - - ⟨D₁, rfl, rfl⟩
  rfl

/-! ## Jumps -/

/-- The layer is left with a jump. -/
theorem step_jump (hs : ctx.Sound cfg) (hcapacity : ctx.jumps.length ≠ ctx.capacities.jump)
    (h : ctx.next = some ctx₁) {j : Jump} (hj : j.layer = ctx.program.image.layer)
    (htable : j.table = 0 ∨ j.table = branchTable + 64 * ctx.jumps.length ∧
      j.fallthrough = ctx₁.program.image.layer) :
    Context.Sound cfg { ctx₁ with jumps := ctx.jumps ++ [j] } ∧
      Extends cfg ctx { ctx₁ with jumps := ctx.jumps ++ [j] } := by
  obtain ⟨hs₁, hx⟩ := step_next hs h
  obtain ⟨program, hnext, rfl⟩ := Context.next_eq_some h
  obtain ⟨-, hlayer, -⟩ := hs.laid.next hs.target hnext
  have hend := hs.laid.codeEnd
  have hlayers : ∀ a, ctx.HasLayer cfg a →
      Context.HasLayer cfg { ctx with program := program, jumps := ctx.jumps ++ [j] } a :=
    fun a ha ↦ ⟨ha.1, ha.2.trans hx.layer⟩
  refine ⟨⟨hs₁.target, hs₁.address_le, hs₁.laid, hs₁.tables, hs₁.constants_le, hs₁.constants, ?_,
    fun i hi ht ↦ ?_, fun n i hi ↦ ?_, fun i hi ↦ ?_, List.pairwise_append.mpr ⟨hs.jumpsApart,
    List.pairwise_singleton _ _, fun i hi j' hj' ht ↦ ?_⟩, hs₁.calls, hs₁.internals,
    hs₁.memoryBytes, hs₁.memory_ge, hs₁.memory⟩,
    ⟨rfl, rfl, rfl, rfl, hx.bytes, hx.layer, hx.position, hx.code, hx.cells, hx.beyond,
    hx.constants, List.prefix_append _ _, fun i hi ↦ ?_, hx.labels, hx.layers,
    hx.arithmetic, fun hm ↦ ⟨(hx.memory hm).1, (hx.memory hm).2, (hx.memory hm).3⟩, hx.calls⟩⟩
  · dsimp only
    rw [List.length_append]
    exact Nat.lt_of_le_of_ne hs.jumps_le hcapacity
  · dsimp only at hi ⊢
    rcases List.mem_append.mp hi with hi | hi
    · have := hs.jumps i hi ht
      omega
    · obtain rfl := List.mem_singleton.mp hi
      omega
  · dsimp only at hi
    rcases Nat.lt_or_ge n ctx.jumps.length with hlt | hge
    · rw [List.getElem?_append_left hlt] at hi
      exact hs.jumpTables n i hi
    · have hlen := (List.getElem?_eq_some_iff.mp hi).1
      rw [List.length_append, List.length_singleton] at hlen
      obtain rfl : n = ctx.jumps.length := by omega
      rw [List.getElem?_concat_length] at hi
      obtain rfl := Option.some.inj hi
      exact htable.imp_right And.left
  · rcases List.mem_append.mp hi with hi | hi
    · exact ⟨hlayers _ (hs.jumpLayers i hi).1, fun ht ↦ hlayers _ ((hs.jumpLayers i hi).2 ht)⟩
    · obtain rfl := List.mem_singleton.mp hi
      refine ⟨hlayers _ ⟨hj ▸ hs.laid.layer, hj.le⟩, fun ht ↦ ?_⟩
      obtain ⟨-, hfall⟩ := htable.resolve_left ht
      exact ⟨hfall ▸ hs₁.laid.layer, hfall.le⟩
  · obtain rfl := List.mem_singleton.mp hj'
    rw [hj]
    exact hs.jumps i hi ht
  · rcases List.mem_append.mp hi with hi | hi
    · exact .inl hi
    · obtain rfl := List.mem_singleton.mp hi
      exact .inr hj.ge

theorem Context.jump_eq_some {target : Option Key} {line : Nat}
    (h : ctx.jump target line = some ctx') : ctx.jumps.length ≠ ctx.capacities.jump ∧
      ∃ ctx₁, ctx.next = some ctx₁ ∧ ctx' = { ctx₁ with
        jumps := ctx.jumps ++ [⟨ctx.program.image.layer, 0, 0, target, false, line⟩] } := by
  unfold Context.jump at h
  split at h
  · cases h
  · next hcapacity =>
      obtain ⟨ctx₁, hnext, rfl⟩ := Option.map_eq_some_iff.mp h
      exact ⟨hcapacity, ctx₁, hnext, rfl⟩

theorem emits_jump (hs : ctx.Sound cfg) {target : Option Key} {line : Nat}
    (h : ctx.jump target line = some ctx') : ctx'.Sound cfg ∧ Extends cfg ctx ctx' ∧
      ctx'.program.image.slot = 3 ∧ ∀ F : Linked, F.Final cfg ctx' → ∀ D, F.Runs D →
        Leads cfg F.data ctx.spot D ⟨F.target target, 3⟩ D := by
  obtain ⟨hcapacity, ctx₁, hnext, rfl⟩ := Context.jump_eq_some h
  obtain ⟨hs', hx⟩ := step_jump hs hcapacity hnext
    (j := ⟨ctx.program.image.layer, 0, 0, target, false, line⟩) rfl (.inl rfl)
  have hslot := spot_slot hs hnext
  refine ⟨hs', hx, hslot, fun F hF D hD ↦ ?_⟩
  obtain ⟨hlanding, hlink, -⟩ := hF.jumps _ (List.mem_append_right _ (List.mem_singleton_self _))
  refine leads_rest hs hD (fun p hp hp' ↦ hF.empty hs hnext rfl hx.capacities (fun j hj ht ↦ ?_)
    hp hp') (hlink rfl) hlanding
  rcases List.mem_append.mp hj with hj | hj
  · exact .inl (hs.jumps j hj ht)
  · obtain rfl := List.mem_singleton.mp hj
    exact .inr rfl

/-! ## Patched links -/

/-- The rest of a layer that has been left after some rows. -/
theorem Linked.Final.rowsFrom_last {rows : List Instruction} (hs : ctx.Sound cfg)
    (hv : ∀ row ∈ rows, row.Valid cfg) (hslot : ctx.program.image.slot + rows.length ≤ 255)
    (hnext : (ctx.append cfg id rows).next = some ctx₁)
    (hx : Extends cfg (ctx.append cfg id rows) ctx') (hF : F.Final cfg ctx')
    (hprogram : ctx'.program = ctx₁.program)
    (hjumps : ∀ j ∈ ctx'.jumps, j.table = 0 → j.layer + cfg.layerBits ≤ ctx.program.image.layer) :
    rowsFrom cfg F.data ctx.program.image.layer ctx.program.image.slot =
      rows ++ (List.replicate (255 - (ctx.program.image.slot + rows.length)) ⟨0, 0, 0⟩ ++
        [⟨cfg.layerBits, 0, ctx'.program.image.layer⟩]) := by
  obtain ⟨hs₂, -⟩ := step_append (f := id) hs hslot (fun _ _ _ ↦ rfl)
    (.of_eq ctx.codeBegin_ge fun _ _ ↦ rfl)
  have hF₂ := hF.mono hs₂ hx
  have hcapacities : ctx'.capacities = ctx.capacities := hx.capacities
  obtain ⟨program, hq, rfl⟩ := Context.next_eq_some hnext
  obtain ⟨hlaid, hlayer, hslot', -, -, -, hlink⟩ := hs₂.laid.next hs.target hq
  have hL := hs.target.layerBits_eq
  have hN := hs.target.slots
  have hend : (ctx.append cfg id rows).program.codeEnd =
    ctx.program.image.layer + cfg.layerBits := hs₂.laid.codeEnd
  have hlo := hs.laid.lo_le
  rw [rowsFrom_eq_append (hF₂.rowsAt hs hv) (by omega)]
  refine congrArg _ ((rowsFrom_empty (b := ctx'.program.image.layer) (by omega) (fun p hp hp' ↦ ?_)
    ?_).trans (by rw [hN]))
  · rw [hN] at hp'
    exact hF.empty hs₂ hnext hprogram hcapacities (fun j hj ht ↦ .inl (hjumps j hj ht)) hp hp'
  · rw [hN, hprogram]
    dsimp only
    rw [hlayer]
    refine (rowAt_congr fun p hp ↦ ?_).trans hlink
    rw [← show ctx'.program = program from hprogram]
    refine hF.code _ ?_ ?_ fun j hj ht ↦ ?_
    · rw [hcapacities]
      omega
    · unfold Context.position
      rw [show ctx'.program = program from hprogram]
      omega
    · have := hjumps j hj ht
      omega

/-- An address in a cell is that in the cell's 32 bits. -/
theorem field_address (hs : ctx.Sound cfg) {a v : Nat} (h : D.field a 32 = v)
    (hv : v < cfg.spaceSize) : D.field a cfg.addressSize = v := by
  have ha := hs.address_le
  rw [hs.target.space] at hv
  exact Bits.field_eq hv fun i hi ↦ Bits.bit_of_field h (by omega)

theorem Linked.Landing.lt {a : Nat} (h : F.Landing cfg a) (hs : ctx.Sound cfg) : a < cfg.spaceSize := by
  obtain ⟨-, -, hbehind, -⟩ := h
  have hI := hs.target.instructionSize_eq
  have hL := hs.target.layerBits_eq
  have h5 := hs.target.five_le
  have := hbehind.2
  omega

theorem Context.linkField_eq (hs : ctx.Sound cfg) : ctx.linkField = cfg.srcBit 255 0 :=
  srcBit_eq hs.laid.toFor.image 255 0

/-- The link of the layer has been patched. -/
theorem leads_patched (hs : ctx.Sound cfg) (hD : F.Runs D) {target next : Nat}
    {rows : List Instruction}
    (hrows : rowsFrom cfg F.data ctx.program.image.layer ctx.program.image.slot = rows)
    (h : Executes cfg ctx.program.image.slot rows D 255 [⟨cfg.layerBits, 0, next⟩] D)
    (htarget : target = next) (hlanding : F.Landing cfg target) :
    Leads cfg F.data ctx.spot D ⟨target, 3⟩ D := by
  subst htarget
  have hN := hs.target.slots
  have hI := hs.target.instructionSize_eq
  have hL := hs.target.layerBits_eq
  have h5 := hs.target.five_le
  refine leads_link (by omega) (by omega) ?_ hlanding.2.2 (hlanding.runs hD)
  rw [hN, hrows]
  exact h

theorem Context.emit_eq_some (hs : ctx.Sound cfg) (h : ctx.emit n d s = some ctx') :
    ∃ ctx₁, (ctx₁ = ctx ∨ ctx.next = some ctx₁) ∧ ctx₁.program.image.slot < 255 ∧
      Instruction.Valid cfg ⟨n, d, s⟩ ∧ ctx' = ctx₁.append cfg id [⟨n, d, s⟩] := by
  obtain ⟨program', hr, rfl⟩ := Context.onProgram_eq_some h
  obtain ⟨program, hq, hslot, hvalid, rfl⟩ := hs.laid.emit hs.target hr
  refine ⟨{ ctx with program := program }, ?_, hslot, hvalid, rfl⟩
  rcases hq with ⟨rfl, -⟩ | hq
  · exact .inl rfl
  · refine .inr ?_
    rw [Context.next, Context.onProgram, hq]
    rfl

/-- From a cell with the address of a layer to this layer. -/
theorem emits_dynamicJump (hs : ctx.Sound cfg) {cell : Nat} (hcell : Behind cfg cell 32)
    (h : ctx.dynamicJump cell = some ctx') : ctx'.Sound cfg ∧ Extends cfg ctx ctx' ∧
      ctx'.program.image.slot = 3 ∧ ∀ F : Linked, F.Final cfg ctx' → ∀ D, F.Runs D →
        F.Landing cfg (D.field cell 32) →
        Leads cfg F.data ctx.spot D ⟨D.field cell 32, 3⟩ D := by
  unfold Context.dynamicJump at h
  obtain ⟨ctx₂, hemit, hnext⟩ := Option.bind_eq_some_iff.mp h
  rw [Context.linkField_eq hs, hs.laid.toFor.image.addressBits] at hemit
  obtain ⟨ctx₁, hroom, hslot, hvalid, rfl⟩ := Context.emit_eq_some hs hemit
  have hv := List.forall_mem_singleton.mpr hvalid
  have hroom' : Emits cfg ctx (fun D D' ↦ D' = D) ctx₁ := by
    rcases hroom with rfl | hroom
    · exact .refl hs
    · exact emits_next hs hroom
  have hs₁ := hroom'.sound
  have hlen : ctx₁.program.image.slot + [(⟨cfg.addressSize, cfg.srcBit 255 0, cell⟩ :
      Instruction)].length ≤ 255 := hslot
  obtain ⟨hs₂, hx₂⟩ := step_append (f := id) hs₁ hlen (fun _ _ _ ↦ rfl)
    (.of_eq ctx₁.codeBegin_ge fun _ _ ↦ rfl)
  obtain ⟨hs', hx'⟩ := step_next hs₂ hnext
  have hx := hx₂.trans hs₁ hx'
  have hslot' := spot_slot hs₂ hnext
  have hjumps : ctx'.jumps = ctx₁.jumps := by
    obtain ⟨program, -, rfl⟩ := Context.next_eq_some hnext
    rfl
  refine ⟨hs', hroom'.extension.trans hs hx, hslot', fun F hF D hD hlanding ↦ ?_⟩
  obtain ⟨D₁, rfl, -, hl⟩ := hroom'.leads F (hF.mono hs₁ hx) D hD
  have h5 := hs.target.five_le
  have ha := hs.address_le
  have hrows := hF.rowsFrom_last hs₁ hv hlen hnext hx' rfl fun j hj ht ↦
    hs₁.jumps j (hjumps ▸ hj) ht
  have hcell' : Behind cfg cell cfg.addressSize := ⟨hcell.1, by have := hcell.2; omega⟩
  have hnext' : ctx'.program.image.layer < 2 ^ cfg.addressSize := by
    rw [← hs.target.space]
    exact (hF.landing hs').lt hs'
  have hexec := executes_link (D := D₁) (n := 255 - (ctx₁.program.image.slot + 1))
    hs₁.laid.three_le (by rw [hs.target.slots]; omega) (by omega) hnext' hcell'
  rw [hs.target.slots] at hexec
  exact hl.trans (leads_patched hs₁ hD hrows hexec
    (field_address hs rfl (hlanding.lt hs)).symm hlanding)

/-! ## Conditional jumps -/

/-- A conditional jump goes to its label when the flag is set, or, if it is inverted, when the flag
is clear. -/
structure Branches (cfg : Config) (ctx : Context) (k : Key) (flag : Nat)
    (inverted : Bool) (ctx' : Context) : Prop where
  sound : ctx'.Sound cfg
  extension : Extends cfg ctx ctx'
  labels : ctx'.labels = ctx.labels
  slot : ctx'.program.image.slot = 3
  stays : ∀ F : Linked, F.Final cfg ctx' → ∀ D, F.Runs D → D flag = inverted →
    Leads cfg F.data ctx.spot D ctx'.spot D
  jumps : ∀ F : Linked, F.Final cfg ctx' → ∀ D, F.Runs D → D flag ≠ inverted →
    Leads cfg F.data ctx.spot D ⟨F.target (some k), 3⟩ D

/-- The rows of a conditional jump. -/
def branchRows (cfg : Config) (table flag i : Nat) : List Instruction :=
  [⟨1, cfg.srcBit (i + 1) 5, flag⟩, ⟨cfg.addressSize, cfg.srcBit 255 0, table⟩]

/-- The rows of a conditional jump load the entry of its table into the link. -/
theorem executes_branchRows (hs : ctx.Sound cfg) {table flag i n next : Nat} (hi : 3 ≤ i)
    (hn : i + 2 + n = 255) (htable : table % 64 = 0) (hflag : Behind cfg flag 1)
    (hbehind : Behind cfg table 64) (hnext : next < cfg.spaceSize) :
    Executes cfg i (branchRows cfg table flag i ++ (List.replicate n ⟨0, 0, 0⟩ ++
        [⟨cfg.layerBits, 0, next⟩])) D 255
      [⟨cfg.layerBits, 0, D.field (table + 32 * (D flag).toNat) cfg.addressSize⟩] D := by
  have h5 := hs.target.five_le
  have ha := hs.address_le
  have hN := hs.target.slots
  have hsize : 6 ≤ cfg.addressSize := by
    have hspace := hs.spaceSize_ge
    have hcode := ctx.codeBegin_ge
    by_contra hlt
    have := Nat.pow_le_pow_right (n := 2) (by decide) (show cfg.addressSize ≤ 5 by omega)
    rw [hs.target.space] at hspace
    dsimp only [branchTable] at hcode
    omega
  have hlt := Bits.field_lt D flag 1
  have hsrc : Bits.splice 5 1 (D.field flag 1) table = table + 32 * (D flag).toNat := by
    rw [Bits.splice_of_zero hlt (by omega), Bits.field_one]
    rfl
  have hcell : Behind cfg (table + 32 * (D flag).toNat) cfg.addressSize := by
    have hflag : (D flag).toNat ≤ 1 := by cases D flag <;> decide
    unfold Behind at hbehind ⊢
    omega
  have hlength : 0 < ((⟨cfg.addressSize, cfg.srcBit 255 0, table⟩ : Instruction) ::
      (List.replicate n ⟨0, 0, 0⟩ ++ [⟨cfg.layerBits, 0, next⟩])).length := Nat.zero_lt_succ _
  have hpatch := executes_patch_src (D := D) hi one_ne_zero (show 5 + 1 ≤ cfg.addressSize by omega)
    hlength hflag
  rw [List.modify_zero_cons, Instruction.patchSrc, hsrc] at hpatch
  have hlink := executes_link (D := D) (i := i + 1) (n := n) (by omega) (by omega) (by omega)
    (show next < 2 ^ cfg.addressSize by rw [← hs.target.space]; exact hnext) hcell
  rw [hN] at hlink
  exact hpatch.trans hlink

/-- The layer that ends with the rows of a conditional jump goes on to the entry of its table. -/
theorem leads_branchRows (hs : ctx.Sound cfg) {table flag target : Nat}
    (hslot : ctx.program.image.slot ≤ 253)
    (hv : ∀ row ∈ branchRows cfg table flag ctx.program.image.slot, row.Valid cfg)
    (hnext : (ctx.append cfg id (branchRows cfg table flag ctx.program.image.slot)).next = some ctx₁)
    (hs' : ctx'.Sound cfg)
    (hx : Extends cfg (ctx.append cfg id (branchRows cfg table flag ctx.program.image.slot)) ctx')
    (hF : F.Final cfg ctx') (hprogram : ctx'.program = ctx₁.program)
    (hjumps : ∀ j ∈ ctx'.jumps, j.table = 0 → j.layer + cfg.layerBits ≤ ctx.program.image.layer)
    (hD : F.Runs D) (htable : table % 64 = 0) (hflag : Behind cfg flag 1)
    (hbegin : branchTable ≤ table) (hend : table + 64 ≤ ctx.capacities.codeBegin)
    (hlanding : F.Landing cfg target)
    (hentry : F.data.field (table + 32 * (D flag).toNat) 32 = target) :
    Leads cfg F.data ctx.spot D ⟨target, 3⟩ D := by
  have hrows := hF.rowsFrom_last hs hv (Nat.add_le_add_right hslot 2) hnext hx hprogram hjumps
  have hbit : (D flag).toNat ≤ 1 := by cases D flag <;> decide
  have hbehind : Behind cfg table 64 := by
    have h₁ := hs.layerBits_le
    have h₂ := hs.spaceSize_ge
    dsimp only [Behind, constantBase, branchTable] at *
    omega
  have hdata : D.field (table + 32 * (D flag).toNat) 32 = target := by
    refine (Bits.field_congr fun b hb ↦ hD _ (.inr (.inr (.inr (.inr (.inl ⟨?_, ?_⟩)))))).trans
      hentry
    · dsimp only [branchTable, zeroLayer] at *
      omega
    · have hcapacities : ctx'.capacities = ctx.capacities := hx.capacities
      have hlimit := hF.limit
      have hlo := hs'.laid.toFor.begin_le
      have hlayer := hs'.laid.lo_le
      have hcode := hs'.laid.codeEnd
      rw [hcapacities] at hlo hlayer
      omega
  have hexec := executes_branchRows (D := D) hs (i := ctx.program.image.slot)
    (n := 255 - (ctx.program.image.slot + 2)) hs.laid.three_le (by omega) htable hflag hbehind
    ((hF.landing hs').lt hs')
  exact leads_patched hs hD hrows hexec (field_address hs hdata (hlanding.lt hs)).symm hlanding

theorem orFail_eq_ok {α : Type} {message : String} {o : Option α} {a : α}
    (h : orFail message o = .ok a) : o = some a := by
  cases o with
  | none => cases h
  | some b => exact congrArg some (Except.ok.inj h)

theorem toOption_eq_some {α : Type} {e : Except String α} {a : α} (h : e.toOption = some a) :
    e = .ok a := by
  cases e with
  | error _ => cases h
  | ok b => exact congrArg Except.ok (Option.some.inj h)

theorem Context.emitRows_pair {row row' : Instruction}
    (h : ctx.emit row.n row.dst row.src = some ctx₁)
    (h' : ctx₁.emit row'.n row'.dst row'.src = some ctx₂) :
    ctx.emitRows [row, row'] = some ctx₂ := by
  rw [Context.emitRows, List.foldlM_cons, h, Option.bind_eq_bind, Option.bind_some,
    List.foldlM_cons, h']
  rfl

theorem Context.fitSlots_program {limit : Nat} (h : ctx.fitSlots limit = some ctx') :
    ∃ program, ctx' = { ctx with program := program } := by
  obtain ⟨rfl, -⟩ | hnext := Context.fitSlots_eq_some h
  · exact ⟨_, rfl⟩
  · obtain ⟨program, -, rfl⟩ := Context.next_eq_some hnext
    exact ⟨program, rfl⟩

theorem Context.conditionalJump_eq_ok (hs : ctx.Sound cfg) {flag line : Nat} {inverted : Bool}
    (h : ctx.conditionalJump k flag inverted line = .ok ctx') :
    ctx.jumps.length ≠ ctx.capacities.jump ∧ ∃ ctx₁ ctx₂,
      ctx.fitSlots 253 = some ctx₁ ∧
      (∀ row ∈ branchRows cfg (branchTable + 64 * ctx.jumps.length) flag ctx₁.program.image.slot,
        row.Valid cfg) ∧
      (ctx₁.append cfg id (branchRows cfg (branchTable + 64 * ctx.jumps.length) flag
        ctx₁.program.image.slot)).next = some ctx₂ ∧
      ctx' = { ctx₂ with jumps := ctx.jumps ++ [⟨ctx₁.program.image.layer,
        branchTable + 64 * ctx.jumps.length, ctx₂.program.image.layer, some k, inverted, line⟩] } := by
  unfold Context.conditionalJump at h
  split at h
  · cases h
  next hcapacity =>
  have h := orFail_eq_ok h
  obtain ⟨ctx₁, hfit, h⟩ := Option.bind_eq_some_iff.mp h
  obtain ⟨ctx₂, hfirst, h⟩ := Option.bind_eq_some_iff.mp h
  obtain ⟨ctx₃, hsecond, h⟩ := Option.bind_eq_some_iff.mp h
  obtain ⟨ctx₄, hjump, h⟩ := Option.bind_eq_some_iff.mp h
  obtain rfl := Option.some.inj h
  obtain ⟨hroom, hslot⟩ := emits_room_of_fitSlots hs (by decide) hfit
  have hs₁ := hroom.sound
  obtain ⟨program, rfl⟩ := Context.fitSlots_program hfit
  have hrows : ({ ctx with program := program } : Context).emitRows (branchRows cfg
      (branchTable + 64 * ctx.jumps.length) flag program.image.slot) = some ctx₃ := by
    refine Context.emitRows_pair (Eq.trans ?_ hfirst) (Eq.trans ?_ hsecond)
    · rw [Context.sourceField_eq hs₁]
      rfl
    · rw [Context.linkField_eq hs₁, hs₁.laid.toFor.image.addressBits]
  obtain ⟨hv, rfl⟩ := Context.emitRows_eq_some hs₁ (by
    change program.image.slot + 2 ≤ 255
    dsimp only at hslot
    omega) hrows
  obtain ⟨-, ctx₅, hnext, rfl⟩ := Context.jump_eq_some hjump
  refine ⟨hcapacity, _, ctx₅, hfit, hv, hnext, ?_⟩
  have hmodify := modify_length (fun j : Jump ↦ { j with
    table := branchTable + 64 * ctx.jumps.length, inverted := inverted,
    fallthrough := ctx₅.program.image.layer }) ctx.jumps
    ⟨program.image.layer, 0, 0, some k, false, line⟩
  exact congrArg (fun jumps ↦ ({ ctx₅ with jumps := jumps } : Context)) hmodify

theorem emits_conditionalJump (hs : ctx.Sound cfg) {flag line : Nat} {inverted : Bool}
    (h : ctx.conditionalJump k flag inverted line = .ok ctx') (hflag : Behind cfg flag 1) :
    Branches cfg ctx k flag inverted ctx' := by
  obtain ⟨hcapacity, ctx₁, ctx₂, hfit, hv, hnext, rfl⟩ := Context.conditionalJump_eq_ok hs h
  obtain ⟨hroom, hslot⟩ := emits_room_of_fitSlots hs (by decide) hfit
  obtain ⟨program, rfl⟩ := Context.fitSlots_program hfit
  have hs₁ := hroom.sound
  have hlen : program.image.slot + (branchRows cfg (branchTable + 64 * ctx.jumps.length) flag
      program.image.slot).length ≤ 255 := Nat.add_le_add_right hslot 2
  obtain ⟨hs₂, hx₂⟩ := step_append (f := id) hs₁ hlen (fun _ _ _ ↦ rfl)
    (.of_eq ctx.codeBegin_ge fun _ _ ↦ rfl)
  obtain ⟨hs', hx'⟩ := step_jump hs₂ hcapacity hnext (j := ⟨program.image.layer,
    branchTable + 64 * ctx.jumps.length, ctx₂.program.image.layer, some k, inverted, line⟩) rfl
    (.inr ⟨rfl, rfl⟩)
  have hlabels : ctx₂.labels = ctx.labels := labels_onProgram hnext
  have hslot' := spot_slot hs₂ hnext
  have hx := hx₂.trans hs₁ hx'
  have htable : branchTable + 64 * ctx.jumps.length + 64 ≤ ctx.capacities.callTable := by
    have hlt := Nat.lt_of_le_of_ne hs.jumps_le hcapacity
    unfold Capacities.callTable
    omega
  have hcode : ctx.capacities.callTable ≤ ctx.capacities.codeBegin := by
    unfold Capacities.codeBegin Capacities.symbolTable
    omega
  have htable64 : (branchTable + 64 * ctx.jumps.length) % 64 = 0 := by
    dsimp only [branchTable]
    omega
  have hjump : ∀ F : Linked, F.Final cfg { ctx₂ with jumps := ctx.jumps ++ [⟨program.image.layer,
      branchTable + 64 * ctx.jumps.length, ctx₂.program.image.layer, some k, inverted, line⟩] } →
      ∀ D, F.Runs D → ∀ target, F.Landing cfg target →
      F.data.field (branchTable + 64 * ctx.jumps.length + 32 * (D flag).toNat) 32 = target →
      Leads cfg F.data ctx.spot D ⟨target, 3⟩ D := by
    intro F hF D hD target hlanding hentry
    obtain ⟨D₁, rfl, -, hl⟩ := hroom.leads F (hF.mono hs₁ hx) D hD
    refine hl.trans (leads_branchRows hs₁ hslot hv hnext hs' hx' hF rfl (fun j hj ht ↦ ?_) hD
      htable64 hflag (Nat.le_add_right _ _) (htable.trans hcode) hlanding hentry)
    rcases List.mem_append.mp hj with hj | hj
    · exact hs₁.jumps j hj ht
    · obtain rfl := List.mem_singleton.mp hj
      dsimp only [branchTable] at ht
      omega
  have hresolved : ∀ F : Linked, F.Final cfg { ctx₂ with jumps := ctx.jumps ++
      [⟨program.image.layer, branchTable + 64 * ctx.jumps.length, ctx₂.program.image.layer, some k,
        inverted, line⟩] } → F.Landing cfg (F.target (some k)) ∧
      F.data.field (branchTable + 64 * ctx.jumps.length) 32 =
        (if inverted then F.target (some k) else ctx₂.program.image.layer) ∧
      F.data.field (branchTable + 64 * ctx.jumps.length + 32) 32 =
        if inverted then ctx₂.program.image.layer else F.target (some k) := fun F hF ↦ by
    obtain ⟨h₁, -, h₃⟩ := hF.jumps _ (List.mem_append_right _ (List.mem_singleton_self _))
    exact ⟨h₁, h₃ (by dsimp only [branchTable]; omega)⟩
  refine ⟨hs', hroom.extension.trans hs hx, hlabels, hslot', fun F hF D hD hflagD ↦ ?_,
    fun F hF D hD hflagD ↦ ?_⟩
  · obtain ⟨-, hfirst, hsecond⟩ := hresolved F hF
    have hspot : ({ ctx₂ with jumps := ctx.jumps ++ [⟨program.image.layer,
        branchTable + 64 * ctx.jumps.length, ctx₂.program.image.layer, some k, inverted, line⟩] } :
        Context).spot = ⟨ctx₂.program.image.layer, 3⟩ := congrArg (Spot.mk _) hslot'
    rw [hspot]
    refine hjump F hF D hD _ (hF.landing hs') ?_
    rw [hflagD]
    cases inverted
    · exact hfirst
    · exact hsecond
  · obtain ⟨hlanding, hfirst, hsecond⟩ := hresolved F hF
    refine hjump F hF D hD _ hlanding ?_
    rw [show D flag = !inverted by revert hflagD; cases D flag <;> cases inverted <;> decide]
    cases inverted
    · exact hsecond
    · exact hfirst

/-! ## Skips and loops -/

/-- A part of an operator that is left out unless the flag has this value. -/
theorem Branches.skip {flag : Nat} {inverted : Bool} (hs : ctx.Sound cfg)
    (h : Branches cfg ctx k flag inverted ctx₁) (hbody : Emits cfg ctx₁ R ctx₂)
    (hlabels : ctx₂.labels = ctx.labels) (hk : Pending ctx k)
    (hbind : ctx₂.bindInternal k = some ctx₃) :
    Emits cfg ctx (fun D D' ↦ if D flag = inverted then R D D' else D' = D) ctx₃ := by
  obtain ⟨hemit, hdefined, hslot, -⟩ :=
    emits_bindInternal hbody.sound (hk.congr hlabels) hbind
  have hx₂ := hbody.extension.trans h.sound hemit.extension
  refine ⟨hemit.sound, h.extension.trans hs hx₂, fun F hF D hD ↦ ?_⟩
  have hF₂ := hF.mono hbody.sound hemit.extension
  have hF₁ := hF.mono h.sound hx₂
  by_cases hflag : D flag = inverted
  · obtain ⟨D₁, hR, hD₁, hl⟩ := hbody.leads F hF₂ D hD
    obtain ⟨D₂, rfl, hD₂, hl'⟩ := hemit.leads F hF D₁ hD₁
    exact ⟨D₂, by rwa [if_pos hflag], hD₂, ((h.stays F hF₁ D hD hflag).trans hl).trans hl'⟩
  · refine ⟨D, by rw [if_neg hflag], hD, ?_⟩
    have hspot : ctx₃.spot = ⟨F.target (some k), 3⟩ := by
      rw [hdefined.target hF, ← hslot]
      rfl
    rw [hspot]
    exact h.jumps F hF₁ D hD hflag

/-- A part of an operator that is repeated until the flag has this value: an invariant of the
rounds that also says which round is the last. -/
theorem Branches.loop {flag count : Nat} {inverted : Bool} (hbody : Emits cfg ctx R ctx₁)
    (h : Branches cfg ctx₁ k flag inverted ctx₂)
    (hslot : ctx.program.image.slot = 3) (hk : Defined ctx k ctx.program.image.layer)
    (hF : F.Final cfg ctx₂) {P : Nat → Bits → Prop}
    (hround : ∀ i < count, ∀ D D', F.Runs D → F.Runs D' → P i D → R D D' →
      P (i + 1) D' ∧ (D' flag = inverted ↔ i + 1 = count)) {i : Nat} (hi : i < count)
    (hD : F.Runs D) (hP : P i D) :
    ∃ D', P count D' ∧ F.Runs D' ∧ Leads cfg F.data ctx.spot D ctx₂.spot D' := by
  have hF₁ := hF.mono hbody.sound h.extension
  have hspot : ctx.spot = ⟨F.target (some k), 3⟩ := by
    rw [((hk.mono hbody.extension).mono h.extension).target hF, ← hslot]
    rfl
  obtain ⟨n, hn⟩ := Nat.exists_eq_add_of_lt hi
  induction n generalizing i D with
  | zero =>
      obtain ⟨D₁, hR, hD₁, hl⟩ := hbody.leads F hF₁ D hD
      obtain ⟨hP₁, hlast⟩ := hround i hi D D₁ hD hD₁ hP hR
      have hcount : i + 1 = count := hn.symm
      exact ⟨D₁, hcount ▸ hP₁, hD₁, hl.trans (h.stays F hF D₁ hD₁ (hlast.mpr hcount))⟩
  | succ n ih =>
      obtain ⟨D₁, hR, hD₁, hl⟩ := hbody.leads F hF₁ D hD
      obtain ⟨hP₁, hlast⟩ := hround i hi D D₁ hD hD₁ hP hR
      have hback := h.jumps F hF D₁ hD₁ fun he ↦ by
        have := hlast.mp he
        omega
      rw [← hspot] at hback
      obtain ⟨D', hP', hD', hl'⟩ := ih (by omega) hD₁ hP₁ (by omega)
      exact ⟨D', hP', hD', (hl.trans hback).trans hl'⟩

end CopySpace.Link
