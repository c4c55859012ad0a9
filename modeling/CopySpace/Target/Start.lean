import CopySpace.Target.Finish

/-!
# The start of a leaf

Before the first statement the linker has begun one layer, and has written the tables, the stack
pointers and the arguments, each into a place of its own.  The image of a leaf therefore shows the
state of the target machine in which its program begins.
-/

namespace CopySpace.Target

open Link Emit BitMachine

variable {cfg : Config} {ctx : Context} {G : LeafImage} {m : Bits} {l : List (Nat × Nat × Nat)}
  {c : Nat × Nat × Nat} {p lo hi bytes addressBits : Nat} {capacities : Capacities}
  {assembly entry : Text} {arguments : List Word}

/-! ## Constants -/

/-- Two constants are in different places. -/
def Apart (c c' : Nat × Nat × Nat) : Prop := c.1 + c.2.1 ≤ c'.1 ∨ c'.1 + c'.2.1 ≤ c.1

instance : DecidableRel Apart := fun c c' ↦ by
  unfold Apart
  infer_instance

/-- Constants are written. -/
def putAll (l : List (Nat × Nat × Nat)) (m : Bits) : Bits :=
  l.foldl (fun m c ↦ m.putField c.1 c.2.1 c.2.2) m

theorem putAll_of_notMem (h : ∀ c ∈ l, ¬(c.1 ≤ p ∧ p < c.1 + c.2.1)) : putAll l m p = m p := by
  induction l generalizing m with
  | nil => rfl
  | cons c l ih =>
      obtain ⟨hc, hl⟩ := List.forall_mem_cons.mp h
      exact (ih hl).trans (Bits.putField_of_notMem m hc)

/-- Each constant is there in the end. -/
theorem field_putAll (h : l.Pairwise Apart) (hc : c ∈ l) :
    (putAll l m).field c.1 c.2.1 = c.2.2 % 2 ^ c.2.1 := by
  induction l generalizing m with
  | nil => cases hc
  | cons c' l ih =>
      obtain ⟨hfirst, hrest⟩ := List.pairwise_cons.mp h
      rcases List.mem_cons.mp hc with rfl | hc
      · rw [← Bits.field_putField_self c.1 c.2.1 c.2.2 m]
        refine Bits.field_congr fun i hi ↦ ?_
        have hbit : putAll l (m.putField c.1 c.2.1 c.2.2) (c.1 + i) =
            m.putField c.1 c.2.1 c.2.2 (c.1 + i) := putAll_of_notMem fun c' hc' hmem ↦ by
          have := hfirst c' hc'
          unfold Apart at this
          omega
        exact hbit
      · exact ih hrest hc

theorem foldlM_putConstant {ctx' : Context}
    (h : l.foldlM (fun ctx c ↦ ctx.putConstant c.1 c.2.1 c.2.2) ctx = some ctx') :
    ctx' = ctx.onData (putAll l) := by
  induction l generalizing ctx with
  | nil =>
      cases h
      rfl
  | cons c l ih =>
      rw [List.foldlM_cons] at h
      obtain ⟨ctx₁, h₁, h₂⟩ := Option.bind_eq_some_iff.mp h
      obtain ⟨-, rfl⟩ := Context.putConstant_eq_some h₁
      rw [ih h₂]
      rfl

/-! ## The constants of a leaf -/

/-- The place of an argument. -/
theorem mem_arguments {i : Nat} (hi : i < arguments.length) :
    (regBase + 32 * (i + 2), 32, arguments[i].toNat) ∈ leafConstants arguments :=
  List.mem_append_right _ (List.mem_mapIdx.mpr ⟨i, hi, rfl⟩)

theorem mem_leafConstants (hc : c ∈ leafConstants arguments) : c ∈ leafConstants [] ∨
    ∃ (i : Nat) (hi : i < arguments.length),
      c = (regBase + 32 * (i + 2), 32, arguments[i].toNat) := by
  rcases List.mem_append.mp hc with hc | hc
  · exact .inl hc
  · obtain ⟨i, hi, rfl⟩ := List.mem_mapIdx.mp hc
    exact .inr ⟨i, hi, rfl⟩

/-- Apart from the arguments there are the two stack pointers and the tables. -/
theorem bounds_fixed : ∀ c ∈ leafConstants [],
    regBase ≤ c.1 ∧ c.1 + c.2.1 ≤ regBase + 64 ∨
      andTable ≤ c.1 ∧ c.1 + c.2.1 ≤ temporary ∨ eqTable ≤ c.1 ∧ c.1 + c.2.1 ≤ eqTable + 16 := by
  decide

theorem bounds_leafConstants (hn : arguments.length ≤ 6) (hc : c ∈ leafConstants arguments) :
    regBase ≤ c.1 ∧ c.1 + c.2.1 ≤ regBase + 256 ∨
      andTable ≤ c.1 ∧ c.1 + c.2.1 ≤ temporary ∨ eqTable ≤ c.1 ∧ c.1 + c.2.1 ≤ eqTable + 16 := by
  obtain hc | ⟨i, hi, rfl⟩ := mem_leafConstants hc
  · have := bounds_fixed c hc
    omega
  · dsimp only
    omega

theorem apart_leafConstants (hn : arguments.length ≤ 6) :
    (leafConstants arguments).Pairwise Apart := by
  refine List.pairwise_append.mpr ⟨by decide, ?_, fun c hc c' hc' ↦ ?_⟩
  · refine List.pairwise_iff_getElem.mpr fun i j hi hj hij ↦ ?_
    rw [List.getElem_mapIdx, List.getElem_mapIdx]
    unfold Apart
    dsimp only
    omega
  · obtain ⟨i, hi, rfl⟩ := List.mem_mapIdx.mp hc'
    have := bounds_fixed c hc
    unfold Apart
    dsimp only [regBase, andTable, eqTable] at *
    omega

/-! ## The first context -/

/-- The image before the first statement. -/
def startData (arguments : List Word) : Bits := putAll (leafConstants arguments) fun _ ↦ false

theorem field_startData (hn : arguments.length ≤ 6) (hc : c ∈ leafConstants arguments) :
    (startData arguments).field c.1 c.2.1 = c.2.2 % 2 ^ c.2.1 :=
  field_putAll (apart_leafConstants hn) hc

theorem startData_eq_false (hn : arguments.length ≤ 6)
    (hp : ¬(regBase ≤ p ∧ p < regBase + 32 * (arguments.length + 2) ∨
      andTable ≤ p ∧ p < temporary ∨ eqTable ≤ p ∧ p < eqTable + 16)) :
    startData arguments p = false := by
  refine putAll_of_notMem fun c hc hmem ↦ ?_
  obtain hc | ⟨i, hi, rfl⟩ := mem_leafConstants hc
  · have := bounds_fixed c hc
    omega
  · dsimp only at hmem
    omega

theorem startData_eq_false_of_le (hn : arguments.length ≤ 6) (hp : branchTable ≤ p) :
    startData arguments p = false := by
  refine startData_eq_false hn fun h ↦ ?_
  dsimp only [regBase, andTable, temporary, eqTable, branchTable] at *
  omega

theorem bit_startData (hn : arguments.length ≤ 6) {a w v i : Nat}
    (hc : (a, w, v) ∈ leafConstants arguments) (hv : v < 2 ^ w) (hi : i < w) :
    startData arguments (a + i) = v.testBit i :=
  Bits.bit_of_field ((field_startData hn hc).trans (Nat.mod_eq_of_lt hv)) hi

theorem mem_fixed (hc : c ∈ leafConstants []) : c ∈ leafConstants arguments :=
  List.mem_append_left _ hc

theorem tables_startData (hn : arguments.length ≤ 6) : Tables (startData arguments) where
  eq i hi := bit_startData hn (mem_fixed (by decide : (eqTable, 8, 144) ∈ leafConstants []))
    (by decide) hi
  lt i hi := bit_startData hn (mem_fixed (by decide : (ltTable, 8, 212) ∈ leafConstants []))
    (by decide) hi
  bit operation i hi := by
    cases operation
    · exact bit_startData hn (mem_fixed (by decide : (andTable, 4, 8) ∈ leafConstants []))
        (by decide) hi
    · exact bit_startData hn (mem_fixed (by decide : (orTable, 4, 14) ∈ leafConstants []))
        (by decide) hi
    · exact bit_startData hn (mem_fixed (by decide : (xorTable, 4, 6) ∈ leafConstants []))
        (by decide) hi
  zero := startData_eq_false hn (by
    dsimp only [regBase, andTable, temporary, shiftZero, eqTable]
    omega)

/-- The first layer of a program. -/
theorem csCopyProgramInit_eq_some (hg : Target cfg) {data : Bits} {program : CopyProgram}
    (h : csCopyProgramInit data bytes cfg.addressSize lo hi = some program) :
    cfg.addressSize ≤ 31 ∧ program.image.layer = lo ∧ program.image.slot = 3 ∧
      program.image.data = data.putField lo cfg.layerBits 0 := by
  unfold csCopyProgramInit at h
  split at h
  · cases h
  next hv =>
  dsimp only at h
  split at h
  · cases h
  · obtain ⟨image, himage, rfl⟩ := Option.map_eq_some_iff.mp h
    obtain ⟨rfl, -⟩ := csCopyImageInit_eq_some hg himage
    exact ⟨by omega, rfl, rfl, rfl⟩

theorem leafStart_eq_some (hN : cfg.processorN = 256) (hS : cfg.spaceSize = 2 ^ addressBits)
    (h : leafStart capacities bytes addressBits assembly arguments = some ctx) :
    Target cfg ∧ cfg.addressSize ≤ 31 ∧ ∃ program, Laid cfg capacities.codeBegin program ∧
      program.image.layer = capacities.codeBegin ∧ program.image.slot = 3 ∧
      program.image.data = (fun _ ↦ false) ∧
      ctx = (emptyContext capacities program assembly).onData
        (putAll (leafConstants arguments)) := by
  obtain ⟨program, hinit, hputs⟩ := Option.bind_eq_some_iff.mp h
  obtain ⟨hg, rfl⟩ := target_of_init hN hS hinit
  obtain ⟨ha, hlayer, hslot, hdata⟩ := csCopyProgramInit_eq_some hg hinit
  refine ⟨hg, ha, program, laid_init hg hinit, hlayer, hslot, ?_, foldlM_putConstant hputs⟩
  funext p
  rw [hdata]
  unfold Bits.putField
  split
  · exact Nat.zero_testBit _
  · rfl

/-- The context before the first statement. -/
structure Started (cfg : Config) (capacities : Capacities) (assembly : Text)
    (arguments : List Word) (ctx : Context) : Prop extends InBody cfg assembly ctx where
  capacities_eq : ctx.capacities = capacities
  spot : ctx.spot = ⟨capacities.codeBegin, 3⟩
  data : ctx.program.image.data = startData arguments
  undefined : ∀ k, (ctx.labels.label k).defined = false
  memoryBytes : ctx.memoryBytes = leafMemory
  dataBegin : ctx.dataBegin = 0

theorem started_leafStart (hN : cfg.processorN = 256) (hS : cfg.spaceSize = 2 ^ addressBits)
    (hn : arguments.length ≤ 6)
    (h : leafStart capacities bytes addressBits assembly arguments = some ctx) :
    Started cfg capacities assembly arguments ctx := by
  obtain ⟨hg, ha, program, hlaid, hlayer, hslot, hdata, rfl⟩ := leafStart_eq_some hN hS h
  have hcode : ∀ m p, capacities.codeBegin ≤ p → putAll (leafConstants arguments) m p = m p := by
    intro m p hp
    have hbegin : branchTable ≤ capacities.codeBegin :=
      (emptyContext capacities program assembly).codeBegin_ge
    refine putAll_of_notMem fun c hc hmem ↦ ?_
    have hbounds := bounds_leafConstants hn hc
    dsimp only [regBase, andTable, temporary, eqTable, branchTable] at *
    omega
  have hstart : ((emptyContext capacities program assembly).onData
      (putAll (leafConstants arguments))).program.image.data = startData arguments :=
    congrArg (putAll (leafConstants arguments)) hdata
  have hsound : Context.Sound cfg ((emptyContext capacities program assembly).onData
      (putAll (leafConstants arguments))) := by
    refine ⟨hg, ha, hlaid.append hg
      (show _ + ([] : List Instruction).length ≤ 255 from hlaid.slot_le)
      fun m p hp _ ↦ hcode m p hp, hstart ▸ tables_startData hn, Nat.zero_le _, fun i v hv ↦ ?_,
      Nat.zero_le _, fun j hj ↦ ?_, fun i j hj ↦ ?_, fun j hj ↦ ?_, List.Pairwise.nil,
      fun i hi _ ↦ ?_, fun i _ ↦ ⟨rfl, rfl⟩, rfl, le_rfl, fun h0 ↦ absurd rfl h0⟩
    · cases hv
    · cases hj
    · cases hj
    · cases hj
    · rw [hstart]
      exact Bits.field_eq_zero_iff.mpr fun b hb ↦ startData_eq_false_of_le hn
        (show branchTable ≤ capacities.callTable + 32 * i + b by
          unfold Capacities.callTable
          omega)
  exact ⟨⟨⟨hsound, rfl, rfl, fun k hk ↦ by cases hk⟩, rfl, fun _ ↦ rfl, fun h0 ↦ absurd rfl h0⟩,
    rfl, congrArg₂ Spot.mk hlayer hslot, hstart, fun _ ↦ rfl, rfl, rfl⟩

/-! ## The first state -/

/-- The state of the target machine before the first statement. -/
def initialState (arguments : List Word) : State where
  register r := if r.val < 2 then BitVec.ofNat 32 leafMemory else arguments.getD (r.val - 2) 0#32
  comparison := .none
  memory _ := 0#8

theorem bit_initialState (hn : arguments.length ≤ 6) (r : Register) {i : Nat} (hi : i < 32) :
    startData arguments (registerAt r + i) = ((initialState arguments).register r).getLsbD i := by
  dsimp only [initialState]
  split
  · next hr =>
      have hmem : (registerAt r, 32, leafMemory) ∈ leafConstants [] := by
        revert r
        decide
      rw [bit_startData hn (mem_fixed hmem) (by decide) hi, BitVec.getLsbD_ofNat, decide_eq_true hi,
        Bool.true_and]
  · next hr =>
      by_cases hlt : r.val - 2 < arguments.length
      · have hmem := mem_arguments hlt
        rw [show r.val - 2 + 2 = r.val by omega] at hmem
        rw [List.getD_eq_getElem _ _ hlt]
        exact bit_startData hn hmem (BitVec.isLt _) hi
      · rw [List.getD_eq_default _ _ (by omega)]
        refine (startData_eq_false hn fun h ↦ ?_).trans (BitVec.getLsbD_zero).symm
        have hr' := r.isLt
        unfold registerAt at h
        dsimp only [regBase, andTable, temporary, eqTable] at *
        omega

/-- The image shows the first state. -/
theorem represents_start (hn : arguments.length ≤ 6) {base n : Nat} {D : Bits}
    (hcells : ∀ p, IsCell p → D p = startData arguments p)
    (hmemory : base ≠ 0 → ∀ p, base ≤ p → p < base + 8 * n → D p = false) :
    Represents base n (initialState arguments) D := by
  have hflag : ∀ p, cmpEq ≤ p → p ≤ cmpLes → D p = false := fun p hp hp' ↦ by
    rw [hcells p ?_]
    · refine startData_eq_false hn fun h ↦ ?_
      dsimp only [cmpEq, cmpLes, regBase, andTable, temporary, eqTable] at *
      omega
    · dsimp only [IsCell, cmpEq, cmpLes, regBase, addTable, shiftZero, eqTable] at *
      omega
  refine ⟨?_, hflag cmpEq (by decide) (by decide), hflag cmpLtu (by decide) (by decide),
    hflag cmpLts (by decide) (by decide), hflag cmpLeu (by decide) (by decide),
    hflag cmpLes (by decide) (by decide), fun h0 a ha ↦ ?_⟩
  · funext r
    have hr := r.isLt
    have hword : word D (registerAt r) = (initialState arguments).register r := by
      refine BitVec.eq_of_getLsbD_eq fun i hi ↦ ?_
      rw [getLsbD_word D _ hi, ← bit_initialState hn r hi]
      refine hcells _ (.inl ?_)
      unfold registerAt
      dsimp only [regBase, addTable]
      omega
    exact hword
  · have hbyte : byteAt D (base + 8 * a) = 0#8 := Bits.toBitVec_eq fun i hi ↦ by
      rw [hmemory h0 _ (by omega) (by omega), BitVec.getLsbD_zero]
    exact hbyte

/-! ## Linked leaves -/

/-- The image of a leaf: the program is located behind the layer at `lo`, which the machine loads
first, and the image shows the state in which it begins. -/
structure Carries (cfg : Config) (lo : Nat) (arguments : List Word)
    (program : List (Statement Key)) (G : LeafImage) : Prop where
  target : Target cfg
  address_le : cfg.addressSize ≤ 31
  holds : G.Holds cfg program
  located : G.Located cfg program ⟨lo, 3⟩
  landing : G.image.Landing cfg lo
  limit : G.image.codeLimit ≤ cfg.spaceSize
  initial : ∀ D, (∀ p < cfg.spaceSize, D p = G.image.data p) → G.Shows (initialState arguments) D
  stops : ∀ a, G.stop a → Stops cfg G.image a
  reports : ∃ e b, Reports cfg G.image e b
  boot : RowsAt cfg G.image.data 0 (layerRows cfg [] lo)
  zero : ∀ p < cfg.layerBits, G.image.data (zeroLayer + p) = false

theorem locate_of_mem {k : Key} {program : List (Statement Key)} (h : .label k ∈ program) :
    ∃ rest, locate k program = some rest := by
  induction program with
  | nil => cases h
  | cons s program ih =>
      cases s with
      | label k' =>
          rw [locate]
          split
          · exact ⟨_, rfl⟩
          · next hne =>
              rcases List.mem_cons.mp h with he | h
              · cases he
                exact absurd rfl hne
              · exact ih h
      | operation | branch | jump | ret | trap =>
          rcases List.mem_cons.mp h with he | h
          · cases he
          · exact ih h

/-- The linker has made the image from the contexts at the beginning and at the end of the body. -/
theorem carries_of_finished {ctx' : Context} {program : List (Statement Key)}
    (hn : arguments.length ≤ 6) (hs : Started cfg capacities assembly arguments ctx)
    (ht : Translates cfg ctx program ctx') (hG : Finished cfg ctx' G) :
    Carries cfg capacities.codeBegin arguments program G := by
  have hfinal := hG.of.final.mono hs.sound ht.extension
  have hlayer := congrArg Spot.layer hs.spot
  have hspace := hs.sound.spaceSize_ge
  have hbegin := ctx.codeBegin_ge
  refine ⟨hs.sound.target, hs.sound.address_le, ⟨⟨ctx.spot, ?_⟩, fun k hk ↦ ?_⟩, ?_, ?_,
    hfinal.limit_le, fun D hD ↦ ⟨fun p hp ↦ hD p ?_, represents_start hn (fun p hp ↦ ?_)
    fun h0 p hp hp' ↦ ?_⟩, hG.stops, hG.reports, ?_, hG.zero⟩
  · have hlocated := ht.located hs.memoryBytes G hG.of [] (.nil hG.passes)
    rw [List.append_nil] at hlocated
    exact hlocated
  · obtain ⟨houter, hdefined⟩ := hG.known k hk
    obtain hd | hmem := ht.outer k houter hdefined
    · rw [hs.undefined] at hd
      cases hd
    · exact locate_of_mem hmem
  · have hlocated := ht.located hs.memoryBytes G hG.of [] (.nil hG.passes)
    rwa [List.append_nil, hs.spot] at hlocated
  · have hlanding := hfinal.landing hs.sound
    rwa [show ctx.program.image.layer = capacities.codeBegin from hlayer] at hlanding
  · have hlimit := hfinal.limit_le
    dsimp only [Linked.Kept, constantBase, regBase, addTable, temporary, shiftZero, eqTable,
      zeroLayer, memBitAddress, branchTable] at *
    omega
  · rw [hD p ((isCell_bounds hp).2.trans_le (hbegin.trans hspace)), hG.cells p hp,
      ht.extension.cells p hp, hs.data]
  · rw [hG.base] at h0 hp hp'
    have hlimit := (hG.of.final.memory h0).1
    have hend := hG.of.final.limit
    have hlo := ht.sound.laid.lo_le
    have hend' := ht.sound.laid.codeEnd
    have hcode := ctx'.codeBegin_ge
    have hmemory := (ht.sound.memory h0).2.1
    have hbytes := ht.sound.laid.toFor.bytes_le
    rw [ht.memoryBytes hs.sound, hs.memoryBytes] at hmemory
    rw [hD p (by omega), hG.beyond p (by omega), ht.extension.beyond p (by omega), hs.data]
    exact startData_eq_false_of_le hn (by omega)
  · have hboot := hG.boot
    rwa [ht.extension.capacities, hs.capacities_eq] at hboot

/-- What the linker accepts is a program: it has begun, gone through the statements and ended. -/
theorem translates_csCopyLinkLeaf {E : Bits} (hN : cfg.processorN = 256)
    (hS : cfg.spaceSize = 2 ^ addressBits)
    (h : csCopyLinkLeaf capacities bytes addressBits assembly entry arguments = .ok E) :
    arguments.length ≤ 6 ∧ ∃ l ctx ctx' ctx₁ ctx₂ f, program assembly = some l ∧
      Started cfg capacities assembly arguments ctx ∧ Translates cfg ctx l ctx' ∧
        Ends cfg ctx' ctx₁ ctx₂ f E := by
  unfold csCopyLinkLeaf at h
  split at h
  · cases h
  next hguard =>
  have hn : arguments.length ≤ 6 := by
    push Not at hguard
    exact hguard.2.2.2.1
  split at h
  · cases h
  next ctx hstart =>
  have hs := started_leafStart hN hS hn hstart
  obtain ⟨st, hst, h⟩ := bind_eq_ok h
  obtain ⟨l, hl, ht⟩ := translates_statements (hs.toInBody) hst
  split at h
  · cases h
  obtain ⟨ctx', hfinish, rfl⟩ := map_eq_ok h
  have hlayered : Layered cfg st.ctx := by
    refine Layered.mono (fun k hk _ ↦ ?_) ht.extension
    rw [hs.undefined] at hk
    cases hk
  obtain ⟨ctx₁, ctx₂, f, hends⟩ :=
    ends_leafFinish ht.sound (hs.toInBody.mono ht).fault hlayered hfinish
  exact ⟨hn, l, ctx, st.ctx, ctx₁, ctx₂, f, hl, hs, ht, hends⟩

/-- What the linker accepts is a program, and the image carries it. -/
theorem carries_csCopyLinkLeaf {E : Bits} (hN : cfg.processorN = 256)
    (hS : cfg.spaceSize = 2 ^ addressBits)
    (h : csCopyLinkLeaf capacities bytes addressBits assembly entry arguments = .ok E) :
    ∃ l G, program assembly = some l ∧ G.image.data = E ∧
      Carries cfg capacities.codeBegin arguments l G := by
  obtain ⟨hn, l, ctx, ctx', ctx₁, ctx₂, f, hl, hs, ht, hends⟩ := translates_csCopyLinkLeaf hN hS h
  exact ⟨l, _, hl, rfl, carries_of_finished hn hs ht
    (finished_leafImage ht.sound (hs.toInBody.mono ht).fault hends)⟩

/-! ## Leaves that are accepted -/

/-- The body has been entered and left. -/
def LeafState.ended (st : LeafState) : Option Context :=
  if ¬ st.entered ∨ (¬ st.returned ∧ ¬ st.trapped) then none else some st.ctx

/-- What the linker does before its last call. -/
def unfinishedLeaf (capacities : Capacities) (bytes addressBits : Nat) (assembly entry : Text)
    (arguments : List Word) : Option Context := do
  let ctx ← leafStart capacities bytes addressBits assembly arguments
  let st ← ((statements assembly).foldlM (leafStatement entry)
    ⟨ctx, 0, 1, false, false, false, false⟩).toOption
  let ctx ← (LeafState.ended st).bind Context.reportLayer
  let ctx ← (ctx.jumps.foldlM (Context.resolveJump ctx.program.image.layer st.line) ctx).toOption
  unfinishedReport ctx

theorem eq_ok_of_toOption {ε α : Type} {e : Except ε α} {a : α} (h : e.toOption = some a) :
    e = .ok a := by
  cases e with
  | error => cases h
  | ok => rw [Option.some.inj h]

theorem bind_of_ok {ε α β : Type} {e : Except ε α} {a : α} {f : α → Except ε β} (h : e = .ok a) :
    (e >>= f) = f a := by
  rw [h]
  rfl

/-- The layer at zero stays empty, so the last call succeeds. -/
theorem ok_of_unfinished (hN : cfg.processorN = 256) (hS : cfg.spaceSize = 2 ^ addressBits)
    (hinput : ¬(bytes < 32768 ∨ bytes > Link.uint32Max / 8 ∨ entry = [] ∨ arguments.length > 6 ∨
      assembly.contains (Char.ofNat 0)))
    (h : unfinishedLeaf capacities bytes addressBits assembly entry arguments = some ctx) :
    ∃ E, csCopyLinkLeaf capacities bytes addressBits assembly entry arguments = .ok E := by
  obtain ⟨ctx₀, hstart, h⟩ := Option.bind_eq_some_iff.mp h
  obtain ⟨st, hst, h⟩ := Option.bind_eq_some_iff.mp h
  obtain ⟨ctx₁, hreport, h⟩ := Option.bind_eq_some_iff.mp h
  obtain ⟨ctx₂, hjumps, h⟩ := Option.bind_eq_some_iff.mp h
  obtain ⟨ctx, hended, hreport⟩ := Option.bind_eq_some_iff.mp hreport
  have hst := eq_ok_of_toOption hst
  have hjumps := eq_ok_of_toOption hjumps
  unfold LeafState.ended at hended
  split at hended
  · cases hended
  next hended' =>
  obtain rfl := Option.some.inj hended
  have hn : arguments.length ≤ 6 := by
    push Not at hinput
    exact hinput.2.2.2.1
  have hs := started_leafStart hN hS hn hstart
  obtain ⟨l, -, ht⟩ := translates_statements hs.toInBody hst
  have hlayered : Layered cfg st.ctx := by
    refine Layered.mono (fun k hk _ ↦ ?_) ht.extension
    rw [hs.undefined] at hk
    cases hk
  have hr := reportLayer_eq_some ht.sound (hs.toInBody.mono ht).fault hreport
  obtain ⟨f, rfl, hf, hresolved⟩ := resolved_eq_ok hr.sound (hlayered.mono hr.extension) hjumps
  have hs₂ := sound_resolved hf (fun j hj ↦ ⟨_, (hresolved j hj).2.2⟩) hr.sound
  have hzero : ∀ p < cfg.layerBits, (ctx₁.onData f).program.image.data (zeroLayer + p) = false := by
    intro p hp
    have hle := zeroLayer_le hr.sound
    have hcell : IsCell (zeroLayer + p) := by
      refine .inr (.inr (.inr ⟨?_, by omega⟩))
      exact (show memBitAddress + 32 ≤ zeroLayer by decide).trans (Nat.le_add_right _ _)
    refine (resolved_low hf hr.sound _ (.inl (by omega))).trans ?_
    rw [hr.extension.cells _ hcell, ht.extension.cells _ hcell, hs.data]
    refine startData_eq_false hn ?_
    dsimp only [regBase, andTable, temporary, eqTable, zeroLayer]
    omega
  obtain ⟨ctx₃, hfinish⟩ := report_of_unfinished hs₂ hzero h
  refine ⟨ctx₃.program.image.data, ?_⟩
  unfold csCopyLinkLeaf
  rw [if_neg hinput, hstart]
  dsimp only
  rw [hst]
  have hleaf : leafFinish st.line st.ctx = .ok ctx₃ := by
    have hfirst : (orFail Context.capacityExceeded st.ctx.reportLayer).mapError
        (fun message ↦ (st.line, message)) = .ok ctx₁ := by
      rw [hreport]
      rfl
    refine (bind_of_ok hfirst).trans ((bind_of_ok hjumps).trans ?_)
    rw [hfinish]
    rfl
  change (if _ then _ else _) = _
  rw [if_neg hended', hleaf]
  rfl

end CopySpace.Target
