import CopySpace.Target.Report

/-!
# The end of a leaf

After the body come the layer that stops a run, if there is one, and the report.  Every jump has
then been given its target, so the image that the linker returns is one of the context at the end
of the body.
-/

namespace CopySpace.Target

open Link Emit BitMachine

variable {cfg : Config} {ctx ctx' ctx₁ ctx₂ ctx₃ : Context} {D D' E m : Bits} {F : Linked}
  {k : Key} {a line : Nat}

/-! ## The layer that stops a run -/

/-- A layer that only loads the empty one. -/
def Stops (cfg : Config) (F : Linked) (a : Nat) : Prop :=
  rowsFrom cfg F.data a 3 = List.replicate 252 ⟨0, 0, 0⟩ ++ [⟨cfg.layerBits, 0, zeroLayer⟩]

/-- The program whose layer at `layer` leads elsewhere. -/
def relinked (cfg : Config) (layer target : Nat) (program : CopyProgram) : CopyProgram :=
  { program with image := program.image.onData (Bits.putRow cfg
    (layer + 255 * cfg.instructionSize) ⟨cfg.layerBits, 0, target⟩) }

/-- A new layer is begun, and the link of the one before leads elsewhere. -/
theorem step_relink (hs : ctx.Sound cfg) {program : CopyProgram} {target : Nat}
    (hnext : csCopyProgramNext ctx.program = (0, program))
    (hvalid : Instruction.Valid cfg ⟨cfg.layerBits, 0, target⟩) {program' : CopyProgram}
    (hprogram : program' = relinked cfg ctx.program.image.layer target program) :
    Context.Sound cfg { ctx with program := program' } ∧
      Extends cfg ctx { ctx with program := program' } := by
  obtain ⟨hlaid, hlayer, hslot, hlimit, hbytes, hdata, -⟩ := hs.laid.next hs.target hnext
  have hL := hs.target.layerBits_eq
  have hlo := hs.laid.lo_le
  have hend := hs.laid.codeEnd
  have hend' := hlaid.codeEnd
  have hfor := hlaid.toFor
  have hslots := Nat.mul_le_mul_right cfg.instructionSize hs.laid.slot_le
  have hold : ∀ p, ¬(ctx.program.image.layer + 255 * cfg.instructionSize ≤ p ∧
      p < ctx.program.codeEnd) → program'.image.data p = program.image.data p := fun p hp ↦ by
    rw [hprogram]
    exact Bits.putRow_of_notMem (by omega)
  have hlast : program'.image.layer = program.image.layer := by rw [hprogram]; rfl
  have hcodeEnd : program'.codeEnd = program.codeEnd := by rw [hprogram]; rfl
  -- only the link of the layer before is another one
  have hlaid' : Laid cfg ctx.capacities.codeBegin program' := by
    obtain ⟨i, hi⟩ := hs.laid.layer
    refine ⟨?_, ?_, ?_, ?_, ?_, ?_, fun k hk p hp ↦ ?_, fun p hp hp' ↦ ?_, fun k hk ↦ ?_⟩
    · rw [hprogram]
      exact ⟨hfor.image.onData _, hfor.codeBegin, rfl, hfor.layer_le, hfor.begin_le, hfor.limit_le,
        hfor.bytes_le⟩
    · rw [hprogram]
      exact hlaid.layer
    · rw [hprogram]
      exact hlaid.codeEnd
    · rw [hprogram]
      exact hlaid.codeEnd_le
    · rw [hprogram]
      exact hlaid.three_le
    · rw [hprogram]
      exact hlaid.slot_le
    · have hk : ctx.capacities.codeBegin + k * cfg.layerBits ≤ program.image.layer := by
        rw [hprogram] at hk
        exact hk
      refine (hold _ ?_).trans (hlaid.channels k hk p hp)
      rcases Nat.lt_trichotomy k i with hki | rfl | hki
      · have := Nat.mul_le_mul_right cfg.layerBits hki
        rw [Nat.succ_mul] at this
        omega
      · omega
      · have := Nat.mul_le_mul_right cfg.layerBits hki
        rw [Nat.succ_mul] at this
        omega
    · rw [hprogram] at hp
      rw [hlast]
      exact (hold _ (by omega)).trans (hlaid.empty p hp hp')
    · have hk : ctx.capacities.codeBegin + k * cfg.layerBits + cfg.layerBits ≤
          program.image.layer := by
        rw [hprogram] at hk
        exact hk
      rcases Nat.lt_or_ge k i with hki | hki
      · have := Nat.mul_le_mul_right cfg.layerBits hki
        rw [Nat.succ_mul] at this
        obtain ⟨next, hnext⟩ := hlaid.links k hk
        exact ⟨next, (rowAt_congr fun p hp ↦ hold _ (by omega)).trans hnext⟩
      · have := Nat.mul_le_mul_right cfg.layerBits hki
        rw [show ctx.capacities.codeBegin + k * cfg.layerBits = ctx.program.image.layer by omega,
          hprogram]
        exact ⟨target, rowAt_putRow (hs.target.fits hvalid)⟩
  have hall : ∀ p, p < ctx.program.image.layer + 255 * cfg.instructionSize ∨
      ctx.program.codeEnd + cfg.layerBits ≤ p → program'.image.data p = ctx.program.image.data p :=
    fun p hp ↦ (hold p (by omega)).trans (hdata p hp)
  refine hs.step hlaid' ?_ ?_ (.inr ?_) (fun p hp hp' ↦ hall p (.inl ?_))
    (.of_eq ctx.codeBegin_ge fun p hp ↦ hall p (.inl (by omega))) fun p hp ↦ hall p (.inr ?_)
  · rw [hprogram]
    exact hlimit
  · rw [hprogram]
    exact hbytes
  · constructor
    · exact (hlast.trans hlayer).ge
    · exact (hlayer.ge.trans (hend'.ge.trans' (Nat.le_add_right _ _))).trans hcodeEnd.ge
  · unfold Context.position at hp'
    omega
  · have hp : program'.codeEnd ≤ p := hp
    omega

/-- What the linker puts behind the body to stop a run. -/
structure StopLayer (cfg : Config) (ctx : Context) (fault : Key) (ctx' : Context) : Prop where
  sound : ctx'.Sound cfg
  extension : Extends cfg ctx ctx'
  leads : ∀ F : Linked, F.Final cfg ctx' → ∀ D, F.Runs D →
    Leads cfg F.data ctx.spot D ⟨F.target none, 3⟩ D
  stops : ∀ F : Linked, F.Final cfg ctx' → Stops cfg F (F.target (some fault))
  labels : ∀ k, k ≠ fault → ctx'.labels.label k = ctx.labels.label k
  base : ctx'.dataBegin = ctx.dataBegin

theorem stopLayer_eq_some {fault : Key} (hs : ctx.Sound cfg) (hk : Pending ctx fault)
    (h : ctx.stopLayer fault = some ctx') : StopLayer cfg ctx fault ctx' := by
  simp only [Context.stopLayer, Option.bind_eq_bind, Option.bind_eq_some_iff] at h
  obtain ⟨ctx₁, h₁, ctx₂, h₂, ctx₃, h₃, h₄⟩ := h
  obtain ⟨hs₁, hx₁, -, hleads⟩ := emits_jump hs h₁
  have q₁ := quiet_jump h₁
  have hk₁ := q₁.pending fault hk
  obtain ⟨e₂, hdefined, hslot, -⟩ := emits_bindInternal hs₁ hk₁ h₂
  have hs₂ := e₂.sound
  obtain ⟨program, hnext, rfl⟩ := Context.next_eq_some h₃
  obtain ⟨hlaid, hlayer, -, -, -, hdata, -⟩ := hs₂.laid.next hs.target hnext
  split at h₄
  case isFalse => cases h₄
  next h0 =>
  dsimp only at h0 h₄
  obtain ⟨hvalid, hrow⟩ := csCopyRow_link hlaid.toFor.image h0
  rw [hrow] at h₄
  obtain rfl := Option.some.inj h₄
  obtain ⟨hs₄, hx₄⟩ := step_relink hs₂ hnext hvalid rfl
  refine ⟨hs₄, (hx₁.trans hs e₂.extension).trans hs hx₄, fun F hF D hD ↦ ?_, fun F hF ↦ ?_,
    fun k hne ↦ ?_, ?_⟩
  · exact hleads F ((hF.mono hs₂ hx₄).mono hs₁ e₂.extension) D hD
  · have hL := hs.target.layerBits_eq
    have hN := hs.target.slots
    have hend := hs₂.laid.codeEnd
    have hlo := hs₂.laid.lo_le
    have hcode : ∀ p < cfg.layerBits, F.data (ctx₂.program.image.layer + p) =
        program.image.data.putRow cfg (ctx₂.program.image.layer + 255 * cfg.instructionSize)
          ⟨cfg.layerBits, 0, zeroLayer⟩ (ctx₂.program.image.layer + p) := fun p hp ↦ by
      refine hF.code _ (by dsimp only; omega) ?_ fun j hj ht ↦ ?_
      · unfold Context.position
        dsimp only [CopyImage.onData]
        omega
      · have := hs₂.jumps j hj ht
        omega
    have htarget : F.target (some fault) = ctx₂.program.image.layer :=
      (hdefined.mono hx₄).target hF
    unfold Stops
    rw [htarget]
    refine (rowsFrom_empty (by omega) (fun p hp hp' ↦ ?_) ?_).trans (by rw [hN])
    · rw [hN] at hp'
      rw [hcode p (by omega), Bits.putRow_of_notMem (by omega), hdata _ (.inl (by omega))]
      exact hs₂.laid.empty p (by rw [hslot]; exact hp) (by omega)
    · rw [hN, ← rowAt_putRow (a := ctx₂.program.image.layer + 255 * cfg.instructionSize)
        (m := program.image.data) (hs.target.fits hvalid)]
      refine rowAt_congr fun p hp ↦ ?_
      rw [Nat.add_assoc]
      exact hcode _ (by omega)
  · obtain ⟨ctx₅, h₅, rfl⟩ := Option.map_eq_some_iff.mp h₂
    obtain ⟨-, ctx₆, h₆, rfl⟩ := Context.jump_eq_some h₁
    rw [← labels_onProgram h₆]
    obtain ⟨program₅, -, rfl⟩ := Context.next_eq_some h₅
    exact label_defineHere_of_ne hne
  · obtain ⟨ctx₅, h₅, rfl⟩ := Option.map_eq_some_iff.mp h₂
    exact ((quiet_next h₅).base).trans q₁.base

/-! ## The layers before the report -/

/-- What the linker puts behind the body. -/
structure ReportLayer (cfg : Config) (ctx ctx' : Context) : Prop where
  sound : ctx'.Sound cfg
  extension : Extends cfg ctx ctx'
  slot : ctx'.program.image.slot = 3
  leads : ∀ F : Linked, F.Final cfg ctx' → F.target none = ctx'.program.image.layer →
    ∀ D, F.Runs D → Leads cfg F.data ctx.spot D ⟨F.target none, 3⟩ D
  stops : ∀ k, ctx.memoryFault = some k → ∀ F : Linked, F.Final cfg ctx' →
    Stops cfg F (F.target (some k))
  labels : ∀ k, ctx.memoryFault ≠ some k → ctx'.labels.label k = ctx.labels.label k
  base : ctx'.dataBegin = ctx.dataBegin

theorem reportLayer_eq_some (hs : ctx.Sound cfg)
    (hfault : ∀ k, ctx.memoryFault = some k → Pending ctx k) (h : ctx.reportLayer = some ctx') :
    ReportLayer cfg ctx ctx' := by
  unfold Context.reportLayer at h
  obtain ⟨ctx₁, h₁, hnext⟩ := Option.bind_eq_some_iff.mp h
  split at h₁
  · next fault hk =>
      have hstop := stopLayer_eq_some hs (hfault fault hk) h₁
      have e := emits_next hstop.sound hnext
      refine ⟨e.sound, hstop.extension.trans hs e.extension, spot_slot hstop.sound hnext,
        fun F hF _ D hD ↦ ?_, fun k hk' F hF ↦ ?_, fun k hne ↦ ?_,
        (quiet_next hnext).base.trans hstop.base⟩
      · exact hstop.leads F (hF.mono hstop.sound e.extension) D hD
      · obtain rfl := Option.some.inj (hk.symm.trans hk')
        exact hstop.stops F (hF.mono hstop.sound e.extension)
      · rw [labels_onProgram hnext]
        exact hstop.labels k fun he ↦ hne (he ▸ hk)
  · next hk =>
      obtain rfl := Option.some.inj h₁
      have e := emits_next hs hnext
      refine ⟨e.sound, e.extension, spot_slot hs hnext, fun F hF htarget D hD ↦ ?_,
        fun k hk' ↦ ?_, fun k _ ↦ ?_, (quiet_next hnext).base⟩
      · obtain ⟨D', rfl, -, hl⟩ := e.leads F hF D hD
        rw [htarget, ← spot_slot hs hnext]
        exact hl
      · rw [hk] at hk'
        cases hk'
      · rw [labels_onProgram hnext]

/-- Labels stand for layers that have been begun. -/
def Layered (cfg : Config) (ctx : Context) : Prop :=
  ∀ k, (ctx.labels.label k).defined = true → (ctx.labels.label k).data = 0 →
    ctx.HasLayer cfg (ctx.labels.label k).address

theorem Layered.mono (h : Layered cfg ctx) (hx : Extends cfg ctx ctx') : Layered cfg ctx' := by
  intro k hk hdata
  obtain hk' | hlayer := hx.layers k hk hdata
  · obtain ⟨-, haddress, hdata'⟩ := hx.labels k hk'
    rw [haddress]
    exact (h k hk' (hdata'.symm.trans hdata)).mono hx
  · exact hlayer

/-! ## The image -/

/-- An image that has been finished contains the context before the last layer. -/
theorem final_of_ended (hs : ctx.Sound cfg) (he : Ended cfg ctx F.data)
    (hlimit : F.codeLimit = ctx.program.codeLimit)
    (hbits : F.memoryAddressBits = ctx.memoryAddressBits)
    (hlabels : ∀ k, (ctx.labels.label k).defined = true → (ctx.labels.label k).data = 0 →
      F.target (some k) = (ctx.labels.label k).address)
    (hjumps : ∀ j ∈ ctx.jumps, ctx.HasLayer cfg (F.target j.label) ∧
      Patched cfg j (F.target j.label) ctx.program.image.data) : F.Final cfg ctx := by
  have hfor := hs.laid.toFor
  have hbegin := ctx.codeBegin_ge
  have hbehind := hs.layerBits_le
  have hlo := hs.laid.lo_le
  have hL := hs.target.layerBits_eq
  have hend := hs.laid.codeEnd
  have hlimit' := he.limit
  have hle := hfor.limit_le
  have hle' := hfor.bytes_le
  have hposition : ctx.program.image.layer ≤ ctx.position cfg := Nat.le_add_right _ _
  have hbase : constantBase ≤ branchTable := by decide
  have hlow : ∀ p, constantBase ≤ p → p < ctx.program.image.layer →
      F.data p = ctx.program.image.data p := fun p hp hp' ↦ he.before p (by omega) (by omega)
  refine ⟨by omega, by omega, hbits, fun p hp hp' _ ↦ he.before p (hfor.layer_le.trans hp) hp',
    fun k hk ↦ he.links k (by omega), hs.tables.congr fun p hp ↦ hlow p ?_ ?_,
    fun subtract ha ↦ ha.congr fun p hp hp' ↦ hlow p ?_ ?_, fun i v hv ↦ ?_, fun j hj ↦ ?_, hlabels,
    fun hm ↦ ⟨hlimit.trans (hs.memory hm).1, fun hb ↦ Eq.trans ?_ hb⟩, fun i hi _ ↦ ?_⟩
  · dsimp only [InTables, constantBase, andTable, temporary, shiftZero, eqTable] at *
    omega
  · dsimp only [InTables, branchTable, andTable, temporary, shiftZero, eqTable] at *
    omega
  · dsimp only [constantBase, addTable] at *
    omega
  · dsimp only [branchTable, andTable] at *
    omega
  · rw [← hs.constants i v hv]
    have hi := (List.getElem?_eq_some_iff.mp hv).1
    have hcount := hs.constants_le
    refine Bits.field_congr fun b hb ↦ hlow _ ?_ ?_ <;>
      dsimp only [constantBase, constantCapacity, regBase, branchTable] at * <;> omega
  · obtain ⟨⟨⟨k, hk⟩, hle⟩, hpatched⟩ := hjumps j hj
    refine ⟨⟨by omega, by omega, ⟨by omega, by omega⟩, fun p hp ↦ ?_, ?_⟩, fun ht ↦ ?_, fun ht ↦ ?_⟩
    · have h3 := Nat.mul_le_mul_right cfg.instructionSize hs.laid.three_le
      rw [he.before _ (by omega) (by unfold Context.position; omega), hk]
      exact hs.laid.channels k (by omega) p hp
    · obtain ⟨next, hnext⟩ := he.links k (by omega)
      refine ⟨next, ?_⟩
      rw [hk, hs.target.slots]
      exact hnext
    · rw [← hpatched.link ht]
      obtain ⟨i, hi⟩ := (hs.jumpLayers j hj).1.1
      have := hs.jumps j hj ht
      exact rowAt_congr fun p hp ↦ hlow _ (by omega) (by omega)
    · obtain ⟨i, hi⟩ := List.mem_iff_getElem?.mp hj
      have htable := (hs.jumpTables i j hi).resolve_left ht
      have hlt := (List.getElem?_eq_some_iff.mp hi).1
      have hcount := hs.jumps_le
      obtain ⟨hcall, hcode⟩ := callTable_le ctx
      rw [← (hpatched.table ht).1, ← (hpatched.table ht).2]
      refine ⟨Bits.field_congr fun b hb ↦ hlow _ ?_ ?_,
        Bits.field_congr fun b hb ↦ hlow _ ?_ ?_⟩ <;>
        dsimp only [constantBase, branchTable] at * <;> omega
  · have ha := hs.address_le
    refine Bits.field_congr fun b hb ↦ hlow _ ?_ ?_ <;>
      dsimp only [constantBase, memBitAddress, branchTable] at * <;> omega
  · obtain ⟨hcall, hcode⟩ := callTable_le ctx
    refine Bits.field_congr fun b hb ↦ hlow _ ?_ ?_ <;>
      dsimp only [constantBase, branchTable] at * <;> omega

/-! ## The end of a leaf -/

/-- Where jumps go, for the context at the beginning of the report. -/
def linkTarget (ctx : Context) (k : Option Key) : Nat :=
  k.elim ctx.program.image.layer fun k ↦ (ctx.labels.label k).address

theorem jumpTarget_eq_some {label : Option Key} {target : Nat}
    (h : ctx.jumpTarget ctx.program.image.layer label = some target) :
    target = linkTarget ctx label ∧ ∀ k, label = some k →
      (ctx.labels.label k).defined = true ∧ (ctx.labels.label k).data = 0 := by
  unfold Context.jumpTarget at h
  split at h
  · exact ⟨(Option.some.inj h).symm, fun k hk ↦ by cases hk⟩
  · next k =>
      dsimp only at h
      split at h
      · next hdefined =>
          refine ⟨(Option.some.inj h).symm, fun k' hk' ↦ ?_⟩
          obtain rfl := Option.some.inj hk'
          exact hdefined
      · cases h

theorem hasLayer_linkTarget (hs : ctx.Sound cfg) (hl : Layered cfg ctx) {label : Option Key}
    (h : ∀ k, label = some k → (ctx.labels.label k).defined = true ∧
      (ctx.labels.label k).data = 0) : ctx.HasLayer cfg (linkTarget ctx label) := by
  cases label with
  | none => exact ⟨hs.laid.layer, le_rfl⟩
  | some k => exact hl k (h k rfl).1 (h k rfl).2

/-- An address of a layer is a number of 32 bits. -/
theorem HasLayer.lt (hs : ctx.Sound cfg) (h : ctx.HasLayer cfg a) : a < 2 ^ 32 := by
  have hfor := hs.laid.toFor
  have hend := hs.laid.codeEnd
  have hle := hs.laid.codeEnd_le
  have hlimit := hfor.limit_le
  have hbytes := hfor.bytes_le
  have hL := hs.target.layerBits_eq
  have hI := hs.target.instructionSize_eq
  have hspace := hs.target.space
  have hpow := Nat.pow_le_pow_right (show 0 < 2 by decide) hs.address_le
  have := h.2
  omega

/-- The loop over the jumps. -/
theorem resolved_eq_ok (hs : ctx.Sound cfg) (hl : Layered cfg ctx)
    (h : ctx.jumps.foldlM (Context.resolveJump ctx.program.image.layer line) ctx = .ok ctx') :
    ∃ f, ctx' = ctx.onData f ∧
      (∀ m p, (∀ j ∈ ctx.jumps, ¬ Place cfg j p) → f m p = m p) ∧
      ∀ j ∈ ctx.jumps, ctx.HasLayer cfg (linkTarget ctx j.label) ∧
        (∀ k, j.label = some k → (ctx.labels.label k).defined = true) ∧
        ∀ m, Patched cfg j (linkTarget ctx j.label) (f m) := by
  have htarget : ∀ j ∈ ctx.jumps, ∀ t,
      ctx.jumpTarget ctx.program.image.layer j.label = some t → t < 2 ^ 32 := fun j _ t ht ↦ by
    obtain ⟨rfl, hdefined⟩ := jumpTarget_eq_some ht
    exact HasLayer.lt hs (hasLayer_linkTarget hs hl hdefined)
  obtain ⟨f, rfl, hf, hjumps⟩ := resolveJumps_eq_ok hs.target hs.laid.toFor.image (places_apart hs)
    (fun j hj ht ↦ HasLayer.lt hs ((hs.jumpLayers j hj).2 ht)) htarget h
  refine ⟨f, rfl, hf, fun j hj ↦ ?_⟩
  obtain ⟨target, htarget, hpatched⟩ := hjumps j hj
  obtain ⟨rfl, hdefined⟩ := jumpTarget_eq_some htarget
  exact ⟨hasLayer_linkTarget hs hl hdefined, fun k hk ↦ (hdefined k hk).1, hpatched⟩

/-- How the result is reported: it is copied on the way to a spot, and behind this there is only the
link to the last layer. -/
structure Reports (cfg : Config) (F : Linked) (e : Spot) (b : Nat) : Prop where
  copied : ∀ D, F.Runs D → ∃ D', Copied 32 D D' ∧ F.Runs D' ∧
    Leads cfg F.data ⟨F.target none, 3⟩ D e D'
  three_le : 3 ≤ e.slot
  slot_le : e.slot ≤ 255
  rows : rowsFrom cfg F.data e.layer e.slot =
    List.replicate (255 - e.slot) ⟨0, 0, 0⟩ ++ [⟨cfg.layerBits, 0, b⟩]
  last : RowsAt cfg F.data b (reportRows cfg)
  begin_le : branchTable ≤ b
  limit : b + cfg.layerBits ≤ F.codeLimit

theorem report_eq_some (hs : ctx.Sound cfg) (h : ctx.report = some ctx') :
    ∃ ctx₁, Emits cfg ctx (Copied 32) ctx₁ ∧ Coded ctx ctx₁ ∧
      Ended cfg ctx₁ ctx'.program.image.data := by
  unfold Context.report at h
  obtain ⟨ctx₁, h₁, h⟩ := Option.bind_eq_some_iff.mp h
  obtain ⟨ctx₂, h₂, h⟩ := Option.bind_eq_some_iff.mp h
  obtain ⟨ctx₃, h₃, h⟩ := Option.bind_eq_some_iff.mp h
  have e := emits_copied hs h₁
  exact ⟨ctx₁, e, coded_foldlM hs h₁, (ended_finish e.sound h₂ h₃ h).1⟩

/-- The report without the call that finishes the program. -/
def unfinishedReport (ctx : Context) : Option Context := do
  let ctx ← (List.range 32).foldlM
    (fun ctx i ↦ ctx.emit 1 (output + i / 8 * 8 + 7 - i % 8) (regBase + 64 + i)) ctx
  let ctx ← ctx.next
  ctx.onImage (csCopyRow ctx.program.image 2 32 output status)

/-- This call never fails when the empty layer is empty. -/
theorem report_of_unfinished (hs : ctx.Sound cfg)
    (hzero : ∀ p < cfg.layerBits, ctx.program.image.data (zeroLayer + p) = false)
    (h : unfinishedReport ctx = some ctx') : ∃ ctx'', ctx.report = some ctx'' := by
  obtain ⟨ctx₁, h₁, h⟩ := Option.bind_eq_some_iff.mp h
  obtain ⟨ctx₂, h₂, h₃⟩ := Option.bind_eq_some_iff.mp h
  have e₁ := emits_copied hs h₁
  have e₂ := emits_next e₁.sound h₂
  have hcoded := (coded_foldlM hs h₁).trans (coded_next e₁.sound h₂)
  obtain ⟨image, hrow, rfl⟩ := onImage_eq_some h₃
  have hs₂ := e₂.sound
  have hfor := hs₂.laid.toFor
  obtain ⟨-, hwritten⟩ := csCopyRow_eq_zero hfor.image (by decide : 2 < 256)
    (congrArg Prod.fst hrow)
  obtain ⟨-, rfl⟩ := Prod.mk.inj (hwritten.symm.trans hrow)
  have hL := hs.target.layerBits_eq
  have hbefore := zeroLayer_le hs₂
  have hcode := ctx₂.codeBegin_ge
  have hlo := hs₂.laid.lo_le
  have hbehind := hs₂.layerBits_le
  have hbegin := hfor.begin_le
  have hlimit := hfor.limit_le
  have hfor' : CopyProgram.For cfg ctx₂.capacities.codeBegin ctx₂.program.codeLimit
      { ctx₂.program with
        image := ctx₂.program.image.onData fun m ↦ m.putRow cfg
          (ctx₂.program.image.layer + 2 * cfg.instructionSize) ⟨32, output, status⟩ } :=
    ⟨hfor.image.onData _, hfor.codeBegin, rfl, hfor.layer_le, hfor.begin_le, hfor.limit_le,
      hfor.bytes_le⟩
  have hfinish := csCopyProgramFinish_fst hs.target hfor' (by decide : zeroLayer % 8 = 0) ?_
    ?_ (.inl ?_) fun p hp ↦ ?_
  · exact ⟨_, Option.bind_eq_some_iff.mpr ⟨ctx₁, h₁, Option.bind_eq_some_iff.mpr ⟨ctx₂, h₂,
      Option.bind_eq_some_iff.mpr ⟨_, h₃, if_pos hfinish⟩⟩⟩⟩
  · exact hbehind.trans (by decide)
  · exact Nat.le_trans (by omega) hlimit
  · omega
  · refine (Bits.putRow_of_notMem (by omega)).trans ?_
    rw [hcoded.low _ (by rw [← hcoded.capacities]; omega)]
    exact hzero p hp

/-- What the linker does after the last statement: the context `ctx₁` is that at the beginning of
the report, `f` gives the jumps their targets, and `ctx₂` is the context before the last layer. -/
structure Ends (cfg : Config) (ctx ctx₁ ctx₂ : Context) (f : Bits → Bits) (E : Bits) : Prop where
  report : ReportLayer cfg ctx ctx₁
  changed : ∀ m p, (∀ j ∈ ctx₁.jumps, ¬ Place cfg j p) → f m p = m p
  resolved : ∀ j ∈ ctx₁.jumps, ctx₁.HasLayer cfg (linkTarget ctx₁ j.label) ∧
    (∀ k, j.label = some k → (ctx₁.labels.label k).defined = true) ∧
    ∀ m, Patched cfg j (linkTarget ctx₁ j.label) (f m)
  copied : Emits cfg (ctx₁.onData f) (Copied 32) ctx₂
  coded : Coded (ctx₁.onData f) ctx₂
  ended : Ended cfg ctx₂ E

theorem ends_leafFinish (hs : ctx.Sound cfg)
    (hfault : ∀ k, ctx.memoryFault = some k → Pending ctx k) (hl : Layered cfg ctx)
    (h : leafFinish line ctx = .ok ctx') :
    ∃ ctx₁ ctx₂ f, Ends cfg ctx ctx₁ ctx₂ f ctx'.program.image.data := by
  unfold leafFinish at h
  obtain ⟨ctx₁, h₁, h⟩ := bind_eq_ok h
  obtain ⟨ctx₂, h₂, h₃⟩ := bind_eq_ok h
  have hr := reportLayer_eq_some hs hfault (orFail_eq_ok (mapError_eq_ok h₁))
  obtain ⟨f, rfl, hf, hjumps⟩ := resolved_eq_ok hr.sound (hl.mono hr.extension) h₂
  have hs' := sound_resolved hf (fun j hj ↦ ⟨_, (hjumps j hj).2.2⟩) hr.sound
  obtain ⟨ctx₃, e, hcoded, hended⟩ := report_eq_some hs' (orFail_eq_ok (mapError_eq_ok h₃))
  exact ⟨ctx₁, ctx₃, f, hr, hf, hjumps, e, hcoded, hended⟩

/-- The image, for the context at the beginning of the report. -/
def linkedImage (E : Bits) (ctx : Context) : Linked where
  data := E
  target := linkTarget ctx
  codeLimit := ctx.program.codeLimit
  memoryAddressBits := ctx.memoryAddressBits

theorem isCell_bounds {p : Nat} (h : IsCell p) : constantBase ≤ p ∧ p < branchTable := by
  dsimp only [IsCell, constantBase, regBase, addTable, shiftZero, eqTable, memBitAddress,
    branchTable] at *
  omega

namespace Ends

variable {f : Bits → Bits} (h : Ends cfg ctx ctx₁ ctx₂ f E)

include h

theorem soundResolved : (ctx₁.onData f).Sound cfg :=
  sound_resolved h.changed (fun j hj ↦ ⟨_, (h.resolved j hj).2.2⟩) h.report.sound

theorem finalReport : (linkedImage E ctx₁).Final cfg ctx₂ := by
  have hs₁ := h.report.sound
  have hx := h.copied.extension
  have hlimit := h.coded.limit
  have hlow := h.coded.low
  obtain ⟨program, rfl⟩ := h.coded.program
  refine final_of_ended h.copied.sound h.ended hlimit.symm rfl (fun _ _ _ ↦ rfl) fun j hj ↦ ?_
  obtain ⟨hlayer, -, hpatched⟩ := h.resolved j hj
  have hlayer : (ctx₁.onData f).HasLayer cfg (linkTarget ctx₁ j.label) := hlayer
  refine ⟨hlayer.mono hx, (hpatched ctx₁.program.image.data).congr fun p hp ↦ ?_⟩
  obtain ⟨hcall, hcode⟩ := callTable_le ctx₁
  obtain ⟨ht, hle, -, hlt⟩ | ⟨-, -, hlt⟩ := place_bounds hs₁ hj hp
  · have hbefore := hs₁.jumps j hj ht
    exact hx.code p hle (hlt.trans_le (hbefore.trans (Nat.le_add_right _ _)))
  · exact hlow p (show p < ctx₁.capacities.codeBegin by omega)

theorem finalResolved : (linkedImage E ctx₁).Final cfg ctx₁ :=
  final_of_resolved h.changed h.report.sound (h.finalReport.mono h.soundResolved h.copied.extension)

theorem cells {p : Nat} (hp : IsCell p) : E p = ctx.program.image.data p := by
  have hbounds := isCell_bounds hp
  have hcode := ctx₂.codeBegin_ge
  have hlo := h.copied.sound.laid.lo_le
  have hL := h.report.sound.layerBits_le
  rw [h.ended.before p (by omega) (by unfold Context.position; omega),
    h.coded.low p (hbounds.2.trans_le (Context.codeBegin_ge _))]
  exact (resolved_low h.changed h.report.sound _ (.inl hbounds.2)).trans
    (h.report.extension.cells p hp)

theorem beyond {p : Nat} (hp : (linkedImage E ctx₁).codeLimit ≤ p) :
    E p = ctx.program.image.data p := by
  have hs₁ := h.report.sound
  have hp : ctx₁.program.codeLimit ≤ p := hp
  have hlimit : ctx₂.program.codeLimit = ctx₁.program.codeLimit := h.coded.limit
  have hend := h.ended.limit
  have hle : ctx₁.program.codeEnd ≤ ctx₂.program.codeEnd := h.copied.extension.codeEnd_le
  have hlo := hs₁.laid.lo_le
  have hend₁ := hs₁.laid.codeEnd
  rw [h.ended.beyond p (by omega), h.copied.extension.beyond p (by omega)]
  refine (resolved_code h.changed hs₁ _ (by omega) fun j hj ht ↦ ?_).trans
    (h.report.extension.beyond p (by omega))
  have := hs₁.jumps j hj ht
  omega

theorem reports : Reports cfg (linkedImage E ctx₁) ctx₂.spot ctx₂.program.codeEnd := by
  have hs₂ := h.copied.sound
  have hN := hs₂.target.slots
  have hslot := hs₂.laid.slot_le
  have hcode := ctx₂.codeBegin_ge
  have hlo := hs₂.laid.lo_le
  have hend := hs₂.laid.codeEnd
  refine ⟨fun D hD ↦ ?_, hs₂.laid.three_le, hslot, ?_, h.ended.report, by omega, ?_⟩
  · obtain ⟨D', hcopied, hD', hl⟩ := h.copied.leads _ h.finalReport D hD
    refine ⟨D', hcopied, hD', ?_⟩
    have hspot : (ctx₁.onData f).spot = ⟨ctx₁.program.image.layer, 3⟩ :=
      congrArg (Spot.mk _) h.report.slot
    exact hspot ▸ hl
  · refine (rowsFrom_empty (b := ctx₂.program.codeEnd) (by dsimp only [Context.spot]; omega)
      (fun p hp hp' ↦ ?_) ?_).trans (by rw [hN])
    · rw [hN] at hp'
      exact h.ended.empty p hp hp'
    · rw [hN]
      exact h.ended.link
  · have hlimit := h.ended.limit
    rw [h.coded.limit] at hlimit
    exact hlimit

end Ends

/-- What something awaits stops a run: any other label would have stopped the linker. -/
theorem Ends.fault_of_awaited {f : Bits → Bits} {k : Key} (h : Ends cfg ctx ctx₁ ctx₂ f E)
    (hk : Awaited ctx k) : ctx.memoryFault = some k := by
  obtain ⟨hpending, j, hj, hlabel⟩ := hk
  by_contra hne
  have hdefined := (h.resolved j (h.report.extension.jumps.subset hj)).2.1 k hlabel
  rw [h.report.labels k hne, hpending.undefined] at hdefined
  cases hdefined

/-- What is known of the image of a leaf, for the context at the end of the body. -/
structure Finished (cfg : Config) (ctx : Context) (G : LeafImage) : Prop where
  of : G.Of cfg ctx
  passes : G.Passes cfg ctx.spot (G.target none)
  stops : ∀ a, G.stop a → Stops cfg G.image a
  known : ∀ k, G.known k → Outer k ∧ (ctx.labels.label k).defined = true
  reports : ∃ e b, Reports cfg G.image e b
  base : G.base = ctx.dataBegin
  cells : ∀ p, IsCell p → G.image.data p = ctx.program.image.data p
  beyond : ∀ p, G.image.codeLimit ≤ p → G.image.data p = ctx.program.image.data p
  boot : RowsAt cfg G.image.data 0 (layerRows cfg [] ctx.capacities.codeBegin)
  zero : ∀ p < cfg.layerBits, G.image.data (zeroLayer + p) = false

/-- The image of a leaf, for the contexts at the end of the body and at the beginning of the
report. -/
def leafImage (E : Bits) (ctx ctx₁ : Context) : LeafImage where
  image := linkedImage E ctx₁
  base := ctx.dataBegin
  stop a := ∃ k, Awaited ctx k ∧ a = (linkedImage E ctx₁).target (some k)
  known k := Outer k ∧ (ctx.labels.label k).defined = true

theorem finished_leafImage {f : Bits → Bits} (hs : ctx.Sound cfg)
    (hfault : ∀ k, ctx.memoryFault = some k → Pending ctx k) (h : Ends cfg ctx ctx₁ ctx₂ f E) :
    Finished cfg ctx (leafImage E ctx ctx₁) := by
  have hfinal := h.finalResolved
  have hx := h.report.extension
  have hdefined : ∀ j ∈ ctx.jumps, ∀ k, j.label = some k →
      (ctx₁.labels.label k).defined = true := fun j hj ↦ (h.resolved j (hx.jumps.subset hj)).2.1
  refine ⟨⟨hfinal.mono hs hx, ⟨fun _ ↦ rfl, fun h0 ↦ ?_⟩, fun k hk ↦ ⟨k, hk, rfl⟩,
    fun j hj k hk houter ↦ ⟨houter, ?_⟩⟩, h.report.leads _ hfinal rfl, ?_, fun k hk ↦ hk,
    ⟨_, _, h.reports⟩, rfl, fun p ↦ h.cells, fun p ↦ h.beyond, ?_, h.ended.zero⟩
  · have hlimit := (hs.memory h0).1
    have hbegin := hs.laid.toFor.begin_le
    have hcode := ctx.codeBegin_ge
    change branchTable ≤ ctx.dataBegin
    omega
  · rw [← h.report.labels k fun he ↦ ?_]
    · exact hdefined j hj k hk
    · obtain ⟨i, -, rfl⟩ := (hfault k he).internal
      exact houter i rfl
  · rintro a ⟨k, hk, rfl⟩
    exact h.report.stops k (h.fault_of_awaited hk) _ hfinal
  · have hcapacities := h.coded.capacities
    have hboot := h.ended.boot
    rw [hcapacities] at hboot
    rw [← hx.capacities]
    exact hboot

end CopySpace.Target
