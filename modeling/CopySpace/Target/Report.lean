import CopySpace.Target.Resolution

/-!
# The report

The last layers of a leaf put the result into the output, the highest bit of a byte first, and
write it by a channel; the layer that comes then is empty.
-/

namespace CopySpace.Target

open Link Emit BitMachine

variable {cfg : Config} {ctx ctx' ctx₁ ctx₂ : Context} {D D' E m : Bits}

/-! ## The output -/

/-- The position of a bit of the result. -/
def outputBit (i : Nat) : Nat := output + i / 8 * 8 + 7 - i % 8

theorem outputBit_bounds {i : Nat} (hi : i < 32) :
    output ≤ outputBit i ∧ outputBit i < output + 32 := by
  unfold outputBit
  omega

theorem outputBit_inj {i j : Nat} (h : outputBit i = outputBit j) : i = j := by
  unfold outputBit at h
  omega

/-- Some bits of the result have been copied. -/
structure Copied (n : Nat) (D D' : Bits) : Prop where
  result : ∀ i < n, D' (outputBit i) = D (regBase + 64 + i)
  rest : ∀ p, ¬(output ≤ p ∧ p < output + 32) → D' p = D p

theorem Copied.step {n : Nat} (hn : n < 32) {D₁ : Bits} (h : Copied n D D₁)
    (hD : D' = D₁.blit 1 (outputBit n) (regBase + 64 + n)) : Copied (n + 1) D D' := by
  subst hD
  have hbounds := outputBit_bounds hn
  refine ⟨fun i hi ↦ ?_, fun p hp ↦ ?_⟩
  · rcases Nat.lt_or_eq_of_le (Nat.le_of_lt_succ hi) with hlt | rfl
    · have hne : outputBit i ≠ outputBit n := fun he ↦ by
        have := outputBit_inj he
        omega
      rw [Bits.blit_of_notMem _ (by omega)]
      exact h.result i hlt
    · rw [Bits.blit_of_mem _ ⟨le_rfl, Nat.lt_succ_self _⟩, Nat.sub_self]
      refine h.rest _ ?_
      dsimp only [regBase, output]
      omega
  · rw [Bits.blit_of_notMem _ (by omega)]
    exact h.rest p hp

/-- The rows that copy the result. -/
theorem emits_copied (hs : ctx.Sound cfg)
    (h : (List.range 32).foldlM (fun ctx i ↦ ctx.emit 1 (outputBit i) (regBase + 64 + i)) ctx =
      some ctx') : Emits cfg ctx (Copied 32) ctx' := by
  refine emits_foldlM (P := Copied) hs h (fun i hi ctx ctx' hs h ↦ ?_)
    (fun D ↦ ⟨fun i hi ↦ absurd hi (Nat.not_lt_zero i), fun _ _ ↦ rfl⟩)
    fun i hi D₀ D D' ↦ Copied.step hi
  have hbounds := outputBit_bounds hi
  refine emits_copy hs h ?_ (hs.behind ?_ ?_)
  · dsimp only [Scratch, output, eqTable, memBitAddress] at *
    omega
  · dsimp only [constantBase, regBase]
    omega
  · dsimp only [regBase, branchTable]
    omega

/-- Nothing but the code has been changed. -/
structure Coded (ctx ctx' : Context) : Prop where
  program : ∃ program, ctx' = { ctx with program := program }
  limit : ctx'.program.codeLimit = ctx.program.codeLimit
  low : ∀ p < ctx.capacities.codeBegin, ctx'.program.image.data p = ctx.program.image.data p

theorem Coded.capacities (h : Coded ctx ctx') : ctx'.capacities = ctx.capacities := by
  obtain ⟨program, rfl⟩ := h.program
  rfl

theorem Coded.refl (ctx : Context) : Coded ctx ctx := ⟨⟨_, rfl⟩, rfl, fun _ _ ↦ rfl⟩

theorem Coded.trans (h : Coded ctx ctx₁) (h' : Coded ctx₁ ctx') : Coded ctx ctx' where
  program := by
    obtain ⟨program, rfl⟩ := h.program
    obtain ⟨program', rfl⟩ := h'.program
    exact ⟨program', rfl⟩
  limit := h'.limit.trans h.limit
  low p hp := (h'.low p (by rwa [h.capacities])).trans (h.low p hp)

theorem coded_next (hs : ctx.Sound cfg) (h : ctx.next = some ctx') : Coded ctx ctx' := by
  obtain ⟨program, hq, rfl⟩ := Context.next_eq_some h
  obtain ⟨-, -, -, hlimit, -, hdata, -⟩ := hs.laid.next hs.target hq
  have hlo := hs.laid.lo_le
  exact ⟨⟨program, rfl⟩, hlimit, fun p hp ↦ hdata p (.inl (by omega))⟩

theorem coded_emit (hs : ctx.Sound cfg) {n d s : Nat} (h : ctx.emit n d s = some ctx') :
    ctx'.Sound cfg ∧ Coded ctx ctx' := by
  obtain ⟨ctx₁, hnext, hslot, -, rfl⟩ := Context.emit_eq_some hs h
  obtain ⟨hs₁, hcoded⟩ : ctx₁.Sound cfg ∧ Coded ctx ctx₁ := by
    rcases hnext with rfl | hnext
    · exact ⟨hs, .refl _⟩
    · exact ⟨(step_next hs hnext).1, coded_next hs hnext⟩
  have hlo := hs₁.laid.lo_le
  have hstep := step_append hs₁ (f := id)
    (show _ + [(⟨n, d, s⟩ : Instruction)].length ≤ 255 from hslot)
    (fun _ _ _ ↦ rfl) (.of_eq ctx₁.codeBegin_ge fun _ _ ↦ rfl)
  refine ⟨hstep.1, hcoded.trans ⟨⟨_, rfl⟩, rfl, fun p hp ↦
    CopyProgram.data_append_of_notMem fun hmem ↦ ?_⟩⟩
  omega

theorem coded_foldlM {α : Type} {n d s : α → Nat} {l : List α} (hs : ctx.Sound cfg)
    (h : l.foldlM (fun ctx a ↦ ctx.emit (n a) (d a) (s a)) ctx = some ctx') : Coded ctx ctx' := by
  induction l generalizing ctx with
  | nil =>
      cases h
      exact .refl _
  | cons a l ih =>
      rw [List.foldlM_cons] at h
      obtain ⟨ctx₁, h₁, h₂⟩ := Option.bind_eq_some_iff.mp h
      obtain ⟨hs₁, hcoded⟩ := coded_emit hs h₁
      exact hcoded.trans (ih hs₁ h₂)

/-! ## The last layer -/

/-- The rows of the last layer. -/
def reportRows (cfg : Config) : List Instruction :=
  [⟨0, 0, 0⟩, ⟨0, 0, 0⟩, ⟨32, output, status⟩] ++
    (List.replicate 252 ⟨0, 0, 0⟩ ++ [⟨cfg.layerBits, 0, zeroLayer⟩])

/-- The image after the channel row and the last link have been written into the layer at `b`, and
the boot layer into the processor. -/
def endedData (cfg : Config) (lo b : Nat) (m : Bits) : Bits :=
  finishedData cfg lo b zeroLayer
    (m.putRow cfg (b + 2 * cfg.instructionSize) ⟨32, output, status⟩)

section Data

variable {lo b : Nat}

theorem endedData_of_row (hg : Target cfg) {p : Nat} (hp : cfg.layerBits ≤ p)
    (hp' : ¬(b + 255 * cfg.instructionSize ≤ p ∧ p < b + cfg.layerBits)) : endedData cfg lo b m p =
      m.putRow cfg (b + 2 * cfg.instructionSize) ⟨32, output, status⟩ p := by
  have hL := hg.layerBits_eq
  rw [endedData, finishedData, Bits.putRow_of_notMem (by omega), linkedData,
    Bits.putRow_of_notMem (by omega), Bits.putField_of_notMem _ (by omega)]

/-- Only these two layers have been changed. -/
theorem endedData_of_notMem (hg : Target cfg) {p : Nat} (hp : cfg.layerBits ≤ p)
    (hp' : ¬(b ≤ p ∧ p < b + cfg.layerBits)) : endedData cfg lo b m p = m p := by
  have hL := hg.layerBits_eq
  rw [endedData_of_row hg hp (by omega), Bits.putRow_of_notMem (by omega)]

theorem reportRows_endedData (hg : Target cfg) (hb : cfg.layerBits ≤ b)
    (hrow : Instruction.Valid cfg ⟨32, output, status⟩)
    (hlink : Instruction.Valid cfg ⟨cfg.layerBits, 0, zeroLayer⟩)
    (hm : ∀ p < cfg.layerBits, m (b + p) = false) :
    RowsAt cfg (endedData cfg lo b m) b (reportRows cfg) := by
  have hL := hg.layerBits_eq
  have hfill : ∀ p < 255 * cfg.instructionSize, ¬(2 * cfg.instructionSize ≤ p ∧
      p < 3 * cfg.instructionSize) → endedData cfg lo b m (b + p) = false := fun p hp hp' ↦ by
    rw [endedData_of_row hg (by omega) (by omega), Bits.putRow_of_notMem (by omega)]
    exact hm p (by omega)
  refine rowsAt_append.mpr ⟨⟨?_, ?_, ?_, trivial⟩, rowsAt_append.mpr ⟨?_, ?_, trivial⟩⟩
  · exact rowAt_eq_zero fun p hp ↦ hfill p (by omega) (by omega)
  · refine rowAt_eq_zero fun p hp ↦ ?_
    rw [Nat.add_assoc]
    exact hfill _ (by omega) (by omega)
  · rw [Nat.add_assoc, ← Nat.two_mul]
    refine (rowAt_congr fun p hp ↦ endedData_of_row hg (by omega) (by omega)).trans ?_
    exact rowAt_putRow (hg.fits hrow)
  · refine rowsAt_zero fun p hp ↦ ?_
    rw [Nat.add_assoc]
    dsimp only [List.length_cons, List.length_nil]
    exact hfill _ (by omega) (by omega)
  · rw [List.length_replicate, Nat.add_assoc, ← Nat.add_mul]
    dsimp only [List.length_cons, List.length_nil]
    have hboot : (endedData cfg lo b m).rowAt cfg (b + 255 * cfg.instructionSize) =
        (linkedData cfg b zeroLayer _).rowAt cfg (b + 255 * cfg.instructionSize) :=
      rowAt_congr fun p hp ↦ Bits.putRow_of_notMem (by omega)
    exact hboot.trans (rowAt_putRow (hg.fits hlink))

theorem boot_endedData (hg : Target cfg) (hb : cfg.layerBits ≤ b)
    (hlink : Instruction.Valid cfg ⟨cfg.layerBits, 0, lo⟩) :
    RowsAt cfg (endedData cfg lo b m) 0 (layerRows cfg [] lo) := by
  have hL := hg.layerBits_eq
  have hN : ([] : List Instruction).length + 4 ≤ cfg.processorN := by rw [hg.slots]; decide
  have hopen : RowsAt cfg (linkedData cfg b zeroLayer
      (m.putRow cfg (b + 2 * cfg.instructionSize) ⟨32, output, status⟩)) 0 (openRows cfg []) :=
    (rowsAt_cleared hg _ 0).congr fun p hp ↦ by
      rw [length_openRows hN, hg.slots] at hp
      exact Bits.putRow_of_notMem (by omega)
  have hclose := rowsAt_close hg hN hopen hlink
  rwa [hg.slots] at hclose

end Data

/-- What the image is when the rows up to the report have been written. -/
structure Ended (cfg : Config) (ctx : Context) (E : Bits) : Prop where
  before : ∀ p, cfg.layerBits ≤ p → p < ctx.position cfg → E p = ctx.program.image.data p
  beyond : ∀ p, ctx.program.codeEnd + cfg.layerBits ≤ p → E p = ctx.program.image.data p
  empty : ∀ p, ctx.program.image.slot * cfg.instructionSize ≤ p → p < 255 * cfg.instructionSize →
    E (ctx.program.image.layer + p) = false
  link : E.rowAt cfg (ctx.program.image.layer + 255 * cfg.instructionSize) =
    ⟨cfg.layerBits, 0, ctx.program.codeEnd⟩
  links : ∀ k, ctx.capacities.codeBegin + k * cfg.layerBits + cfg.layerBits ≤ ctx.program.codeEnd →
    ∃ next, E.rowAt cfg (ctx.capacities.codeBegin + k * cfg.layerBits + 255 * cfg.instructionSize) =
      ⟨cfg.layerBits, 0, next⟩
  report : RowsAt cfg E ctx.program.codeEnd (reportRows cfg)
  boot : RowsAt cfg E 0 (layerRows cfg [] ctx.capacities.codeBegin)
  zero : ∀ p < cfg.layerBits, E (zeroLayer + p) = false
  limit : ctx.program.codeEnd + cfg.layerBits ≤ ctx.program.codeLimit

/-- The empty layer is in front of the code. -/
theorem zeroLayer_le (hs : ctx.Sound cfg) : zeroLayer + cfg.layerBits ≤ branchTable := by
  have hL := hs.target.layerBits_eq
  have hI := hs.target.instructionSize_eq
  have ha := hs.address_le
  dsimp only [zeroLayer, branchTable]
  omega

theorem onImage_eq_some {r : Int × CopyImage} (h : ctx.onImage r = some ctx') : ∃ image,
    r = (0, image) ∧ ctx' = { ctx with program := { ctx.program with image := image } } := by
  unfold Context.onImage at h
  split at h
  · next h0 => exact ⟨r.2, Prod.ext h0 rfl, (Option.some.inj h).symm⟩
  · cases h

/-- The program is finished. -/
theorem finish_eq_some (hs : ctx.Sound cfg) {program : CopyProgram}
    (hnext : csCopyProgramNext ctx.program = (0, program)) {image : CopyImage}
    (hrow : csCopyRow program.image 2 32 output status = (0, image)) {finished : CopyProgram}
    (hfinish : csCopyProgramFinish { program with image := image } zeroLayer = (0, finished)) :
    Instruction.Valid cfg ⟨32, output, status⟩ ∧
      (∀ p < cfg.layerBits, program.image.data (zeroLayer + p) = false) ∧
      finished.image.data =
        endedData cfg ctx.capacities.codeBegin ctx.program.codeEnd program.image.data ∧
      finished.image.bytes = ctx.program.image.bytes := by
  obtain ⟨hlaid, hlayer, -, -, hbytes, -, -⟩ := hs.laid.next hs.target hnext
  have hfor := hlaid.toFor
  obtain ⟨hvalid, hwritten⟩ := csCopyRow_eq_zero hfor.image (by decide : 2 < 256)
    (congrArg Prod.fst hrow)
  rw [hwritten] at hrow
  obtain ⟨-, rfl⟩ := Prod.mk.inj hrow
  have hfor' : CopyProgram.For cfg ctx.capacities.codeBegin program.codeLimit { program with
      image := program.image.onData fun m ↦ m.putRow cfg
        (program.image.layer + 2 * cfg.instructionSize) ⟨32, output, status⟩ } :=
    ⟨hfor.image.onData _, hfor.codeBegin, rfl, hfor.layer_le, hfor.begin_le, hfor.limit_le,
      hfor.bytes_le⟩
  obtain ⟨-, hempty, rfl⟩ := csCopyProgramFinish_eq_zero hs.target hfor' hfinish
  refine ⟨hvalid, fun p hp ↦ ?_, by rw [← hlayer]; rfl, hbytes⟩
  have hL := hs.target.layerBits_eq
  have hzero := zeroLayer_le hs
  have hlo := hlaid.lo_le
  have hcode := ctx.codeBegin_ge
  rw [← hempty p hp]
  exact (Bits.putRow_of_notMem (by omega)).symm

theorem ended_finish (hs : ctx.Sound cfg) (hnext : ctx.next = some ctx₁)
    (hrow : ctx₁.onImage (csCopyRow ctx₁.program.image 2 32 output status) = some ctx₂)
    (hfinish : ctx₂.onProgram (csCopyProgramFinish ctx₂.program zeroLayer) = some ctx') :
    Ended cfg ctx ctx'.program.image.data ∧
      ctx'.program.image.bytes = ctx.program.image.bytes := by
  obtain ⟨program, hq, rfl⟩ := Context.next_eq_some hnext
  obtain ⟨hlaid, hlayer, hslot, hlimit, hbytes, hdata, hlink⟩ := hs.laid.next hs.target hq
  obtain ⟨image, himage, rfl⟩ := onImage_eq_some hrow
  obtain ⟨finished, hcall, rfl⟩ := Context.onProgram_eq_some hfinish
  obtain ⟨hvalid, hzeros, hE, hbytes'⟩ := finish_eq_some hs hq himage hcall
  have hfor := hlaid.toFor
  have hL := hs.target.layerBits_eq
  have hend := hs.laid.codeEnd
  have hend' := hlaid.codeEnd
  have hle := hlaid.codeEnd_le
  have hlo := hs.laid.lo_le
  have hfirst := hfor.layer_le
  have hzero := zeroLayer_le hs
  have hbehind := hs.layerBits_le
  have hcode := ctx.codeBegin_ge
  have hlimit_le := hfor.limit_le
  have hbytes_le := hfor.bytes_le
  have hslots := Nat.mul_le_mul_right cfg.instructionSize hs.laid.slot_le
  have hold : ∀ p, cfg.layerBits ≤ p → p < ctx.program.codeEnd ∨
      ctx.program.codeEnd + cfg.layerBits ≤ p → finished.image.data p = program.image.data p :=
    fun p hp hp' ↦ by
      rw [hE]
      exact endedData_of_notMem hs.target hp (by omega)
  have hnew : ∀ p < cfg.layerBits, program.image.data (ctx.program.codeEnd + p) = false := by
    intro p hp
    rw [← hlayer]
    obtain ⟨k, hk⟩ := hlaid.layer
    rcases Nat.lt_or_ge p (3 * cfg.instructionSize) with h3 | h3
    · rw [hk]
      exact hlaid.channels k hk.ge p h3
    · exact hlaid.empty p (by rw [hslot]; exact h3) hp
  refine ⟨⟨fun p hp hp' ↦ ?_, fun p hp ↦ ?_, fun p hp hp' ↦ ?_, ?_, fun k hk ↦ ?_, ?_, ?_,
    fun p hp ↦ ?_, ?_⟩, hbytes'⟩
  · unfold Context.position at hp'
    exact (hold p hp (.inl (by omega))).trans (hdata p (.inl (by omega)))
  · exact (hold p (by omega) (.inr (by omega))).trans (hdata p (.inr (by omega)))
  · refine (hold _ (by omega) (.inl (by omega))).trans ((hdata _ (.inl (by omega))).trans ?_)
    exact hs.laid.empty p hp (by omega)
  · exact (rowAt_congr fun p hp ↦ hold _ (by omega) (.inl (by omega))).trans hlink
  · obtain ⟨next, hnext⟩ := hlaid.links k (by omega)
    exact ⟨next, (rowAt_congr fun p hp ↦ hold _ (by omega) (.inl (by omega))).trans hnext⟩
  · dsimp only
    rw [hE]
    exact reportRows_endedData hs.target (by omega) hvalid (valid_link hs.target (by omega)) hnew
  · dsimp only
    rw [hE]
    exact boot_endedData hs.target (by omega) (valid_link hs.target (by omega))
  · refine (hold _ ?_ (.inl (by omega))).trans (hzeros p hp)
    dsimp only [constantBase, zeroLayer] at *
    omega
  · omega

end CopySpace.Target
