import CopySpace.Emit.Program

/-!
# Layers while they are written

Whatever a compiler emits, its program stays `Laid`: the layers stand one behind the other, their
channels are empty, and so are the slots of the last layer that have not been written.  Rows are
appended (`Laid.append`) or a new layer is begun (`Laid.next`), and neither changes what has been
written before.
-/

namespace CopySpace.Emit

open BitMachine

variable {cfg : Config} {lo k : Nat} {program program' : CopyProgram} {rows : List Instruction}
  {f : Bits → Bits}

/-- What holds of a program after any calls. -/
structure Laid (cfg : Config) (lo : Nat) (program : CopyProgram) : Prop where
  toFor : program.For cfg lo program.codeLimit
  layer : ∃ k, program.image.layer = lo + k * cfg.layerBits
  codeEnd : program.codeEnd = program.image.layer + cfg.layerBits
  codeEnd_le : program.codeEnd ≤ program.codeLimit
  three_le : 3 ≤ program.image.slot
  slot_le : program.image.slot ≤ 255
  channels : ∀ k, lo + k * cfg.layerBits ≤ program.image.layer → ∀ p < 3 * cfg.instructionSize,
    program.image.data (lo + k * cfg.layerBits + p) = false
  empty : ∀ p, program.image.slot * cfg.instructionSize ≤ p → p < cfg.layerBits →
    program.image.data (program.image.layer + p) = false
  links : ∀ k, lo + k * cfg.layerBits + cfg.layerBits ≤ program.image.layer → ∃ next,
    program.image.data.rowAt cfg (lo + k * cfg.layerBits + 255 * cfg.instructionSize) =
      ⟨cfg.layerBits, 0, next⟩

theorem Laid.lo_le (h : Laid cfg lo program) : lo ≤ program.image.layer := by
  obtain ⟨k, hk⟩ := h.layer
  omega

/-- The program with more rows in its layer, and other changes of the image. -/
def CopyProgram.append (cfg : Config) (f : Bits → Bits) (rows : List Instruction)
    (program : CopyProgram) : CopyProgram :=
  { program with image := (program.image.onData f).append cfg rows }

theorem CopyProgram.append_append (rows rows' : List Instruction) :
    (program.append cfg f rows).append cfg id rows' = program.append cfg f (rows ++ rows') :=
  congrArg (fun image ↦ ({ program with image := image } : CopyProgram))
    (CopyImage.append_append rows rows')

theorem CopyProgram.append_nil : program.append cfg id [] = program := rfl

/-- Where rows are appended nothing else is written. -/
theorem CopyProgram.data_append_of_notMem {p : Nat}
    (hp : ¬(program.image.layer + program.image.slot * cfg.instructionSize ≤ p ∧
      p < program.image.layer + (program.image.slot + rows.length) * cfg.instructionSize)) :
    (program.append cfg f rows).image.data p = f program.image.data p := by
  refine Bits.putRows_of_notMem ?_
  rw [Nat.add_mul] at hp
  dsimp only [CopyImage.onData]
  omega

theorem CopyProgram.rowsAt_append (hg : Target cfg) (hv : ∀ row ∈ rows, row.Valid cfg) :
    RowsAt cfg (program.append cfg f rows).image.data
      (program.image.layer + program.image.slot * cfg.instructionSize) rows :=
  hg.rowsAt_putRows hv

/-- Rows are appended. -/
theorem Laid.append (hg : Target cfg) (h : Laid cfg lo program)
    (hs : program.image.slot + rows.length ≤ 255)
    (hf : ∀ m p, lo ≤ p → p < program.codeLimit → f m p = m p) :
    Laid cfg lo (program.append cfg f rows) := by
  have hL := hg.layerBits_eq
  have hend := h.codeEnd
  have hle := h.codeEnd_le
  have h3 := Nat.mul_le_mul_right cfg.instructionSize h.three_le
  have hslot := Nat.mul_le_mul_right cfg.instructionSize hs
  refine ⟨⟨(h.toFor.image.onData f).append rows, h.toFor.codeBegin, rfl, h.toFor.layer_le,
    h.toFor.begin_le, h.toFor.limit_le, h.toFor.bytes_le⟩, h.layer, hend, hle,
    h.three_le.trans (Nat.le_add_right _ _), hs, fun k hk p hp ↦ ?_, fun p hp hp' ↦ ?_,
    fun k hk ↦ ?_⟩
  · have hk : lo + k * cfg.layerBits ≤ program.image.layer := hk
    rw [CopyProgram.data_append_of_notMem (by omega), hf _ _ (by omega) (by omega)]
    exact h.channels k hk p hp
  · have hp : (program.image.slot + rows.length) * cfg.instructionSize ≤ p := hp
    change (program.append cfg f rows).image.data (program.image.layer + p) = false
    have hlo := h.lo_le
    rw [CopyProgram.data_append_of_notMem (by omega), hf _ _ (by omega) (by omega)]
    refine h.empty p ?_ hp'
    rw [Nat.add_mul] at hp
    omega
  · have hk : lo + k * cfg.layerBits + cfg.layerBits ≤ program.image.layer := hk
    obtain ⟨next, hnext⟩ := h.links k hk
    refine ⟨next, (rowAt_congr fun p hp ↦ ?_).trans hnext⟩
    rw [CopyProgram.data_append_of_notMem (by omega), hf _ _ (by omega) (by omega)]

/-- A new layer is begun. -/
theorem Laid.next (hg : Target cfg) (h : Laid cfg lo program)
    (hr : csCopyProgramNext program = (0, program')) :
    Laid cfg lo program' ∧ program'.image.layer = program.codeEnd ∧ program'.image.slot = 3 ∧
      program'.codeLimit = program.codeLimit ∧ program'.image.bytes = program.image.bytes ∧
      (∀ p, p < program.image.layer + 255 * cfg.instructionSize ∨
        program.codeEnd + cfg.layerBits ≤ p → program'.image.data p = program.image.data p) ∧
      program'.image.data.rowAt cfg (program.image.layer + 255 * cfg.instructionSize) =
        ⟨cfg.layerBits, 0, program.codeEnd⟩ := by
  have hL := hg.layerBits_eq
  have hI : cfg.instructionSize = cfg.nSize + 2 * cfg.addressSize := rfl
  have hend := h.codeEnd
  have hlo := h.lo_le
  have hfor := h.toFor
  have hlimit := hfor.limit_le
  have hbytes := hfor.bytes_le
  obtain ⟨hfit, rfl⟩ := hfor.next_eq_zero hg hr
  have hdata : ∀ p, p < program.image.layer + 255 * cfg.instructionSize ∨
      program.codeEnd + cfg.layerBits ≤ p →
      nextData cfg program.image.layer program.codeEnd program.image.data p =
        program.image.data p := by
    intro p hp
    rw [nextData, Bits.putRow_of_notMem (by omega), Bits.putField_of_notMem _ (by omega)]
  have hnew : ∀ p < cfg.layerBits,
      nextData cfg program.image.layer program.codeEnd program.image.data
        (program.codeEnd + p) = false := by
    intro p hp
    rw [nextData, Bits.putRow_of_notMem (by omega), Bits.putField_of_mem _ (by omega),
      Nat.zero_testBit]
  have hlink : (nextData cfg program.image.layer program.codeEnd program.image.data).rowAt cfg
      (program.image.layer + 255 * cfg.instructionSize) = ⟨cfg.layerBits, 0, program.codeEnd⟩ :=
    rowAt_putRow (hg.fits (valid_link hg (by omega)))
  refine ⟨⟨⟨⟨rfl, rfl, rfl, rfl, rfl⟩, hfor.codeBegin, rfl, hfor.layer_le, hfor.begin_le,
    hfor.limit_le, hfor.bytes_le⟩, ?_, rfl, hfit, Nat.le_refl 3, by dsimp only; omega,
    fun k hk p hp ↦ ?_, fun p _ hp' ↦ hnew p hp', fun k hk ↦ ?_⟩, rfl, rfl, rfl, rfl, hdata, hlink⟩
  · obtain ⟨k, hk⟩ := h.layer
    refine ⟨k + 1, ?_⟩
    dsimp only
    rw [Nat.succ_mul]
    omega
  · dsimp only at hk ⊢
    obtain ⟨i, hi⟩ := h.layer
    rcases Nat.lt_or_ge i k with hik | hik
    · -- the new layer itself
      have hmul := Nat.mul_le_mul_right cfg.layerBits hik
      rw [Nat.succ_mul] at hmul
      rw [show lo + k * cfg.layerBits = program.codeEnd by omega]
      exact hnew p (by omega)
    · have hmul := Nat.mul_le_mul_right cfg.layerBits hik
      rw [hdata _ (.inl (by omega))]
      exact h.channels k (by omega) p hp
  · dsimp only at hk ⊢
    obtain ⟨i, hi⟩ := h.layer
    rcases Nat.lt_or_ge k i with hik | hik
    · have hmul := Nat.mul_le_mul_right cfg.layerBits hik
      rw [Nat.succ_mul] at hmul
      obtain ⟨next, hnext⟩ := h.links k (by omega)
      exact ⟨next, (rowAt_congr fun p hp ↦ hdata _ (.inl (by omega))).trans hnext⟩
    · have hmul := Nat.mul_le_mul_right cfg.layerBits hik
      rw [show lo + k * cfg.layerBits = program.image.layer by omega]
      exact ⟨_, hlink⟩

/-- The first layer. -/
theorem laid_init (hg : Target cfg) {data : Bits} {bytes hi : Nat}
    (h : csCopyProgramInit data bytes cfg.addressSize lo hi = some program) :
    Laid cfg lo program := by
  have hN : 4 ≤ cfg.processorN := by rw [hg.slots]; decide
  have hw := written_init hg hN h
  have hlayer : program.image.layer = lo := by
    unfold csCopyProgramInit at h
    split at h
    · cases h
    · dsimp only at h
      split at h
      · cases h
      · obtain ⟨image, hinit, rfl⟩ := Option.map_eq_some_iff.mp h
        obtain ⟨rfl, -⟩ := csCopyImageInit_eq_some hg hinit
        rfl
  have hslot : program.image.slot = 3 := hw.slot
  have hzero : ∀ p < cfg.layerBits, program.image.data (program.image.layer + p) = false := by
    intro p hp
    have hrows := hw.layer
    rw [show (emptyBody hN : Body cfg lo hi).rows = [] from rfl, openRows_nil hN] at hrows
    have hz : RowsAt cfg (fun _ ↦ false) 0 (List.replicate cfg.processorN ⟨0, 0, 0⟩) :=
      rowsAt_zero fun _ _ ↦ rfl
    have := hrows.bits_eq hz (b := p) (by rw [List.length_replicate]; exact hp)
    simpa using this
  refine ⟨by rw [hw.codeLimit]; exact hw.toFor, ⟨0, by omega⟩, hw.codeEnd, ?_, by omega, by omega,
    fun k hk p hp ↦ ?_, fun p _ hp ↦ hzero p hp, fun k hk ↦ ?_⟩
  · rw [hw.codeLimit]
    exact hw.codeEnd_le
  · have hL := hg.layerBits_eq
    rw [hlayer] at hk hzero
    rw [show lo + k * cfg.layerBits = lo by omega]
    exact hzero p (by omega)
  · have hL := hg.layerBits_eq
    have h5 := hg.five_le
    have hI := hg.instructionSize_eq
    omega

/-! ## Calls -/

/-- After `room` there is room, perhaps in a new layer. -/
theorem Laid.room (hg : Target cfg) (h : Laid cfg lo program) {count : Nat}
    (hr : room program count = (0, program')) : program'.image.slot + count ≤ 255 ∧
      (program' = program ∨ csCopyProgramNext program = (0, program')) := by
  obtain ⟨rfl, hs⟩ | ⟨hnext, hcount⟩ := room_eq_zero hr
  · exact ⟨hs, .inl rfl⟩
  · obtain ⟨-, -, hslot, -⟩ := h.next hg hnext
    exact ⟨by omega, .inr hnext⟩

/-- A successful call appends its rows, perhaps in a new layer. -/
theorem Laid.call (hg : Target cfg) (h : Laid cfg lo program) {call : Call}
    (hs : call.Succeeds cfg lo program.codeLimit program program') : ∃ q,
      (q = program ∨ csCopyProgramNext program = (0, q)) ∧
      q.image.slot + (call.rows cfg q.image.slot).length ≤ 255 ∧
      (∀ row ∈ call.rows cfg q.image.slot, row.Valid cfg) ∧
      program' = q.append cfg call.tables (call.rows cfg q.image.slot) := by
  obtain ⟨q, hroom, hq⟩ := hs.run
  obtain ⟨hslot, hnext⟩ := h.room hg hroom
  have hfor : q.image.For cfg := by
    rcases hnext with rfl | hnext
    · exact h.toFor.image
    · exact (h.next hg hnext).1.toFor.image
  refine ⟨q, hnext, by rwa [Call.length_rows], Call.valid_rows hg hs.placed hslot, hq hfor⟩

/-- A row of any kind. -/
theorem Laid.emit (hg : Target cfg) (h : Laid cfg lo program) {count destination source : Nat}
    (hr : csCopyProgramEmit program count destination source = (0, program')) : ∃ q,
      (q = program ∧ program.image.slot < 255 ∨ csCopyProgramNext program = (0, q)) ∧
      q.image.slot < 255 ∧ Instruction.Valid cfg ⟨count, destination, source⟩ ∧
      program' = q.append cfg id [⟨count, destination, source⟩] := by
  unfold csCopyProgramEmit at hr
  split at hr
  · cases hr
  · next hv =>
      have hvalid : Instruction.Valid cfg ⟨count, destination, source⟩ :=
        (rowValid_iff h.toFor.image (by decide)).mp (not_not.mp hv)
      obtain ⟨q, image, hroom, hcall, rfl⟩ := afterRoom_eq_zero hr
      obtain ⟨hslot, hnext⟩ := h.room hg hroom
      have hfor : q.image.For cfg := by
        rcases hnext with rfl | hnext
        · exact h.toFor.image
        · exact (h.next hg hnext).1.toFor.image
      rw [csCopyEmit_eq hfor (by omega) hvalid] at hcall
      obtain ⟨-, rfl⟩ := Prod.mk.inj hcall
      refine ⟨q, ?_, by omega, hvalid, rfl⟩
      rcases hnext with rfl | hnext
      · exact .inl ⟨rfl, by omega⟩
      · exact .inr hnext

end CopySpace.Emit
