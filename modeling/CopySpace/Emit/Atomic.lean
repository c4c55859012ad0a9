import CopySpace.Emit.Constant
import CopySpace.Emit.Laid

/-!
# Calls that fail

A call on an image or on a program either fails and leaves everything as it is, or it emits all of
its rows.  The operations on words emit many rows and ignore whether each of them could be written,
and before that the program may have begun a new layer for them; so what they check first has to
be enough for everything that follows.
-/

namespace CopySpace.Emit

open BitMachine

/-! ## Calls -/

/-- The operation of this number, `enum cs_copy_bit_operation`. -/
def bitOperation : Nat → Option BitOperation
  | 0 => some .and
  | 1 => some .or
  | 2 => some .xor
  | _ => none

/-- A call on an image. -/
inductive ImageCall where
  | constant (at_ width value : Nat)
  | row (slot count destination source : Nat)
  | emit (count destination source : Nat)
  | arithmetic32 (subtract : Bool) (destination left right table temporary carry : Nat)
  | bits32 (operation destination left right table : Nat)

/-- The call; there is no operation of another number. -/
def ImageCall.run (image : CopyImage) : ImageCall → Int × CopyImage
  | constant at_ width value => csCopyConstant image at_ width value
  | row slot count destination source => csCopyRow image slot count destination source
  | emit count destination source => csCopyEmit image count destination source
  | arithmetic32 false destination left right table temporary carry =>
      csCopyAdd32 image destination left right table temporary carry
  | arithmetic32 true destination left right table temporary carry =>
      csCopySub32 image destination left right table temporary carry
  | bits32 operation destination left right table =>
      match bitOperation operation with
      | none => (-1, image)
      | some operation => csCopyBits32 image operation destination left right table

/-- A call on a program, or on the image in it. -/
inductive ProgramCall where
  | onImage (call : ImageCall)
  | next
  | patchJump (layer target : Nat)
  | emit (count destination source : Nat)
  | arithmetic32 (subtract : Bool) (destination left right table temporary carry : Nat)
  | bits32 (operation destination left right table : Nat)
  | finish (zeroLayer : Nat)

def ProgramCall.run (program : CopyProgram) : ProgramCall → Int × CopyProgram
  | onImage call =>
      let r := call.run program.image
      (r.1, { program with image := r.2 })
  | next => csCopyProgramNext program
  | patchJump layer target => csCopyProgramPatchJump program layer target
  | emit count destination source => csCopyProgramEmit program count destination source
  | arithmetic32 false destination left right table temporary carry =>
      csCopyProgramAdd32 program destination left right table temporary carry
  | arithmetic32 true destination left right table temporary carry =>
      csCopyProgramSub32 program destination left right table temporary carry
  | bits32 operation destination left right table =>
      match bitOperation operation with
      | none => (-1, program)
      | some operation => csCopyProgramBits32 program operation destination left right table
  | finish zeroLayer => csCopyProgramFinish program zeroLayer

/-- The images that calls make from one that has been initialized. -/
inductive ImageReachable : CopyImage → Prop
  | init {data : Bits} {bytes addressBits layer : Nat} {image : CopyImage} :
      csCopyImageInit data bytes addressBits layer = some image → ImageReachable image
  | call {image image' : CopyImage} (call : ImageCall) :
      ImageReachable image → call.run image = (0, image') → ImageReachable image'

/-- The programs that calls make from one that has been initialized. -/
inductive Reachable : CopyProgram → Prop
  | init {data : Bits} {bytes addressBits codeBegin codeLimit : Nat} {program : CopyProgram} :
      csCopyProgramInit data bytes addressBits codeBegin codeLimit = some program →
        Reachable program
  | call {program program' : CopyProgram} (call : ProgramCall) :
      Reachable program → call.run program = (0, program') → Reachable program'

/-! ## Rows that have been emitted -/

/-- A row of a layer of the image. -/
def CopyImage.row (image : CopyImage) (layer slot : Nat) : Instruction :=
  let a := layer + slot * image.instructionBits
  ⟨image.data.field a image.countBits, image.data.field (a + image.countBits) image.addressBits,
    image.data.field (a + image.countBits + image.addressBits) image.addressBits⟩

/-- A bit of the source of the row in a slot that is executed. -/
def CopyImage.sourceBit (image : CopyImage) (slot off : Nat) : Nat :=
  slot * image.instructionBits + image.countBits + image.addressBits + off

/-- The group of rows of a call: a row that resets the carry and six rows for each bit of a sum,
three rows for each bit of an operation on bits. -/
def ImageCall.rows (image : CopyImage) : ImageCall → List Instruction
  | constant .. => []
  | row _ count destination source => [⟨count, destination, source⟩]
  | emit count destination source => [⟨count, destination, source⟩]
  | arithmetic32 _ destination left right table temporary carry =>
      ⟨1, carry, table⟩ :: (List.range 32).flatMap fun bit ↦
        let read := image.slot + 1 + 6 * bit + 3
        [⟨1, image.sourceBit read 1, left + bit⟩, ⟨1, image.sourceBit read 2, right + bit⟩,
          ⟨1, image.sourceBit read 3, carry⟩, ⟨2, temporary, table⟩,
          ⟨1, destination + bit, temporary⟩, ⟨1, carry, temporary + 1⟩]
  | bits32 _ destination left right table =>
      (List.range 32).flatMap fun bit ↦
        let read := image.slot + 3 * bit + 2
        [⟨1, image.sourceBit read 0, left + bit⟩, ⟨1, image.sourceBit read 1, right + bit⟩,
          ⟨1, destination + bit, table⟩]

/-- The slot of the first row. -/
def ImageCall.slot (image : CopyImage) : ImageCall → Nat
  | row slot .. => slot
  | _ => image.slot

/-- The slots that are used up. -/
def ImageCall.used (image : CopyImage) : ImageCall → Nat
  | row .. => 0
  | call => (call.rows image).length

/-- All rows of the call are in the layer of the image. -/
structure ImageCall.Emitted (call : ImageCall) (image image' : CopyImage) : Prop where
  rows : ∀ i row, (call.rows image)[i]? = some row →
    image'.row image.layer (call.slot image + i) = row
  fields : image' = { image with data := image'.data, slot := image.slot + call.used image }

theorem ImageCall.Emitted.congr {call : ImageCall} {image image' : CopyImage}
    (h : call.Emitted image image') :
    image' = { image with data := image'.data, slot := image'.slot } := by
  have hslot : image'.slot = image.slot + call.used image := congrArg CopyImage.slot h.fields
  rw [hslot]
  exact h.fields

/-- The rows of a group are in the layer of the program, which may be a new one. -/
def EmittedInProgram (call : ImageCall) (program program' : CopyProgram) : Prop :=
  ∃ q, (q = program ∨ csCopyProgramNext program = (0, q)) ∧ call.Emitted q.image program'.image ∧
    program' = { q with image := program'.image }

/-- The call has written its rows: those of its group, or the links of layers. -/
def ProgramCall.Emitted (program program' : CopyProgram) : ProgramCall → Prop
  | onImage call => call.Emitted program.image program'.image ∧
      program' = { program with image := program'.image }
  | next => program'.image.layer = program.codeEnd ∧ program'.image.slot = 3 ∧
      program'.image.row program.image.layer 255 = ⟨program.image.layerBits, 0, program.codeEnd⟩
  | patchJump layer target =>
      program'.image.row layer 255 = ⟨program.image.layerBits, 0, target⟩
  | emit count destination source =>
      EmittedInProgram (.emit count destination source) program program'
  | arithmetic32 subtract destination left right table temporary carry =>
      EmittedInProgram (.arithmetic32 subtract destination left right table temporary carry)
        program program'
  | bits32 operation destination left right table =>
      EmittedInProgram (.bits32 operation destination left right table) program program'
  | finish zeroLayer =>
      program'.image.row program.image.layer 255 = ⟨program.image.layerBits, 0, zeroLayer⟩ ∧
        program'.image.row 0 255 = ⟨program.image.layerBits, 0, program.codeBegin⟩

/-- A call that has failed has changed nothing, and one that has not has emitted its rows. -/
def Atomic {σ : Type} (emitted : σ → Prop) (s : σ) (r : Int × σ) : Prop :=
  r = (-1, s) ∨ r.1 = 0 ∧ emitted r.2

variable {cfg : Config} {image image' : CopyImage} {program program' : CopyProgram}
  {rows : List Instruction} {a slot : Nat}

theorem CopyImage.For.row (h : image.For cfg) (layer slot : Nat) :
    image.row layer slot = image.data.rowAt cfg (layer + slot * cfg.instructionSize) := by
  simp only [CopyImage.row, Bits.rowAt, h.instructionBits, h.countBits, h.addressBits,
    Nat.add_assoc]

theorem CopyImage.For.rows_arithmetic32 (h : image.For cfg) (subtract : Bool)
    (destination left right table temporary carry : Nat) :
    (ImageCall.arithmetic32 subtract destination left right table temporary carry).rows image =
      arithmetic32Rows cfg destination left right table temporary carry image.slot := by
  simp only [ImageCall.rows, CopyImage.sourceBit, srcBit_eq h]
  rfl

theorem CopyImage.For.rows_bits32 (h : image.For cfg)
    (operation destination left right table : Nat) :
    (ImageCall.bits32 operation destination left right table).rows image =
      bits32Rows cfg destination left right table image.slot := by
  simp only [ImageCall.rows, CopyImage.sourceBit, srcBit_eq h]
  rfl

theorem RowsAt.getElem? {m : Bits} (h : RowsAt cfg m a rows) {i : Nat} {row : Instruction}
    (hrow : rows[i]? = some row) : m.rowAt cfg (a + i * cfg.instructionSize) = row := by
  induction rows generalizing a i with
  | nil => cases hrow
  | cons first rows ih =>
      cases i with
      | zero =>
          obtain rfl := Option.some.inj hrow
          rw [Nat.zero_mul, Nat.add_zero]
          exact h.1
      | succ i =>
          rw [Nat.succ_mul, Nat.add_comm (i * _), ← Nat.add_assoc]
          exact ih h.2 hrow

/-- Rows that have been appended are there. -/
theorem emitted_append (hg : Roomy cfg) (h : image.For cfg) (f : Bits → Bits) {call : ImageCall}
    (hslot : call.slot image = image.slot) (hused : call.used image = (call.rows image).length)
    (hv : ∀ row ∈ call.rows image, row.Valid cfg) :
    call.Emitted image ((image.onData f).append cfg (call.rows image)) := by
  have hfor := (h.onData f).append (call.rows image)
  refine ⟨fun i row hrow ↦ ?_, ?_⟩
  · rw [hfor.row, hslot, Nat.add_mul, ← Nat.add_assoc]
    exact RowsAt.getElem? (hg.rowsAt_putRows hv) hrow
  · rw [hused]
    rfl

/-! ## Calls on an image -/

/-- An image in which its layer has room. -/
structure Fitting (cfg : Config) (image : CopyImage) : Prop where
  roomy : Roomy cfg
  toFor : image.For cfg

theorem Fitting.congr (h : Fitting cfg image) (hfields : image' =
    { image with data := image'.data, slot := image'.slot }) : Fitting cfg image' := by
  obtain ⟨h₁, h₂, h₃, h₄, h₅⟩ := h.toFor
  rw [hfields]
  exact ⟨h.roomy, h₁, h₂, h₃, h₄, h₅⟩

theorem atomic_row (h : Fitting cfg image) (slot count destination source : Nat) :
    Atomic ((ImageCall.row slot count destination source).Emitted image) image
      (csCopyRow image slot count destination source) := by
  by_cases hvalid : rowValid image slot count destination source
  · have hrow : Instruction.Valid cfg ⟨count, destination, source⟩ :=
      (rowValid_iff h.toFor hvalid.1).mp hvalid
    have heq := csCopyRow_eq h.toFor hvalid.1 hrow
    dsimp only at heq
    rw [heq]
    refine .inr ⟨rfl, fun i row hi ↦ ?_, rfl⟩
    obtain ⟨rfl, rfl⟩ : i = 0 ∧ row = ⟨count, destination, source⟩ := by
      cases i with
      | zero => exact ⟨rfl, (Option.some.inj hi).symm⟩
      | succ i => cases hi
    have hfor := h.toFor.onData fun m ↦ m.putRow cfg (image.layer + slot * cfg.instructionSize)
      ⟨count, destination, source⟩
    refine (hfor.row image.layer slot).trans (rowAt_putRow ?_)
    exact ⟨hrow.n_lt, hrow.dst_lt.trans_eq h.roomy.space,
      hrow.src_lt.trans_eq h.roomy.space⟩
  · rw [csCopyRow, if_pos hvalid]
    exact .inl rfl

theorem atomic_emit (h : Fitting cfg image) (count destination source : Nat) :
    Atomic ((ImageCall.emit count destination source).Emitted image) image
      (csCopyEmit image count destination source) := by
  by_cases hslot : image.slot ≥ 255
  · rw [csCopyEmit, if_pos hslot]
    exact .inl rfl
  · by_cases hvalid : rowValid image image.slot count destination source
    · have hrow : Instruction.Valid cfg ⟨count, destination, source⟩ :=
        (rowValid_iff h.toFor hvalid.1).mp hvalid
      have heq := csCopyEmit_eq h.toFor (Nat.not_le.mp hslot) hrow
      dsimp only at heq
      rw [heq]
      exact .inr ⟨rfl, emitted_append h.roomy h.toFor id rfl rfl
        (List.forall_mem_singleton.mpr hrow)⟩
    · rw [csCopyEmit, if_neg hslot, csCopyRow, if_pos hvalid]
      exact .inl rfl

theorem atomic_arithmetic32 (h : Fitting cfg image) (subtract : Bool)
    (destination left right table temporary carry : Nat) :
    Atomic ((ImageCall.arithmetic32 subtract destination left right table temporary carry).Emitted
      image) image (arithmetic32 image subtract destination left right table temporary carry) := by
  by_cases hvalid : addValid image destination left right table temporary carry
  · have hbehind : ∀ {a n}, 0 < n →
        (a, n) ∈ addOperands destination left right table temporary carry → Behind cfg a n :=
      fun hn hm ↦ behind_of_operandFits h.roomy h.toFor hn (hvalid.2.1 _ hm)
    simp only [addOperands, List.mem_cons, List.not_mem_nil, or_false] at hbehind
    have hd := hbehind (by decide) (.inl rfl)
    have hl := hbehind (by decide) (.inr (.inl rfl))
    have hr := hbehind (by decide) (.inr (.inr (.inl rfl)))
    have ht := hbehind (by decide) (.inr (.inr (.inr (.inl rfl))))
    have hm := hbehind (by decide) (.inr (.inr (.inr (.inr (.inl rfl)))))
    have hc := hbehind (by decide) (.inr (.inr (.inr (.inr (.inr rfl)))))
    rw [arithmetic32_eq h.roomy h.toFor subtract hvalid hd hl hr ht hm hc,
      ← h.toFor.rows_arithmetic32 subtract]
    refine .inr ⟨rfl, emitted_append h.roomy h.toFor _ rfl rfl ?_⟩
    rw [h.toFor.rows_arithmetic32]
    have hslot : image.slot ≤ 255 - 193 := hvalid.1.2.1
    exact valid_arithmetic32Rows h.roomy (by omega) hd hl hr ht hm hc
  · rw [arithmetic32, if_pos hvalid]
    exact .inl rfl

theorem atomic_bits32 (h : Fitting cfg image) {number : Nat} {operation : BitOperation}
    (destination left right table : Nat) :
    Atomic ((ImageCall.bits32 number destination left right table).Emitted image) image
      (csCopyBits32 image operation destination left right table) := by
  by_cases hvalid : bitsValid image destination left right table
  · have hbehind : ∀ {a n}, 0 < n →
        (a, n) ∈ [(destination, 32), (left, 32), (right, 32), (table, 4)] → Behind cfg a n :=
      fun hn hm ↦ behind_of_operandFits h.roomy h.toFor hn (hvalid.2.1 _ hm)
    simp only [List.mem_cons, List.not_mem_nil, or_false] at hbehind
    have hd := hbehind (by decide) (.inl rfl)
    have hl := hbehind (by decide) (.inr (.inl rfl))
    have hr := hbehind (by decide) (.inr (.inr (.inl rfl)))
    have ht := hbehind (by decide) (.inr (.inr (.inr rfl)))
    rw [csCopyBits32_eq h.roomy h.toFor operation hvalid hd hl hr ht,
      ← h.toFor.rows_bits32 number]
    refine .inr ⟨rfl, emitted_append h.roomy h.toFor _ rfl rfl ?_⟩
    rw [h.toFor.rows_bits32]
    have hslot : image.slot ≤ 255 - 96 := hvalid.1.1
    exact valid_bits32Rows h.roomy (by omega) hd hl hr ht
  · rw [csCopyBits32, if_pos hvalid]
    exact .inl rfl

theorem ImageCall.atomic (h : Fitting cfg image) (call : ImageCall) :
    Atomic (call.Emitted image) image (call.run image) := by
  cases call with
  | constant at_ width value =>
      rw [ImageCall.run, csCopyConstant]
      split
      · exact .inl rfl
      · exact .inr ⟨rfl, fun i row hi ↦ (nomatch hi), rfl⟩
  | row slot count destination source => exact atomic_row h slot count destination source
  | emit count destination source => exact atomic_emit h count destination source
  | arithmetic32 subtract destination left right table temporary carry =>
      cases subtract <;> exact atomic_arithmetic32 h _ destination left right table temporary carry
  | bits32 operation destination left right table =>
      rw [ImageCall.run]
      split
      · exact .inl rfl
      · exact atomic_bits32 h destination left right table

/-! ## Calls on a program -/

/-- The layer that is being written is the last one of the code. -/
structure Sequence (cfg : Config) (program : CopyProgram) : Prop where
  target : Target cfg
  toFor : program.For cfg program.codeBegin program.codeLimit
  layer : program.codeBegin ≤ program.image.layer
  codeEnd : program.codeEnd = program.image.layer + cfg.layerBits
  codeEnd_le : program.codeEnd ≤ program.codeLimit

theorem Sequence.fitting (h : Sequence cfg program) : Fitting cfg program.image :=
  ⟨h.target.roomy, h.toFor.image⟩

/-- The program after another call on its image. -/
theorem Sequence.congr (h : Sequence cfg program) (hfields : image' =
    { program.image with data := image'.data, slot := image'.slot }) :
    Sequence cfg { program with image := image' } := by
  have hfor := (h.fitting.congr hfields).toFor
  obtain ⟨-, hbegin, hlimit, hlayer, hle, hbytes, hspace⟩ := h.toFor
  refine ⟨h.target, ⟨hfor, hbegin, hlimit, hlayer, hle, ?_, ?_⟩, ?_, ?_, h.codeEnd_le⟩ <;>
    dsimp only <;> rw [hfields]
  · exact hbytes
  · exact hspace
  · exact h.layer
  · exact h.codeEnd

theorem Sequence.next (h : Sequence cfg program)
    (hnext : csCopyProgramNext program = (0, program')) : Sequence cfg program' ∧
      program'.image.layer = program.codeEnd ∧ program'.image.slot = 3 ∧
      program'.image.bytes = program.image.bytes ∧
      program.codeEnd + cfg.layerBits ≤ program.codeLimit ∧
      program'.image.row program.image.layer 255 =
        ⟨program.image.layerBits, 0, program.codeEnd⟩ := by
  have hle := h.toFor.limit_le
  have hbytes := h.toFor.bytes_le
  have hbegin := h.layer
  have hend := h.codeEnd
  obtain ⟨hfit, rfl⟩ := h.toFor.next_eq_zero h.target hnext
  have hs' : Sequence cfg { program with
      image := ⟨nextData cfg program.image.layer program.codeEnd program.image.data,
        program.image.bytes, cfg.spaceSize, program.codeEnd, cfg.layerBits, cfg.addressSize,
        cfg.nSize, cfg.instructionSize, 3⟩
      codeEnd := program.codeEnd + cfg.layerBits } :=
    ⟨h.target, ⟨⟨rfl, rfl, rfl, rfl, rfl⟩, h.toFor.codeBegin, h.toFor.codeLimit, h.toFor.layer_le,
      h.toFor.begin_le, h.toFor.limit_le, h.toFor.bytes_le⟩, by dsimp only; omega, rfl, hfit⟩
  refine ⟨hs', rfl, rfl, rfl, hfit, ?_⟩
  rw [hs'.toFor.image.row, h.toFor.image.layerBits]
  exact rowAt_putRow (h.target.fits (valid_link h.target (by omega)))

theorem atomic_next (h : Sequence cfg program) :
    Atomic (fun program' ↦ ProgramCall.next.Emitted program program') program
      (csCopyProgramNext program) := by
  have hstatus : csCopyProgramNext program = (-1, program) ∨ (csCopyProgramNext program).1 = 0 := by
    unfold csCopyProgramNext
    dsimp only
    split
    · exact .inl rfl
    · split
      · exact .inl rfl
      · exact .inr rfl
  refine hstatus.imp id fun h0 ↦ ?_
  obtain ⟨-, hlayer, hslot, -, -, hrow⟩ := h.next (Prod.ext h0 rfl)
  exact ⟨h0, hlayer, hslot, hrow⟩

/-- A group of rows, for which there may have to be a new layer, is emitted if a call on the image
that has room for it cannot fail. -/
theorem atomic_afterRoom (h : Sequence cfg program) {count : Nat} (hcount : count ≤ 252)
    {call : ImageCall} {f : CopyImage → Int × CopyImage}
    (hf : ∀ q, q = program ∨ csCopyProgramNext program = (0, q) → q.image.slot + count ≤ 255 →
      (f q.image).1 = 0 ∧ call.Emitted q.image (f q.image).2) :
    Atomic (EmittedInProgram call program) program (afterRoom program count f) := by
  have hgroup : ∀ q, q = program ∨ csCopyProgramNext program = (0, q) →
      q.image.slot + count ≤ 255 → room program count = (0, q) →
      Atomic (EmittedInProgram call program) program (afterRoom program count f) := by
    intro q hq hslot hroom
    obtain ⟨hstatus, hemitted⟩ := hf q hq hslot
    rw [afterRoom, hroom]
    exact .inr ⟨hstatus, q, hq, hemitted, rfl⟩
  by_cases hslot : program.image.slot ≤ 255 - count
  · refine hgroup program (.inl rfl) (by omega) ?_
    rw [room, if_neg (by omega), if_pos hslot]
  · have hroom : room program count = csCopyProgramNext program := by
      rw [room, if_neg (by omega), if_neg hslot]
    obtain hfail | ⟨hstatus, -, hthree, -⟩ := atomic_next h
    · rw [afterRoom, hroom, hfail]
      exact .inl rfl
    · have hnext : csCopyProgramNext program = (0, (csCopyProgramNext program).2) :=
        Prod.ext hstatus rfl
      exact hgroup _ (.inr hnext) (by omega) (hroom.trans hnext)

theorem Sequence.room (h : Sequence cfg program) {q : CopyProgram}
    (hq : q = program ∨ csCopyProgramNext program = (0, q)) : Sequence cfg q := by
  obtain rfl | hnext := hq
  · exact h
  · exact (h.next hnext).1

/-- Operands that are right for the layer that is being written are right for the next one. -/
theorem operandFits_room (h : Sequence cfg program) {operands : List (Nat × Nat)}
    (hcode : outsideCode program operands)
    (hfits : ∀ operand ∈ operands, operandFits { program.image with slot := 3 } operand)
    (hpos : ∀ operand ∈ operands, 0 < operand.2) {q : CopyProgram}
    (hq : q = program ∨ csCopyProgramNext program = (0, q)) :
    ∀ operand ∈ operands, operandFits q.image operand := by
  obtain rfl | hnext := hq
  · exact hfits
  · rintro ⟨a, n⟩ hm
    have hn : 0 < n := hpos _ hm
    obtain ⟨hs', hlayer, -, -, hfit, -⟩ := h.next hnext
    obtain ⟨hfitsSpace, -, hlow⟩ := hfits _ hm
    obtain ⟨hbehind, hapart⟩ := operand_placed h.target h.toFor hcode hfits hm hn
    have h32 := cfg.spaceSize_lt
    have hle := h.toFor.limit_le
    have hbytes := h.toFor.bytes_le
    have hbegin := h.layer
    have hend := h.codeEnd
    have hhigh := hbehind.2
    have hI := h.target.instructionSize_eq
    have h5 := h.target.five_le
    have hL := h.target.layerBits_eq
    have hlayerBits : q.image.layerBits = program.image.layerBits :=
      hs'.toFor.image.layerBits.trans h.toFor.image.layerBits.symm
    refine ⟨?_, ?_, hlayerBits ▸ hlow⟩
    · rw [hs'.toFor.image.spaceBits, ← h.toFor.image.spaceBits]
      exact hfitsSpace
    · rw [hs'.toFor.image.layerBits, hlayer, overlaps, u32_of_lt (by omega),
        u32_of_lt (by dsimp only; omega)]
      dsimp only
      rintro ⟨h₁, h₂⟩
      by_cases hle : a ≤ program.codeEnd
      · exact hapart program.codeEnd (by omega) (by omega) ⟨hle, h₂⟩
      · exact hapart a (by omega) (by omega) ⟨le_rfl, by omega⟩

theorem atomic_programEmit (h : Sequence cfg program) (count destination source : Nat) :
    Atomic (EmittedInProgram (.emit count destination source) program) program
      (csCopyProgramEmit program count destination source) := by
  by_cases hvalid : rowValid program.image 3 count destination source
  · rw [csCopyProgramEmit, if_neg (not_not.mpr hvalid)]
    refine atomic_afterRoom h (by decide) fun q hq hslot ↦ ?_
    have hs' := h.room hq
    have hrow : Instruction.Valid cfg ⟨count, destination, source⟩ :=
      (rowValid_iff h.toFor.image (by decide)).mp hvalid
    have heq := csCopyEmit_eq hs'.toFor.image (by omega) hrow
    dsimp only at heq
    obtain hfail | hemitted := atomic_emit hs'.fitting count destination source
    · rw [heq] at hfail
      cases hfail
    · exact hemitted
  · rw [csCopyProgramEmit, if_pos hvalid]
    exact .inl rfl

theorem atomic_programArithmetic32 (h : Sequence cfg program) (subtract : Bool)
    (destination left right table temporary carry : Nat) :
    Atomic (EmittedInProgram
        (.arithmetic32 subtract destination left right table temporary carry) program) program
      (programArithmetic32 program subtract destination left right table temporary carry) := by
  unfold programArithmetic32
  split
  · exact .inl rfl
  · next hv =>
      obtain ⟨hcode, hvalid⟩ := not_or.mp hv
      rw [not_not] at hcode hvalid
      obtain ⟨⟨h5, -, h16⟩, hfits, hapart, hdest, htable, hcarry⟩ := hvalid
      refine atomic_afterRoom h (by decide) fun q hq hslot ↦ ?_
      have hs' := h.room hq
      have hbytes : q.image.bytes = program.image.bytes := by
        obtain rfl | hnext := hq
        · rfl
        · exact (h.next hnext).2.2.2.1
      have haddress : q.image.addressBits = program.image.addressBits :=
        hs'.toFor.image.addressBits.trans h.toFor.image.addressBits.symm
      have hvalid : addValid q.image destination left right table temporary carry :=
        ⟨⟨haddress ▸ h5, by omega, h16⟩,
          operandFits_room h hcode hfits (by simp [addOperands]) hq, hapart, hdest,
          hbytes ▸ htable, hbytes ▸ hcarry⟩
      obtain hfail | hemitted :=
        atomic_arithmetic32 hs'.fitting subtract destination left right table temporary carry
      · rw [arithmetic32, if_neg (not_not.mpr hvalid)] at hfail
        cases hfail
      · exact hemitted

theorem atomic_programBits32 (h : Sequence cfg program) {number : Nat} (operation : BitOperation)
    (destination left right table : Nat) :
    Atomic (EmittedInProgram (.bits32 number destination left right table) program) program
      (csCopyProgramBits32 program operation destination left right table) := by
  unfold csCopyProgramBits32
  split
  · exact .inl rfl
  · next hv =>
      obtain ⟨hcode, hvalid⟩ := not_or.mp hv
      rw [not_not] at hcode hvalid
      obtain ⟨⟨-, h4, htable⟩, hfits, hapart, hdest⟩ := hvalid
      refine atomic_afterRoom h (by decide) fun q hq hslot ↦ ?_
      have hs' := h.room hq
      have hbytes : q.image.bytes = program.image.bytes := by
        obtain rfl | hnext := hq
        · rfl
        · exact (h.next hnext).2.2.2.1
      have hvalid : bitsValid q.image destination left right table :=
        ⟨⟨by omega, h4, hbytes ▸ htable⟩, operandFits_room h hcode hfits (by simp) hq, hapart,
          hdest⟩
      have hatomic : Atomic
          ((ImageCall.bits32 number destination left right table).Emitted q.image) q.image
          (csCopyBits32 q.image operation destination left right table) :=
        atomic_bits32 hs'.fitting destination left right table
      obtain hfail | hemitted := hatomic
      · rw [csCopyBits32, if_neg (not_not.mpr hvalid)] at hfail
        cases hfail
      · exact hemitted

theorem atomic_patchJump (h : Sequence cfg program) (layer target : Nat) :
    Atomic (fun program' ↦ (ProgramCall.patchJump layer target).Emitted program program') program
      (csCopyProgramPatchJump program layer target) := by
  rw [csCopyProgramPatchJump]
  dsimp only
  split
  · exact .inl rfl
  · have hfor : CopyImage.For cfg { program.image with layer := layer } :=
      ⟨h.toFor.image.1, h.toFor.image.2, h.toFor.image.3, h.toFor.image.4, h.toFor.image.5⟩
    obtain hfail | ⟨hstatus, hemitted⟩ :=
      atomic_row ⟨h.target.roomy, hfor⟩ 255 program.image.layerBits 0 target
    · rw [hfail]
      exact .inl rfl
    · refine .inr ⟨hstatus, ?_⟩
      have hrow := hemitted.rows 0 _ rfl
      rw [hemitted.fields] at hrow
      exact hrow

theorem atomic_finish (h : Sequence cfg program) (zeroLayer : Nat) :
    Atomic (fun program' ↦ (ProgramCall.finish zeroLayer).Emitted program program') program
      (csCopyProgramFinish program zeroLayer) := by
  unfold csCopyProgramFinish
  dsimp only
  split
  · exact .inl rfl
  next hchecks =>
  split
  · exact .inl rfl
  split
  · exact .inl rfl
  next boot hinit =>
  have hfor := h.toFor.image
  have hbegin := h.toFor.begin_le
  have hlimit := h.toFor.limit_le
  have hbytes := h.toFor.bytes_le
  have hlow := h.toFor.layer_le
  have hlayer := h.layer
  have hL := h.target.layerBits_eq
  have hzero : zeroLayer + cfg.layerBits ≤ program.image.bytes * 8 := by
    have hfit := (not_or.mp (not_or.mp hchecks).2).1
    rwa [not_not, fits_iff, hfor.layerBits] at hfit
  rw [hfor.addressBits] at hinit
  obtain ⟨rfl, -, -⟩ := csCopyImageInit_eq_some h.target hinit
  -- both links are valid rows, so both are written
  have hlink₁ := valid_link h.target (show zeroLayer + cfg.layerBits ≤ cfg.spaceSize by omega)
  have hlink₂ := valid_link h.target
    (show program.codeBegin + cfg.layerBits ≤ cfg.spaceSize by omega)
  have heq₁ := csCopyRow_eq (hfor.onData fun m ↦ m.putField 0 cfg.layerBits 0)
    (show 255 < 256 by decide) hlink₁
  have hboot : ∀ m : Bits, CopyImage.For cfg ⟨m, program.image.bytes, cfg.spaceSize, 0,
      cfg.layerBits, cfg.addressSize, cfg.nSize, cfg.instructionSize, 3⟩ := fun m ↦
    ⟨rfl, rfl, rfl, rfl, rfl⟩
  have heq₂ := fun m ↦ csCopyRow_eq (hboot m) (show 255 < 256 by decide) hlink₂
  dsimp only [CopyImage.onData] at heq₁ heq₂ ⊢
  rw [hfor.layerBits] at heq₁ ⊢
  rw [heq₁, heq₂]
  have hfor' : ∀ m : Bits, CopyImage.For cfg { program.image with data := m } := fun m ↦
    hfor.onData fun _ ↦ m
  have hkeep : (((program.image.data.putField 0 cfg.layerBits 0).putRow cfg
        (program.image.layer + 255 * cfg.instructionSize) ⟨cfg.layerBits, 0, zeroLayer⟩).putRow cfg
        (0 + 255 * cfg.instructionSize) ⟨cfg.layerBits, 0, program.codeBegin⟩).rowAt cfg
      (program.image.layer + 255 * cfg.instructionSize) = ⟨cfg.layerBits, 0, zeroLayer⟩ :=
    (rowAt_congr fun b hb ↦ Bits.putRow_of_notMem (by omega)).trans
      (rowAt_putRow (h.target.fits hlink₁))
  refine .inr ⟨rfl, ((hfor' _).row _ _).trans ?_, ((hfor' _).row _ _).trans ?_⟩
  · rw [hfor.layerBits]
    exact hkeep
  · rw [hfor.layerBits]
    exact rowAt_putRow (h.target.fits hlink₂)

theorem ProgramCall.atomic (h : Sequence cfg program) (call : ProgramCall) :
    Atomic (fun program' ↦ call.Emitted program program') program (call.run program) := by
  cases call with
  | onImage call =>
      obtain hfail | ⟨hstatus, hemitted⟩ := call.atomic h.fitting
      · rw [ProgramCall.run, hfail]
        exact .inl rfl
      · exact .inr ⟨hstatus, hemitted, rfl⟩
  | next => exact atomic_next h
  | patchJump layer target => exact atomic_patchJump h layer target
  | emit count destination source => exact atomic_programEmit h count destination source
  | arithmetic32 subtract destination left right table temporary carry =>
      cases subtract <;>
        exact atomic_programArithmetic32 h _ destination left right table temporary carry
  | bits32 operation destination left right table =>
      rw [ProgramCall.run]
      split
      · exact .inl rfl
      · exact atomic_programBits32 h _ destination left right table
  | finish zeroLayer => exact atomic_finish h zeroLayer

/-! ## Reachable states -/

/-- The emulator for addresses of this width, if a layer fits into its space. -/
theorem exists_roomy {addressBits : Nat} (h31 : addressBits ≤ 31)
    (hlayer : 256 * (3 * addressBits - 1) ≤ 2 ^ addressBits) (h2 : 2 ≤ addressBits) :
    ∃ cfg : Config, Roomy cfg ∧ cfg.addressSize = addressBits := by
  have h13 : 13 ≤ addressBits := by
    by_contra hlt
    have hpow := Nat.pow_le_pow_right (show 0 < 2 by decide) (show addressBits ≤ 12 by omega)
    interval_cases addressBits <;> omega
  have hpow : 2 ^ addressBits ≤ 2 ^ 31 := Nat.pow_le_pow_right (by decide) h31
  have h8 : 2 ^ (addressBits - 3) * 8 = 2 ^ addressBits := by
    rw [show 8 = 2 ^ 3 from rfl, ← Nat.pow_add, Nat.sub_add_cancel (by omega)]
  let cfg : Config := ⟨2 ^ (addressBits - 3), 256, by omega, by decide⟩
  have hspace : cfg.spaceSize = 2 ^ addressBits := by
    change u32 (u32 (2 ^ (addressBits - 3)) * 8) = _
    rw [u32_of_lt (show 2 ^ (addressBits - 3) < 2 ^ 32 by omega), h8, u32_of_lt (by omega)]
  have haddress : cfg.addressSize = addressBits := by
    rw [Config.addressSize, hspace]
    exact ceilLog2U32_eq h31 le_rfl fun j hj ↦ Nat.pow_lt_pow_right (by decide) hj
  refine ⟨cfg, ⟨rfl, by rw [haddress, hspace], by omega, ?_⟩, haddress⟩
  rw [hspace]
  refine le_trans (le_of_eq ?_) hlayer
  change 256 * cfg.instructionSize = _
  unfold Config.instructionSize Config.nSize
  omega

theorem ImageReachable.fitting (h : ImageReachable image) : ∃ cfg, Fitting cfg image := by
  induction h with
  | @init data bytes addressBits layer image hinit =>
      unfold csCopyImageInit at hinit
      split at hinit
      · cases hinit
      next hv =>
      dsimp only at hinit
      split at hinit
      · cases hinit
      next hv' =>
      obtain rfl := Option.some.inj hinit
      rw [fits_iff] at hv'
      obtain ⟨cfg, hroomy, rfl⟩ := exists_roomy (by omega)
        (show 256 * (3 * addressBits - 1) ≤ 2 ^ addressBits by omega) (by omega)
      have hI : cfg.instructionSize = 3 * cfg.addressSize - 1 := by
        unfold Config.instructionSize Config.nSize
        omega
      exact ⟨cfg, hroomy, rfl, rfl, hI.symm, hroomy.space.symm, by
        dsimp only
        rw [hroomy.layerBits_eq, hI]⟩
  | call call _ hrun ih =>
      obtain ⟨cfg, hfitting⟩ := ih
      obtain hfail | ⟨-, hemitted⟩ := call.atomic hfitting
      · rw [hrun] at hfail
        cases hfail
      · rw [hrun] at hemitted
        exact ⟨cfg, hfitting.congr hemitted.congr⟩

theorem sequence_init {data : Bits} {bytes addressBits codeBegin codeLimit : Nat}
    (h : csCopyProgramInit data bytes addressBits codeBegin codeLimit = some program) :
    ∃ cfg, Sequence cfg program := by
  have himage : ∃ image,
      csCopyImageInit data bytes addressBits codeBegin = some image := by
    unfold csCopyProgramInit at h
    split at h
    · cases h
    · dsimp only at h
      split at h
      · cases h
      · obtain ⟨image, hinit, -⟩ := Option.map_eq_some_iff.mp h
        exact ⟨image, hinit⟩
  obtain ⟨image, hinit⟩ := himage
  obtain ⟨cfg, hfitting⟩ := (ImageReachable.init hinit).fitting
  have haddress : cfg.addressSize = addressBits := by
    rw [← hfitting.toFor.addressBits]
    unfold csCopyImageInit at hinit
    split at hinit
    · cases hinit
    · dsimp only at hinit
      split at hinit
      · cases hinit
      · obtain rfl := Option.some.inj hinit
        rfl
  subst haddress
  obtain ⟨htarget, -⟩ := target_of_init hfitting.roomy.slots hfitting.roomy.space h
  have hlaid := laid_init htarget h
  refine ⟨cfg, htarget, ?_, ?_, hlaid.codeEnd, hlaid.codeEnd_le⟩
  · rw [hlaid.toFor.codeBegin]
    exact hlaid.toFor
  · rw [hlaid.toFor.codeBegin]
    exact hlaid.lo_le

theorem csCopyProgramPatchJump_fields {layer target : Nat} {status : Int}
    (h : csCopyProgramPatchJump program layer target = (status, program')) : program' =
      { program with image := { program.image with data := program'.image.data } } := by
  unfold csCopyProgramPatchJump at h
  dsimp only at h
  split at h <;> (cases h; rfl)

theorem csCopyProgramFinish_fields {zeroLayer : Nat} {status : Int}
    (h : csCopyProgramFinish program zeroLayer = (status, program')) : program' =
      { program with image := { program.image with data := program'.image.data } } := by
  unfold csCopyProgramFinish at h
  dsimp only at h
  split at h
  · cases h
    rfl
  split at h
  · cases h
    rfl
  split at h <;> (cases h; rfl)

theorem Sequence.call (h : Sequence cfg program) {call : ProgramCall}
    (hrun : call.run program = (0, program')) : Sequence cfg program' := by
  have hdata : ∀ m, Sequence cfg
      { program with image := { program.image with data := m } } := fun m ↦ h.congr rfl
  have hgroup : ∀ {call : ImageCall}, EmittedInProgram call program program' →
      Sequence cfg program' := by
    rintro call ⟨q, hq, hemitted, hprogram⟩
    rw [hprogram]
    exact (h.room hq).congr hemitted.congr
  have hatomic := call.atomic h
  rw [hrun] at hatomic
  obtain hfail | ⟨-, hemitted⟩ := hatomic
  · cases hfail
  cases call with
  | onImage call =>
      have hprogram : program' = { program with image := program'.image } := hemitted.2
      rw [hprogram]
      exact h.congr hemitted.1.congr
  | next => exact (h.next hrun).1
  | patchJump layer target =>
      rw [csCopyProgramPatchJump_fields hrun]
      exact hdata _
  | emit count destination source => exact hgroup hemitted
  | arithmetic32 subtract destination left right table temporary carry => exact hgroup hemitted
  | bits32 operation destination left right table => exact hgroup hemitted
  | finish zeroLayer =>
      rw [csCopyProgramFinish_fields hrun]
      exact hdata _

theorem Reachable.sequence (h : Reachable program) : ∃ cfg, Sequence cfg program := by
  induction h with
  | init hinit => exact sequence_init hinit
  | call call _ hrun ih =>
      obtain ⟨cfg, hs⟩ := ih
      exact ⟨cfg, hs.call hrun⟩

/-- A call on a program, or on an image, that has been initialized and on which any calls have
succeeded either fails and changes nothing, or emits all of its rows. -/
theorem emission_atomic :
    (∀ program, Reachable program → ∀ call : ProgramCall,
      Atomic (fun program' ↦ call.Emitted program program') program (call.run program)) ∧
    ∀ image, ImageReachable image → ∀ call : ImageCall,
      Atomic (call.Emitted image) image (call.run image) := by
  refine ⟨fun program h call ↦ ?_, fun image h call ↦ ?_⟩
  · obtain ⟨cfg, hs⟩ := h.sequence
    exact call.atomic hs
  · obtain ⟨cfg, hfitting⟩ := h.fitting
    exact call.atomic hfitting

theorem emission_atomic_empty :
    ∃ program, csCopyProgramInit (fun _ ↦ false) 4096 15 11264 32768 = some program ∧
      Atomic (fun program' ↦ (ProgramCall.emit 1 0 0).Emitted program program') program
        ((ProgramCall.emit 1 0 0).run program) := by
  have hinit : csCopyProgramInit (fun _ ↦ false) 4096 15 11264 32768 = some _ := rfl
  exact ⟨_, hinit, emission_atomic.1 _ (.init hinit) _⟩

end CopySpace.Emit
