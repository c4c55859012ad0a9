import CopySpace.Link.Instruction
import CopySpace.Link.Statements

/-!
# `copy_link.c`: linking a leaf

`cs_copy_link_leaf` is `link_image` for the text of one function that calls nothing: its
statements become layers one after the other, and the last layers write the result.  A statement
that fails makes the link fail, with its line.  A leaf cannot mention symbols, relocations or weak
labels, so their tables are empty at the end.
-/

namespace CopySpace.Link

open Emit

/-! ## Directives -/

/-- The word at the front of a statement, with a space behind it. -/
def begins (word : String) (s : Text) : Bool :=
  word.toList.isPrefixOf s && (s.drop word.length).head?.any whitespace

/-- The directives that are about nothing that is linked. -/
def metadataNames : List String :=
  [".text", ".file", ".ident", ".p2align", ".align", ".global", ".globl", ".type", ".size"]

/-- The sections that a leaf may name. -/
def metadataSection (s : Text) : Bool :=
  (".text".toList.isPrefixOf s &&
      (s.drop 5).head?.all fun c ↦ c = '.' || c = ',' || whitespace c) ||
    (".note.GNU-stack".toList.isPrefixOf s && (s.drop 15).head?.all fun c ↦ c = ',' || whitespace c)

/-- `metadata`. -/
def metadata (s : Text) : Bool :=
  (metadataNames.any fun name ↦
    name.toList.isPrefixOf s && (s.drop name.length).head?.all whitespace) ||
  (begins ".section" s && metadataSection ((s.drop 8).dropWhile whitespace))

/-! ## The start -/

/-- `DATA_BYTES`: the size of the memory of a leaf. -/
def leafMemory : Nat := 8192

/-- The constants that are there before the first statement: the tables, the stack, and the
arguments. -/
def leafConstants (arguments : List (BitVec 32)) : List (Nat × Nat × Nat) :=
  [(eqTable, 8, 144), (ltTable, 8, 212), (xorTable, 4, 6), (andTable, 4, 8), (orTable, 4, 14),
    (regBase, 32, leafMemory), (regBase + 32, 32, leafMemory)] ++
  arguments.mapIdx fun i argument ↦ (regBase + 32 * (i + 2), 32, argument.toNat)

/-- The context of an empty program. -/
def emptyContext (capacities : Capacities) (program : CopyProgram) (assembly : Text) : Context where
  capacities := capacities
  program := program
  constants := []
  labels := .empty
  jumps := []
  compared := false
  dataBegin := 0
  memoryBytes := leafMemory
  memoryAddressBits := 13
  memoryFault := none
  returnHandler := none
  callCount := 0
  symbols := []
  programMode := false
  sectionKind := 0
  sections := []
  activeSection := 0
  previousSection := 0
  previousValid := false
  sectionStack := []
  fragments := []
  dataCursor := 256
  relocations := []
  assembly := assembly
  statementOffset := none

/-- The context before the first statement. -/
def leafStart (capacities : Capacities) (bytes addressBits : Nat) (assembly : Text)
    (arguments : List (BitVec 32)) : Option Context := do
  let program ← csCopyProgramInit (fun _ ↦ false) bytes addressBits capacities.codeBegin (bytes * 8)
  (leafConstants arguments).foldlM (fun ctx c ↦ ctx.putConstant c.1 c.2.1 c.2.2)
    (emptyContext capacities program assembly)

/-! ## Statements -/

/-- What the loop over the statements has found. -/
structure LeafState where
  ctx : Context
  line : Nat
  physicalLine : Nat
  entered : Bool
  returned : Bool
  terminated : Bool
  trapped : Bool

/-- The text of a statement without comments and spaces around it. -/
def bare (text : Text) : Text := trim (stripComment false false (trim text))

/-- The entry of a label that is about to be defined. -/
def Context.enterLabel (s : Text) (ctx : Context) : Option (Key × Context) :=
  (statementLabel ctx.capacities.label ctx.assembly ctx.statementOffset s ctx.labels).map
    fun r ↦ (r.1, { ctx with labels := r.2 })

/-- A label begins a layer, unless one has just been begun. -/
def Context.beginLayer (ctx : Context) : Option Context :=
  if ctx.program.image.slot ≠ 3 then ctx.next else some ctx

/-- A label may stand here: the entry comes first, and only local labels after it. -/
def leafLabelAllowed (entry s : Text) (entered : Bool) : Bool :=
  if entered then (decimalLabel s).any (fun r ↦ r.1 = []) || ".L".toList.isPrefixOf s
  else s = entry

/-- A statement that is a label; `s` is without the colon. -/
def leafLabel (entry s : Text) (st : LeafState) : Except String LeafState :=
  if leafLabelAllowed entry s st.entered = false then
    .error "only one function and local labels are supported"
  else match st.ctx.enterLabel s with
    | none => .error "invalid or duplicate copy label"
    | some (k, ctx) =>
        if ctx.labels.taken k then .error "invalid or duplicate copy label"
        else (orFail Context.capacityExceeded ctx.beginLayer).map fun ctx ↦
          { st with ctx := ctx.defineHere k, entered := true, terminated := false }

/-- The label of the layer that stops a run. -/
def Context.faultLabel (ctx : Context) : Option (Key × Context) :=
  match ctx.memoryFault with
  | some k => some (k, ctx)
  | none => ctx.internalLabel.map fun r ↦ (r.1, { r.2 with memoryFault := some r.1 })

/-- `copy.trap`. -/
def Context.trap (line : Nat) (ctx : Context) : Option Context :=
  ctx.faultLabel.bind fun r ↦ r.2.jump (some r.1) line

/-- `copy.jmpa`. -/
def Context.jumpTo (name : Text) (line : Nat) (ctx : Context) : Except String Context :=
  match ctx.label name with
  | none => .error "invalid copy jump label"
  | some (k, ctx) => orFail Context.capacityExceeded (ctx.jump (some k) line)

/-- A statement that is neither a label nor a directive. -/
def leafOperation (s : Text) (st : LeafState) : Except String LeafState :=
  if ¬ st.entered ∨ st.terminated then .error "operation outside leaf body"
  else if s = "copy.trap".toList then
    (orFail Context.capacityExceeded (st.ctx.trap st.line)).map fun ctx ↦
      { st with ctx := ctx, trapped := true, terminated := true }
  else if s = "copy.ret".toList then
    (orFail Context.capacityExceeded (st.ctx.jump none st.line)).map fun ctx ↦
      { st with ctx := ctx, returned := true, terminated := true }
  else if "copy.branch.".toList.isPrefixOf s then
    (st.ctx.branch s st.line).map fun ctx ↦ { st with ctx := ctx }
  else if begins "copy.jmpa" s then
    (st.ctx.jumpTo (trim (s.drop 9)) st.line).map fun ctx ↦
      { st with ctx := ctx, terminated := true }
  else (st.ctx.instruction s).map fun ctx ↦ { st with ctx := ctx }

/-- A statement without comments and spaces around it. -/
def leafBare (entry s : Text) (st : LeafState) : Except String LeafState :=
  if s = [] then .ok st
  else if s.getLast? = some ':' then leafLabel entry (trim s.dropLast) st
  else if s.head? = some '.' then
    if metadata s then .ok st else .error "unsupported section or directive"
  else leafOperation s st

/-- The state in which a statement is linked: its lines are counted. -/
def LeafState.at (span : StatementSpan) (st : LeafState) : LeafState :=
  { st with
    line := st.physicalLine
    physicalLine := st.physicalLine +
      ((st.ctx.assembly.drop span.offset).take (span.next - span.offset)).count '\n'
    ctx := { st.ctx with statementOffset := some span.offset } }

/-- One round of the loop. -/
def leafStatement (entry : Text) (st : LeafState) (span : StatementSpan) :
    Except (Nat × String) LeafState :=
  (leafBare entry (bare (span.text st.ctx.assembly)) (st.at span)).mapError
    fun message ↦ (st.physicalLine, message)

/-! ## The end -/

/-- The layer that a run stops with: its link loads the layer that is empty. -/
def Context.stopLayer (fault : Key) (ctx : Context) : Option Context := do
  let ctx ← ctx.jump none 0
  let ctx ← ctx.bindInternal fault
  let layer := ctx.program.image.layer
  let ctx ← ctx.next
  let image := ctx.program.image
  let r := csCopyRow { image with layer := layer } 255 image.layerBits 0 zeroLayer
  if r.1 = 0 then
    some { ctx with program := { ctx.program with image := { image with data := r.2.data } } }
  else none

/-- The layers after the body, up to the one that reports the result. -/
def Context.reportLayer (ctx : Context) : Option Context :=
  (match ctx.memoryFault with
    | some fault => ctx.stopLayer fault
    | none => some ctx).bind next

/-- Where a jump goes. -/
def Context.jumpTarget (report : Nat) (ctx : Context) : Option Key → Option Nat
  | none => some report
  | some k =>
      let l := ctx.labels.label k
      if l.defined ∧ l.data = 0 then some l.address else none

/-- A jump is given its target. -/
def Context.resolveJump (report line : Nat) (ctx : Context) (j : Jump) :
    Except (Nat × String) Context :=
  match ctx.jumpTarget report j.label with
  | none => .error (j.line, "undefined or non-code jump label")
  | some target =>
      if j.table ≠ 0 then
        match (ctx.putConstant j.table 32 (if j.inverted then target else j.fallthrough)).bind
            (putConstant (j.table + 32) 32 (if j.inverted then j.fallthrough else target)) with
        | none => .error (line, "invalid conditional copy jump table")
        | some ctx => .ok ctx
      else match ctx.onProgram (csCopyProgramPatchJump ctx.program j.layer target) with
        | none => .error (line, "invalid copy jump target")
        | some ctx => .ok ctx

/-- Write the first register, the highest bit of a byte first, and stop. -/
def Context.report (ctx : Context) : Option Context := do
  let ctx ← (List.range 32).foldlM
    (fun ctx i ↦ ctx.emit 1 (output + i / 8 * 8 + 7 - i % 8) (regBase + 64 + i)) ctx
  let ctx ← ctx.next
  let ctx ← ctx.onImage (csCopyRow ctx.program.image 2 32 output status)
  ctx.onProgram (csCopyProgramFinish ctx.program zeroLayer)

/-- What comes after the last statement. -/
def leafFinish (line : Nat) (ctx : Context) : Except (Nat × String) Context := do
  let ctx ← (orFail Context.capacityExceeded ctx.reportLayer).mapError fun message ↦ (line, message)
  let ctx ← ctx.jumps.foldlM (Context.resolveJump ctx.program.image.layer line) ctx
  (orFail Context.capacityExceeded ctx.report).mapError fun message ↦ (line, message)

/-- `cs_copy_link_leaf`: the image, or the line and the message of an error. -/
def csCopyLinkLeaf (capacities : Capacities) (bytes addressBits : Nat) (assembly entry : Text)
    (arguments : List (BitVec 32)) : Except (Nat × String) Bits :=
  if bytes < 32768 ∨ bytes > uint32Max / 8 ∨ entry = [] ∨ arguments.length > 6 ∨
      assembly.contains (Char.ofNat 0) then .error (0, "invalid link input")
  else match leafStart capacities bytes addressBits assembly arguments with
    | none => .error (0, "invalid data/stack memory size")
    | some ctx => do
        let st ← (statements assembly).foldlM (leafStatement entry)
          ⟨ctx, 0, 1, false, false, false, false⟩
        if ¬ st.entered ∨ (¬ st.returned ∧ ¬ st.trapped) then
          .error (st.line, "missing leaf entry or return")
        else (leafFinish st.line st.ctx).map fun ctx ↦ ctx.program.image.data

end CopySpace.Link
