import CopySpace.Emit.Constant
import CopySpace.Link.Layout

/-!
# `copy_link.c`: the state of the linker

`struct context`, and the functions that only add to it.  A function that fails makes the whole
link fail, so there is no context when it does; those that return a message return it.  An
internal label is found by its number.  The capacities of the tables are those of the build.
-/

namespace CopySpace.Link

open Emit

/-- `CS_COPY_LABEL_CAPACITY` and its siblings. -/
structure Capacities where
  label : Nat
  jump : Nat
  call : Nat
  symbol : Nat
  relocation : Nat
deriving DecidableEq

/-! ## Addresses -/

def constantBase : Nat := 24576
def constantCapacity : Nat := (regBase - constantBase) / 32
def addTable : Nat := 33792
def subTable : Nat := 33808
def andTable : Nat := 33824
def orTable : Nat := 33828
def xorTable : Nat := 33832
def temporary : Nat := 33840
def carry : Nat := 33842
def shiftWord : Nat := 33856
def shiftCount : Nat := 33888
def shiftPair : Nat := 33894
def shiftZero : Nat := 33896
def cmpEq : Nat := 33900
def cmpLtu : Nat := 33901
def cmpLts : Nat := 33902
def cmpLeu : Nat := 33903
def cmpLes : Nat := 33904
def cmpSign : Nat := 33905
def eqTable : Nat := 33920
def ltTable : Nat := 33928
def mulLeft : Nat := 34240
def mulRight : Nat := 34272
def mulAcc : Nat := 34304
def mulAddend : Nat := 34336
def mulMarker : Nat := 34368
def mulStop : Nat := 34400
def divNum : Nat := 34528
def divDen : Nat := 34560
def divRem : Nat := 34592
def divQuo : Nat := 34624
def divMark : Nat := 34656
def divOverflow : Nat := 34688
def divStop : Nat := 34689
def divFlags : Nat := 34690
def divReduce : Nat := 34695
def divNumSign : Nat := 34696
def divDenSign : Nat := 34697
def divSign : Nat := 34698
def memAddress : Nat := 34720
def memFlags : Nat := 34752
def memValid : Nat := 34757
def memBitAddress : Nat := 34784
def stackValue : Nat := 34816
def returnFp : Nat := 34848
def returnPc : Nat := 34880
def callTarget : Nat := 34912
def branchTable : Nat := 60032
def output : Nat := 34000
def status : Nat := 34100
def zeroLayer : Nat := 36352

def Capacities.callTable (c : Capacities) : Nat := branchTable + 64 * c.jump
def Capacities.symbolTable (c : Capacities) : Nat := c.callTable + 32 * c.call
def Capacities.codeBegin (c : Capacities) : Nat := c.symbolTable + 32 * c.symbol

/-! ## The context -/

/-- An entry of `jumps`; it has no label when it goes to the report. -/
structure Jump where
  layer : Nat
  table : Nat
  fallthrough : Nat
  label : Option Key
  inverted : Bool
  line : Nat
deriving DecidableEq

/-- `struct data_fragment`. -/
structure DataFragment where
  staging : Nat
  offset : Nat
  count : Nat
  dataSection : Nat
deriving DecidableEq

/-- An entry of `relocations`. -/
structure Relocation where
  addend : Nat
  destination : Nat
  label : Key
  subtract : Option Key
  bytes : Nat
deriving DecidableEq

/-- `struct context`. -/
structure Context where
  capacities : Capacities
  program : CopyProgram
  constants : List Nat
  labels : LabelTable
  jumps : List Jump
  compared : Bool
  dataBegin : Nat
  memoryBytes : Nat
  memoryAddressBits : Nat
  memoryFault : Option Key
  returnHandler : Option Key
  callCount : Nat
  symbols : List (Key × Nat)
  programMode : Bool
  sectionKind : Nat
  sections : List DataSection
  activeSection : Nat
  previousSection : Nat
  previousValid : Bool
  sectionStack : List Nat
  fragments : List DataFragment
  dataCursor : Nat
  relocations : List Relocation
  assembly : Text
  statementOffset : Option Nat

/-- What a function without a result fails with, when its caller names the message. -/
def orFail {α : Type} (message : String) : Option α → Except String α
  | some a => .ok a
  | none => .error message

namespace Context

/-! ## The program -/

/-- A call on the program. -/
def onProgram (ctx : Context) (r : Int × CopyProgram) : Option Context :=
  if r.1 = 0 then some { ctx with program := r.2 } else none

/-- A call on the image. -/
def onImage (ctx : Context) (r : Int × CopyImage) : Option Context :=
  if r.1 = 0 then some { ctx with program := { ctx.program with image := r.2 } } else none

def emit (count destination source : Nat) (ctx : Context) : Option Context :=
  ctx.onProgram (csCopyProgramEmit ctx.program count destination source)

def next (ctx : Context) : Option Context := ctx.onProgram (csCopyProgramNext ctx.program)

/-- `cs_copy_program_add32` with the tables of the linker. -/
def add32 (destination left right : Nat) (ctx : Context) : Option Context :=
  ctx.onProgram (csCopyProgramAdd32 ctx.program destination left right addTable temporary carry)

/-- `cs_copy_program_sub32` with the tables of the linker. -/
def sub32 (destination left right : Nat) (ctx : Context) : Option Context :=
  ctx.onProgram (csCopyProgramSub32 ctx.program destination left right subTable temporary carry)

/-- The table of a bit operation. -/
def bitTable : BitOperation → Nat
  | .and => andTable
  | .or => orTable
  | .xor => xorTable

/-- `cs_copy_program_bits32` with the tables of the linker. -/
def bits32 (operation : BitOperation) (destination left right : Nat) (ctx : Context) :
    Option Context :=
  ctx.onProgram
    (csCopyProgramBits32 ctx.program operation destination left right (bitTable operation))

/-- `cs_copy_constant` in the image of the program. -/
def putConstant (at_ width value : Nat) (ctx : Context) : Option Context :=
  ctx.onImage (csCopyConstant ctx.program.image at_ width value)

/-! ## Labels, symbols and constants -/

/-- `label`. -/
def label (name : Text) (ctx : Context) : Option (Key × Context) :=
  (Link.label ctx.capacities.label ctx.assembly ctx.statementOffset name ctx.labels).map
    fun (k, labels) ↦ (k, { ctx with labels := labels })

/-- `expression`. -/
def expression (text : Text) (ctx : Context) : Option (Key × Nat × Context) :=
  (Link.expression ctx.capacities.label ctx.assembly ctx.statementOffset text ctx.labels).map
    fun (k, addend, labels) ↦ (k, addend, { ctx with labels := labels })

/-- `constant`: the address of a constant. -/
def constant (value : Nat) (ctx : Context) : Option (Nat × Context) :=
  match ctx.constants.findIdx? (· = value) with
  | some i => some (constantBase + 32 * i, ctx)
  | none =>
      if ctx.constants.length = constantCapacity then none
      else do
        let ctx' ← putConstant (constantBase + 32 * ctx.constants.length) 32 value
          { ctx with constants := ctx.constants ++ [value] }
        some (constantBase + 32 * ctx.constants.length, ctx')

/-- `symbol`: the address of the word that will hold the value of an expression. -/
def symbol (name : Text) (ctx : Context) : Option (Nat × Context) := do
  let (k, addend, ctx) ← ctx.expression name
  match ctx.symbols.findIdx? (· = (k, addend)) with
  | some i => some (ctx.capacities.symbolTable + 32 * i, ctx)
  | none =>
      if ctx.symbols.length = ctx.capacities.symbol then none
      else some (ctx.capacities.symbolTable + 32 * ctx.symbols.length,
        { ctx with symbols := ctx.symbols ++ [(k, addend)] })

/-- `internal_label`. -/
def internalLabel (ctx : Context) : Option (Key × Context) :=
  (Link.internalLabel ctx.capacities.label ctx.labels).map
    fun (k, labels) ↦ (k, { ctx with labels := labels })

/-- Define a label as the layer that is being written. -/
def defineHere (k : Key) (ctx : Context) : Context :=
  { ctx with labels := ctx.labels.modify k fun l ↦
      { l with defined := true, address := ctx.program.image.layer } }

/-- `bind_internal`. -/
def bindInternal (k : Key) (ctx : Context) : Option Context := ctx.next.map (defineHere k)

/-! ## Jumps -/

/-- `jump`: the layer being written will load that of the target. -/
def jump (target : Option Key) (line : Nat) (ctx : Context) : Option Context :=
  if ctx.jumps.length = ctx.capacities.jump then none
  else ctx.next.map fun ctx' ↦
    { ctx' with jumps := ctx.jumps ++ [⟨ctx.program.image.layer, 0, 0, target, false, line⟩] }

/-- Make room in the layer: from this slot on, rows that belong together would not fit. -/
def fitSlots (limit : Nat) (ctx : Context) : Option Context :=
  if ctx.program.image.slot > limit then ctx.next else some ctx

/-- The position of the source of a row that is still to be written. -/
def sourceField (ctx : Context) (ahead : Nat) : Nat :=
  (ctx.program.image.slot + ahead) * ctx.program.image.instructionBits +
    ctx.program.image.countBits + ctx.program.image.addressBits

/-- The position of the source of the link. -/
def linkField (ctx : Context) : Nat :=
  255 * ctx.program.image.instructionBits + ctx.program.image.countBits +
    ctx.program.image.addressBits

def capacityExceeded : String := "copy image capacity exceeded"

/-- `conditional_jump`. -/
def conditionalJump (index : Key) (flag : Nat) (inverted : Bool) (line : Nat) (ctx : Context) :
    Except String Context :=
  if ctx.jumps.length = ctx.capacities.jump then .error "jump capacity exceeded"
  else orFail capacityExceeded do
    let ctx ← ctx.fitSlots 253
    let table := branchTable + 64 * ctx.jumps.length
    let ctx' ← ctx.emit 1 (ctx.sourceField 1 + 5) flag
    let ctx' ← ctx'.emit ctx.program.image.addressBits ctx.linkField table
    let ctx'' ← ctx'.jump (some index) line
    some { ctx'' with jumps := ctx''.jumps.modify ctx.jumps.length fun j ↦
      { j with table := table, inverted := inverted, fallthrough := ctx''.program.image.layer } }

/-- `dynamic_jump`. -/
def dynamicJump (address : Nat) (ctx : Context) : Option Context := do
  let ctx ← ctx.emit ctx.program.image.addressBits ctx.linkField address
  ctx.next

end Context

end CopySpace.Link
