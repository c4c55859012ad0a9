import CopySpace.Link.Operators

/-!
# `copy_link.c`: statements of the text section

`instruction` finds the operator of a statement and its operands; `call` and `return_frame` make
and leave frames.
-/

namespace CopySpace.Link

open Emit

namespace Context

/-! ## Calls -/

/-- What stands before a call: the target of an indirect one is saved, that of a direct one is
a label. -/
def callee (name : Text) (indirect : Bool) (ctx : Context) :
    Except String (Option Key × Context) :=
  if indirect then
    match reg name with
    | none => .error "invalid indirect function register"
    | some source => (orFail capacityExceeded (ctx.emit 32 callTarget source)).map fun ctx ↦ (none, ctx)
  else
    match ctx.label name with
    | none => .error "invalid function label"
    | some (target, ctx) => .ok (some target, ctx)

/-- The frame of a call: the frame pointer and the address of what follows the call. -/
def callFrame (continuation : Nat) (ctx : Context) : Option Context := do
  let (twelve, ctx) ← ctx.constant 12
  let ctx ← ctx.sub32 (regBase + 32) (regBase + 32) twelve
  let ctx ← (ctx.memoryAccess true 32 regBase (regBase + 32) 0).toOption
  let ctx ← (ctx.memoryAccess true 32 continuation (regBase + 32) 4).toOption
  ctx.emit 32 regBase (regBase + 32)

/-- `call`. -/
def call (name : Text) (line : Nat) (indirect : Bool) (ctx : Context) : Except String Context := do
  if ctx.callCount = ctx.capacities.call then .error "call capacity exceeded"
  else
    let (target, ctx) ← ctx.callee name indirect
    let continuation := ctx.capacities.callTable + 32 * ctx.callCount
    orFail capacityExceeded do
      let ctx ← callFrame continuation { ctx with callCount := ctx.callCount + 1 }
      let ctx ← (if indirect then ctx.dynamicJump callTarget else ctx.jump target line)
      ctx.putConstant continuation 32 ctx.program.image.layer

/-- `return_frame`. -/
def returnFrame (ctx : Context) : Option Context := do
  let (twelve, ctx) ← ctx.constant 12
  let ctx ← (ctx.memoryAccess false 32 returnFp regBase 0).toOption
  let ctx ← (ctx.memoryAccess false 32 returnPc regBase 4).toOption
  let ctx ← ctx.add32 (regBase + 32) regBase twelve
  let ctx ← ctx.emit 32 regBase returnFp
  ctx.dynamicJump returnPc

/-! ## Operators with two registers -/

/-- Extend the low bits of a register. -/
def extend32 (width : Nat) (signedExtension : Bool) (destination source : Nat) (ctx : Context) :
    Option Context := do
  let ctx ← ctx.emit width destination source
  if signedExtension then
    (List.range' width (32 - width)).foldlM
      (fun ctx bit ↦ ctx.emit 1 (destination + bit) (destination + width - 1)) ctx
  else
    let (zeroes, ctx) ← ctx.constant 0
    ctx.emit (32 - width) (destination + width) zeroes

/-- The operators with two registers. -/
def registers (operator : String) (destination source : Nat) (ctx : Context) :
    Except String Context :=
  let emitted := orFail capacityExceeded
  match operator with
  | "copy.mov" => emitted (ctx.emit 32 destination source)
  | "copy.zex.b" => emitted (ctx.extend32 8 false destination source)
  | "copy.zex.s" => emitted (ctx.extend32 16 false destination source)
  | "copy.sex.b" => emitted (ctx.extend32 8 true destination source)
  | "copy.sex.s" => emitted (ctx.extend32 16 true destination source)
  | "copy.cmp" => emitted (ctx.compare32 destination source)
  | "copy.mul" => emitted (ctx.multiply32 destination source)
  | "copy.udiv" => emitted (ctx.divide32 destination source false false)
  | "copy.umod" => emitted (ctx.divide32 destination source false true)
  | "copy.div" => emitted (ctx.divide32 destination source true false)
  | "copy.mod" => emitted (ctx.divide32 destination source true true)
  | "copy.neg" => do
      let (immutable, ctx) ← orFail "constant capacity exceeded" (ctx.constant 0)
      emitted (ctx.sub32 destination immutable source)
  | "copy.not" => do
      let (immutable, ctx) ← orFail "constant capacity exceeded" (ctx.constant (2 ^ 32 - 1))
      emitted (ctx.bits32 .xor destination source immutable)
  | "copy.add" => emitted (ctx.add32 destination destination source)
  | "copy.sub" => emitted (ctx.sub32 destination destination source)
  | "copy.and" => emitted (ctx.bits32 .and destination destination source)
  | "copy.or" => emitted (ctx.bits32 .or destination destination source)
  | "copy.xor" => emitted (ctx.bits32 .xor destination destination source)
  | "copy.ashl" => emitted (ctx.shift32 false false destination source)
  | "copy.lshr" => emitted (ctx.shift32 true false destination source)
  | "copy.ashr" => emitted (ctx.shift32 true true destination source)
  | _ => .error "unsupported operation"

/-! ## Operators with a number -/

/-- An operator with a register and a number, or with a symbol. -/
def immediate (operator : String) (destination : Nat) (argument : Text) (ctx : Context) :
    Except String Context :=
  match integer argument with
  | none =>
      if ¬ ctx.programMode ∨ operator ≠ "copy.ldi.l" then
        .error "invalid 32-bit integer or symbol"
      else match ctx.symbol argument with
        | none => .error "invalid 32-bit integer or symbol"
        | some (source, ctx) => orFail capacityExceeded (ctx.emit 32 destination source)
  | some value => do
      let value := if operator = "copy.ldi.b" then value % 256
        else if operator = "copy.ldi.s" then value % 65536 else value
      let (source, ctx) ← orFail "constant capacity exceeded" (ctx.constant value)
      orFail capacityExceeded (
        if operator = "copy.inc" then ctx.add32 destination destination source
        else if operator = "copy.dec" then ctx.sub32 destination destination source
        else ctx.emit 32 destination source)

def memoryOperators : List String :=
  ["copy.ld.b", "copy.ld.s", "copy.ld.l", "copy.lda.b", "copy.lda.s", "copy.lda.l", "copy.ldo.b",
    "copy.ldo.s", "copy.ldo.l", "copy.st.b", "copy.st.s", "copy.st.l", "copy.sta.b", "copy.sta.s",
    "copy.sta.l", "copy.sto.b", "copy.sto.s", "copy.sto.l"]

def immediateOperators : List String :=
  ["copy.ldi.l", "copy.ldi.b", "copy.ldi.s", "copy.inc", "copy.dec"]

/-- `instruction`. -/
def instruction (s : Text) (ctx : Context) : Except String Context :=
  let (operator, operands) := mnemonic s
  let operator := String.ofList operator
  let operands := trim operands
  if operator = "copy.nop" then
    if operands ≠ [] then .error "unexpected operand" else .ok ctx
  else match strchr ',' operands with
    | none => .error "two operands required"
    | some (left, right) =>
        if operator = "copy.push" then ctx.stack true (trim left) (trim right)
        else if operator = "copy.pop" then ctx.stack false (trim left) (trim right)
        else if operator ∈ memoryOperators then
          ctx.memory operator.toList (trim left) (trim right)
        else match reg (trim left) with
          | none => .error "invalid destination register"
          | some destination =>
              if operator ∈ immediateOperators then
                ctx.immediate operator destination (trim right)
              else match reg (trim right) with
                | none => .error "invalid source register"
                | some source => ctx.registers operator destination source

end Context

end CopySpace.Link
