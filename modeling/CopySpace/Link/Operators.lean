import CopySpace.Link.Context

/-!
# `copy_link.c`: operators

What the linker emits for an operator.  A comparison leaves flags, which a branch tests; the
operators that need comparisons themselves save the flags and restore them.
-/

set_option linter.constructorNameAsVariable false

namespace CopySpace.Link

open Emit

namespace Context

/-! ## Lookups and comparisons -/

/-- `lookup`: a bit from a table, by two or three bits. -/
def lookup (destination table a b c inputs : Nat) (ctx : Context) : Option Context := do
  let ctx ← ctx.fitSlots (255 - inputs - 1)
  let field := ctx.sourceField inputs
  let ctx ← ctx.emit 1 field a
  let ctx ← ctx.emit 1 (field + 1) b
  let ctx ← (if inputs = 3 then ctx.emit 1 (field + 2) c else some ctx)
  ctx.emit 1 destination table

/-- The lookups of a comparison for one bit. -/
def compareBit (left right : Nat) (ctx : Context) (bit : Nat) : Option Context := do
  let ctx ← ctx.lookup cmpLtu ltTable (left + bit) (right + bit) cmpLtu 3
  ctx.lookup cmpEq eqTable (left + bit) (right + bit) cmpEq 3

/-- `compare32`. -/
def compare32 (left right : Nat) (ctx : Context) : Option Context := do
  let ctx ← ctx.emit 1 cmpEq (eqTable + 7)
  let ctx ← ctx.emit 1 cmpLtu eqTable
  let ctx ← (List.range 32).foldlM (compareBit left right) ctx
  let ctx ← ctx.lookup cmpSign xorTable (left + 31) (right + 31) 0 2
  let ctx ← ctx.lookup cmpLts xorTable cmpSign cmpLtu 0 2
  let ctx ← ctx.lookup cmpLeu orTable cmpLtu cmpEq 0 2
  let ctx ← ctx.lookup cmpLes orTable cmpLts cmpEq 0 2
  some { ctx with compared := true }

/-- The conditions of `branch`: the flag, and whether it must be clear. -/
def conditions : List (Text × Nat × Bool) :=
  [("eq".toList, cmpEq, false), ("ne".toList, cmpEq, true), ("lt".toList, cmpLts, false),
    ("ge".toList, cmpLts, true), ("le".toList, cmpLes, false), ("gt".toList, cmpLes, true),
    ("ltu".toList, cmpLtu, false), ("geu".toList, cmpLtu, true), ("leu".toList, cmpLeu, false),
    ("gtu".toList, cmpLeu, true)]

/-- `branch`; the statement begins with `copy.branch.`. -/
def branch (s : Text) (line : Nat) (ctx : Context) : Except String Context := do
  if ¬ ctx.compared then .error "conditional branch without comparison"
  else
    let (operator, operand) := mnemonic s
    match conditions.lookup (operator.drop 12) with
    | none => .error "invalid branch condition"
    | some (flag, inverted) =>
        match ctx.label (trim operand) with
        | none => .error "invalid copy jump label"
        | some (k, ctx) => ctx.conditionalJump k flag inverted line

/-! ## Multiplication -/

/-- One round of the loop of a multiplication. -/
def multiplyRound (zero : Nat) (loop : Key) (ctx : Context) : Option Context := do
  let ctx ← (List.range 32).foldlM
    (fun ctx bit ↦ ctx.lookup (mulAddend + bit) andTable (mulLeft + bit) mulRight 0 2) ctx
  let ctx ← ctx.add32 mulAcc mulAcc mulAddend
  let ctx ← ctx.emit 1 mulStop (mulMarker + 31)
  let ctx ← ctx.emit 31 (mulLeft + 1) mulLeft
  let ctx ← ctx.emit 1 mulLeft zero
  let ctx ← ctx.emit 31 mulRight (mulRight + 1)
  let ctx ← ctx.emit 1 (mulRight + 31) zero
  let ctx ← ctx.emit 31 (mulMarker + 1) mulMarker
  let ctx ← ctx.emit 1 mulMarker zero
  (ctx.conditionalJump loop mulStop true 0).toOption

/-- `multiply32`. -/
def multiply32 (destination source : Nat) (ctx : Context) : Option Context := do
  if ctx.labels.count = ctx.capacities.label then none
  else
    let (zero, ctx) ← ctx.constant 0
    let (one, ctx) ← ctx.constant 1
    let ctx ← ctx.emit 32 mulLeft destination
    let ctx ← ctx.emit 32 mulRight source
    let ctx ← ctx.emit 32 mulAcc zero
    let ctx ← ctx.emit 32 mulMarker one
    let ctx ← ctx.next
    let (loop, ctx) ← ctx.internalLabel
    let ctx ← multiplyRound zero loop (ctx.defineHere loop)
    ctx.emit 32 destination mulAcc

/-! ## Division -/

/-- `absolute32`: negate a word when its sign is set. -/
def absolute32 (value sign zero : Nat) (ctx : Context) : Option Context := do
  let (skip, ctx) ← ctx.internalLabel
  let ctx ← (ctx.conditionalJump skip sign true 0).toOption
  let ctx ← ctx.sub32 value zero value
  ctx.bindInternal skip

/-- The part of a round of a division that shifts a bit of the dividend into the remainder and
finds out whether the divisor goes into it. -/
def divideShift (zero one : Nat) (ctx : Context) : Option Context := do
  let ctx ← ctx.emit 1 divOverflow (divRem + 31)
  let ctx ← ctx.emit 31 (divRem + 1) divRem
  let ctx ← ctx.emit 1 divRem (divNum + 31)
  let ctx ← ctx.emit 31 (divNum + 1) divNum
  let ctx ← ctx.emit 1 divNum zero
  let ctx ← ctx.emit 31 (divQuo + 1) divQuo
  let ctx ← ctx.emit 1 divQuo zero
  let ctx ← ctx.compare32 divRem divDen
  let ctx ← ctx.lookup divReduce xorTable cmpLtu one 0 2
  ctx.lookup divReduce orTable divReduce divOverflow 0 2

/-- One round of the loop of a division. -/
def divideRound (zero one : Nat) (loop skip : Key) (ctx : Context) : Option Context := do
  let ctx ← ctx.divideShift zero one
  let ctx ← (ctx.conditionalJump skip divReduce true 0).toOption
  let ctx ← ctx.sub32 divRem divRem divDen
  let ctx ← ctx.emit 1 divQuo one
  let ctx ← ctx.bindInternal skip
  let ctx ← ctx.emit 1 divStop (divMark + 31)
  let ctx ← ctx.emit 31 (divMark + 1) divMark
  let ctx ← ctx.emit 1 divMark zero
  (ctx.conditionalJump loop divStop true 0).toOption

/-- The sign of the result of a signed division; a quotient by zero keeps its bits. -/
def divideSign (zero one : Nat) (remainder : Bool) (ctx : Context) : Option Context :=
  if remainder then ctx.emit 1 divSign divNumSign
  else do
    let ctx ← ctx.lookup divSign xorTable divNumSign divDenSign 0 2
    let ctx ← ctx.compare32 divDen zero
    let ctx ← ctx.lookup divDenSign xorTable cmpEq one 0 2
    ctx.lookup divSign andTable divSign divDenSign 0 2

/-- The operands of a signed division without their signs. -/
def divideAbsolute (zero : Nat) (ctx : Context) : Option Context := do
  let ctx ← ctx.absolute32 divNum divNumSign zero
  ctx.absolute32 divDen divDenSign zero

/-- The result of a signed division with its sign. -/
def divideNegate (zero one : Nat) (remainder : Bool) (ctx : Context) : Option Context := do
  let ctx ← ctx.divideSign zero one remainder
  ctx.absolute32 (if remainder then divRem else divQuo) divSign zero

/-- `divide32`. -/
def divide32 (destination source : Nat) (signedOperation remainder : Bool) (ctx : Context) :
    Option Context := do
  let compared := ctx.compared
  let (zero, ctx) ← ctx.constant 0
  let (one, ctx) ← ctx.constant 1
  let ctx ← ctx.emit 5 divFlags cmpEq
  let ctx ← ctx.emit 32 divNum destination
  let ctx ← ctx.emit 32 divDen source
  let ctx ← ctx.emit 1 divNumSign (divNum + 31)
  let ctx ← ctx.emit 1 divDenSign (divDen + 31)
  let ctx ← (if signedOperation then ctx.divideAbsolute zero else some ctx)
  let ctx ← ctx.emit 32 divRem zero
  let ctx ← ctx.emit 32 divQuo zero
  let ctx ← ctx.emit 32 divMark one
  let ctx ← ctx.next
  let (loop, ctx) ← ctx.internalLabel
  let (skip, ctx) ← ctx.internalLabel
  let ctx ← divideRound zero one loop skip (ctx.defineHere loop)
  let ctx ← (if signedOperation then ctx.divideNegate zero one remainder else some ctx)
  let ctx ← ctx.emit 32 destination (if remainder then divRem else divQuo)
  let ctx ← ctx.emit 5 cmpEq divFlags
  some { ctx with compared := compared }

/-! ## Shifts -/

/-- The bit that a stage of a shift moves to a place. -/
def shiftSelected (right arithmetic : Bool) (step bit : Nat) : Nat :=
  if right then
    if bit + step < 32 then shiftWord + bit + step
    else if arithmetic then shiftWord + 31 else shiftZero
  else if bit ≥ step then shiftWord + bit - step else shiftZero

/-- The rows of a stage of a shift for one bit; the selector and its read are in one layer. -/
def shiftBit (right arithmetic : Bool) (destination stage : Nat) (ctx : Context) (bit : Nat) :
    Option Context := do
  let ctx ← ctx.fitSlots 251
  let field := ctx.sourceField 3
  let ctx ← ctx.emit 1 shiftPair (shiftWord + bit)
  let ctx ← ctx.emit 1 (shiftPair + 1) (shiftSelected right arithmetic (2 ^ stage) bit)
  let ctx ← ctx.emit 1 field (shiftCount + stage)
  ctx.emit 1 (destination + bit) shiftPair

def shiftStage (right arithmetic : Bool) (destination : Nat) (ctx : Context) (stage : Nat) :
    Option Context := do
  let ctx ← ctx.emit 32 shiftWord destination
  (List.range 32).foldlM (shiftBit right arithmetic destination stage) ctx

/-- `shift32`. -/
def shift32 (right arithmetic : Bool) (destination count : Nat) (ctx : Context) :
    Option Context := do
  let ctx ← ctx.emit 5 shiftCount count
  (List.range 5).foldlM (shiftStage right arithmetic destination) ctx

/-! ## Memory -/

/-- Place the memory of a leaf at the end of the image. -/
def placeMemory (ctx : Context) : Except String Context :=
  if ctx.dataBegin ≠ 0 then .ok ctx
  else
    let bits := ctx.program.image.bytes * 8
    if bits < 524288 ∨ bits % 65536 ≠ 0 then
      .error "memory requires an aligned image of at least 64 KiB"
    else if ctx.program.codeEnd > bits - 65536 then .error "memory overlaps generated code"
    else match internalLabel { ctx with
        dataBegin := bits - 65536, program := { ctx.program with codeLimit := bits - 65536 } } with
      | none => .error "label capacity exceeded"
      | some (k, ctx) => .ok { ctx with memoryFault := some k }

/-- Leave the address of an access in `MEM_ADDRESS`. -/
def memoryAddress (base offset : Nat) (ctx : Context) : Option Context := do
  let ctx ← ctx.emit 32 memAddress base
  if offset = 0 then some ctx
  else
    let (addend, ctx) ← ctx.constant offset
    ctx.add32 memAddress memAddress addend

/-- Compare the address of an access with the last valid one. -/
def memoryCheck (width : Nat) (ctx : Context) : Option Context := do
  let (limit, ctx) ← ctx.constant (ctx.memoryBytes - width / 8)
  let ctx ← ctx.emit 5 memFlags cmpEq
  let ctx ← ctx.compare32 memAddress limit
  let ctx ← ctx.emit 1 memValid cmpLeu
  ctx.emit 5 cmpEq memFlags

/-- Clear what a narrow load does not fill. -/
def memoryExtend (store : Bool) (width value : Nat) (ctx : Context) : Option Context :=
  if ¬ store ∧ width < 32 then do
    let (zero, ctx) ← ctx.constant 0
    ctx.emit (32 - width) (value + width) zero
  else some ctx

/-- The row that accesses the memory, after one that gives it the address. -/
def memoryRow (store : Bool) (width value : Nat) (ctx : Context) : Option Context := do
  let ctx ← ctx.fitSlots 253
  let image := ctx.program.image
  let field := (image.slot + 1) * image.instructionBits + image.countBits +
    if store then 0 else image.addressBits
  let ctx ← ctx.emit image.addressBits field memBitAddress
  if store then ctx.emit width ctx.dataBegin value else ctx.emit width value ctx.dataBegin

/-- `memory_access`. -/
def memoryAccess (store : Bool) (width value base offset : Nat) (ctx : Context) :
    Except String Context := do
  let ctx ← ctx.placeMemory
  let ctx ← orFail capacityExceeded (ctx.memoryAddress base offset)
  let compared := ctx.compared
  let ctx ← orFail capacityExceeded (ctx.memoryCheck width)
  let ctx ← orFail capacityExceeded
    (ctx.memoryFault.bind fun fault ↦ (ctx.conditionalJump fault memValid true 0).toOption)
  let ctx ← orFail capacityExceeded
    (putConstant memBitAddress ctx.program.image.addressBits ctx.dataBegin
      { ctx with compared := compared })
  let ctx ← orFail capacityExceeded
    (ctx.emit ctx.memoryAddressBits (memBitAddress + 3) memAddress)
  let ctx ← orFail capacityExceeded (ctx.memoryExtend store width value)
  orFail capacityExceeded (ctx.memoryRow store width value)

/-- The base and the displacement of an address. -/
def memoryOperand (address : Text) (ctx : Context) : Except String (Nat × Nat × Context) :=
  match strchr '(' address with
  | some (before, inner) =>
      match strchr ')' inner with
      | none => .error "invalid memory address"
      | some (inner, after) =>
          let displacement := trim before
          if trim after ≠ [] then .error "invalid memory address"
          else match (if displacement = [] then some 0 else integer displacement),
              reg (trim inner) with
            | some offset, some base => .ok (base, offset, ctx)
            | _, _ => .error "invalid memory address"
  | none =>
      match integer address with
      | none =>
          if ¬ ctx.programMode then .error "invalid absolute memory address"
          else match ctx.symbol address with
            | none => .error "invalid absolute memory address"
            | some (base, ctx) => .ok (base, 0, ctx)
      | some absolute => (orFail "constant capacity exceeded" (ctx.constant absolute)).map
          fun (base, ctx) ↦ (base, 0, ctx)

/-- `memory`. -/
def memory (operation left right : Text) (ctx : Context) : Except String Context := do
  let width := match operation.getLast? with
    | some 'b' => 8
    | some 's' => 16
    | _ => 32
  let store := decide (operation[5]? = some 's')
  match reg (if store then right else left) with
  | none => .error "invalid memory value register"
  | some value =>
      let (base, offset, ctx) ← ctx.memoryOperand (if store then left else right)
      ctx.memoryAccess store width value base offset

/-- `stack`. -/
def stack (push : Bool) (cursor operand : Text) (ctx : Context) : Except String Context :=
  match reg cursor, reg operand with
  | some pointer, some value =>
      match ctx.constant 4 with
      | none => .error "constant capacity exceeded"
      | some (four, ctx) =>
          if push then do
            let ctx ← orFail capacityExceeded
              ((ctx.emit 32 stackValue value).bind (sub32 pointer pointer four))
            ctx.memoryAccess true 32 stackValue pointer 0
          else do
            let ctx ← ctx.memoryAccess false 32 stackValue pointer 0
            orFail capacityExceeded
              ((ctx.add32 pointer pointer four).bind (emit 32 value stackValue))
  | _, _ => .error "invalid stack register"

end Context

end CopySpace.Link
