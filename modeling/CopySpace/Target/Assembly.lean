import CopySpace.Target.Leaf
import CopySpace.Target.Machine

/-!
# Assembly for the target machine

What the statements of an assembly text stand for.  The texts are taken apart as the linker does
it, but nothing is emitted: the result is a program of the target machine whose labels are the keys
that the linker finds them by.
-/

namespace CopySpace.Target

open Link

/-! ## Operands -/

/-- The register with a name. -/
def registerOf (s : Text) : Option Register :=
  (reg s).map fun a ↦ Fin.ofNat 16 ((a - regBase) / 32)

/-- A register and a displacement, or a number. -/
def addressOf (s : Text) : Option Address :=
  match strchr '(' s with
  | some (before, inner) =>
      match strchr ')' inner with
      | none => none
      | some (inner, after) =>
          let displacement := trim before
          if trim after ≠ [] then none
          else match (if displacement = [] then some 0 else integer displacement),
              registerOf (trim inner) with
            | some offset, some base => some (.relative base (BitVec.ofNat 32 offset))
            | _, _ => none
  | none => (integer s).map fun a ↦ .absolute (BitVec.ofNat 32 a)

/-! ## Operators -/

/-- The operators with two registers. -/
def registersOf (operator : String) (d r : Register) : Option Operation :=
  match operator with
  | "copy.mov" => some (.unary .move d r)
  | "copy.zex.b" => some (.unary (.zeroExtend 8) d r)
  | "copy.zex.s" => some (.unary (.zeroExtend 16) d r)
  | "copy.sex.b" => some (.unary (.signExtend 8) d r)
  | "copy.sex.s" => some (.unary (.signExtend 16) d r)
  | "copy.cmp" => some (.compare d r)
  | "copy.mul" => some (.binary .multiply d r)
  | "copy.udiv" => some (.binary (.quotient false) d r)
  | "copy.umod" => some (.binary (.remainder false) d r)
  | "copy.div" => some (.binary (.quotient true) d r)
  | "copy.mod" => some (.binary (.remainder true) d r)
  | "copy.neg" => some (.unary .negate d r)
  | "copy.not" => some (.unary .complement d r)
  | "copy.add" => some (.binary .add d r)
  | "copy.sub" => some (.binary .sub d r)
  | "copy.and" => some (.binary .and d r)
  | "copy.or" => some (.binary .or d r)
  | "copy.xor" => some (.binary .xor d r)
  | "copy.ashl" => some (.binary .shiftLeft d r)
  | "copy.lshr" => some (.binary (.shiftRight false) d r)
  | "copy.ashr" => some (.binary (.shiftRight true) d r)
  | _ => none

/-- The operators with a register and a number. -/
def immediateOf (operator : String) (d : Register) (argument : Text) : Option Operation :=
  (integer argument).map fun value ↦
    let value := if operator = "copy.ldi.b" then value % 256
      else if operator = "copy.ldi.s" then value % 65536 else value
    if operator = "copy.inc" then .binaryConstant .add d (BitVec.ofNat 32 value)
    else if operator = "copy.dec" then .binaryConstant .sub d (BitVec.ofNat 32 value)
    else .constant d (BitVec.ofNat 32 value)

theorem accesses_registersOf {operator : String} {d r : Register} {o : Operation}
    (h : registersOf operator d r = some o) : o.accesses = false := by
  unfold registersOf at h
  split at h <;> cases h <;> rfl

theorem accesses_immediateOf {operator : String} {d : Register} {argument : Text} {o : Operation}
    (h : immediateOf operator d argument = some o) : o.accesses = false := by
  obtain ⟨value, -, rfl⟩ := Option.map_eq_some_iff.mp h
  dsimp only
  generalize (if operator = "copy.ldi.b" then value % 256
    else if operator = "copy.ldi.s" then value % 65536 else value) = v
  by_cases hinc : operator = "copy.inc"
  · rw [if_pos hinc]
    rfl
  rw [if_neg hinc]
  by_cases hdec : operator = "copy.dec"
  · rw [if_pos hdec]
    rfl
  · rw [if_neg hdec]
    rfl

/-- The size in the last letter of an operator. -/
def widthOf (operator : Text) : Width :=
  match operator.getLast? with
  | some 'b' => .byte
  | some 's' => .short
  | _ => .long

/-- Loads and stores. -/
def memoryOf (operator left right : Text) : Option Operation :=
  if operator[5]? = some 's' then do
    let r ← registerOf right
    let address ← addressOf left
    some (.store (widthOf operator) address r)
  else do
    let d ← registerOf left
    let address ← addressOf right
    some (.load (widthOf operator) d address)

def stackOf (push : Bool) (cursor operand : Text) : Option Operation := do
  let p ← registerOf cursor
  let r ← registerOf operand
  some (if push then .push p r else .pop p r)

/-- What a statement with an operator does. -/
def operationOf (s : Text) : Option Operation :=
  let (operator, operands) := mnemonic s
  let operator := String.ofList operator
  let operands := trim operands
  if operator = "copy.nop" then if operands = [] then some .nop else none
  else match strchr ',' operands with
    | none => none
    | some (left, right) =>
        if operator = "copy.push" then stackOf true (trim left) (trim right)
        else if operator = "copy.pop" then stackOf false (trim left) (trim right)
        else if Context.memoryOperators.contains operator then
          memoryOf operator.toList (trim left) (trim right)
        else match registerOf (trim left) with
          | none => none
          | some d =>
              if Context.immediateOperators.contains operator then
                immediateOf operator d (trim right)
              else (registerOf (trim right)).bind (registersOf operator d)

/-! ## Statements -/

def conditions : List (Text × Condition) :=
  [("eq".toList, .eq), ("ne".toList, .ne), ("lt".toList, .lt), ("ge".toList, .ge),
    ("le".toList, .le), ("gt".toList, .gt), ("ltu".toList, .ltu), ("geu".toList, .geu),
    ("leu".toList, .leu), ("gtu".toList, .gtu)]

section Statement

variable (assembly : Text) (offset : Nat)

/-- The key of a label that a statement mentions. -/
def mentioned (name : Text) : Option Key := labelKey assembly (some offset) name

/-- The key of a label that a statement defines. -/
def definedKey (s : Text) : Option Key :=
  match decimalLabel s with
  | some ([], _) => some (.numbered offset)
  | _ => mentioned assembly offset s

theorem definedKey_of_numbered {s : Text} {value : Nat} (h : decimalLabel s = some ([], value)) :
    definedKey assembly offset s = some (.numbered offset) := by
  simp only [definedKey, h]

theorem definedKey_of_not_numbered {s : Text} (h : ∀ value, decimalLabel s ≠ some ([], value)) :
    definedKey assembly offset s = mentioned assembly offset s := by
  rcases hnumber : decimalLabel s with _ | ⟨_ | ⟨c, rest⟩, value⟩
  · simp only [definedKey, hnumber]
  · exact absurd hnumber (h value)
  · simp only [definedKey, hnumber]

/-- A branch; the statement begins with `copy.branch.`. -/
def branchOf (s : Text) : Option (Statement Key) := do
  let (operator, operand) := mnemonic s
  let condition ← conditions.lookup (operator.drop 12)
  let k ← mentioned assembly offset (trim operand)
  some (.branch condition k)

/-- What a statement stands for; directives stand for nothing. -/
def statementOf (s : Text) : Option (List (Statement Key)) :=
  if s = [] then some []
  else if s.getLast? = some ':' then
    (definedKey assembly offset (trim s.dropLast)).map fun k ↦ [.label k]
  else if s.head? = some '.' then some []
  else if s = "copy.trap".toList then some [.trap]
  else if s = "copy.ret".toList then some [.ret]
  else if "copy.branch.".toList.isPrefixOf s then (branchOf assembly offset s).map fun b ↦ [b]
  else if begins "copy.jmpa" s then
    (mentioned assembly offset (trim (s.drop 9))).map fun k ↦ [.jump k]
  else (operationOf s).map fun o ↦ [.operation o]

end Statement

/-- The program that some statements of a text stand for. -/
def programFrom (assembly : Text) : List StatementSpan → Option (List (Statement Key))
  | [] => some []
  | span :: spans => do
      let first ← statementOf assembly span.offset (bare (span.text assembly))
      let rest ← programFrom assembly spans
      some (first ++ rest)

/-- The program of an assembly text. -/
def program (assembly : Text) : Option (List (Statement Key)) :=
  programFrom assembly (statements assembly)

end CopySpace.Target
