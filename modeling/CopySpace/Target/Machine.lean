import Mathlib.Data.BitVec
import Mathlib.Logic.Function.Basic
import Mathlib.Logic.Relation

/-!
# The target machine

What GCC compiles for when its target is the copy machine: sixteen registers of 32 bits, the
outcome of the last comparison, and a memory of bytes.  A program is a list of statements, some of
which are labels; what comes after a statement is the rest of the list.  This says what an assembly
text means, in terms of words and bytes only, and knows nothing of layers and copies.
-/

namespace CopySpace.Target

/-! ## The state -/

abbrev Word := BitVec 32

/-- `$fp`, `$sp`, and then `$r0` to `$r13`. -/
abbrev Register := Fin 16

instance neZeroRegister : NeZero 16 := ⟨by decide⟩

/-- What the last comparison found out. -/
structure Comparison where
  eq : Bool
  ltu : Bool
  lts : Bool
  leu : Bool
  les : Bool
deriving DecidableEq

def Comparison.of (x y : Word) : Comparison := ⟨x == y, x.ult y, x.slt y, x.ule y, x.sle y⟩

/-- Before the first comparison nothing holds. -/
def Comparison.none : Comparison := ⟨false, false, false, false, false⟩

structure State where
  register : Register → Word
  comparison : Comparison
  memory : Nat → BitVec 8

namespace State

def set (r : Register) (v : Word) (s : State) : State :=
  { s with register := Function.update s.register r v }

variable {r r' : Register} {v : Word} {s : State}

@[simp] theorem register_set_self : (s.set r v).register r = v := Function.update_self _ _ _

@[simp] theorem register_set_of_ne (h : r' ≠ r) : (s.set r v).register r' = s.register r' :=
  Function.update_of_ne h _ _

@[simp] theorem comparison_set : (s.set r v).comparison = s.comparison := rfl

@[simp] theorem memory_set : (s.set r v).memory = s.memory := rfl

end State

/-! ## Memory -/

/-- The size of an access: one, two or four bytes. -/
inductive Width where
  | byte
  | short
  | long
deriving DecidableEq

def Width.bytes : Width → Nat
  | byte => 1
  | short => 2
  | long => 4

/-- The bytes of the memory from an address on, the lowest first. -/
def loadBytes (memory : Nat → BitVec 8) : Nat → Nat → Word
  | 0, _ => 0#32
  | n + 1, a => (memory a).setWidth 32 ||| loadBytes memory n (a + 1) <<< 8

/-- The memory with other bytes from an address on. -/
def storeBytes (memory : Nat → BitVec 8) (n a : Nat) (v : Word) : Nat → BitVec 8 :=
  fun b ↦ if a ≤ b ∧ b < a + n then v.extractLsb' (8 * (b - a)) 8 else memory b

/-- Where an access goes. -/
inductive Address where
  | relative (base : Register) (displacement : Word)
  | absolute (address : Word)
deriving DecidableEq

def Address.value (s : State) : Address → Word
  | relative base displacement => s.register base + displacement
  | absolute address => address

/-! ## Operations -/

inductive Unary where
  | move
  | negate
  | complement
  | zeroExtend (bits : Nat)
  | signExtend (bits : Nat)
deriving DecidableEq

def Unary.apply : Unary → Word → Word
  | move, x => x
  | negate, x => -x
  | complement, x => ~~~x
  | zeroExtend n, x => (x.setWidth n).setWidth 32
  | signExtend n, x => (x.setWidth n).signExtend 32

inductive Binary where
  | add
  | sub
  | and
  | or
  | xor
  | multiply
  | quotient (signed : Bool)
  | remainder (signed : Bool)
  | shiftLeft
  | shiftRight (arithmetic : Bool)
deriving DecidableEq

/-- A quotient by zero has all its bits set, and the remainder is the dividend; shifts use the low
five bits of their count. -/
def Binary.apply : Binary → Word → Word → Word
  | add, x, y => x + y
  | sub, x, y => x - y
  | and, x, y => x &&& y
  | or, x, y => x ||| y
  | xor, x, y => x ^^^ y
  | multiply, x, y => x * y
  | quotient signed, x, y =>
      if y = 0#32 then BitVec.allOnes 32 else if signed then x.sdiv y else x / y
  | remainder signed, x, y => if signed then x.srem y else x % y
  | shiftLeft, x, y => x <<< (y.toNat % 32)
  | shiftRight arithmetic, x, y =>
      if arithmetic then x.sshiftRight (y.toNat % 32) else x >>> (y.toNat % 32)

/-- What a statement does before the next one. -/
inductive Operation where
  | nop
  | unary (operator : Unary) (destination source : Register)
  | binary (operator : Binary) (destination source : Register)
  | binaryConstant (operator : Binary) (destination : Register) (value : Word)
  | constant (destination : Register) (value : Word)
  | compare (left right : Register)
  | load (width : Width) (destination : Register) (address : Address)
  | store (width : Width) (address : Address) (source : Register)
  | push (pointer source : Register)
  | pop (pointer destination : Register)
deriving DecidableEq

/-- The operation goes to the memory. -/
def Operation.accesses : Operation → Bool
  | load .. | store .. | push .. | pop .. => true
  | _ => false

section Run

variable (memoryBytes : Nat)

/-- The address of an access that stays in the memory. -/
def access (width : Width) (address : Word) : Option Nat :=
  if address.toNat ≤ memoryBytes - width.bytes then some address.toNat else none

def State.load (width : Width) (address : Word) (s : State) : Option Word :=
  (access memoryBytes width address).map (loadBytes s.memory width.bytes)

def State.store (width : Width) (address v : Word) (s : State) : Option State :=
  (access memoryBytes width address).map fun a ↦
    { s with memory := storeBytes s.memory width.bytes a v }

/-- The state after an operation; there is none when it accesses what is not memory. -/
def Operation.run (s : State) : Operation → Option State
  | nop => some s
  | unary operator d r => some (s.set d (operator.apply (s.register r)))
  | binary operator d r => some (s.set d (operator.apply (s.register d) (s.register r)))
  | binaryConstant operator d v => some (s.set d (operator.apply (s.register d) v))
  | constant d v => some (s.set d v)
  | compare l r => some { s with comparison := .of (s.register l) (s.register r) }
  | load width d address => (s.load memoryBytes width (address.value s)).map (s.set d)
  | store width address r => s.store memoryBytes width (address.value s) (s.register r)
  | push p r =>
      State.store memoryBytes .long (s.register p - 4#32) (s.register r)
        (s.set p (s.register p - 4#32))
  | pop p d =>
      (s.load memoryBytes .long (s.register p)).map fun v ↦
        (s.set p (s.register p + 4#32)).set d v

end Run

/-! ## Programs -/

/-- The conditions of a branch. -/
inductive Condition where
  | eq
  | ne
  | lt
  | ge
  | le
  | gt
  | ltu
  | geu
  | leu
  | gtu
deriving DecidableEq

def Condition.holds (c : Comparison) : Condition → Bool
  | eq => c.eq
  | ne => !c.eq
  | lt => c.lts
  | ge => !c.lts
  | le => c.les
  | gt => !c.les
  | ltu => c.ltu
  | geu => !c.ltu
  | leu => c.leu
  | gtu => !c.leu

inductive Statement (κ : Type) where
  | label (k : κ)
  | operation (operation : Operation)
  | branch (condition : Condition) (k : κ)
  | jump (k : κ)
  | ret
  | trap
deriving DecidableEq

/-- The statement is an operation that goes to the memory. -/
def Statement.accesses {κ : Type} : Statement κ → Bool
  | operation o => o.accesses
  | _ => false

/-- The label that a statement defines. -/
def Statement.defines {κ : Type} : Statement κ → Option κ
  | label k => some k
  | _ => none

/-- The label that a statement may go to. -/
def Statement.goesTo {κ : Type} : Statement κ → Option κ
  | branch _ k | jump k => some k
  | _ => none

/-- The labels that a program defines. -/
def labels {κ : Type} (program : List (Statement κ)) : List κ := program.filterMap Statement.defines

/-- No label is defined twice, and none is missing. -/
structure WellFormed {κ : Type} (program : List (Statement κ)) : Prop where
  labels_nodup : (labels program).Nodup
  goesTo_mem : ∀ s ∈ program, ∀ k, s.goesTo = some k → k ∈ labels program

/-- How a run goes on: it stops with `fault` at a `copy.trap` and at an access that is not in the
memory, and is stuck where a label is missing. -/
inductive Progress (κ : Type) where
  | onward (rest : List (Statement κ)) (s : State)
  | returned (s : State)
  | fault
  | stuck

/-- The state at the end of a run that has returned. -/
def Progress.result {κ : Type} : Progress κ → Option State
  | returned s => some s
  | _ => none

theorem Progress.eq_returned {κ : Type} {p : Progress κ} {s : State} (h : p.result = some s) :
    p = .returned s := by
  cases p with
  | returned t => exact congrArg returned (Option.some.inj h)
  | onward | fault | stuck => exact absurd h (by simp [result])

section Program

variable {κ : Type} [DecidableEq κ]

/-- What comes after a label. -/
def locate (k : κ) : List (Statement κ) → Option (List (Statement κ))
  | [] => none
  | .label k' :: rest => if k' = k then some rest else locate k rest
  | _ :: rest => locate k rest

variable (memoryBytes : Nat) (program : List (Statement κ))

theorem mem_labels_of_locate {k : κ} {rest program : List (Statement κ)}
    (h : locate k program = some rest) : k ∈ labels program := by
  induction program with
  | nil => cases h
  | cons s program ih =>
      cases s with
      | label k' =>
          rw [locate] at h
          split at h
          · next he => exact List.mem_cons.mpr (.inl he.symm)
          · exact List.mem_cons_of_mem k' (ih h)
      | operation | branch | jump | ret | trap => exact ih h

/-- Go on after a label. -/
def goTo (k : κ) (s : State) : Progress κ :=
  match locate k program with
  | some rest => .onward rest s
  | none => .stuck

/-- One statement; a program also returns at its end. -/
def step : List (Statement κ) → State → Progress κ
  | [], s => .returned s
  | .label _ :: rest, s => .onward rest s
  | .operation o :: rest, s =>
      match o.run memoryBytes s with
      | some s' => .onward rest s'
      | none => .fault
  | .branch c k :: rest, s => if c.holds s.comparison then goTo program k s else .onward rest s
  | .jump k :: _, s => goTo program k s
  | .ret :: _, s => .returned s
  | .trap :: _, _ => .fault

/-- What is still to come, and the state. -/
abbrev Configuration (κ : Type) := List (Statement κ) × State

/-- A part of a run. -/
def Reaches : Configuration κ → Configuration κ → Prop :=
  Relation.ReflTransGen fun c c' ↦ step memoryBytes program c.1 c.2 = .onward c'.1 c'.2

/-- A run of at most so many statements. -/
def runFor : Nat → List (Statement κ) → State → Progress κ
  | 0, rest, s => .onward rest s
  | n + 1, rest, s =>
      match step memoryBytes program rest s with
      | .onward rest s => runFor n rest s
      | p => p

variable {memoryBytes program}

/-- Until it ends, a run is made of steps. -/
theorem reaches_of_runFor {n : Nat} {rest : List (Statement κ)} {s : State} {p : Progress κ}
    (h : runFor memoryBytes program n rest s = p) (hend : ∀ rest s, p ≠ .onward rest s) :
    ∃ c, Reaches memoryBytes program (rest, s) c ∧ step memoryBytes program c.1 c.2 = p := by
  induction n generalizing rest s with
  | zero => exact absurd h.symm (hend rest s)
  | succ n ih =>
      rw [runFor] at h
      split at h
      case h_1 rest' s' hstep =>
        obtain ⟨c, hreaches, hc⟩ := ih h
        exact ⟨c, .head hstep hreaches, hc⟩
      case h_2 => exact ⟨(rest, s), .refl, h⟩

end Program

end CopySpace.Target
