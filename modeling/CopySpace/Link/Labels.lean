import CopySpace.Link.Names
import Mathlib.Data.Finset.Card

/-!
# `copy_link.c`: the label table

`label` finds the entry of a name or enters one; a numeric reference such as `1b` finds the entry
of the statement that it refers to.  Statements mention labels, define them, declare them weak or
make them aliases of others.  Entries are found by their name or by the offset of their
definition, so these stand for their indices; the labels that the linker makes for itself are
never looked up.  All functions fail as a whole, so there is no table when they do.
-/

namespace CopySpace.Link

/-- What an entry of the table is found by. -/
inductive Key where
  | named (name : Text)
  | numbered (offset : Nat)
  | internal (index : Nat)
deriving DecidableEq

/-- An entry of `labels`; `name`, `numbered` and `offset` are its key. -/
structure Label where
  address : Nat
  defined : Bool
  data : Int
  isAlias : Bool
  weak : Bool
  missingWeak : Bool
deriving DecidableEq

/-- An entry of `aliases`: the target is none for a constant. -/
structure Alias where
  label : Key
  target : Option Key
  addend : Nat
deriving DecidableEq

/-- The tables `labels` and `aliases`. -/
structure LabelTable where
  names : Finset Key
  /-- How many labels the linker has made for itself. -/
  internals : Nat
  label : Key → Label
  aliases : List Alias

namespace LabelTable

def empty : LabelTable := ⟨∅, 0, fun _ ↦ ⟨0, false, 0, false, false, false⟩, []⟩

/-- `label_count`. -/
def count (t : LabelTable) : Nat := t.names.card + t.internals

def modify (t : LabelTable) (k : Key) (f : Label → Label) : LabelTable :=
  { t with label := Function.update t.label k (f (t.label k)) }

def addAlias (t : LabelTable) (a : Alias) : LabelTable :=
  { t.modify a.label fun l ↦ { l with isAlias := true } with aliases := t.aliases ++ [a] }

/-- The entry is defined or an alias. -/
def taken (t : LabelTable) (k : Key) : Bool := (t.label k).defined || (t.label k).isAlias

end LabelTable

/-! ## Numeric labels -/

/-- The statement defines the number as a label. -/
def definesNumber (number : Nat) (statement : Text) : Bool :=
  match decimalLabel (statement.dropWhile whitespace) with
  | some (after, value) => (after.dropWhile whitespace).head? = some ':' && value = number
  | none => false

/-- The loop of `numeric_target`.  Every statement takes a character, so as many rounds as there
are characters are enough. -/
def numericTargetFrom (before number : Nat) (forward : Bool) :
    Nat → Nat → Text → Option Nat → Option Nat
  | 0, _, _, found => found
  | _ + 1, _, [], found => found
  | fuel + 1, offset, c :: s, found =>
      let statement := statementEnd false false (c :: s)
      let next := offset + ((c :: s).length - statement.2.length)
      if definesNumber number statement.1 ∧
          ((forward ∧ offset > before) ∨ (¬ forward ∧ offset < before)) then
        if forward then some offset
        else numericTargetFrom before number forward fuel next statement.2 (some offset)
      else numericTargetFrom before number forward fuel next statement.2 found

/-- `numeric_target`. -/
def numericTarget (assembly : Text) (before number : Nat) (forward : Bool) : Option Nat :=
  numericTargetFrom before number forward assembly.length 0 assembly none

/-- The number of a numeric reference, and whether it refers forward. -/
def numericReference (name : Text) : Option (Nat × Bool) :=
  match decimalLabel name with
  | some (['b'], number) => some (number, false)
  | some (['f'], number) => some (number, true)
  | _ => none

/-! ## Entering labels -/

section Statement

variable (labelCapacity : Nat) (assembly : Text) (statementOffset : Option Nat)

/-- The entry of a key, which is made if there is none. -/
def enter (k : Key) (t : LabelTable) : Option (Key × LabelTable) :=
  if k ∈ t.names then some (k, t)
  else if t.count = labelCapacity then none
  else some (k, { t with names := insert k t.names })

/-- `numeric_label`. -/
def numericLabel (offset : Nat) (t : LabelTable) : Option (Key × LabelTable) :=
  enter labelCapacity (.numbered offset) t

/-- The key that `label` looks for. -/
def labelKey (name : Text) : Option Key :=
  match numericReference name with
  | some (number, forward) => do
      let before ← statementOffset
      let target ← numericTarget assembly before number forward
      some (.numbered target)
  | none => if validName name then some (.named name) else none

/-- `label`. -/
def label (name : Text) (t : LabelTable) : Option (Key × LabelTable) := do
  let k ← labelKey assembly statementOffset name
  enter labelCapacity k t

/-- `expression`: a label and an addend. -/
def expression (text : Text) (t : LabelTable) : Option (Key × Nat × LabelTable) := do
  let name := text.takeWhile fun c ↦ c ≠ '+' && c ≠ '-'
  if name = [] ∨ name.length ≥ nameSize then none
  else
    let (k, t) ← label labelCapacity assembly statementOffset (trim name) t
    match text.dropWhile fun c ↦ c ≠ '+' && c ≠ '-' with
    | [] => some (k, 0, t)
    | sign :: number => do
        let value ← integer (number.dropWhile whitespace)
        some (k, if sign = '-' then (2 ^ 32 - value) % 2 ^ 32 else value, t)

/-! ## What statements do -/

/-- What an alias stands for: a constant, or a label and an addend. -/
def aliasValue (value : Text) (t : LabelTable) : Option (Option Key × Nat × LabelTable) :=
  match integer value with
  | some addend => some (none, addend, t)
  | none => do
      let (target, addend, t) ← expression labelCapacity assembly statementOffset value t
      some (some target, addend, t)

/-- `.set` and `.equ`. -/
def setDirective (arguments : Text) (t : LabelTable) : Option LabelTable := do
  let (name, value) ← strchr ',' arguments
  if t.aliases.length = labelCapacity then none
  else
    let (k, t) ← label labelCapacity assembly statementOffset (trim name) t
    if t.taken k then none
    else
      let (target, addend, t) ← aliasValue labelCapacity assembly statementOffset (trim value) t
      some (t.addAlias ⟨k, target, addend⟩)

/-- `.weak`. -/
def weakDirective (arguments : Text) (t : LabelTable) : Option LabelTable :=
  (arguments.splitOn ',').foldlM (fun t name ↦ do
    let (k, t) ← label labelCapacity assembly statementOffset (trim name) t
    some (t.modify k fun l ↦ { l with weak := true })) t

/-- What a definition does to the entry: in the text the address is that of a layer and `data`
is 0; in a data section it is a position there, and `data` the index of the section plus 1. -/
def defineKey (k : Key) (address data : Nat) (t : LabelTable) : Option LabelTable :=
  if t.taken k then none
  else some (t.modify k fun l ↦ { l with address := address, data := data, defined := true })

/-- The entry of a label statement; `s` is without the colon. -/
def statementLabel (s : Text) (t : LabelTable) : Option (Key × LabelTable) :=
  match decimalLabel s with
  | some ([], _) => numericLabel labelCapacity (statementOffset.getD 0) t
  | _ => label labelCapacity assembly statementOffset s t

/-- A statement that is a label. -/
def defineLabel (s : Text) (address data : Nat) (t : LabelTable) : Option LabelTable := do
  let (k, t) ← statementLabel labelCapacity assembly statementOffset s t
  defineKey k address data t

/-- The label of `.comm`. -/
def defineCommon (name : Text) (address data : Nat) (t : LabelTable) : Option LabelTable := do
  let (k, t) ← label labelCapacity assembly statementOffset (trim name) t
  defineKey k address data t

end Statement

/-- `internal_label`. -/
def internalLabel (labelCapacity : Nat) (t : LabelTable) : Option (Key × LabelTable) :=
  if t.count = labelCapacity then none
  else some (.internal t.internals, { t with internals := t.internals + 1 })

/-- What `bind_internal` does to the table. -/
def bindLabel (index address : Nat) (t : LabelTable) : LabelTable :=
  t.modify (.internal index) fun l ↦ { l with defined := true, address := address }

/-! ## Runs -/

/-- What a statement can do to the labels. -/
inductive LabelOperation where
  /-- A jump, call, immediate, address or datum mentions a label. -/
  | mention (name : Text)
  | set (arguments : Text)
  | weak (arguments : Text)
  | define (s : Text) (address data : Nat)
  | common (name : Text) (address data : Nat)
  | internal
  | bind (index address : Nat)
deriving DecidableEq

/-- What a statement at this offset does to the labels. -/
def LabelOperation.run (labelCapacity : Nat) (assembly : Text) (statementOffset : Option Nat)
    (t : LabelTable) : LabelOperation → Option LabelTable
  | mention name => (label labelCapacity assembly statementOffset name t).map Prod.snd
  | set arguments => setDirective labelCapacity assembly statementOffset arguments t
  | weak arguments => weakDirective labelCapacity assembly statementOffset arguments t
  | define s address data => defineLabel labelCapacity assembly statementOffset s address data t
  | common name address data =>
      defineCommon labelCapacity assembly statementOffset name address data t
  | internal => (internalLabel labelCapacity t).map Prod.snd
  | bind index address => some (bindLabel index address t)

/-- The operations of the statements of a program, each with the offset of its statement. -/
def runLabels (labelCapacity : Nat) (assembly : Text) (t : LabelTable)
    (operations : List (Option Nat × LabelOperation)) : Option LabelTable :=
  operations.foldlM (fun t operation ↦ operation.2.run labelCapacity assembly operation.1 t) t

end CopySpace.Link
