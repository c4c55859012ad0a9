import CopySpace.Compiler.Constants

/-!
# `compiler.fth`: records

The definition of a `struct` or a `union`.  The syntax is what the parser finds, a type is built
from the types of the table, and the table of types is the one of the records: `none` is `cc-fail`.
-/

namespace CopySpace.Compiler

/-! ## Attributes and alignment -/

/-- `max` -/
def maxCell (a b : Cell) : Cell := if a.slt b then b else a

/-- `dup 1- rot + swap negate and` -/
def alignUp (n a : Cell) : Cell := (n + (a - 1)) &&& -a

/-- An attribute of a layout, `aligned` with or without its value. -/
inductive Attribute
  | packed
  | aligned (value : Option Cell)

/-- `cc-read-layout-attributes-body` -/
def readLayoutAttributes (minimum : Bool) : Bool → Cell → List Attribute → Option (Bool × Cell)
  | packed, alignment, [] => some (packed, alignment)
  | _, alignment, .packed :: attributes => readLayoutAttributes minimum true alignment attributes
  | packed, alignment, .aligned value :: attributes =>
      let value := value.getD 16
      if value = 0 then readLayoutAttributes minimum packed alignment attributes
      else if (0 : Cell).slt value ∧ value.sle 268435456 ∧ value &&& (value - 1) = 0 then
        readLayoutAttributes minimum packed (if minimum then maxCell alignment value else value)
          attributes
      else none

/-- The alignment in the attributes of a member: the upper bit says that it is packed. -/
def attributeAlignment (attributes : Cell) : Cell := attributes &&& 2147483647

/-- `cc-read-member-attributes` -/
def readMemberAttributes (attributes : Cell) (read : List Attribute) : Option Cell :=
  (readLayoutAttributes true attributes.msb (attributeAlignment attributes) read).map fun r ↦
    if r.1 then r.2 ||| 2147483648 else r.2

/-- `cc-member-alignment` -/
def memberAlignment (alignment attributes : Cell) (packed : Bool) : Cell :=
  maxCell (if attributes.msb || packed then 1 else alignment) (attributeAlignment attributes)

/-! ## Types -/

/-- The types.  A record is known by its number, an array may have no length yet. -/
inductive CType
  | basic (i : Fin 14)
  | pointer (target : CType)
  | array (element : CType) (length : Option Cell)
  | enumeration (base : Fin 14)
  | function (result : CType)
  | record (id : Nat)

/-- `void` and functions are no objects. -/
def CType.isVoidOrFunction : CType → Bool
  | .basic i => i = 3
  | .function _ => true
  | _ => false

/-- `cc-incomplete-array?` -/
def CType.isIncompleteArray : CType → Bool
  | .array _ none => true
  | _ => false

/-- `cc-type-complete` -/
inductive Completion
  | incomplete
  | complete
  | defining
  deriving DecidableEq

/-- A record in the table of types. -/
structure Record where
  union : Bool
  size : Cell
  alignment : Cell
  complete : Completion
  flexible : Bool
  memberAttributes : Bool
  packed : Bool

/-- `cc-new-record` -/
def Record.new (union : Bool) : Record := ⟨union, 0, 1, .incomplete, false, false, false⟩

/-- A member in its table.  A name without letters is that of an anonymous member. -/
structure Member where
  owner : Nat
  name : String
  type : CType
  offset : Cell
  attributes : Cell

/-- The tables of the records and of their members. -/
structure Types where
  count : Nat
  record : Nat → Record
  members : List Member

/-- `cc-init-types` -/
def Types.initial : Types := ⟨0, fun _ ↦ .new false, []⟩

/-- The sizes of the first 14 types. -/
def basicSize (i : Fin 14) : Cell := #v[4, 4, 4, 1, 1, 1, 1, 2, 2, 4, 4, 1, 8, 8][i]

/-- The alignments of the first 14 types. -/
def basicAlignment (i : Fin 14) : Cell := #v[4, 4, 4, 1, 1, 1, 1, 2, 2, 4, 4, 1, 4, 4][i]

namespace Types

variable (types : Types)

/-- `cc-size` -/
def size : CType → Cell
  | .basic i | .enumeration i => basicSize i
  | .pointer _ => 4
  | .array element length => length.getD 0 * size element
  | .function _ => 1
  | .record id => (types.record id).size

/-- `cc-alignment` -/
def alignment : CType → Cell
  | .basic i | .enumeration i => basicAlignment i
  | .pointer _ => 4
  | .array element _ => alignment element
  | .function _ => 1
  | .record id => (types.record id).alignment

/-- `cc-complete` -/
def completion : CType → Completion
  | .array _ none => .incomplete
  | .record id => (types.record id).complete
  | _ => .complete

/-- `cc-array-to` -/
def arrayTo (element : CType) (length : Option Cell) : Option CType :=
  let count := length.getD 0
  if element.isVoidOrFunction then none
  else if types.completion element ≠ .complete then none
  else if count.msb then none
  else if types.size element ≠ 0 ∧ ((2097152 : Cell).sdiv (types.size element)).ult count then none
  else if (2097152 : Cell).ult (count * types.size element) then none
  else some (.array element length)

/-- The table has the type. -/
def Listed : CType → Prop
  | .basic _ | .enumeration _ => True
  | .pointer type | .function type => Listed type
  | .array element length => Listed element ∧ (types.arrayTo element length).isSome
  | .record id => id < types.count

instance decidableListed : (type : CType) → Decidable (types.Listed type)
  | .basic _ | .enumeration _ => inferInstanceAs (Decidable True)
  | .pointer type | .function type => decidableListed type
  | .array element _ =>
      have := decidableListed element
      inferInstanceAs (Decidable (_ ∧ _ = true))
  | .record _ => inferInstanceAs (Decidable (_ < _))

/-- What a declarator makes of a type. -/
inductive Derivation
  | pointer
  | array (length : Option Cell)
  | function

/-- `cc-declarator-parse`: the type is built from the inside. -/
def derive : CType → List Derivation → Option CType
  | type, [] => some type
  | type, .pointer :: ds => derive (.pointer type) ds
  | type, .array length :: ds => (types.arrayTo type length).bind fun type ↦ derive type ds
  | type, .function :: ds =>
      match type with
      | .array _ _ | .function _ => none
      | type => derive (.function type) ds

/-! ## Names -/

/-- `cc-lookup-member`: whether there is one, through at most `depth` records. -/
def lookupMember (name : String) : Nat → Nat → Bool
  | 0, _ => false
  | depth + 1, owner => types.members.any fun m ↦ m.owner = owner &&
      if m.name = "" then
        match m.type with
        | .record id => lookupMember name depth id
        | _ => false
      else m.name = name

/-- `cc-check-anonymous-names`: whether one of the names is there already. -/
def anonymousClash (owner : Nat) : Nat → Nat → Bool
  | 0, _ => false
  | depth + 1, id => types.members.any fun m ↦ m.owner = id &&
      if m.name = "" then
        match m.type with
        | .record id => anonymousClash owner depth id
        | _ => false
      else types.lookupMember m.name (types.count + 1) owner

/-- Whether the name of a member, or a name in an anonymous one, is there already. -/
def nameClash (owner : Nat) (name : String) (type : CType) : Bool :=
  match type with
  | .record id =>
      if name = "" then types.anonymousClash owner (types.count + 1) id
      else types.lookupMember name (types.count + 1) owner
  | _ => types.lookupMember name (types.count + 1) owner

/-! ## Members -/

/-- A record of the table is changed. -/
def modify (id : Nat) (f : Record → Record) : Types :=
  { types with record := Function.update types.record id (f (types.record id)) }

/-- `cc-owner-has-member?` -/
def ownerHasMember (owner : Nat) : Bool := types.members.any (·.owner = owner)

/-- The end of the loop in `cc-read-members`: the member is placed. -/
def appendMember (owner : Nat) (name : String) (type : CType) (attributes : Cell) : Types :=
  let r := types.record owner
  let offset := if r.union then 0 else alignUp r.size (types.alignment type)
  modify { types with members := types.members ++ [⟨owner, name, type, offset, attributes⟩] } owner
    fun r ↦ { r with
      memberAttributes := r.memberAttributes || attributes ≠ 0
      size := maxCell (offset + types.size type) r.size
      alignment := maxCell (types.alignment type) r.alignment }

/-- The checks in the loop of `cc-read-members`: the type of the member, and its name. -/
def addMember (owner : Nat) (name : String) (type : CType) (attributes : Cell) : Option Types :=
  if types.nameClash owner name type ∨ type.isVoidOrFunction then none
  else if type.isIncompleteArray then
    if (types.record owner).union ∨ ¬ types.ownerHasMember owner then none
    else some ((types.modify owner fun r ↦ { r with flexible := true }).appendMember owner name
      type attributes)
  else if types.completion type ≠ .complete then none
  else some (types.appendMember owner name type attributes)

/-- A declarator with its attributes. -/
structure Declarator where
  name : String
  derivations : List Derivation
  attributes : List Attribute

end Types

/-- The declarators of one declaration in `cc-read-members`. -/
def readDeclarators (owner : Nat) (base : CType) (attributes : Cell) :
    List Types.Declarator → Types → Option Types
  | [], types => some types
  | d :: ds, types =>
      if (types.record owner).flexible ∨ d.name = "" then none
      else (types.derive base d.derivations).bind fun type ↦
        (readMemberAttributes attributes d.attributes).bind fun attributes' ↦
          (types.addMember owner d.name type attributes').bind
            (readDeclarators owner base attributes ds)

/-! ## Layout of a record -/

/-- The locals of `cc-record-layout` and the members that it has passed. -/
structure Layouting where
  size : Cell
  alignment : Cell
  members : List Member

namespace Types

variable (types : Types)

/-- The loop of `cc-record-layout` for one member. -/
def layoutMember (owner : Nat) (packed : Bool) (l : Layouting) (m : Member) : Layouting :=
  if m.owner = owner then
    let alignment := memberAlignment (types.alignment m.type) m.attributes packed
    let offset := if (types.record owner).union then 0 else alignUp l.size alignment
    ⟨maxCell (offset + types.size m.type) l.size, maxCell alignment l.alignment,
      l.members ++ [{ m with offset }]⟩
  else { l with members := l.members ++ [m] }

/-- `cc-record-layout` -/
def recordLayout (owner : Nat) (packed : Bool) (requested : Cell) : Types :=
  let l := types.members.foldl (types.layoutMember owner packed) ⟨0, maxCell requested 1, []⟩
  { types with members := l.members }.modify owner fun r ↦
    { r with size := alignUp l.size l.alignment, alignment := l.alignment, packed }

/-- `cc-new-record` -/
def newRecord (union : Bool) : Types :=
  { types.modify types.count fun _ ↦ .new union with count := types.count + 1 }

/-- The record that is defined: a new one, or one whose tag is known. -/
def targetRecord (target : Option Nat) (union : Bool) : Option (Nat × Types) :=
  match target with
  | none => some (types.count, types.newRecord union)
  | some id =>
      if id < types.count ∧ (types.record id).union = union ∧
          (types.record id).complete = .incomplete then
        some (id, types)
      else none

/-- The end of `cc-read-members`. -/
def closeRecord (owner : Nat) : Types :=
  types.modify owner fun r ↦ { r with size := alignUp r.size r.alignment, complete := .complete }

end Types

/-- `cc-read-record-body`, when the reading of the members is given. -/
def readRecordBody (readMembers : Nat → Types → Option Types) (target : Option Nat) (union : Bool)
    (before after : List Attribute) (types : Types) : Option (Nat × Types) :=
  (readLayoutAttributes false false 0 before).bind fun a ↦
    (types.targetRecord target union).bind fun (id, types) ↦
      (readMembers id (types.modify id fun r ↦ { r with complete := .defining })).bind fun types ↦
        (readLayoutAttributes false a.1 a.2 after).map fun (packed, alignment) ↦
          (id, if packed ∨ alignment ≠ 0 ∨ (types.record id).memberAttributes then
            types.recordLayout id packed alignment else types)

/-- What stands between the braces: declarations with a type of the table, with a tag that was not
known, and with a record that is defined there.  A tag alone declares no member, and a record
without a tag and a declarator is an anonymous member. -/
inductive Members
  | close
  | known (before : List Attribute) (type : CType) (tag : Bool) (after : List Attribute)
      (declarators : List Types.Declarator) (rest : Members)
  | forward (before : List Attribute) (union : Bool) (after : List Attribute)
      (declarators : List Types.Declarator) (rest : Members)
  | nested (before : List Attribute) (target : Option Nat) (union tag : Bool)
      (leading : List Attribute) (body : Members) (trailing after : List Attribute)
      (declarators : List Types.Declarator) (rest : Members)

/-- `cc-read-members` -/
def readMembers : Members → Nat → Types → Option Types
  | .close, owner, types => some (types.closeRecord owner)
  | .known before type tag after declarators rest, owner, types =>
      (readMemberAttributes 0 before).bind fun attributes ↦
        if ¬ types.Listed type ∨ declarators = [] ∧ ¬ tag then none
        else (readMemberAttributes attributes after).bind fun attributes ↦
          (readDeclarators owner type attributes declarators types).bind (readMembers rest owner)
  | .forward before union after declarators rest, owner, types =>
      (readMemberAttributes 0 before).bind fun attributes ↦
        (readMemberAttributes attributes after).bind fun attributes ↦
          (readDeclarators owner (.record types.count) attributes declarators
            (types.newRecord union)).bind (readMembers rest owner)
  | .nested before target union tag leading body trailing after declarators rest, owner, types =>
      (readMemberAttributes 0 before).bind fun attributes ↦
        (readRecordBody (fun id types ↦ readMembers body id types) target union leading trailing
          types).bind fun (id, types) ↦
            (readMemberAttributes attributes after).bind fun attributes ↦
              (if declarators = [] ∧ ¬ tag then
                if (types.record owner).flexible then none
                else types.addMember owner "" (.record id) attributes
              else readDeclarators owner (.record id) attributes declarators types).bind
                (readMembers rest owner)

/-- `cc-read-record-body` of a record with a body. -/
def readRecord (target : Option Nat) (union : Bool) (before : List Attribute) (body : Members)
    (after : List Attribute) (types : Types) : Option (Nat × Types) :=
  readRecordBody (readMembers body) target union before after types

end CopySpace.Compiler
