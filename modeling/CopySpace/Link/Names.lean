import CopySpace.Link.Text

/-!
# `copy_link.c`: the names of a unit

`object_scan` collects for every name of a unit what the unit says about it: whether it is
defined (strongly, weakly, as a common), declared external or local, and referenced.
-/

namespace CopySpace.Link

/-! ## The table -/

/-- An entry of `struct object_names`. -/
structure ObjectName where
  name : Text
  defined : Bool
  external : Bool
  isLocal : Bool
  common : Bool
  strong : Bool
  weak : Bool
  referenced : Bool
  commonSize : Nat
  commonAlignment : Nat
deriving DecidableEq

/-- The entry of a new name. -/
def ObjectName.fresh (name : Text) : ObjectName :=
  ⟨name, false, false, false, false, false, false, false, 0, 0⟩

/-- `struct object_names`. -/
abbrev ObjectNames := List ObjectName

/-- The size of the array `name` of an entry, with its NUL. -/
def nameSize : Nat := 64

def nameStart (c : Char) : Bool :=
  c = '_' || c = '.' || c = '$' || ('a' ≤ c && c ≤ 'z') || ('A' ≤ c && c ≤ 'Z')

def nameChar (c : Char) : Bool := nameStart c || isDigit c

/-- What `object_name` accepts as a name. -/
def validName : Text → Bool
  | [] => false
  | c :: s => decide ((c :: s).length < nameSize) && nameStart c && s.all nameChar

section Scan

variable (labelCapacity : Nat)

/-- `object_name`: the index of a name, which is entered when `create` is set. -/
def objectName (names : ObjectNames) (s : Text) (create : Bool) : Option (Nat × ObjectNames) :=
  if ¬ validName s then none
  else match names.findIdx? (·.name = s) with
    | some i => some (i, names)
    | none =>
        if ¬ create ∨ names.length = labelCapacity then none
        else some (names.length, names ++ [.fresh s])

/-- Enter a name and set flags of its entry. -/
def declare (names : ObjectNames) (s : Text) (flags : ObjectName → ObjectName) :
    Option ObjectNames := do
  let (index, names) ← objectName labelCapacity names s true
  some (names.modify index flags)

/-! ## References -/

/-- The first word of a statement, and what follows the character after it. -/
def mnemonic (s : Text) : Text × Text :=
  (s.takeWhile (!whitespace ·), (s.dropWhile (!whitespace ·)).drop 1)

def dataDirectives : List Text :=
  [".byte", ".short", ".2byte", ".long", ".word", ".4byte", ".quad", ".8byte"].map String.toList

/-- What the loop over the arguments of a statement knows. -/
structure Operands where
  data : Bool
  direct : Bool
  immediate : Bool
  memory : Bool
  /-- `s[5]=='s'`. -/
  store : Bool
  /-- There is a comma. -/
  comma : Bool

/-- The names in the arguments of a statement that refer to symbols.  The loop of the source
goes on behind a name; its further characters are no starts of names, quotes or parentheses, so
here they are passed one by one. -/
def referencesIn (operands : Operands) (quoted passed : Bool) (parentheses : Int)
    (previous : Option Char) (names : ObjectNames) : Text → Option ObjectNames
  | [] => if quoted then none else some names
  | c :: s =>
      let quoted := quoted ^^ decide (c = '"')
      if quoted ∧ c = '\\' ∧ s ≠ [] then
        match s with
        | [] => none
        | d :: s =>
            referencesIn operands quoted (passed || d = ',') parentheses (some d) names s
      else if ¬ quoted ∧ nameStart c ∧ ¬ previous.any nameChar then
        let name := c :: s.takeWhile nameChar
        if name.length ≥ nameSize then none
        else
          let symbolic := operands.data || operands.direct ||
            (operands.immediate && operands.comma && passed) ||
            (operands.memory && operands.comma && decide (parentheses = 0) &&
              (if operands.store then !passed else passed))
          if name ≠ ['.'] ∧ (symbolic ∨ (reg name).isNone) then do
            let names ← declare labelCapacity names name fun e ↦ { e with referenced := true }
            referencesIn operands quoted (passed || c = ',') parentheses (some c) names s
          else referencesIn operands quoted (passed || c = ',') parentheses (some c) names s
      else
        let parentheses := if ¬ quoted ∧ c = '(' then parentheses + 1
          else if ¬ quoted ∧ c = ')' then parentheses - 1 else parentheses
        referencesIn operands quoted (passed || c = ',') parentheses (some c) names s

local instance lawfulName : LawfulBEq (List Char) := inferInstance

/-- `object_references`, one statement. -/
def referencesOfLine (names : ObjectNames) (line : Text) : Option ObjectNames :=
  let s := trim line
  if s = [] ∨ s.getLast? = some ':' then some names
  else
    let (s, arguments) := mnemonic s
    let data := s.head? = some '.'
    let scan (arguments : Text) : Option ObjectNames :=
      referencesIn labelCapacity
        { data := data
          direct := s = "copy.jsra".toList || s = "copy.jmpa".toList ||
            "copy.branch.".toList.isPrefixOf s
          immediate := s = "copy.ldi.l".toList
          memory := "copy.ld".toList.isPrefixOf s || "copy.st".toList.isPrefixOf s
          store := s[5]? = some 's'
          comma := (strchr ',' arguments).isSome }
        false false 0 none names arguments
    if data then
      if s = ".set".toList ∨ s = ".equ".toList then
        match strchr ',' arguments with
        | none => none
        | some (_, arguments) => scan arguments
      else if s ∈ dataDirectives then scan arguments
      else some names
    else scan arguments

def objectReferences (names : ObjectNames) (text : Text) : Option ObjectNames :=
  (lines text).foldlM (referencesOfLine labelCapacity) names

/-! ## Declarations -/

/-- The size and the alignment of `.comm`. -/
def commonArguments (arguments : Text) : Option (Nat × Nat) := do
  let (amount, alignment) := match strchr ',' arguments with
    | none => (arguments, none)
    | some (amount, alignment) => (amount, some (trim alignment))
  let amount := trim amount
  if '-' ∈ amount then none
  let size ← integer amount
  let align ← match alignment with
    | none => some 4
    | some alignment => if '-' ∈ alignment then none else integer alignment
  if align = 0 ∨ align &&& (align - 1) ≠ 0 then none
  some (size, align)

/-- The names of `.global` and the like, in order. -/
def declareAll (flags : ObjectName → ObjectName) : Nat → ObjectNames → Text → Option ObjectNames
  | 0, _, _ => none
  | fuel + 1, names, arguments =>
      match strchr ',' arguments with
      | none => declare labelCapacity names (trim arguments) flags
      | some (name, rest) => do
          let names ← declare labelCapacity names (trim name) flags
          declareAll flags fuel names (trim rest)

/-- A directive that declares or defines names. -/
def declareLine (names : ObjectNames) (s arguments : Text) : Option ObjectNames :=
  let weak := decide (s = ".weak".toList)
  let external := weak || s = ".global".toList || s = ".globl".toList
  let isLocal := decide (s = ".local".toList)
  let common := decide (s = ".comm".toList)
  let definition := common || s = ".set".toList || s = ".equ".toList
  let flags (e : ObjectName) : ObjectName :=
    { e with
      external := e.external || external
      weak := e.weak || weak
      isLocal := e.isLocal || isLocal
      defined := e.defined || definition
      common := e.common || common
      strong := e.strong || (definition && !common) }
  if ¬ external ∧ ¬ isLocal ∧ ¬ definition then some names
  else if definition then do
    let (name, rest) ← match strchr ',' arguments with
      | none => none
      | some (name, rest) => some (name, rest)
    if common then
      let (size, align) ← commonArguments rest
      declare labelCapacity names (trim name) fun e ↦
        { flags e with
          commonSize := if e.commonSize = 0 then size else e.commonSize
          commonAlignment := max e.commonAlignment align }
    else declare labelCapacity names (trim name) flags
  else declareAll labelCapacity flags (arguments.length + 1) names arguments

/-- `object_scan`, one statement; the number counts open `.pushsection`s. -/
def scanLine (state : ObjectNames × Nat) (line : Text) : Option (ObjectNames × Nat) :=
  let (names, depth) := state
  let s := trim line
  if s = [] then some (names, depth)
  else if s.getLast? = some ':' then
    let s := trim s.dropLast
    if (decimalLabel s).any (·.1 = []) then some (names, depth)
    else do
      let names ← declare labelCapacity names s fun e ↦ { e with defined := true, strong := true }
      some (names, depth)
  else
    let (s, arguments) := mnemonic s
    let arguments := trim arguments
    if s = ".weakref".toList then none
    else do
      let depth ←
        if s = ".pushsection".toList then (if depth + 1 > 16 then none else some (depth + 1))
        else if s = ".popsection".toList then (if depth = 0 then none else some (depth - 1))
        else some depth
      let names ← declareLine labelCapacity names s arguments
      some (names, depth)

/-- The checks at the end of `object_scan`, for one entry. -/
def finishName (e : ObjectName) : Option ObjectName :=
  if e.isLocal ∧ e.external then none
  else if e.common ∧ e.strong then none
  else if e.common ∧ e.weak then none
  else
    let e := if e.common ∧ ¬ e.isLocal then { e with external := true } else e
    let e := if e.referenced ∧ ¬ e.defined ∧ ¬ e.isLocal then { e with external := true } else e
    if (e.defined ∨ e.isLocal) ∧ ¬ e.external ∧ e.name.length + 7 ≥ nameSize then none
    else some e

/-- `object_scan`, into an empty table. -/
def objectScan (text : Text) : Option ObjectNames := do
  let (names, depth) ← (lines text).foldlM (scanLine labelCapacity) ([], 0)
  if depth ≠ 0 then none
  let names ← objectReferences labelCapacity names text
  names.mapM finishName

end Scan

/-! ## What a table says -/

/-- The entry of a name; a name that was not entered has no flags. -/
def lookup (names : ObjectNames) (name : Text) : ObjectName :=
  (names.find? (·.name = name)).getD (.fresh name)

/-- The names of a table have been accepted by `object_name`. -/
def Valid (names : ObjectNames) : Prop := ∀ e ∈ names, validName e.name

section Lookup

variable {labelCapacity index : Nat} {names names' : ObjectNames} {s name : Text}
  {flags : ObjectName → ObjectName} {create : Bool}

theorem lookup_nil (name : Text) : lookup [] name = .fresh name := rfl

theorem lookup_cons (e : ObjectName) (names : ObjectNames) (name : Text) :
    lookup (e :: names) name = if e.name = name then e else lookup names name := by
  unfold lookup
  rw [List.find?_cons]
  by_cases h : e.name = name
  · rw [if_pos h]
    simp [h]
  · rw [if_neg h]
    simp [h]

/-- A name that is not in the table. -/
theorem lookup_of_findIdx_none (h : names.findIdx? (·.name = name) = none) :
    lookup names name = .fresh name := by
  rw [List.findIdx?_eq_none_iff] at h
  rw [lookup, List.find?_eq_none.mpr fun e he ↦ by simpa using h e he, Option.getD_none]

theorem lookup_append_fresh (h : names.findIdx? (·.name = s) = none) (name : Text) :
    lookup (names ++ [.fresh s]) name = lookup names name := by
  induction names with
  | nil =>
      rw [List.nil_append, lookup_cons]
      by_cases hn : s = name
      · exact if_pos hn |>.trans (by rw [hn, lookup_nil])
      · exact if_neg hn
  | cons e names ih =>
      rw [List.findIdx?_eq_none_iff] at h
      rw [List.cons_append, lookup_cons, lookup_cons, ih]
      exact List.findIdx?_eq_none_iff.mpr fun x hx ↦ h x (List.mem_cons_of_mem _ hx)

/-- Setting flags of an entry. -/
theorem lookup_modify (hf : ∀ e, (flags e).name = e.name)
    (h : names.findIdx? (·.name = s) = some index) (name : Text) :
    lookup (names.modify index flags) name =
      if name = s then flags (lookup names s) else lookup names name := by
  induction names generalizing index with
  | nil => nomatch h
  | cons e names ih =>
      rw [List.findIdx?_cons] at h
      by_cases he : e.name = s
      · rw [if_pos (by simpa using he)] at h
        cases h
        rw [List.modify_zero_cons, lookup_cons, lookup_cons, lookup_cons, if_pos he, hf, he]
        by_cases hn : name = s
        · rw [if_pos hn, if_pos hn.symm]
        · rw [if_neg hn, if_neg (Ne.symm hn)]
          exact (if_neg (Ne.symm hn)).symm
      · rw [if_neg (by simpa using he)] at h
        obtain ⟨j, hj, rfl⟩ := Option.map_eq_some_iff.mp h
        rw [List.modify_succ_cons, lookup_cons, lookup_cons, lookup_cons, if_neg he, ih hj]
        by_cases hn : name = s
        · rw [if_pos hn, if_pos hn, if_neg (hn ▸ he)]
        · rw [if_neg hn, if_neg hn]

theorem getElem_of_findIdx (h : names.findIdx? (·.name = s) = some index) :
    names[index]? = some (lookup names s) := by
  induction names generalizing index with
  | nil => nomatch h
  | cons e names ih =>
      rw [List.findIdx?_cons] at h
      by_cases he : e.name = s
      · rw [if_pos (by simpa using he)] at h
        cases h
        rw [List.getElem?_cons_zero, lookup_cons, if_pos he]
      · rw [if_neg (by simpa using he)] at h
        obtain ⟨j, hj, rfl⟩ := Option.map_eq_some_iff.mp h
        rw [List.getElem?_cons_succ, lookup_cons, if_neg he, ih hj]

/-- `object_name` enters a name without flags, and says where it stands. -/
theorem objectName_eq_some (h : objectName labelCapacity names s create = some (index, names')) :
    validName s ∧ names'.findIdx? (·.name = s) = some index ∧
      (∀ name, lookup names' name = lookup names name) ∧
      (names' = names ∨ create ∧ names' = names ++ [.fresh s]) := by
  unfold objectName at h
  split at h
  · nomatch h
  case isFalse hv =>
    refine ⟨not_not.mp hv, ?_⟩
    split at h
    case h_1 i hi =>
      cases h
      exact ⟨hi, fun _ ↦ rfl, .inl rfl⟩
    case h_2 hnone =>
      split at h
      · nomatch h
      case isFalse hc =>
        cases h
        refine ⟨?_, lookup_append_fresh hnone, .inr ⟨not_not.mp fun h ↦ hc (.inl h), rfl⟩⟩
        rw [List.findIdx?_append, hnone]
        simp [ObjectName.fresh]

/-- What `declare` does to a table. -/
theorem lookup_declare (hf : ∀ e, (flags e).name = e.name)
    (h : declare labelCapacity names s flags = some names') (name : Text) :
    lookup names' name = if name = s then flags (lookup names s) else lookup names name := by
  obtain ⟨⟨index, entered⟩, hn, he⟩ := Option.bind_eq_some_iff.mp h
  cases he
  obtain ⟨-, hi, hl, -⟩ := objectName_eq_some hn
  rw [lookup_modify hf hi, hl, hl]

theorem Valid.declare (hv : Valid names) (hf : ∀ e, (flags e).name = e.name)
    (h : declare labelCapacity names s flags = some names') : Valid names' := by
  obtain ⟨⟨index, entered⟩, hn, he⟩ := Option.bind_eq_some_iff.mp h
  cases he
  obtain ⟨hs, -, -, hcases⟩ := objectName_eq_some hn
  have hentered : Valid entered := by
    rcases hcases with rfl | ⟨-, rfl⟩
    · exact hv
    · intro e he
      rcases List.mem_append.mp he with he | he
      · exact hv e he
      · rw [List.mem_singleton.mp he]
        exact hs
  intro e he
  obtain ⟨i, hi, rfl⟩ := List.getElem_of_mem he
  rw [List.getElem_modify]
  split
  · rw [hf]
    exact hentered _ (List.getElem_mem _)
  · exact hentered _ (List.getElem_mem _)

/-- An unknown name has no flags. -/
theorem lookup_of_objectName_none (hv : Valid names)
    (h : objectName labelCapacity names name false = none) :
    lookup names name = .fresh name := by
  refine lookup_of_findIdx_none ?_
  unfold objectName at h
  split at h
  case isTrue hn =>
    refine List.findIdx?_eq_none_iff.mpr fun e he ↦ ?_
    have hne : e.name ≠ name := fun hee ↦ hn (hee ▸ hv e he)
    simpa using hne
  case isFalse =>
    split at h
    case h_1 => nomatch h
    case h_2 hnone => exact hnone

end Lookup

end CopySpace.Link
