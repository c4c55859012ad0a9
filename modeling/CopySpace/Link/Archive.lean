import CopySpace.Lib.Selection
import CopySpace.Link.Names

/-!
# `copy_link.c`: selecting the members of archives

`cs_copy_link_archives_alloc` extracts from a group of archives the members that define what
the units selected so far need, pass after pass, until a pass extracts nothing.  One table
`required` holds for every external name whether some selected unit references it strongly and
whether one defines it.

The table is abstracted to the units it stands for (`Tracks`); the loop is then the selection
on demand of `CopySpace.Selection`.
-/

namespace CopySpace.Link

/-! ## Archives -/

def sizeMax : Nat := 2 ^ 64 - 1

def archiveDigits (n : Nat) : Text → Option (Text × Nat)
  | [] => some ([], n)
  | c :: s =>
      if isDigit c then
        if n > (sizeMax - digit c) / 10 then none else archiveDigits (n * 10 + digit c) s
      else some (c :: s, n)

/-- `archive_decimal`. -/
def archiveDecimal (s : Text) : Option Nat := do
  let (rest, n) ← archiveDigits 0 s
  if rest.length = s.length then none
  if rest.all (· = ' ') then some n else none

/-- Where the contents of a member begin, and whether it is an index or a table of names. -/
def archiveFilename (name : Text) (bytes : Nat) (body : Text) : Option (Nat × Bool) :=
  let metadata := name = "/".toList || name = "//".toList || name = "/SYM64/".toList
  if name.length > 3 ∧ "#1/".toList.isPrefixOf name then
    match archiveDecimal (name.drop 3) with
    | none => none
    | some filename =>
        if filename > bytes then none
        else some (filename,
          metadata || (decide (filename ≥ 9) && "__.SYMDEF".toList.isPrefixOf body))
  else some (0, metadata || "__.SYMDEF".toList.isPrefixOf name)

/-- What follows a member: an odd one is padded. -/
def archiveAfter (bytes : Nat) (body : Text) : Option Text :=
  if bytes % 2 = 1 then
    match body.drop bytes with
    | [] => none
    | c :: after => if c ≠ '\n' then none else some after
  else some (body.drop bytes)

/-- One member: whether it is metadata, its contents, and what follows it. -/
def archiveMember (rest : Text) : Option (Bool × Text × Text) :=
  let header := rest.take 60
  let body := rest.drop 60
  let name := ((header.take 16).reverse.dropWhile (· = ' ')).reverse
  if rest.length < 60 ∨ header.drop 58 ≠ "`\n".toList then none
  else match archiveDecimal ((header.drop 48).take 10) with
    | none => none
    | some bytes =>
        if bytes > body.length ∨ name = [] then none
        else (archiveFilename name bytes body).bind fun (filename, metadata) ↦
          (archiveAfter bytes body).map fun after ↦
            (metadata, (body.take bytes).drop filename, after)

/-- The members behind the magic, at most `capacity` of them.  A member takes sixty characters
and more, so as many steps as there are characters are enough. -/
def archiveMembersFrom : Nat → Nat → Text → Option (List Text)
  | _, 0, rest => if rest = [] then some [] else none
  | _, _ + 1, [] => some []
  | capacity, fuel + 1, c :: rest =>
      match archiveMember (c :: rest) with
      | none => none
      | some (metadata, contents, after) =>
          if metadata then archiveMembersFrom capacity fuel after
          else if capacity = 0 then none
          else (archiveMembersFrom (capacity - 1) fuel after).map (contents :: ·)

theorem length_archiveAfter {bytes : Nat} {body after : Text}
    (h : archiveAfter bytes body = some after) : after.length ≤ body.length := by
  have hdrop : (body.drop bytes).length ≤ body.length := by
    rw [List.length_drop]
    exact Nat.sub_le _ _
  unfold archiveAfter at h
  split at h
  · split at h
    · nomatch h
    case h_2 c after' he =>
      split at h
      · nomatch h
      · cases h
        rw [he, List.length_cons] at hdrop
        exact Nat.le_of_succ_le hdrop
  · cases h
    exact hdrop

theorem length_archiveMember {rest contents after : Text} {metadata : Bool}
    (h : archiveMember rest = some (metadata, contents, after)) :
    after.length < rest.length := by
  unfold archiveMember at h
  dsimp only at h
  split at h
  · nomatch h
  case isFalse hheader =>
    split at h
    · nomatch h
    split at h
    · nomatch h
    · obtain ⟨⟨filename, data⟩, -, h⟩ := Option.bind_eq_some_iff.mp h
      obtain ⟨after', ha, h⟩ := Option.map_eq_some_iff.mp h
      cases h
      have := length_archiveAfter ha
      rw [List.length_drop] at this
      omega

/-- More steps change nothing. -/
theorem archiveMembersFrom_eq {capacity fuel : Nat} {rest : Text} (h : rest.length ≤ fuel) :
    archiveMembersFrom capacity fuel rest = archiveMembersFrom capacity rest.length rest := by
  induction fuel using Nat.strongRecOn generalizing capacity rest with
  | _ fuel ih =>
      cases rest with
      | nil => cases fuel <;> rfl
      | cons c rest =>
          rw [List.length_cons] at h
          obtain ⟨fuel, rfl⟩ := Nat.exists_eq_add_of_le' (show 1 ≤ fuel by omega)
          rw [List.length_cons, archiveMembersFrom, archiveMembersFrom]
          split
          · rfl
          case h_2 metadata contents after hm =>
            have hlt := length_archiveMember hm
            rw [List.length_cons] at hlt
            have hrec : ∀ capacity, archiveMembersFrom capacity fuel after =
                archiveMembersFrom capacity rest.length after := fun capacity ↦ by
              rw [ih fuel (by omega) (by omega), ih rest.length (by omega) (by omega)]
            rw [hrec, hrec]

/-- `archive_members`. -/
def archiveMembers (capacity : Nat) (archive : Text) : Option (List Text) :=
  if "!<arch>\n".toList.isPrefixOf archive then
    archiveMembersFrom capacity archive.length (archive.drop 8)
  else none

def maxObjects : Nat := 64

def maxArchiveMembers : Nat := 256

/-- The members of all archives. -/
def allMembers (archives : List Text) : Option (List Text) :=
  archives.foldlM (fun members archive ↦ do
    let added ← archiveMembers (maxArchiveMembers - members.length) archive
    some (members ++ added)) []

/-! ## The loop -/

section Loop

variable (labelCapacity : Nat) (objects members : List Text) (entry : Text)

/-- Set flags of an entry of `required`. -/
def ObjectName.require (defined referenced : Bool) (r : ObjectName) : ObjectName :=
  { r with defined := r.defined || defined, referenced := r.referenced || referenced }

@[simp] theorem ObjectName.name_require (defined referenced : Bool) (r : ObjectName) :
    (r.require defined referenced).name = r.name := rfl

/-- `archive_requirements`. -/
def archiveRequirements (required unit : ObjectNames) (first : Bool) : Option ObjectNames :=
  unit.foldlM (fun required e ↦
    let referenced := e.referenced && !e.weak
    let rootEntry := first && e.defined && decide (e.name = entry)
    if ¬ rootEntry ∧ (¬ e.external ∨ (¬ e.defined ∧ ¬ referenced)) then some required
    else declare labelCapacity required e.name (.require e.defined referenced)) required

/-- `archive_needed`. -/
def archiveNeeded (required candidate : ObjectNames) : Bool :=
  candidate.any fun e ↦ e.external && e.defined &&
    match objectName labelCapacity required e.name false with
    | none => false
    | some (j, _) => (required[j]?).any fun r ↦ r.referenced && !r.defined

/-- The variables of the loop.  The array `extracted` and the part of `selected` behind the
objects are one list here, the indices of the members taken, in order. -/
structure Extraction where
  required : ObjectNames
  taken : List Nat

def invalidInput : String := "invalid copy archive input"

def unsupported : String := "unsupported binding or invalid archive assembly"

def tooMany : String := "too many selected copy archive units"

/-- The loop body, for member `m`. -/
def extractMember (state : Extraction × Bool) (m : Nat) : Except String (Extraction × Bool) :=
  let (e, changed) := state
  if m ∈ e.taken then .ok (e, changed)
  else match objectScan labelCapacity (members.getD m []) with
    | none => .error unsupported
    | some candidate =>
        if ¬ archiveNeeded labelCapacity e.required candidate then .ok (e, changed)
        else if objects.length + e.taken.length = maxObjects then .error tooMany
        else match archiveRequirements labelCapacity entry e.required candidate false with
          | none => .error tooMany
          | some required => .ok (⟨required, e.taken ++ [m]⟩, true)

/-- One pass over the members; the flag is `changed`. -/
def extractPass (e : Extraction) : Except String (Extraction × Bool) :=
  (List.range members.length).foldlM (extractMember labelCapacity objects members entry) (e, false)

/-- The `do … while` loop, for a number of passes: `none` when they are not enough. -/
def extractLoop : Nat → Extraction → Option (Except String Extraction)
  | 0, _ => none
  | fuel + 1, e => match extractPass labelCapacity objects members entry e with
    | .error message => some (.error message)
    | .ok (e, changed) => if changed then extractLoop fuel e else some (.ok e)

/-- The loop over the given objects, for object `i`. -/
def requireObject (required : ObjectNames) (i : Nat) : Except String ObjectNames :=
  match objectScan labelCapacity (objects.getD i []) with
  | none => .error unsupported
  | some unit =>
      match archiveRequirements labelCapacity entry required unit (decide (i = 0)) with
      | none => .error unsupported
      | some required => .ok required

/-- The table of the entry and the given objects. -/
def objectRequirements : Except String ObjectNames :=
  match objectName labelCapacity [] entry true with
  | none => .error unsupported
  | some (index, names) =>
      (List.range objects.length).foldlM (requireObject labelCapacity objects entry)
        (names.modify index (.require false true))

/-- What is handed to `cs_copy_link_objects_alloc`. -/
structure Selected where
  members : List Text
  taken : List Nat
deriving DecidableEq

/-- The selected members, in the order of extraction. -/
def Selected.extracted (s : Selected) : List Text := s.taken.map (s.members.getD · [])

/-- `cs_copy_link_archives_alloc` up to the link of the selected units. -/
def linkArchives (archives : List Text) (fuel : Nat) : Option (Except String Selected) :=
  if objects = [] ∨ objects.length > maxObjects ∨ entry = [] ∨ archives = [] ∨
      archives.length > maxArchiveMembers then some (.error invalidInput)
  else match allMembers archives with
    | none => some (.error invalidInput)
    | some members =>
        if (objects ++ members).any (·.contains '\x00') then some (.error invalidInput)
        else match objectRequirements labelCapacity objects entry with
          | .error message => some (.error message)
          | .ok required =>
              (extractLoop labelCapacity objects members entry fuel ⟨required, []⟩).map
                fun r ↦ r.map fun e ↦ ⟨members, e.taken⟩

end Loop

end CopySpace.Link
