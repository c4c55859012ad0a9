import CopySpace.Link.Labels
import CopySpace.Lib.Relax

/-!
# `copy_link.c`: layout

`layout_data` places the data sections one behind the other, moves the data labels to them,
defines the weak names that nothing defines, and then resolves the aliases in as many passes as
there are aliases.
-/

namespace CopySpace.Link

/-- `struct data_section`. -/
structure DataSection where
  name : Text
  position : Nat
  alignment : Nat
  base : Nat
  kind : Nat
deriving DecidableEq

/-- The next multiple of an alignment, in 32 bits. -/
def alignUp (cursor alignment : Nat) : Nat :=
  (cursor + alignment - 1) % 2 ^ 32 &&& (uint32Max ^^^ (alignment - 1))

/-- Give the sections of data and of zeros their bases, from the cursor on. -/
def layoutSections (capacity : Nat) : Nat → List DataSection → Option (List DataSection)
  | _, [] => some []
  | cursor, s :: sections =>
      if s.kind ≠ 1 ∧ s.kind ≠ 2 then (layoutSections capacity cursor sections).map (s :: ·)
      else
        let base := alignUp cursor s.alignment
        if base > capacity ∨ s.position > capacity - base then none
        else (layoutSections capacity (base + s.position) sections).map ({ s with base := base } :: ·)

/-- Move a label of a data section to its section. -/
def placeLabel (sections : List DataSection) (l : Label) : Label :=
  match l.data with
  | .ofNat (index + 1) =>
      if l.defined then
        { l with address := (l.address + (sections[index]?.map DataSection.base).getD 0) % 2 ^ 32 }
      else l
  | _ => l

/-- Define a weak name that nothing defines. -/
def missWeak (l : Label) : Label :=
  if l.weak ∧ ¬ l.defined ∧ ¬ l.isAlias then
    { l with defined := true, data := -1, address := 0, missingWeak := true }
  else l

/-- One alias in one pass. -/
def aliasStep (label : Key → Label) (a : Alias) : Key → Label :=
  if (label a.label).defined then label
  else match a.target with
    | none => Function.update label a.label
        { label a.label with address := a.addend % 2 ^ 32, data := -1, missingWeak := false, defined := true }
    | some target =>
        if ¬ (label target).defined then label
        else Function.update label a.label { label a.label with
          address := (a.addend + (label target).address) % 2 ^ 32
          data := (label target).data
          missingWeak := (label target).missingWeak
          defined := true }

def aliasPass (aliases : List Alias) (label : Key → Label) : Key → Label :=
  aliases.foldl aliasStep label

def resolveAliases (aliases : List Alias) (label : Key → Label) : Key → Label :=
  (aliasPass aliases)^[aliases.length] label

/-- The labels before the aliases are resolved. -/
def placeLabels (sections : List DataSection) (label : Key → Label) : Key → Label :=
  fun k ↦ missWeak (placeLabel sections (label k))

/-- `layout_data`: whether it succeeds, and the sections and labels it leaves. -/
def layoutData (memoryBytes : Nat) (sections : List DataSection) (t : LabelTable) :
    Bool × List DataSection × LabelTable :=
  match layoutSections (memoryBytes / 2) 256 sections with
  | none => (false, sections, t)
  | some sections =>
      let resolved := resolveAliases t.aliases (placeLabels sections t.label)
      (t.aliases.all fun a ↦ (resolved a.label).defined, sections, { t with label := resolved })

end CopySpace.Link
