import CopySpace.Compiler.Records
import Mathlib.Logic.Function.Basic

/-!
# `compiler.fth`: static objects

A translation places its static objects and its literals one behind the other.  An object whose
initializer makes it longer than its type grows where it is if it was placed last; otherwise the
translation is done a second time, with the sizes that the first one found.
-/

namespace CopySpace.Compiler

/-- `cc-static-base` -/
def staticBase : Cell := 98304

/-- `cc-data-base` -/
def dataBase : Cell := 131072

/-! ## The source -/

/-- The messages of `cc-fail`. -/
inductive LayoutFailure
  | limit
  | changedOrder
  | changedSize
  | missing
  | unstable
  deriving DecidableEq

/-- `cc-static-data`, the tables and variables of the layout, and the sizes of the types of the
objects.  The literals are not in a table of the source. -/
structure Statics where
  data : Cell
  cursor : Nat
  count : Nat
  mode : Bool
  replay : Bool
  sizes : Nat → Cell
  targets : Nat → Cell
  typeSize : Cell → Cell
  literals : List (Cell × Nat)

/-- `cc-width` -/
def widthOf (size : Cell) : Cell := size * 8

namespace Statics

/-- `cc-layout-object` -/
def layoutObject (st : Statics) (target size : Cell) : Except LayoutFailure (Cell × Statics) :=
  let bits := maxCell (widthOf size) 8
  let next (bits : Cell) (st : Statics) : Cell × Statics :=
    (bits, { st with
      targets := Function.update st.targets st.cursor target
      cursor := st.cursor + 1 })
  if st.cursor ≥ 1024 then .error .limit
  else if st.mode then
    if st.cursor ≥ st.count then .error .changedOrder
    else if (st.sizes st.cursor).slt bits then .error .changedSize
    else .ok (next (st.sizes st.cursor) st)
  else
    .ok (next bits { st with
      sizes := Function.update st.sizes st.cursor bits
      count := st.cursor + 1 })

/-- `cc-static-object` for a type with a size and an alignment. -/
def staticObject (st : Statics) (size alignment : Cell) : Except LayoutFailure Statics := do
  let target := alignUp st.data (alignment * 8)
  let (bits, st) ← { st with data := target + widthOf size }.layoutObject target size
  let st := { st with data := bits - widthOf size + st.data }
  if dataBase.slt st.data then .error .limit
  else .ok { st with typeSize := Function.update st.typeSize target size }

/-- The bytes of a literal in `cc-string-body`. -/
def literalBytes (st : Statics) : Nat → Except LayoutFailure Statics
  | 0 => .ok st
  | n + 1 =>
      if dataBase.slt (st.data + 8) then .error .limit
      else { st with data := st.data + 8 }.literalBytes n

/-- `cc-string-body` for a literal of so many bytes. -/
def literal (st : Statics) (bytes : Nat) : Except LayoutFailure Statics :=
  { st with literals := (st.data, 8 * (bytes + 1)) :: st.literals }.literalBytes (bytes + 1)

/-- The loop of `cc-layout-find`. -/
def layoutFind (st : Statics) (target : Cell) : Nat → Except LayoutFailure Nat
  | 0 => .error .missing
  | index + 1 => if st.targets index = target then .ok index else st.layoutFind target index

/-- `cc-layout-grow` -/
def layoutGrow (st : Statics) (target ending : Cell) : Except LayoutFailure Statics := do
  let index ← st.layoutFind target st.cursor
  let previous := st.sizes index + target
  if previous.slt ending then
    if st.mode then .error .changedSize
    else
      let st := { st with sizes := Function.update st.sizes index (ending - target) }
      if previous = st.data then .ok { st with data := ending } else .ok { st with replay := true }
  else .ok st

/-- `cc-static-flex-reserve` after the measuring: an array of so many elements at an offset in the
object. -/
def flexReserve (st : Statics) (target length element offset : Cell) :
    Except LayoutFailure Statics :=
  let bytes := maxCell (element * length + offset) (st.typeSize target)
  let ending := target + bytes * 8
  if (target + widthOf (st.typeSize target)).slt ending then
    if dataBase.slt ending then .error .limit else st.layoutGrow target ending
  else .ok st

end Statics

/-! ## Translations -/

/-- What a measuring pass allocates before it is rolled back: literals, and what other measuring
passes in it allocate.  Compound literals are no static objects in it. -/
inductive Trial
  | done
  | literal (bytes : Nat) (rest : Trial)
  | measure (inner rest : Trial)

/-- The allocations of a translation with so many objects before. -/
inductive Events : Nat → Type
  | done {n : Nat} : Events n
  | object {n : Nat} (size alignment : Cell) (rest : Events (n + 1)) : Events n
  | literal {n : Nat} (bytes : Nat) (rest : Events n) : Events n
  | grow {n : Nat} (object : Fin n) (length element offset : Cell) (rest : Events n) : Events n
  | measure {n : Nat} (inner : Trial) (rest : Events n) : Events n

/-- A measuring pass.  The state is restored after it. -/
def runTrial (st : Statics) : Trial → Except LayoutFailure Unit
  | .done => .ok ()
  | .literal bytes rest => do
      let st ← st.literal bytes
      runTrial st rest
  | .measure inner rest => do
      runTrial st inner
      runTrial st rest

/-- The events of a pass. -/
def runEvents (st : Statics) {n : Nat} : Events n → Except LayoutFailure Statics
  | .done => .ok st
  | .object size alignment rest => do
      let st ← st.staticObject size alignment
      runEvents st rest
  | .literal bytes rest => do
      let st ← st.literal bytes
      runEvents st rest
  | .grow object length element offset rest => do
      let st ← st.flexReserve (st.targets object) length element offset
      runEvents st rest
  | .measure inner rest => do
      runTrial st inner
      runEvents st rest

/-- `cc-reset-translation` -/
def Statics.reset (st : Statics) : Statics :=
  { st with data := staticBase, cursor := 0, typeSize := fun _ ↦ 4, literals := [] }

/-- The state of the first pass. -/
def Statics.first (st : Statics) : Statics :=
  { st with mode := false, count := 0, replay := false }.reset

/-- The state of the second pass. -/
def Statics.again (st : Statics) : Statics := { st with mode := true, replay := false }.reset

/-- `CC-RUN`: how many passes there were, and the state after the last one. -/
def ccRun (st : Statics) (events : Events 0) : Except LayoutFailure (Nat × Statics) := do
  let st ← runEvents st.first events
  if st.replay then
    let st ← runEvents st.again events
    if st.cursor ≠ st.count then .error .changedOrder
    else if st.replay then .error .unstable
    else .ok (2, st)
  else .ok (1, st)

end CopySpace.Compiler
