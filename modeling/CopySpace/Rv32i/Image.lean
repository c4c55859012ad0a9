import CopySpace.Bulk.Level
import CopySpace.Lib.Numeral

/-!
# `rv32i.py`: an image under construction

A generator writes lists of copies, `blocks`, and allocates constants and tables as it goes.  It
may raise a `ValueError`, and then the image is abandoned: a step of a generator is a state
transition that can fail (`Gen`).  Of the blocks the current one is followed here.

The gates of an image are the tables that it has so far, under the keys of the dictionary
`gates`; the keys are a parameter, since the two generators use different ones.
-/

namespace CopySpace.Rv32i

open Bulk (FieldName)

/-- An operand of a copy. -/
inductive Operand where
  | int (value : Nat)
  | field (instruction : Nat) (name : FieldName) (offset : Nat)
  | label (name : String)
deriving DecidableEq

/-- `Copy`.  Copies are objects, and `id` tells them apart. -/
structure Copy where
  id : Nat
  n : Nat
  dst : Operand
  src : Operand
deriving DecidableEq

/-- An entry of `data`. -/
structure Datum where
  address : Nat
  width : Nat
  value : Nat
deriving DecidableEq

/-- The state of a generator; `ops` are the copies of the current block, and `next` is the next
object that is created. -/
structure Image (κ : Type) where
  constants : Nat → Option Nat
  gates : κ → Option Nat
  data : List Datum
  constantEnd : Nat
  constantLimit : Nat
  tableEnd : Nat
  codeBase : Nat
  ops : List Copy
  next : Nat

/-- A step of a generator. -/
abbrev Gen (κ : Type) := StateT (Image κ) (Except String)

section Scratch

def scratch : Nat := 0x21000

def temp : Nat := scratch + 32 * 9

def pair : Nat := scratch + 32 * 10

def carry : Nat := scratch + 32 * 11

end Scratch

section Gen

variable {κ : Type}

/-- `Image.constant`. -/
def constant (value : Nat) : Gen κ Nat := fun image ↦
  match image.constants value with
  | some address => .ok (address, image)
  | none =>
      let address := image.constantEnd
      if image.constantLimit < address + 32 then .error "constant region exhausted"
      else .ok (address, { image with
        constants := Function.update image.constants value (some address)
        data := image.data ++ [⟨address, 32, value⟩]
        constantEnd := address + 32 })

/-- `Image.table`.  For a power of two, `& -size` rounds down to a multiple. -/
def table (values : List Nat) (stride : Nat) : Gen κ Nat := fun image ↦
  let size := values.length <<< stride
  if size &&& (size - 1) ≠ 0 then .error "table size must be a power of two"
  else
    let base := (image.tableEnd + size - 1) / size * size
    if image.codeBase < base + size then .error "table region exhausted"
    else .ok (base, { image with
      tableEnd := base + size
      data := image.data ++ values.mapIdx fun i value ↦ ⟨base + i <<< stride, 1 <<< stride, value⟩ })

/-- Create a copy. -/
def newCopy (n : Nat) (dst src : Operand) : Gen κ Copy := fun image ↦
  .ok (⟨image.next, n, dst, src⟩, { image with next := image.next + 1 })

/-- Append a copy to the current block. -/
def append (c : Copy) : Gen κ Unit := fun image ↦
  .ok ((), { image with ops := image.ops ++ [c] })

/-- `Image.emit`. -/
def emit (n : Nat) (dst src : Operand) : Gen κ Unit := do
  let c ← newCopy n dst src
  append c

/-- The loop of `lookup`: the bits `first`, `first + 1`, ... are adjacent, `count` of them so far,
and go to bit `at_` of the index. -/
def lookupRuns (read stride : Nat) (at_ first count : Nat) : List Nat → Gen κ Unit
  | [] => emit count (.field read .src (stride + at_)) (.int first)
  | index :: indices =>
      if index = first + count then lookupRuns read stride at_ first (count + 1) indices
      else do
        emit count (.field read .src (stride + at_)) (.int first)
        lookupRuns read stride (at_ + count) index 1 indices

/-- `Image.lookup`. -/
def lookup (dst : Operand) (base : Nat) (indices : List Nat) (width stride : Nat) :
    Gen κ Unit := do
  let read ← newCopy width dst (.int base)
  match indices with
  | [] => pure ()
  | index :: indices => lookupRuns read.id stride 0 index 1 indices
  append read

/-- The values of the table of a gate with `count` inputs. -/
def gateValues (function : List Nat → Except String Nat) (count : Nat) : Except String (List Nat) :=
  (List.range (1 <<< count)).mapM fun i ↦
    function ((List.range count).map fun j ↦ (i >>> j) &&& 1)

/-- The table under a key, allocated when it is not there yet. -/
def gateTable [DecidableEq κ] (key : κ) (values : Except String (List Nat)) (stride : Nat) :
    Gen κ Nat := fun image ↦
  match image.gates key with
  | some base => .ok (base, image)
  | none => do
      let values ← values
      let (base, image) ← table values stride image
      .ok (base, { image with gates := Function.update image.gates key (some base) })

/-- `gate`: look up one bit in the table under a key. -/
def gateAt [DecidableEq κ] (key : κ) (function : List Nat → Except String Nat) (dst : Nat)
    (inputs : List Nat) : Gen κ Unit := do
  let base ← gateTable key (gateValues function inputs.length) 0
  lookup (.int dst) base inputs 1 0

end Gen

/-! ## `Image.add` -/

/-- The names of `functions` in `Image.gate`. -/
inductive GateName where
  | and
  | or
  | xor
  | not
  | mux
  | signedLt
deriving DecidableEq

/-- The keys of `gates`. -/
inductive GateKey where
  | gate (name : GateName)
  | adder
deriving DecidableEq

/-- `functions`. -/
def GateName.function : GateName → List Nat → Except String Nat
  | and, [a, b] => .ok (a &&& b)
  | or, [a, b] => .ok (a ||| b)
  | xor, [a, b] => .ok (a ^^^ b)
  | not, [a] => .ok (a ^^^ 1)
  | mux, [a, b, select] => .ok (if select ≠ 0 then b else a)
  | signedLt, [signA, signB, unsigned] => .ok (if signA ≠ signB then signA else unsigned)
  | _, _ => .error "TypeError"

/-- `Image.gate`. -/
def Image.gate (name : GateName) (dst : Nat) (inputs : List Nat) : Gen GateKey Unit :=
  gateAt (.gate name) name.function dst inputs

/-- The table of the adder: two bits per entry, sum followed by carry. -/
def adderValues : List Nat :=
  (List.range 8).map fun i ↦ (i &&& 1) + ((i >>> 1) &&& 1) + ((i >>> 2) &&& 1)

/-- `second` of `Image.add`. -/
def Image.second (b : Nat) (subtract : Bool) (i : Nat) : Gen GateKey Nat :=
  if subtract then do
    Image.gate .not (temp + i) [b + i]
    pure (temp + i)
  else pure (b + i)

/-- One bit of `Image.add`. -/
def Image.addBit (dst a b : Nat) (subtract : Bool) (adder i : Nat) : Gen GateKey Unit := do
  let second ← Image.second b subtract i
  lookup (.int pair) adder [a + i, second, carry] 2 1
  emit 1 (.int (dst + i)) (.int pair)
  emit 1 (.int carry) (.int (pair + 1))

/-- `Image.add`. -/
def Image.add (dst a b : Nat) (subtract : Bool) : Gen GateKey Unit := do
  let adder ← gateTable .adder (.ok adderValues) 1
  let start ← constant subtract.toNat
  emit 1 (.int carry) (.int start)
  (List.range 32).forM (Image.addBit dst a b subtract adder)

end CopySpace.Rv32i
