import CopySpace.Lib.Bits
import CopySpace.Space.Machine

/-!
# `copy_emit.c`: emitting layers

`cs_copy_image` writes the rows of one layer into an image, `cs_copy_program` chains layers.
The functions return their status, `0` or `-1`, beside the image they leave; some of them
ignore the status of others.  `field` writes bits of the image as `Bits.putField` does
(`does_field` of `CopySpace.Space.Writers` is about its bytes), and the image is the bits of
`data`.  The pointers are never null.
-/

namespace CopySpace.Emit

/-- `struct cs_copy_image`. -/
structure CopyImage where
  data : Bits
  bytes : Nat
  spaceBits : Nat
  layer : Nat
  layerBits : Nat
  addressBits : Nat
  countBits : Nat
  instructionBits : Nat
  slot : Nat

/-- `struct cs_copy_program`. -/
structure CopyProgram where
  image : CopyImage
  codeBegin : Nat
  codeEnd : Nat
  codeLimit : Nat

def uint32Max : Nat := 2 ^ 32 - 1

def fits (address width limit : Nat) : Prop := address ≤ limit ∧ width ≤ limit - address

def overlaps (a an b bn : Nat) : Prop := a < u32 (b + bn) ∧ b < u32 (a + an)

instance (address width limit : Nat) : Decidable (fits address width limit) := by
  unfold fits; infer_instance

instance (a an b bn : Nat) : Decidable (overlaps a an b bn) := by unfold overlaps; infer_instance

def CopyImage.field (image : CopyImage) (at_ width value : Nat) : CopyImage :=
  { image with data := image.data.putField at_ width value }

/-! ## One layer -/

/-- `cs_copy_image_init`. -/
def csCopyImageInit (data : Bits) (bytes addressBits layer : Nat) : Option CopyImage :=
  if addressBits < 2 ∨ addressBits > 31 ∨ bytes > uint32Max / 8 then none
  else
    let instructionBits := 3 * addressBits - 1
    let layerBits := 256 * instructionBits
    let spaceBits := 2 ^ addressBits
    if layer % 8 ≠ 0 ∨ bytes * 8 > spaceBits ∨ ¬ fits layer layerBits (bytes * 8) then none
    else some
      ⟨data.putField layer layerBits 0, bytes, spaceBits, layer, layerBits, addressBits,
        addressBits - 1, instructionBits, 3⟩

/-- `row_valid`. -/
def rowValid (image : CopyImage) (slot count destination source : Nat) : Prop :=
  slot < 256 ∧ count < 2 ^ image.countBits ∧ fits destination count image.spaceBits ∧
    fits source count image.spaceBits ∧ destination < image.spaceBits ∧ source < image.spaceBits

instance (image : CopyImage) (slot count destination source : Nat) :
    Decidable (rowValid image slot count destination source) := by
  unfold rowValid; infer_instance

/-- `cs_copy_row`. -/
def csCopyRow (image : CopyImage) (slot count destination source : Nat) : Int × CopyImage :=
  if ¬ rowValid image slot count destination source then (-1, image)
  else
    let at_ := image.layer + slot * image.instructionBits
    (0, ((image.field at_ image.countBits count).field (at_ + image.countBits)
      image.addressBits destination).field (at_ + image.countBits + image.addressBits)
      image.addressBits source)

/-- `cs_copy_emit`. -/
def csCopyEmit (image : CopyImage) (count destination source : Nat) : Int × CopyImage :=
  if image.slot ≥ 255 then (-1, image)
  else
    let r := csCopyRow image image.slot count destination source
    if r.1 ≠ 0 then (-1, r.2) else (0, { r.2 with slot := r.2.slot + 1 })

/-- `cs_copy_emit`, its status ignored. -/
def emit (count destination source : Nat) (image : CopyImage) : CopyImage :=
  (csCopyEmit image count destination source).2

/-- The operands of an addition or subtraction and their widths. -/
def addOperands (destination left right table temporary carry : Nat) : List (Nat × Nat) :=
  [(destination, 32), (left, 32), (right, 32), (table, 16), (temporary, 2), (carry, 1)]

/-- The operands are apart where they have to be: of two of them one is not a word. -/
def operandsApart (operands : List (Nat × Nat)) : Prop :=
  ∀ i < operands.length, ∀ j < i, 3 ≤ i ∨ 3 ≤ j →
    ¬ overlaps (operands.getD i 0).1 (operands.getD i 0).2 (operands.getD j 0).1
      (operands.getD j 0).2

instance (operands : List (Nat × Nat)) : Decidable (operandsApart operands) := by
  unfold operandsApart; infer_instance

/-- The destination is one of the operands or apart from it. -/
def destinationApart (destination left right : Nat) : Prop :=
  ∀ a ∈ [left, right], ¬(destination ≠ a ∧ overlaps destination 32 a 32)

instance (destination left right : Nat) : Decidable (destinationApart destination left right) := by
  unfold destinationApart; infer_instance

/-- An operand lies in the space, and not in the layer written or the one executed. -/
def operandFits (image : CopyImage) (operand : Nat × Nat) : Prop :=
  fits operand.1 operand.2 image.spaceBits ∧
    ¬ overlaps operand.1 operand.2 image.layer image.layerBits ∧
    ¬ overlaps operand.1 operand.2 0 image.layerBits

instance (image : CopyImage) (operand : Nat × Nat) : Decidable (operandFits image operand) := by
  unfold operandFits; infer_instance

/-- `add_valid` returns 0. -/
def addValid (image : CopyImage) (destination left right table temporary carry : Nat) : Prop :=
  (5 ≤ image.addressBits ∧ image.slot ≤ 255 - 193 ∧ table % 16 = 0) ∧
    (∀ operand ∈ addOperands destination left right table temporary carry,
      operandFits image operand) ∧
    operandsApart (addOperands destination left right table temporary carry) ∧
    destinationApart destination left right ∧ fits table 16 (image.bytes * 8) ∧
    fits carry 1 (image.bytes * 8)

instance (image : CopyImage) (destination left right table temporary carry : Nat) :
    Decidable (addValid image destination left right table temporary carry) := by
  unfold addValid; infer_instance

/-- Entry `i` of the table of a full adder or subtracter: the result and the carry. -/
def arithmeticTruth (subtract : Bool) (i : Nat) : Nat :=
  let a := i &&& 1
  let b := (i >>> 1) &&& 1
  let c := (i >>> 2) &&& 1
  if subtract then (((a : Int) - b - c) % 2).toNat ||| ((if a < b + c then 1 else 0) <<< 1)
  else a + b + c

/-- The rows for one bit. -/
def arithmeticBit (destination left right table temporary carry : Nat) (image : CopyImage)
    (bit : Nat) : CopyImage :=
  let read := (image.slot + 3) * image.instructionBits
  let sourceField := read + image.countBits + image.addressBits
  (emit 1 carry (temporary + 1) ∘ emit 1 (destination + bit) temporary ∘ emit 2 temporary table ∘
    emit 1 (sourceField + 3) carry ∘ emit 1 (sourceField + 2) (right + bit) ∘
    emit 1 (sourceField + 1) (left + bit)) image

/-- `arithmetic32`. -/
def arithmetic32 (image : CopyImage) (subtract : Bool)
    (destination left right table temporary carry : Nat) : Int × CopyImage :=
  if ¬ addValid image destination left right table temporary carry then (-1, image)
  else
    let image := (List.range 8).foldl
      (fun image i ↦ image.field (table + 2 * i) 2 (arithmeticTruth subtract i)) image
    let image := emit 1 carry table (image.field carry 1 0)
    (0, (List.range 32).foldl (arithmeticBit destination left right table temporary carry) image)

/-- `cs_copy_add32`. -/
def csCopyAdd32 (image : CopyImage) (destination left right table temporary carry : Nat) :
    Int × CopyImage := arithmetic32 image false destination left right table temporary carry

/-- `cs_copy_sub32`. -/
def csCopySub32 (image : CopyImage) (destination left right table temporary borrow : Nat) :
    Int × CopyImage := arithmetic32 image true destination left right table temporary borrow

inductive BitOperation where
  | and
  | or
  | xor
deriving DecidableEq

/-- The table of a bit operation. -/
def BitOperation.truth : BitOperation → Nat
  | and => 8
  | or => 14
  | xor => 6

/-- `bits_valid` returns true. -/
def bitsValid (image : CopyImage) (destination left right table : Nat) : Prop :=
  (image.slot ≤ 255 - 96 ∧ table % 4 = 0 ∧ fits table 4 (image.bytes * 8)) ∧
    (∀ operand ∈ [(destination, 32), (left, 32), (right, 32), (table, 4)],
      operandFits image operand) ∧
    (∀ a ∈ [destination, left, right], ¬ overlaps a 32 table 4) ∧
    destinationApart destination left right

instance (image : CopyImage) (destination left right table : Nat) :
    Decidable (bitsValid image destination left right table) := by
  unfold bitsValid; infer_instance

/-- The rows for one bit. -/
def bitsBit (destination left right table : Nat) (image : CopyImage) (bit : Nat) : CopyImage :=
  let sourceField :=
    (image.slot + 2) * image.instructionBits + image.countBits + image.addressBits
  (emit 1 (destination + bit) table ∘ emit 1 (sourceField + 1) (right + bit) ∘
    emit 1 sourceField (left + bit)) image

/-- `cs_copy_bits32`. -/
def csCopyBits32 (image : CopyImage) (operation : BitOperation)
    (destination left right table : Nat) : Int × CopyImage :=
  if ¬ bitsValid image destination left right table then (-1, image)
  else (0, (List.range 32).foldl (bitsBit destination left right table)
    (image.field table 4 operation.truth))

/-! ## Chains of layers -/

/-- `cs_copy_program_init`. -/
def csCopyProgramInit (data : Bits) (bytes addressBits codeBegin codeLimit : Nat) :
    Option CopyProgram :=
  if addressBits < 2 ∨ addressBits > 31 ∨ bytes > uint32Max / 8 then none
  else
    let layerBits := 256 * (3 * addressBits - 1)
    if codeBegin < layerBits ∨ codeLimit > bytes * 8 ∨ codeBegin > codeLimit ∨
        ¬ fits codeBegin layerBits codeLimit ∨ layerBits ≥ 2 ^ (addressBits - 1) then none
    else (csCopyImageInit data bytes addressBits codeBegin).map fun image ↦
      ⟨image, codeBegin, codeBegin + layerBits, codeLimit⟩

/-- `cs_copy_program_next`; the new layer is in the same data. -/
def csCopyProgramNext (program : CopyProgram) : Int × CopyProgram :=
  let image := program.image
  if ¬ fits program.codeEnd image.layerBits program.codeLimit ∨
      ¬ rowValid image 255 image.layerBits 0 program.codeEnd then (-1, program)
  else match csCopyImageInit image.data image.bytes image.addressBits program.codeEnd with
    | none => (-1, program)
    | some next =>
        let linked := (csCopyRow { image with data := next.data } 255 image.layerBits 0
          program.codeEnd).2
        (0, { program with
          image := { next with data := linked.data }
          codeEnd := program.codeEnd + next.layerBits })

def room (program : CopyProgram) (count : Nat) : Int × CopyProgram :=
  if count > 252 then (-1, program)
  else if program.image.slot ≤ 255 - count then (0, program)
  else csCopyProgramNext program

/-- A call on the image, after `room`. -/
def afterRoom (program : CopyProgram) (count : Nat) (call : CopyImage → Int × CopyImage) :
    Int × CopyProgram :=
  let r := room program count
  if r.1 ≠ 0 then (-1, r.2)
  else
    let q := call r.2.image
    (q.1, { r.2 with image := q.2 })

/-- `cs_copy_program_emit`. -/
def csCopyProgramEmit (program : CopyProgram) (count destination source : Nat) :
    Int × CopyProgram :=
  if ¬ rowValid program.image 3 count destination source then (-1, program)
  else afterRoom program 1 fun image ↦ csCopyEmit image count destination source

/-- No operand lies in the code. -/
def outsideCode (program : CopyProgram) (operands : List (Nat × Nat)) : Prop :=
  ∀ operand ∈ operands, ¬ overlaps operand.1 operand.2 program.codeBegin
    (program.codeLimit - program.codeBegin)

instance (program : CopyProgram) (operands : List (Nat × Nat)) :
    Decidable (outsideCode program operands) := by
  unfold outsideCode; infer_instance

/-- `program_arithmetic32`; the operands are checked as for a fresh layer. -/
def programArithmetic32 (program : CopyProgram) (subtract : Bool)
    (destination left right table temporary carry : Nat) : Int × CopyProgram :=
  if ¬ outsideCode program (addOperands destination left right table temporary carry) ∨
      ¬ addValid { program.image with slot := 3 } destination left right table temporary carry then
    (-1, program)
  else afterRoom program 193 fun image ↦
    arithmetic32 image subtract destination left right table temporary carry

/-- `cs_copy_program_add32`. -/
def csCopyProgramAdd32 (program : CopyProgram)
    (destination left right table temporary carry : Nat) : Int × CopyProgram :=
  programArithmetic32 program false destination left right table temporary carry

/-- `cs_copy_program_sub32`. -/
def csCopyProgramSub32 (program : CopyProgram)
    (destination left right table temporary borrow : Nat) : Int × CopyProgram :=
  programArithmetic32 program true destination left right table temporary borrow

/-- `cs_copy_program_bits32`. -/
def csCopyProgramBits32 (program : CopyProgram) (operation : BitOperation)
    (destination left right table : Nat) : Int × CopyProgram :=
  if ¬ outsideCode program [(destination, 32), (left, 32), (right, 32), (table, 4)] ∨
      ¬ bitsValid { program.image with slot := 3 } destination left right table then (-1, program)
  else afterRoom program 96 fun image ↦
    csCopyBits32 image operation destination left right table

/-- `cs_copy_program_finish`. -/
def csCopyProgramFinish (program : CopyProgram) (zeroLayer : Nat) : Int × CopyProgram :=
  let image := program.image
  if zeroLayer % 8 ≠ 0 ∨ ¬ fits zeroLayer image.layerBits (image.bytes * 8) ∨
      overlaps zeroLayer image.layerBits 0 image.layerBits ∨
      overlaps zeroLayer image.layerBits program.codeBegin
        (program.codeLimit - program.codeBegin) then (-1, program)
  else if ∃ i < image.layerBits, image.data (zeroLayer + i) = true then (-1, program)
  else match csCopyImageInit image.data image.bytes image.addressBits 0 with
    | none => (-1, program)
    | some boot =>
        let linked := (csCopyRow { image with data := boot.data } 255 image.layerBits 0
          zeroLayer).2
        let r := csCopyRow { boot with data := linked.data } 255 boot.layerBits 0
          program.codeBegin
        (r.1, { program with image := { image with data := r.2.data } })

end CopySpace.Emit
