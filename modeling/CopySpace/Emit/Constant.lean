import CopySpace.Emit.Image

/-!
# `copy_emit.c`: constants and jumps

`cs_copy_constant` writes a number into the image, outside any row, and
`cs_copy_program_patch_jump` gives a layer that has been written another link.
-/

namespace CopySpace.Emit

/-- `cs_copy_constant`. -/
def csCopyConstant (image : CopyImage) (at_ width value : Nat) : Int × CopyImage :=
  if width = 0 ∨ width > 32 ∨ ¬ fits at_ width (image.bytes * 8) then (-1, image)
  else (0, image.field at_ width value)

/-- `cs_copy_program_patch_jump`; the rows are in the data of the program. -/
def csCopyProgramPatchJump (program : CopyProgram) (layer target : Nat) : Int × CopyProgram :=
  let image := program.image
  if layer < program.codeBegin ∨ target < program.codeBegin ∨ layer ≥ program.codeEnd ∨
      target ≥ program.codeEnd ∨ (layer - program.codeBegin) % image.layerBits ≠ 0 ∨
      (target - program.codeBegin) % image.layerBits ≠ 0 then (-1, program)
  else
    let r := csCopyRow { image with layer := layer } 255 image.layerBits 0 target
    (r.1, { program with image := { image with data := r.2.data } })

end CopySpace.Emit
