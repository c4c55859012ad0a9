import CopySpace.Space.Field

/-!
# `space.c`: the emulator

The state of a run is the array `space`, the cache `processor` of decoded instructions and
the two streams.  A program of the emulator is a state transformer over `Option`: `none` is
undefined behaviour, which for this code can only be an access outside an array.

The streams are a parameter (`Device`): any answer of `fread` and `fwrite` that the C
library may give.  Beside the state of the C program a `Machine` records what the code
touches: bytes in the heap's log, and in `positions` the ranges of bit positions that the
code addresses.  `events` is what an installed observer is told.
-/

namespace CopySpace

/-- The objects the emulator accesses: the array `space`, and the image that
`space_init` is given. -/
inductive Obj where
  | space
  | image
deriving DecidableEq

/-- A stdio stream, as `channel` uses it: `clearerr`, one bulk transfer and `ferror`.
A transfer never moves more than what was requested. -/
structure Device (φ : Type) where
  /-- The bytes delivered, the error flag afterwards, and the new state. -/
  fread : φ → Nat → List Byte × Bool × φ
  /-- The number of bytes accepted, the error flag afterwards, and the new state. -/
  fwrite : φ → List Byte → Nat × Bool × φ
  fread_le : ∀ f n, (fread f n).1.length ≤ n
  fwrite_le : ∀ f bs, (fwrite f bs).1 ≤ bs.length

/-- One row of the array `processor`. -/
structure Instruction where
  n : Nat
  dst : Nat
  src : Nat
deriving DecidableEq

/-- `space_event`. -/
structure SpaceEvent where
  channel : Bool
  slot : Nat
  n : Nat
  dst : Nat
  src : Nat
  copied : Nat
  error : Bool

inductive SpaceStepResult where
  | done
  | idle
  | error
deriving DecidableEq

/-- The state of the emulator. -/
structure Machine (φ : Type) where
  heap : Heap Obj
  processor : Nat → Instruction
  inp : φ
  out : φ
  /-- The ranges of bit positions addressed so far: start and length, newest first. -/
  positions : List (Nat × Nat)
  events : List SpaceEvent

abbrev VM (φ : Type) := StateT (Machine φ) Option

namespace VM

variable {φ : Type}

/-- Run a program over the heap. -/
def heap {α : Type} (x : CM Obj α) : VM φ α := fun σ ↦
  (x σ.heap).map fun r ↦ (r.1, { σ with heap := r.2 })

/-- Record that the bits `[a, a + n)` are addressed. -/
def addressed (a n : Nat) : VM φ Unit := fun σ ↦
  some ((), { σ with positions := (a, n) :: σ.positions })

def observe (event : SpaceEvent) : VM φ Unit := fun σ ↦
  some ((), { σ with events := event :: σ.events })

def setProcessor (i : Nat) (row : Instruction) : VM φ Unit := fun σ ↦
  some ((), { σ with processor := fun j ↦ if j = i then row else σ.processor j })

def processor (i : Nat) : VM φ Instruction := fun σ ↦ some (σ.processor i, σ)

end VM

open VM

/-! ## Initialisation -/

/-- `space_init`; a missing image is `none`. -/
def spaceInit (src : Option Obj) (bytes : Nat) : CM Obj Int := do
  let sizeofSpace ← sizeofObj .space
  if sizeofSpace < bytes then pure (-1)
  else match src with
  | none => if bytes ≠ 0 then pure (-1) else do
      storeBytes .space 0 (List.replicate sizeofSpace 0)
      pure 0
  | some o => do
      doIf (bytes ≠ 0) (memmove .space 0 o 0 bytes)
      storeBytes .space bytes (List.replicate (sizeofSpace - bytes) 0)
      pure 0

/-! ## Instructions -/

variable {φ : Type} (cfg : Config)

/-- One field of slot `i`. -/
def fetchField (i a : Nat) : VM φ Nat := do
  let src := u32 (processorStart + i * cfg.instructionSize + cfg.o a)
  addressed src (cfg.s a)
  heap (getArgument .space src (cfg.s a))

def fetchInstruction (i : Nat) : VM φ Unit := do
  let n ← fetchField cfg i 0
  let dst ← fetchField cfg i 1
  let src ← fetchField cfg i 2
  setProcessor i ⟨n, dst, src⟩

def spaceReadProcessor : VM φ Unit := forUp (fetchInstruction cfg) cfg.processorN

/-- The bounds check of `computation`: the instruction leaves the space. -/
def Instruction.Leaves (ins : Instruction) : Prop :=
  ins.dst ≥ cfg.spaceSize ∨ ins.src ≥ cfg.spaceSize ∨ ins.n > cfg.spaceSize - ins.dst ∨
    ins.n > cfg.spaceSize - ins.src

instance (ins : Instruction) : Decidable (ins.Leaves cfg) := by
  unfold Instruction.Leaves; infer_instance

/-- The loop of `computation` from slot `i`, with `k` slots to go. -/
def computationFrom : Nat → Nat → VM φ Int
  | 0, _ => pure 0
  | k + 1, i =>
      if i = 1 ∨ i = 2 then computationFrom k (i + 1)
      else do
        fetchInstruction cfg i
        let row ← processor i
        if row.n = 0 then computationFrom k (i + 1)
        else do
          observe ⟨false, i, row.n, row.dst, row.src, 0, false⟩
          if row.Leaves cfg then pure (-1)
          else do
            addressed row.src row.n
            addressed row.dst row.n
            heap (bitcpy row.n Obj.space row.src Obj.space row.dst)
            computationFrom k (i + 1)

def computation : VM φ Int := computationFrom cfg cfg.processorN 0

/-! ## Channels -/

variable (dev : Device φ)

/-- The stream a channel works on. -/
def stream (output : Bool) : VM φ φ := fun σ ↦ some (if output then σ.out else σ.inp, σ)

def setStream (output : Bool) (f : φ) : VM φ Unit := fun σ ↦
  some ((), if output then { σ with out := f } else { σ with inp := f })

/-- The transfer of a channel: the number of bytes moved and the error flag. -/
def transfer (output : Bool) (a n : Nat) : VM φ (Nat × Bool) := do
  let f ← stream output
  addressed a n
  if output then do
    let bs ← heap (loadBytes .space (a / 8) (n / 8))
    let r := dev.fwrite f bs
    setStream output r.2.2
    pure (r.1, r.2.1)
  else do
    let r := dev.fread f (n / 8)
    heap (storeBytes .space (a / 8) r.1)
    setStream output r.2.2
    pure (r.1.length, r.2.1)

/-- The condition under which a channel instruction is rejected without a transfer. -/
def ChannelRejects (n a : Nat) : Prop :=
  n % 8 ≠ 0 ∨ a % 8 ≠ 0 ∨ n ≥ cfg.spaceSize / 2 ∨ a ≥ cfg.spaceSize ∨ n > cfg.spaceSize - a

instance (n a : Nat) : Decidable (ChannelRejects cfg n a) := by
  unfold ChannelRejects; infer_instance

/-- The number of bytes a channel moves and its completion code. -/
def channelTransfer (n a : Nat) (output : Bool) : VM φ (Nat × Nat) :=
  if ChannelRejects cfg n a then pure (0, 2)
  else do
    let r ← transfer dev output a n
    pure (r.1, if r.1 ≠ n / 8 then (if r.2 ∨ output then 2 else 1) else 0)

/-- The packed status of a transfer. -/
def channelStatus (copied code : Nat) : Nat :=
  u32 (copied * 8 * 2) ||| (if code = 2 then 1 else 0)

def channel (slot : Nat) (output : Bool) : VM φ Unit := do
  let row ← processor slot
  if row.n = 0 then pure ()
  else do
    let r ← channelTransfer cfg dev row.n row.dst output
    let status := u32 (processorStart + slot * cfg.instructionSize + cfg.o 2)
    addressed status (cfg.s 2)
    heap (writeFieldBits Obj.space status (channelStatus r.1 r.2) (cfg.s 2))
    observe ⟨true, slot, row.n, row.dst, row.src, u32 (r.1 * 8), r.2 = 2⟩

def channels : VM φ Unit := do
  fetchInstruction cfg 2
  fetchInstruction cfg 1
  channel cfg dev 2 true
  channel cfg dev 1 false

/-! ## Steps -/

/-- The loop of `space_active` over the cached rows. -/
def anyActive (σ : Machine φ) : Nat → Bool
  | 0 => false
  | i + 1 => anyActive σ i || (σ.processor i).n ≠ 0

def spaceActive : VM φ Bool := do
  spaceReadProcessor cfg
  fun σ ↦ some (anyActive σ cfg.processorN, σ)

def spaceStep : VM φ SpaceStepResult := do
  let active ← spaceActive cfg
  if active = false then pure .idle
  else do
    channels cfg dev
    let r ← computation cfg
    pure (if r = 0 then .done else .error)

end CopySpace
