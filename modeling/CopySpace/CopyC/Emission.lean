import CopySpace.Lib.Bits

/-!
# The emission words of the C compiler

The compiler writes the program layer by layer into `cc-image`: a row for each operation, and
before it a row for each operand that is a cell of the current frame, which puts ten bits of
`cc-sp` into the address.  A look-up has a row for each of its inputs besides, which puts a bit
into the address of the table.  All these rows have to stand in one layer, so every word asks
`cc-room` for as many slots as it is going to need.

An address of the model is a bit of the space.  `cc-image` is the part of the space from
`cc-image-base` on, and `cc-emission-base` and `cc-emission-buffer` are those of `cc-image`, as
they are once `cc-library` has been run; so `image` is indexed by the bits of the space
themselves.
-/

namespace CopySpace.CopyC

def ccLayerMax : Nat := 384
def ccLayerBits : Nat := 18176
def ccDataBase : Nat := 131072
def ccCodeBase : Nat := 262144
def ccConstantBase : Nat := 163840
def ccSp : Nat := 152128
def ccJaddr : Nat := 151712
def ccStackBase : Nat := 8388608
def ccStackLast : Nat := 16760832
def ccFrameBits : Nat := 16384

/-- `cs-put-bits`: the low bits of a value, the lowest of them at the position. -/
def csPutBits (value width position : Nat) (buffer : Bits) : Bits :=
  buffer.putField position width value

/-- `cc-row-at`. -/
def ccRowAt (n dst src bit : Nat) (buffer : Bits) : Bits :=
  csPutBits src 24 (bit + 47) (csPutBits dst 24 (bit + 23) (csPutBits n 23 bit buffer))

/-- The variables of the compiler that the words below read and write. -/
structure Emission where
  image : Bits
  layer : Nat
  slot : Nat
  constants : Nat
  origin : Nat
  unevaluated : Nat

/-- `cc-frame?`. -/
def ccFrame (address : Nat) : Prop := ccDataBase ≤ address ∧ address < ccDataBase + ccFrameBits

instance (address : Nat) : Decidable (ccFrame address) := by unfold ccFrame; infer_instance

def ccFrameExtra (address : Nat) : Nat := if ccFrame address then 1 else 0

def ccFrameAddress (address : Nat) : Nat :=
  if ccFrame address then address - ccDataBase + ccStackBase else address

namespace Emission

/-- `cc-value!`. -/
def ccValue (e : Emission) (value bits target : Nat) : Emission :=
  { e with image := csPutBits value bits target e.image }

/-- In an unevaluated expression no rows are written. -/
def ccRow (e : Emission) (n dst src targetBit : Nat) : Emission :=
  if e.unevaluated ≠ 0 then e else { e with image := ccRowAt n dst src targetBit e.image }

def ccCurrent (e : Emission) : Nat := e.layer * ccLayerBits + e.origin

/-- `cc-new`; there is no layer behind the last one. -/
def ccNew (e : Emission) : Option Emission :=
  if e.layer + 1 ≥ ccLayerMax then none else some { e with layer := e.layer + 1, slot := 3 }

/-- `cc-end`: the last slot of the layer loads the layer at `target`. -/
def ccEnd (e : Emission) (target : Nat) : Emission :=
  e.ccRow ccLayerBits 0 target (e.ccCurrent + 255 * 71)

def ccJump (e : Emission) (target : Nat) : Option Emission :=
  if e.unevaluated ≠ 0 then some e else (e.ccEnd target).ccNew

def ccRoom (e : Emission) (count : Nat) : Option Emission :=
  if e.slot + count > 255 then e.ccJump (e.ccCurrent + ccLayerBits) else some e

def ccRawOp (e : Emission) (n dst src : Nat) : Option Emission := do
  let e ← e.ccRoom 1
  let e := e.ccRow n dst src (e.ccCurrent + e.slot * 71)
  return { e with slot := e.slot + 1 }

def ccOp (e : Emission) (n dst src : Nat) : Option Emission :=
  if e.unevaluated ≠ 0 then some e else do
    let e ← e.ccRoom (1 + ccFrameExtra dst + ccFrameExtra src)
    let target := e.slot + ccFrameExtra dst + ccFrameExtra src
    let e ← if ccFrame dst then e.ccRawOp 10 (target * 71 + 37) (ccSp + 14) else some e
    let e ← if ccFrame src then e.ccRawOp 10 (target * 71 + 61) (ccSp + 14) else some e
    e.ccRawOp n (ccFrameAddress dst) (ccFrameAddress src)

/-- `cc-boundary`; the address that it leaves is `ccCurrent`. -/
def ccBoundary (e : Emission) : Option Emission :=
  if e.slot ≠ 3 then e.ccJump (e.ccCurrent + ccLayerBits) else some e

/-- `cc-const`, with the address of the constant. -/
def ccConst (e : Emission) (value : Nat) : Option (Nat × Emission) :=
  if e.constants + 32 > 180224 then none else
    some (e.constants, { e with constants := e.constants + 32 }.ccValue value 32 e.constants)

def ccPatch (e : Emission) (target value : Nat) : Emission :=
  if e.unevaluated ≠ 0 then e else e.ccValue value 32 target

/-- `cc-dynamic`: the address of the next layer is read when the layer is executed.  18152 is
where the source of the last slot stands. -/
def ccDynamic (e : Emission) (source : Nat) : Option Emission := do
  let e ← e.ccRoom 1
  let e ← e.ccOp 24 18152 source
  e.ccJump 0

def ccLut1 (e : Emission) (dst base a : Nat) : Option Emission := do
  let e ← e.ccRoom (2 + ccFrameExtra a + ccFrameExtra dst)
  let e ← e.ccOp 1 ((e.slot + 1 + ccFrameExtra a + ccFrameExtra dst) * 71 + 47) a
  e.ccOp 1 dst base

def ccLut2 (e : Emission) (dst base a b : Nat) : Option Emission := do
  let e ← e.ccRoom (3 + ccFrameExtra a + ccFrameExtra b + ccFrameExtra dst)
  let target := e.slot + 2 + ccFrameExtra a + ccFrameExtra b + ccFrameExtra dst
  let e ← e.ccOp 1 (target * 71 + 47) a
  let e ← e.ccOp 1 (target * 71 + 48) b
  e.ccOp 1 dst base

def ccLut3 (e : Emission) (width dst base a b c stride : Nat) : Option Emission := do
  let e ← e.ccRoom (4 + ccFrameExtra a + ccFrameExtra b + ccFrameExtra c + ccFrameExtra dst)
  let target := e.slot + 3 + ccFrameExtra a + ccFrameExtra b + ccFrameExtra c + ccFrameExtra dst
  let e ← e.ccOp 1 (target * 71 + 47 + stride) a
  let e ← e.ccOp 1 (target * 71 + 48 + stride) b
  let e ← e.ccOp 1 (target * 71 + 49 + stride) c
  e.ccOp width dst base

/-- The next multiple of 64. -/
def align (e : Emission) : Emission := { e with constants := (e.constants + 63) / 64 * 64 }

/-- `cc-branch`, with the address of its table: two constants, the addresses of the layers to go
to on 0 and on 1, which are patched when they are known. -/
def ccBranch (e : Emission) (condition : Nat) : Option (Nat × Emission) := do
  let (table, e) ← e.align.ccConst 0
  let (_, e) ← e.ccConst 0
  let e ← e.ccRoom (3 + ccFrameExtra condition)
  let e ← e.ccOp 1 ((e.slot + 1 + ccFrameExtra condition) * 71 + 52) condition
  let e ← e.ccOp 24 ccJaddr table
  let e ← e.ccDynamic ccJaddr
  return (table, e)

end Emission

/-- The words that the rest of the compiler emits its program with. -/
inductive Call
  | op (n dst src : Nat)
  | lut1 (dst base a : Nat)
  | lut2 (dst base a b : Nat)
  | lut3 (width dst base a b c stride : Nat)
  | branch (condition : Nat)
  | dynamic (source : Nat)
  | boundary
  | jump (target : Nat)
  | patch (target value : Nat)

/-- Use a word. -/
def Call.run (e : Emission) : Call → Option Emission
  | op n dst src => e.ccOp n dst src
  | lut1 dst base a => e.ccLut1 dst base a
  | lut2 dst base a b => e.ccLut2 dst base a b
  | lut3 width dst base a b c stride => e.ccLut3 width dst base a b c stride
  | branch condition => (e.ccBranch condition).map Prod.snd
  | dynamic source => e.ccDynamic source
  | boundary => e.ccBoundary
  | jump target => e.ccJump target
  | patch target value => some (e.ccPatch target value)

/-- Use the words one after the other. -/
def runCalls : List Call → Emission → Option Emission
  | [], e => some e
  | call :: calls, e => (call.run e).bind (runCalls calls)

end CopySpace.CopyC
