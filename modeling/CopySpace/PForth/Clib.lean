import Mathlib.Data.BitVec
import Mathlib.Logic.Function.Basic
import Mathlib.Tactic.SplitIfs

/-!
# `clib.c`: filling and copying by words

`pfSetMemory` and `pfCopyMemory` work on words where the addresses allow it.  They are compared with
the loops over bytes of `pf_clib.c`.  `none` is an access to a word that is not aligned.
-/

namespace CopySpace.PForth

/-! ## Memory -/

/-- `uintptr_t` -/
abbrev Address := BitVec 32

/-- `uint8_t` -/
abbrev Byte := BitVec 8

/-- `uint32_t`, and `cell_t` with its sign. -/
abbrev Word := BitVec 32

abbrev Memory := Address → Byte

namespace Memory

/-- A byte is stored. -/
def store (m : Memory) (a : Address) (b : Byte) : Memory := Function.update m a b

/-- The bytes of a word, the lowest one first. -/
def loadBytes (m : Memory) (a : Address) : Word := m (a + 3) ++ m (a + 2) ++ m (a + 1) ++ m a

def storeBytes (m : Memory) (a : Address) (w : Word) : Memory :=
  (((m.store a (w.extractLsb' 0 8)).store (a + 1) (w.extractLsb' 8 8)).store (a + 2)
    (w.extractLsb' 16 8)).store (a + 3) (w.extractLsb' 24 8)

/-- `*(const uint32_t *)a` -/
def load (m : Memory) (a : Address) : Option Word :=
  if a &&& 3 = 0 then some (m.loadBytes a) else none

/-- `*(uint32_t *)a = w` -/
def storeWord (m : Memory) (a : Address) (w : Word) : Option Memory :=
  if a &&& 3 = 0 then some (m.storeBytes a w) else none

end Memory

/-! ## Loops over bytes -/

/-- The loop of `pfSetMemory` in `pf_clib.c`. -/
def setBytes (byte : Byte) : Nat → Address → Memory → Memory
  | 0, _, m => m
  | n + 1, out, m => setBytes byte n (out + 1) (m.store out byte)

/-- The loop of `pfCopyMemory` in `pf_clib.c`. -/
def copyBytes : Nat → Address → Address → Memory → Memory
  | 0, _, _, m => m
  | n + 1, out, source, m => copyBytes n (out + 1) (source + 1) (m.store out (m source))

/-- `pfSetByteMemory` -/
def pfSetByteMemory (m : Memory) (destination : Address) (byte count : Word) : Memory :=
  setBytes (byte.setWidth 8) count.toInt.toNat destination m

/-- `pfCopyByteMemory` -/
def pfCopyByteMemory (m : Memory) (destination source : Address) (count : Word) : Memory :=
  copyBytes count.toInt.toNat destination source m

/-! ## Loops over words -/

/-- Bytes are set up to an aligned address. -/
def setHead (value : Byte) : Nat → Address → Memory → Nat × Address × Memory
  | 0, out, m => (0, out, m)
  | n + 1, out, m =>
      if out &&& 3 ≠ 0 then setHead value n (out + 1) (m.store out value) else (n + 1, out, m)

/-- `while(count >= 4)` of `pfSetMemory` -/
def setWords (word : Word) : Nat → Address → Memory → Option (Nat × Address × Memory)
  | n + 4, out, m => (m.storeWord out word).bind (setWords word n (out + 4))
  | n, out, m => some (n, out, m)

/-- The word that `pfSetMemory` makes of a byte. -/
def spread (value : Byte) : Word :=
  let word : Word := value.setWidth 32
  let word := word ||| word <<< 8
  word ||| word <<< 16

/-- `pfSetMemory` -/
def pfSetMemory (m : Memory) (destination : Address) (byte count : Word) : Option Memory :=
  let value : Byte := byte.setWidth 8
  if count.toInt ≤ 0 then some m
  else
    let (n, out, m) := setHead value count.toInt.toNat destination m
    (setWords (spread value) n out m).map fun (n, out, m) ↦ setBytes value n out m

/-- Bytes are copied up to an aligned address. -/
def copyHead : Nat → Address → Address → Memory → Nat × Address × Address × Memory
  | 0, out, source, m => (0, out, source, m)
  | n + 1, out, source, m =>
      if out &&& 3 ≠ 0 then copyHead n (out + 1) (source + 1) (m.store out (m source))
      else (n + 1, out, source, m)

/-- `while(count >= 4)` of `pfCopyMemory` -/
def copyWords : Nat → Address → Address → Memory → Option (Nat × Address × Address × Memory)
  | n + 4, out, source, m =>
      (m.load source).bind fun word ↦
        (m.storeWord out word).bind (copyWords n (out + 4) (source + 4))
  | n, out, source, m => some (n, out, source, m)

/-- `pfCopyMemory` -/
def pfCopyMemory (m : Memory) (destination source : Address) (count : Word) : Option Memory :=
  if count.toInt ≤ 0 then some m
  else if (destination ^^^ source) &&& 3 ≠ 0 then some (pfCopyByteMemory m destination source count)
  else
    let (n, out, source, m) := copyHead count.toInt.toNat destination source m
    (copyWords n out source m).map fun (n, out, source, m) ↦ copyBytes n out source m

end CopySpace.PForth
