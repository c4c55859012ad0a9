import Mathlib.Tactic.IntervalCases
import CopySpace.Lib.Bits

/-!
# Byte objects and checked access

The memory of a C program, seen by code that only uses byte accesses: finitely many
named objects, each an array of bytes.  An access outside an object is undefined
behaviour, so programs live in `CM`, the state monad over `Option`, and `none` means
that the program has left its defined behaviour.  Every access is also recorded, so
that a theorem can say *which* bytes a program touched and not only that they exist.

`Does A m h Q` is the total-correctness judgement used throughout: started in `h`,
the program `m` is defined, touches only bytes allowed by `A`, and ends in `Q`.
-/

namespace CopySpace

/-- A byte of memory. -/
abbrev Byte := BitVec 8

/-- A C object: an array of bytes whose bit positions are values of a 64-bit `size_t`. -/
@[ext]
structure Buffer where
  bytes : Array Byte
  addressable : 8 * bytes.size < 2 ^ 64

namespace Buffer

def size (b : Buffer) : Nat := b.bytes.size

/-- Byte `i`; zero past the end. -/
def get (b : Buffer) (i : Nat) : Byte := b.bytes.getD i 0

/-- Replace byte `i`; nothing happens past the end. -/
def set (b : Buffer) (i : Nat) (v : Byte) : Buffer :=
  ⟨b.bytes.setIfInBounds i v, by simpa using b.addressable⟩

/-- The bits of an object: byte by byte, most significant bit first. -/
def bits (b : Buffer) : Bits := fun p ↦ (b.get (p / 8)).getLsbD (7 - p % 8)

@[simp] theorem size_set (b : Buffer) (i : Nat) (v : Byte) : (b.set i v).size = b.size := by
  simp [size, set]

theorem get_set {b : Buffer} {i : Nat} (hi : i < b.size) (v : Byte) (j : Nat) :
    (b.set i v).get j = if j = i then v else b.get j := by
  simp only [get, set, Array.getD_eq_getD_getElem?, Array.getElem?_setIfInBounds]
  by_cases h : j = i
  · subst h
    simp [size] at hi
    simp [hi]
  · simp [h, Ne.symm h]

theorem get_of_size_le {b : Buffer} {i : Nat} (h : b.size ≤ i) : b.get i = 0 := by
  simp [get, Array.getD_eq_getD_getElem?, Array.getElem?_eq_none (show b.bytes.size ≤ i from h)]

theorem bits_of_size_le {b : Buffer} {p : Nat} (h : 8 * b.size ≤ p) : b.bits p = false := by
  simp [bits, get_of_size_le (show b.size ≤ p / 8 by omega)]

/-- Bit `j` of byte `i`, counted from the least significant end. -/
theorem getLsbD_get (b : Buffer) (i : Nat) {j : Nat} (hj : j < 8) :
    (b.get i).getLsbD j = b.bits (8 * i + (7 - j)) := by
  have h₁ : (8 * i + (7 - j)) / 8 = i := by omega
  have h₂ : 7 - (8 * i + (7 - j)) % 8 = j := by omega
  rw [bits, h₁, h₂]

theorem bits_set {b : Buffer} {i : Nat} (hi : i < b.size) (v : Byte) (p : Nat) :
    (b.set i v).bits p = if p / 8 = i then v.getLsbD (7 - p % 8) else b.bits p := by
  simp only [bits, get_set hi]
  split <;> rfl

/-- Objects of one size with the same bits are equal. -/
theorem ext_bits {b b' : Buffer} (hs : b.size = b'.size) (h : ∀ p, b.bits p = b'.bits p) :
    b = b' := by
  have hget : ∀ i, b.get i = b'.get i := fun i ↦
    BitVec.eq_of_getLsbD_eq fun j hj ↦ by rw [getLsbD_get b i hj, getLsbD_get b' i hj, h]
  apply Buffer.ext
  apply Array.ext hs
  intro i hi hi'
  have := hget i
  simpa [get, Array.getD_eq_getD_getElem?, hi, hi'] using this

end Buffer

namespace Bits

/-- The byte whose bits stand in the eight positions from `8 * i`. -/
def byte (m : Bits) (i : Nat) : Byte := toBitVec 8 fun j ↦ m (8 * i + (7 - j))

/-- The `n` bytes from byte `i`. -/
def bytes (m : Bits) (i n : Nat) : List Byte := (List.range n).map fun k ↦ m.byte (i + k)

/-- Put the bytes `bs` in place of the bytes from byte `i`. -/
def putBytes (i : Nat) (bs : List Byte) (m : Bits) : Bits := fun p ↦
  if i ≤ p / 8 ∧ p / 8 < i + bs.length then (bs.getD (p / 8 - i) 0).getLsbD (7 - p % 8) else m p

/-- The bits of a list of bytes. -/
def ofBytes (bs : List Byte) : Bits := fun p ↦ (bs.getD (p / 8) 0).getLsbD (7 - p % 8)

theorem getLsbD_byte (m : Bits) (i : Nat) {j : Nat} (hj : j < 8) :
    (m.byte i).getLsbD j = m (8 * i + (7 - j)) := by
  rw [byte, getLsbD_toBitVec _ _ hj]

@[simp] theorem length_bytes (m : Bits) (i n : Nat) : (m.bytes i n).length = n := by simp [bytes]

theorem getD_bytes (m : Bits) {i n k : Nat} (hk : k < n) : (m.bytes i n).getD k 0 = m.byte (i + k) := by
  simp [bytes, List.getD_eq_getElem?_getD, hk]

theorem ofBytes_bytes (m : Bits) {n p : Nat} (hp : p < 8 * n) : ofBytes (m.bytes 0 n) p = m p := by
  rw [ofBytes, getD_bytes m (by omega), getLsbD_byte m _ (by omega),
    show 8 * (0 + p / 8) + (7 - (7 - p % 8)) = p by omega]

theorem ofBytes_of_length_le {bs : List Byte} {p : Nat} (hp : 8 * bs.length ≤ p) :
    ofBytes bs p = false := by
  rw [ofBytes, List.getD_eq_default _ _ (by omega)]
  exact BitVec.getLsbD_zero

theorem putBytes_of_mem {i p : Nat} {bs : List Byte} (m : Bits)
    (h : i ≤ p / 8 ∧ p / 8 < i + bs.length) :
    putBytes i bs m p = (bs.getD (p / 8 - i) 0).getLsbD (7 - p % 8) := if_pos h

theorem putBytes_of_notMem {i p : Nat} {bs : List Byte} (m : Bits)
    (h : ¬(i ≤ p / 8 ∧ p / 8 < i + bs.length)) : putBytes i bs m p = m p := if_neg h

/-- The bytes that stand somewhere are read back. -/
theorem bytes_eq {m : Bits} {i : Nat} {bs : List Byte} (h : ∀ p, 8 * i ≤ p →
    p < 8 * i + 8 * bs.length → m p = (bs.getD (p / 8 - i) 0).getLsbD (7 - p % 8)) :
    m.bytes i bs.length = bs := by
  refine List.ext_getElem (length_bytes _ _ _) fun k h₁ h₂ ↦ ?_
  have hk : (m.bytes i bs.length)[k] = m.byte (i + k) := by simp [bytes]
  rw [hk]
  refine BitVec.eq_of_getLsbD_eq fun j hj ↦ ?_
  rw [getLsbD_byte _ _ hj, h _ (by omega) (by omega),
    show (8 * (i + k) + (7 - j)) / 8 - i = k by omega,
    show 7 - (8 * (i + k) + (7 - j)) % 8 = j by omega, List.getD_eq_getElem _ _ h₂]

/-- Putting bytes back where they were read is a copy. -/
theorem putBytes_bytes (m m' : Bits) (i j n : Nat) (p : Nat) :
    putBytes i (m.bytes j n) m' p =
      if 8 * i ≤ p ∧ p < 8 * i + 8 * n then m (8 * j + (p - 8 * i)) else m' p := by
  by_cases h : 8 * i ≤ p ∧ p < 8 * i + 8 * n
  · rw [if_pos h, putBytes_of_mem _ (by rw [length_bytes]; omega), getD_bytes _ (by omega),
      getLsbD_byte _ _ (by omega)]
    exact congrArg m (by omega)
  · rw [if_neg h, putBytes_of_notMem _ (by rw [length_bytes]; omega)]

end Bits

/-- The object of `n` bytes with these bits. -/
def Buffer.ofBits (n : Nat) (h : 8 * n < 2 ^ 64) (m : Bits) : Buffer :=
  ⟨(m.bytes 0 n).toArray, by simpa using h⟩

theorem Buffer.bits_ofBits {n p : Nat} {h : 8 * n < 2 ^ 64} (m : Bits) (hp : p < 8 * n) :
    (ofBits n h m).bits p = m p := by
  have hget : (ofBits n h m).get (p / 8) = m.byte (p / 8) := by
    have hd := Bits.getD_bytes m (i := 0) (show p / 8 < n by omega)
    rw [Nat.zero_add, List.getD_eq_getElem?_getD] at hd
    rw [get, ofBits, Array.getD_eq_getD_getElem?, List.getElem?_toArray, hd]
  rw [bits, hget]
  exact (Bits.getLsbD_byte m _ (show 7 - p % 8 < 8 by omega)).trans (congrArg m (by omega))

namespace Buffer

theorem byte_bits (b : Buffer) (i : Nat) : b.bits.byte i = b.get i :=
  BitVec.eq_of_getLsbD_eq fun j hj ↦ by rw [Bits.getLsbD_byte _ _ hj, getLsbD_get _ _ hj]

end Buffer

/-! ## The heap and its access log -/

/-- One byte access: the object and the byte index. -/
inductive Access (ι : Type) where
  | read (o : ι) (i : Nat)
  | write (o : ι) (i : Nat)

/-- The objects, and the accesses made so far, newest first. -/
structure Heap (ι : Type) where
  obj : ι → Buffer
  log : List (Access ι)

namespace Heap

variable {ι : Type}

def bit (h : Heap ι) (o : ι) : Bits := (h.obj o).bits

def size (h : Heap ι) (o : ι) : Nat := (h.obj o).size

theorem size_addressable (h : Heap ι) (o : ι) : 8 * h.size o < 2 ^ 64 := (h.obj o).addressable

def logged (a : Access ι) (h : Heap ι) : Heap ι := { h with log := a :: h.log }

@[simp] theorem bit_logged (a : Access ι) (h : Heap ι) : (h.logged a).bit = h.bit := rfl
@[simp] theorem size_logged (a : Access ι) (h : Heap ι) : (h.logged a).size = h.size := rfl
@[simp] theorem obj_logged (a : Access ι) (h : Heap ι) : (h.logged a).obj = h.obj := rfl
@[simp] theorem log_logged (a : Access ι) (h : Heap ι) : (h.logged a).log = a :: h.log := rfl

/-- Replace byte `i` of object `o`. -/
def setByte [DecidableEq ι] (h : Heap ι) (o : ι) (i : Nat) (v : Byte) : Heap ι :=
  { h with obj := fun q ↦ if q = o then (h.obj o).set i v else h.obj q }

@[simp] theorem log_setByte [DecidableEq ι] (h : Heap ι) (o : ι) (i : Nat) (v : Byte) :
    (h.setByte o i v).log = h.log := rfl

@[simp] theorem size_setByte [DecidableEq ι] (h : Heap ι) (o : ι) (i : Nat) (v : Byte) :
    (h.setByte o i v).size = h.size := by
  funext q
  by_cases hq : q = o
  · subst hq; simp [size, setByte]
  · simp [size, setByte, hq]

theorem bit_setByte [DecidableEq ι] {h : Heap ι} {o : ι} {i : Nat} (hi : i < h.size o)
    (v : Byte) (q : ι) (p : Nat) : (h.setByte o i v).bit q p =
      if q = o ∧ p / 8 = i then v.getLsbD (7 - p % 8) else h.bit q p := by
  by_cases hq : q = o
  · subst hq
    simp only [bit, setByte, if_pos, true_and]
    exact Buffer.bits_set hi v p
  · simp [bit, setByte, hq]

/-- `h'` is a later state of `h`: objects keep their sizes, and every access logged
in between is allowed by `A`. -/
structure Evolves (A : Access ι → Prop) (h h' : Heap ι) : Prop where
  size_eq : h'.size = h.size
  log_eq : ∃ new, h'.log = new ++ h.log ∧ ∀ a ∈ new, A a

namespace Evolves

variable {A B : Access ι → Prop} {h h₁ h₂ : Heap ι}

theorem refl (A : Access ι → Prop) (h : Heap ι) : Evolves A h h := ⟨rfl, [], rfl, by simp⟩

theorem trans (h₁₂ : Evolves A h h₁) (h₂₃ : Evolves A h₁ h₂) : Evolves A h h₂ := by
  obtain ⟨s₁, new₁, e₁, a₁⟩ := h₁₂
  obtain ⟨s₂, new₂, e₂, a₂⟩ := h₂₃
  refine ⟨s₂.trans s₁, new₂ ++ new₁, by rw [e₂, e₁, List.append_assoc], fun a ha ↦ ?_⟩
  rcases List.mem_append.mp ha with ha | ha
  · exact a₂ a ha
  · exact a₁ a ha

theorem mono (hAB : ∀ a, A a → B a) (he : Evolves A h h₁) : Evolves B h h₁ := by
  obtain ⟨s, new, e, a⟩ := he
  exact ⟨s, new, e, fun x hx ↦ hAB x (a x hx)⟩

end Evolves

end Heap

/-! ## Programs -/

/-- Programs over a heap; `none` is undefined behaviour. -/
abbrev CM (ι : Type) := StateT (Heap ι) Option

variable {ι : Type}

/-- `sizeof` an object, without an access. -/
def sizeofObj (o : ι) : CM ι Nat := fun h ↦ some (h.size o, h)

/-- Load one byte. -/
def loadByte (o : ι) (i : Nat) : CM ι Byte := fun h ↦
  if i < h.size o then some ((h.obj o).get i, h.logged (.read o i)) else none

/-- Store one byte. -/
def storeByte [DecidableEq ι] (o : ι) (i : Nat) (v : Byte) : CM ι Unit := fun h ↦
  if i < h.size o then some ((), (h.setByte o i v).logged (.write o i)) else none

/-- Run `f 0, …, f (n - 1)` in this order. -/
def forUp {m : Type → Type} [Monad m] (f : Nat → m Unit) : Nat → m Unit
  | 0 => pure ()
  | n + 1 => do forUp f n; f n

/-- Run `f (n - 1), …, f 0` in this order. -/
def forDown {m : Type → Type} [Monad m] (f : Nat → m Unit) : Nat → m Unit
  | 0 => pure ()
  | n + 1 => do f n; forDown f n

/-- `if(c) m`, with nothing in the other branch. -/
def doIf {m : Type → Type} [Monad m] (c : Prop) [Decidable c] (x : m Unit) : m Unit :=
  if c then x else pure ()

/-- Total correctness from the state `h`: the program is defined there, makes only
accesses allowed by `A`, and ends with a result and state in `Q`. -/
def Does {α : Type} (A : Access ι → Prop) (m : CM ι α) (h : Heap ι)
    (Q : α → Heap ι → Prop) : Prop :=
  ∃ a h', m h = some (a, h') ∧ h.Evolves A h' ∧ Q a h'

namespace Does

variable {α β : Type} {A : Access ι → Prop} {h : Heap ι} {Q : α → Heap ι → Prop}

theorem pure {a : α} (hq : Q a h) : Does A (pure a) h Q := ⟨a, h, rfl, .refl A h, hq⟩

theorem bind {m : CM ι α} {f : α → CM ι β} {R : β → Heap ι → Prop} (hm : Does A m h Q)
    (hf : ∀ a h', h.Evolves A h' → Q a h' → Does A (f a) h' R) : Does A (m >>= f) h R := by
  obtain ⟨a, h₁, e₁, ev₁, q₁⟩ := hm
  obtain ⟨b, h₂, e₂, ev₂, q₂⟩ := hf a h₁ ev₁ q₁
  exact ⟨b, h₂, by simp [StateT.bind, Bind.bind, e₁, e₂] , ev₁.trans ev₂, q₂⟩

theorem imp {m : CM ι α} {R : α → Heap ι → Prop} (hm : Does A m h Q)
    (hqr : ∀ a h', h.Evolves A h' → Q a h' → R a h') : Does A m h R := by
  obtain ⟨a, h', e, ev, q⟩ := hm
  exact ⟨a, h', e, ev, hqr a h' ev q⟩

theorem mono {m : CM ι α} {B : Access ι → Prop} (hAB : ∀ a, A a → B a) (hm : Does A m h Q) :
    Does B m h Q := by
  obtain ⟨a, h', e, ev, q⟩ := hm
  exact ⟨a, h', e, ev.mono hAB, q⟩

theorem sizeof {o : ι} {Q : Nat → Heap ι → Prop} (hq : Q (h.size o) h) :
    Does A (sizeofObj o) h Q := ⟨_, _, rfl, .refl A h, hq⟩

theorem load {o : ι} {i : Nat} {Q : Byte → Heap ι → Prop} (hi : i < h.size o)
    (ha : A (.read o i)) (hq : Q ((h.obj o).get i) (h.logged (.read o i))) :
    Does A (loadByte o i) h Q :=
  ⟨_, _, if_pos hi, ⟨rfl, [.read o i], rfl, by simpa using ha⟩, hq⟩

theorem store [DecidableEq ι] {o : ι} {i : Nat} {v : Byte} {Q : Unit → Heap ι → Prop}
    (hi : i < h.size o) (ha : A (.write o i))
    (hq : Q () ((h.setByte o i v).logged (.write o i))) : Does A (storeByte o i v) h Q :=
  ⟨_, _, if_pos hi, ⟨by simp, [.write o i], rfl, by simpa using ha⟩, hq⟩

theorem doIf {c : Prop} [Decidable c] {m : CM ι Unit} {Q : Unit → Heap ι → Prop}
    (ht : c → Does A m h Q) (hf : ¬c → Q () h) : Does A (doIf c m) h Q := by
  unfold CopySpace.doIf
  split
  · rename_i hc; exact ht hc
  · rename_i hc; exact pure (hf hc)

/-- The invariant rule of an upward loop. -/
theorem forUp {f : Nat → CM ι Unit} {n : Nat} (I : Nat → Heap ι → Prop) (h0 : I 0 h)
    (hstep : ∀ i < n, ∀ h', h.Evolves A h' → I i h' → Does A (f i) h' fun _ ↦ I (i + 1)) :
    Does A (forUp f n) h fun _ ↦ I n := by
  induction n with
  | zero => exact pure h0
  | succ n ih =>
      refine bind (ih fun i hi ↦ hstep i (by omega)) fun _ h' ev hI ↦ ?_
      exact hstep n (by omega) h' ev hI

/-- The invariant rule of a downward loop. -/
theorem forDown {f : Nat → CM ι Unit} {n : Nat} (I : Nat → Heap ι → Prop) (h0 : I n h)
    (hstep : ∀ i < n, ∀ h', h.Evolves A h' → I (i + 1) h' → Does A (f i) h' fun _ ↦ I i) :
    Does A (forDown f n) h fun _ ↦ I 0 := by
  induction n generalizing h with
  | zero => exact pure h0
  | succ n ih =>
      refine bind (hstep n (by omega) h (.refl A h) h0) fun _ h' ev hI ↦ ?_
      exact ih hI fun i hi h'' ev' ↦ hstep i (by omega) h'' (ev.trans ev')

end Does

/-! ## Runs of bytes -/

/-- Load the `n` bytes from index `j`. -/
def loadBytes (o : ι) (j : Nat) : Nat → CM ι (List Byte)
  | 0 => pure []
  | n + 1 => do
      let bs ← loadBytes o j n
      let b ← loadByte o (j + n)
      pure (bs ++ [b])

/-- Store a run of bytes from index `i`. -/
def storeBytes [DecidableEq ι] (o : ι) : Nat → List Byte → CM ι Unit
  | _, [] => pure ()
  | i, b :: bs => do storeByte o i b; storeBytes o (i + 1) bs

/-- `memmove`: all source bytes are read before the first one is written. -/
def memmove [DecidableEq ι] (dst : ι) (i : Nat) (src : ι) (j n : Nat) : CM ι Unit := do
  let bs ← loadBytes src j n
  storeBytes dst i bs

namespace Does

variable {A : Access ι → Prop} {h : Heap ι}

theorem loadBytes {o : ι} {j n : Nat} (hn : j + n ≤ h.size o)
    (ha : ∀ k < n, A (.read o (j + k))) :
    Does A (loadBytes o j n) h fun bs h' ↦ h'.obj = h.obj ∧ bs = (h.bit o).bytes j n := by
  induction n with
  | zero => exact pure ⟨rfl, rfl⟩
  | succ n ih =>
      refine bind (ih (by omega) fun k hk ↦ ha k (by omega)) fun bs h' _ ⟨ho, hb⟩ ↦ ?_
      have hs : h'.size o = h.size o := by simp [Heap.size, ho]
      refine bind (load (Q := fun b h'' ↦ b = (h.obj o).get (j + n) ∧ h''.obj = h.obj)
        (by omega) (ha n (by omega)) ⟨by rw [ho], ho⟩) fun b h'' _ ⟨hb', ho'⟩ ↦ ?_
      refine pure ⟨ho', ?_⟩
      rw [hb, hb', Bits.bytes, Bits.bytes, List.range_succ, List.map_append]
      simp [Heap.bit, Buffer.byte_bits]

theorem storeBytes [DecidableEq ι] {o : ι} {i : Nat} (bs : List Byte)
    (hn : i + bs.length ≤ h.size o) (ha : ∀ k < bs.length, A (.write o (i + k))) :
    Does A (storeBytes o i bs) h fun _ h' ↦ ∀ q, h'.bit q =
      if q = o then (h.bit o).putBytes i bs else h.bit q := by
  induction bs generalizing h i with
  | nil =>
      refine pure fun q ↦ ?_
      by_cases hq : q = o
      · rw [if_pos hq, hq]
        funext p
        exact (Bits.putBytes_of_notMem _ fun hc ↦ absurd hc.2 (by simpa using hc.1)).symm
      · rw [if_neg hq]
  | cons b bs ih =>
      simp only [List.length_cons] at hn ha ⊢
      refine bind (store (Q := fun _ h' ↦ h'.size = h.size ∧ h'.bit = (h.setByte o i b).bit)
        (by omega) (ha 0 (by omega)) ⟨by simp, rfl⟩) fun _ h' _ ⟨hs, hb⟩ ↦ ?_
      refine imp (ih (by rw [hs]; omega) fun k hk ↦ ?_) fun _ h'' _ hb' q ↦ ?_
      · rw [Nat.add_assoc, Nat.add_comm 1 k]
        exact ha (k + 1) (by omega)
      · rw [hb', hb]
        funext p
        by_cases hq : q = o
        · rw [if_pos hq, if_pos hq]
          by_cases hp : i + 1 ≤ p / 8 ∧ p / 8 < i + 1 + bs.length
          · have hk : p / 8 - i = (p / 8 - (i + 1)) + 1 := by omega
            rw [Bits.putBytes_of_mem _ hp, Bits.putBytes_of_mem _ (by simp; omega), hk]
            simp
          · rw [Bits.putBytes_of_notMem _ hp, Heap.bit_setByte (by omega)]
            by_cases hpi : p / 8 = i
            · rw [if_pos ⟨rfl, hpi⟩, Bits.putBytes_of_mem _ (by simp; omega), hpi]
              simp
            · rw [if_neg fun hc ↦ hpi hc.2, Bits.putBytes_of_notMem _ (by simp; omega)]
        · rw [if_neg hq, if_neg hq, Heap.bit_setByte (by omega), if_neg fun hc ↦ hq hc.1]

/-- A byte copy moves whole bytes, so at bit level it is a snapshot copy of aligned ranges. -/
theorem memmove [DecidableEq ι] {dst src : ι} {i j n : Nat} (hi : i + n ≤ h.size dst)
    (hj : j + n ≤ h.size src) (hr : ∀ k < n, A (.read src (j + k)))
    (hw : ∀ k < n, A (.write dst (i + k))) :
    Does A (memmove dst i src j n) h fun _ h' ↦ ∀ q p, h'.bit q p =
      if q = dst ∧ 8 * i ≤ p ∧ p < 8 * i + 8 * n then h.bit src (8 * j + (p - 8 * i))
      else h.bit q p := by
  refine bind (loadBytes hj hr) fun bs h₁ _ ⟨ho, hb⟩ ↦ ?_
  have hs : h₁.size dst = h.size dst := by simp [Heap.size, ho]
  have hbit : h₁.bit = h.bit := by funext q; simp [Heap.bit, ho]
  subst hb
  refine imp (storeBytes _ (by rw [Bits.length_bytes]; omega)
    (by rwa [Bits.length_bytes])) fun _ h₂ _ hb₂ q p ↦ ?_
  rw [hb₂, hbit]
  by_cases hq : q = dst
  · subst hq
    rw [if_pos rfl, Bits.putBytes_bytes]
    simp only [true_and]
  · rw [if_neg hq, if_neg fun hc ↦ hq hc.1]

end Does

end CopySpace
