import CopySpace.Lib.Heap
import Mathlib.Tactic.Tauto

/-!
# `bitcopy.c`: copying bits MSB-first

`bitcpy` copies `n` bits between two objects, or inside one, choosing between six
paths by the length, the two offsets in a byte and the overlap of the ranges.  The
definitions follow the C function, with each path that the C code writes inline under
a name of its own.  The result is that all the paths do the same thing:
`bitcpy_copied` says that the destination receives the *original* source bits, that
no other bit changes, and which bytes are touched on the way.

The proof splits a copy into consecutive pieces, each on its own bytes
(`Copied.append`); the only arithmetic is that a piece already written is never a
source bit of a later piece.
-/

namespace CopySpace

variable {ι : Type}

/-- The result of an addition in `size_t`. -/
def sizeT (n : Nat) : Nat := n % 2 ^ 64

def bitGetPtr (p : ι) (bitpos : Nat) : CM ι Byte := do
  let byte ← loadByte p (bitpos / 8)
  let shift := 7 - bitpos % 8
  pure ((byte >>> shift) &&& 1)

variable [DecidableEq ι]

def bitSetPtr (p : ι) (bitpos : Nat) (v : Byte) : CM ι Unit := do
  let b ← loadByte p (bitpos / 8)
  let shift := 7 - bitpos % 8
  let mask : Byte := 1#8 <<< shift
  storeByte p (bitpos / 8) (if v ≠ 0 then b ||| mask else b &&& ~~~mask)

def bitcpyOverlapFallback (nBits : Nat) (src : ι) (srcBit : Nat) (dst : ι) (dstBit : Nat) :
    CM ι Unit :=
  let move (i : Nat) : CM ι Unit := do
    let v ← bitGetPtr src (srcBit + i)
    bitSetPtr dst (dstBit + i) v
  if dstBit < srcBit then forUp move nBits else forDown move nBits

/-- The table `keep_hi`: the top `k` bits. -/
def keepHi (k : Nat) : Byte :=
  #[0x00, 0x80, 0xC0, 0xE0, 0xF0, 0xF8, 0xFC, 0xFE, 0xFF].getD k 0

/-- The table `keep_lo`: the bottom `8 - k` bits. -/
def keepLo (k : Nat) : Byte :=
  #[0xFF, 0x7F, 0x3F, 0x1F, 0x0F, 0x07, 0x03, 0x01, 0x00].getD k 0

/-- `*dst = (*dst & ~mask) | (*src & mask)`. -/
def mergeByte (dst : ι) (i : Nat) (src : ι) (j : Nat) (mask : Byte) : CM ι Unit := do
  let d ← loadByte dst i
  let s ← loadByte src j
  storeByte dst i ((d &&& ~~~mask) ||| (s &&& mask))

/-- Whole bytes, then the top `rem` bits of one more. -/
def bitcpyAligned (nBits : Nat) (src : ι) (srcByte : Nat) (dst : ι) (dstByte : Nat) :
    CM ι Unit := do
  let nbytes := nBits / 8
  let rem := nBits % 8
  doIf (nbytes ≠ 0) (memmove dst dstByte src srcByte nbytes)
  doIf (rem ≠ 0) (mergeByte dst (dstByte + nbytes) src (srcByte + nbytes) (keepHi rem))

/-- The first partial byte of two ranges with the same offset `dstMod`. -/
def bitcpyHead (head dstMod : Nat) (src : ι) (srcByte : Nat) (dst : ι) (dstByte : Nat) :
    CM ι Unit := do
  let s ← loadByte src srcByte
  let s := s &&& keepLo dstMod
  let maskKeep := keepHi dstMod ||| keepLo (dstMod + head)
  let d ← loadByte dst dstByte
  storeByte dst dstByte ((d &&& maskKeep) ||| (s &&& ~~~maskKeep))

def bitcpySameOffset (nBits : Nat) (src : ι) (srcByte : Nat) (dst : ι) (dstByte dstMod : Nat) :
    CM ι Unit := do
  if dstMod ≠ 0 then
    let head := min (8 - dstMod) nBits
    bitcpyHead head dstMod src srcByte dst dstByte
    bitcpyAligned (nBits - head) src (srcByte + 1) dst (dstByte + 1)
  else
    bitcpyAligned nBits src srcByte dst dstByte

/-- The destination byte that straddles the source bytes `src` and, when the offset
`srcMod` is not zero, `src + 1`. -/
def bitcpyStraddle (src0 : ι) (srcMod src : Nat) : CM ι Byte := do
  let b ← loadByte src0 src
  let c := b <<< srcMod
  if srcMod ≠ 0 then
    let b' ← loadByte src0 (src + 1)
    pure (c ||| (b' >>> (8 - srcMod)))
  else pure c

/-- The `while (n_bits >= 8)` loop: each step assembles one destination byte from the
two source bytes it straddles.  Returns the final `src_bit`, `dst_bit` and `n_bits`. -/
def bitcpyBytes (src0 dst0 : ι) (srcMod src dst srcBit dstBit nBits : Nat) :
    CM ι (Nat × Nat × Nat) :=
  if 8 ≤ nBits then do
    let c ← bitcpyStraddle src0 srcMod src
    storeByte dst0 dst c
    bitcpyBytes src0 dst0 srcMod (src + 1) (dst + 1) (srcBit + 8) (dstBit + 8) (nBits - 8)
  else pure (srcBit, dstBit, nBits)
termination_by nBits

/-- Different offsets: bring the destination to a byte boundary, then whole destination
bytes, then the rest bit by bit. -/
def bitcpyShifted (nBits : Nat) (src0 : ι) (srcBit : Nat) (dst0 : ι) (dstBit : Nat) :
    CM ι Unit := do
  let dstMod := dstBit % 8
  let head := if dstMod ≠ 0 then min (8 - dstMod) nBits else 0
  doIf (dstMod ≠ 0) (bitcpyOverlapFallback head src0 srcBit dst0 dstBit)
  let srcBit := srcBit + head
  let dstBit := dstBit + head
  let (srcBit, dstBit, nBits) ← bitcpyBytes src0 dst0 (srcBit % 8) (srcBit / 8) (dstBit / 8)
    srcBit dstBit (nBits - head)
  doIf (nBits ≠ 0) (bitcpyOverlapFallback nBits src0 srcBit dst0 dstBit)

def bitcpy (nBits : Nat) (srcOrg : ι) (srcBit : Nat) (dstOrg : ι) (dstBit : Nat) : CM ι Unit :=
  if nBits = 0 then pure ()
  else if srcOrg = dstOrg ∧ srcBit = dstBit then pure ()
  else if nBits < 8 then bitcpyOverlapFallback nBits srcOrg srcBit dstOrg dstBit
  else if srcOrg = dstOrg ∧ srcBit < sizeT (dstBit + nBits) ∧ dstBit < sizeT (srcBit + nBits) then
    bitcpyOverlapFallback nBits srcOrg srcBit dstOrg dstBit
  else if (srcBit ||| dstBit) % 8 = 0 then
    bitcpyAligned nBits srcOrg (srcBit / 8) dstOrg (dstBit / 8)
  else if srcBit % 8 = dstBit % 8 then
    bitcpySameOffset nBits srcOrg (srcBit / 8) dstOrg (dstBit / 8) (dstBit % 8)
  else bitcpyShifted nBits srcOrg srcBit dstOrg dstBit

/-! ## What a copy may touch and what it does -/

/-- Byte `i` holds a bit of the `n` positions from `a`. -/
def Covers (a n i : Nat) : Prop := 0 < n ∧ 8 * i < a + n ∧ a < 8 * i + 8

theorem covers_iff {a n i : Nat} : Covers a n i ↔ ∃ p, a ≤ p ∧ p < a + n ∧ p / 8 = i :=
  ⟨fun ⟨hn, h₁, h₂⟩ ↦ ⟨max a (8 * i), by omega, by omega, by omega⟩,
    fun ⟨p, h₁, h₂, h₃⟩ ↦ ⟨by omega, by omega, by omega⟩⟩

/-- The accesses a copy may make: reads of the bytes covering either range, writes of
the bytes covering the destination. -/
def CopyAccess (n : Nat) (src : ι) (s : Nat) (dst : ι) (d : Nat) : Access ι → Prop
  | .read o i => (o = src ∧ Covers s n i) ∨ (o = dst ∧ Covers d n i)
  | .write o i => o = dst ∧ Covers d n i

omit [DecidableEq ι] in
theorem CopyAccess.mono {n n' : Nat} {src dst : ι} {s s' d d' : Nat} (hs : s ≤ s')
    (hs' : s' + n' ≤ s + n) (hd : d ≤ d') (hd' : d' + n' ≤ d + n) (a : Access ι)
    (h : CopyAccess n' src s' dst d' a) : CopyAccess n src s dst d a := by
  cases a with
  | read o i =>
      rcases h with ⟨rfl, h₁, h₂⟩ | ⟨rfl, h₁, h₂⟩
      · exact .inl ⟨rfl, by omega, by omega⟩
      · exact .inr ⟨rfl, by omega, by omega⟩
  | write o i => exact ⟨h.1, by obtain ⟨-, h₁, h₂⟩ := h; constructor <;> omega⟩

/-- `h'` is `h` with `n` bits copied: the destination holds the bits the source had in
`h`, and every other bit of every object is the same. -/
def Copied (n : Nat) (src : ι) (s : Nat) (dst : ι) (d : Nat) (h h' : Heap ι) : Prop :=
  ∀ q p, h'.bit q p = if q = dst ∧ d ≤ p ∧ p < d + n then h.bit src (s + (p - d)) else h.bit q p

namespace Copied

variable {n : Nat} {src dst : ι} {s d : Nat} {h h₁ h₂ : Heap ι}

theorem zero (src : ι) (s : Nat) (dst : ι) (d : Nat) (h : Heap ι) : Copied 0 src s dst d h h :=
  fun q p ↦ (if_neg fun hc ↦ absurd hc.2.2 (by omega)).symm

theorem self (n : Nat) (o : ι) (a : Nat) (h : Heap ι) : Copied n o a o a h h := fun q p ↦ by
  split
  · rename_i hc
    rw [hc.1, Nat.add_sub_cancel' hc.2.1]
  · rfl

/-- Two pieces one after the other are one copy, provided the second piece does not read
what the first one wrote. -/
theorem append {m : Nat} (h₁₂ : Copied n src s dst d h h₁)
    (h₂₃ : Copied m src (s + n) dst (d + n) h₁ h₂)
    (hsep : src = dst → d + n ≤ s + n ∨ s + n + m ≤ d) : Copied (n + m) src s dst d h h₂ := by
  intro q p
  rw [h₂₃ q p]
  by_cases hq : q = dst
  · subst hq
    by_cases hp : d + n ≤ p ∧ p < d + n + m
    · have hsrc : h₁.bit src (s + n + (p - (d + n))) = h.bit src (s + n + (p - (d + n))) := by
        rw [h₁₂, if_neg]
        rintro ⟨hc, hc₁, hc₂⟩
        rcases hsep hc with hle | hle <;> omega
      rw [if_pos ⟨rfl, hp⟩, if_pos ⟨rfl, by omega, by omega⟩, hsrc]
      exact congrArg (h.bit src) (by omega)
    · rw [if_neg fun hc ↦ hp hc.2, h₁₂ q p]
      by_cases hp' : d ≤ p ∧ p < d + n
      · rw [if_pos ⟨rfl, hp'⟩, if_pos ⟨rfl, by omega, by omega⟩]
      · rw [if_neg fun hc ↦ hp' hc.2, if_neg fun hc ↦ by omega]
  · rw [if_neg fun hc ↦ hq hc.1, h₁₂ q p, if_neg fun hc ↦ hq hc.1, if_neg fun hc ↦ hq hc.1]

/-- The same for the pieces in the other order, as the downward loop takes them. -/
theorem cons {m : Nat} (h₁₂ : Copied m src (s + n) dst (d + n) h h₁)
    (h₂₃ : Copied n src s dst d h₁ h₂)
    (hsep : src = dst → s + n ≤ d + n ∨ d + n + m ≤ s) : Copied (n + m) src s dst d h h₂ := by
  intro q p
  rw [h₂₃ q p]
  by_cases hq : q = dst
  · subst hq
    by_cases hp : d ≤ p ∧ p < d + n
    · have hsrc : h₁.bit src (s + (p - d)) = h.bit src (s + (p - d)) := by
        rw [h₁₂, if_neg]
        rintro ⟨hc, hc₁, hc₂⟩
        rcases hsep hc with hle | hle <;> omega
      rw [if_pos ⟨rfl, hp⟩, if_pos ⟨rfl, by omega, by omega⟩, hsrc]
    · rw [if_neg fun hc ↦ hp hc.2, h₁₂ q p]
      by_cases hp' : d + n ≤ p ∧ p < d + n + m
      · rw [if_pos ⟨rfl, hp'⟩, if_pos ⟨rfl, by omega, by omega⟩]
        exact congrArg (h.bit src) (by omega)
      · rw [if_neg fun hc ↦ hp' hc.2, if_neg fun hc ↦ by omega]
  · rw [if_neg fun hc ↦ hq hc.1, h₁₂ q p, if_neg fun hc ↦ hq hc.1, if_neg fun hc ↦ hq hc.1]

end Copied

/-! ## Single bits -/

theorem getLsbD_keepHi {k j : Nat} (hk : k ≤ 8) (hj : j < 8) :
    (keepHi k).getLsbD j = decide (8 - k ≤ j) := by
  interval_cases k <;> interval_cases j <;> rfl

theorem getLsbD_keepLo {k j : Nat} (hk : k ≤ 8) (hj : j < 8) :
    (keepLo k).getLsbD j = decide (j < 8 - k) := by
  interval_cases k <;> interval_cases j <;> rfl

omit [DecidableEq ι] in
theorem getLsbD_one_shiftLeft (k : Nat) {i : Nat} (hi : i < 8) :
    (1#8 <<< k).getLsbD i = decide (i = k) := by
  rw [BitVec.getLsbD_shiftLeft, BitVec.getLsbD_one]
  by_cases hik : i = k
  · simp [hik, show k < 8 by omega]
  · by_cases hlt : i < k
    · simp [hlt, hik]
    · simp [hik, show i - k ≠ 0 by omega]

omit [DecidableEq ι] in
theorem does_bitGetPtr {A : Access ι → Prop} {h : Heap ι} {o : ι} {p : Nat}
    (hp : p < 8 * h.size o) (ha : A (.read o (p / 8))) :
    Does A (bitGetPtr o p) h fun v h' ↦ (v ≠ 0 ↔ h.bit o p = true) ∧ h'.obj = h.obj := by
  refine .bind (.load (Q := fun b h' ↦ b = (h.obj o).get (p / 8) ∧ h'.obj = h.obj)
    (by omega) ha ⟨rfl, rfl⟩) fun b h' _ ⟨hb, ho⟩ ↦ .pure ⟨?_, ho⟩
  have hbit : h.bit o p = b.getLsbD (7 - p % 8) := by rw [hb]; rfl
  rw [hbit]
  generalize 7 - p % 8 = k
  constructor
  · intro hv
    by_contra hk
    refine hv (BitVec.eq_of_getLsbD_eq fun i hi ↦ ?_)
    by_cases h0 : i = 0
    · subst h0; simpa using hk
    · simp [BitVec.getLsbD_one, h0]
  · intro hk hv
    have := congrArg (fun x : Byte ↦ x.getLsbD 0) hv
    simp [hk] at this

theorem does_bitSetPtr {A : Access ι → Prop} {h : Heap ι} {o : ι} {p : Nat} {v : Byte} {x : Bool}
    (hp : p < 8 * h.size o) (hv : v ≠ 0 ↔ x = true) (hr : A (.read o (p / 8)))
    (hw : A (.write o (p / 8))) : Does A (bitSetPtr o p v) h fun _ h' ↦
      ∀ q r, h'.bit q r = if q = o ∧ r = p then x else h.bit q r := by
  refine .bind (.load (Q := fun b h' ↦ b = (h.obj o).get (p / 8) ∧ h'.obj = h.obj)
    (by omega) hr ⟨rfl, rfl⟩) fun b h' _ ⟨hb, ho⟩ ↦ ?_
  have hs : h'.size o = h.size o := by simp [Heap.size, ho]
  have hbit : h'.bit = h.bit := by funext q; simp [Heap.bit, ho]
  refine .store (by omega) hw fun q r ↦ ?_
  rw [Heap.bit_logged, Heap.bit_setByte (by omega), hbit]
  by_cases hq : q = o ∧ r / 8 = p / 8
  · rw [if_pos hq]
    have hb' : h.bit q r = b.getLsbD (7 - r % 8) := by rw [hb, ← hq.2, hq.1]; rfl
    have hr8 : 7 - r % 8 < 8 := by omega
    have hkr : 7 - r % 8 = 7 - p % 8 ↔ r = p := by omega
    have hmask := getLsbD_one_shiftLeft (7 - p % 8) hr8
    generalize 1#8 <<< (7 - p % 8) = mask at hmask ⊢
    rw [hb', apply_ite (BitVec.getLsbD · (7 - r % 8)), BitVec.getLsbD_or, BitVec.getLsbD_and,
      BitVec.getLsbD_not, hmask]
    by_cases hrp : r = p
    · simp only [hq.1, hrp, and_self, if_true]
      cases x with
      | false => rw [if_neg fun hc : v ≠ 0 ↦ absurd (hv.mp hc) (by simp)]; simp
      | true => rw [if_pos (hv.mpr rfl)]; simp
    · rw [if_neg fun hc : q = o ∧ r = p ↦ hrp hc.2]
      simp [mt hkr.mp hrp, hr8]
  · rw [if_neg hq, if_neg fun hc ↦ hq ⟨hc.1, by rw [hc.2]⟩]

/-! ## The paths of `bitcpy` -/

/-- The situation of one copy: both ranges lie inside their objects. -/
structure InRange (h : Heap ι) (n : Nat) (src : ι) (s : Nat) (dst : ι) (d : Nat) : Prop where
  src_le : s + n ≤ 8 * h.size src
  dst_le : d + n ≤ 8 * h.size dst

/-- The ranges do not overlap, unless they belong to different objects. -/
def Apart (n : Nat) (src : ι) (s : Nat) (dst : ι) (d : Nat) : Prop :=
  src = dst → s + n ≤ d ∨ d + n ≤ s

variable {h : Heap ι} {n : Nat} {src dst : ι} {s d : Nat}

omit [DecidableEq ι] in
theorem InRange.evolves {A : Access ι → Prop} {h' : Heap ι} (hr : InRange h n src s dst d)
    (ev : h.Evolves A h') : InRange h' n src s dst d :=
  ⟨by rw [ev.size_eq]; exact hr.src_le, by rw [ev.size_eq]; exact hr.dst_le⟩

omit [DecidableEq ι] in
theorem InRange.piece {i m : Nat} (hr : InRange h n src s dst d) (hi : i + m ≤ n) :
    InRange h m src (s + i) dst (d + i) :=
  ⟨by have := hr.src_le; omega, by have := hr.dst_le; omega⟩

omit [DecidableEq ι] in
theorem Apart.piece {i m : Nat} (ha : Apart n src s dst d) (hi : i + m ≤ n) :
    Apart m src (s + i) dst (d + i) := fun hc ↦ by have := ha hc; omega

omit [DecidableEq ι] in
/-- A piece of a copy touches only what the whole copy may touch. -/
theorem Does.piece {α : Type} {m : CM ι α} {Q : α → Heap ι → Prop} {i k : Nat}
    (hm : Does (CopyAccess k src (s + i) dst (d + i)) m h Q) (hi : i + k ≤ n) :
    Does (CopyAccess n src s dst d) m h Q :=
  hm.mono (CopyAccess.mono (by omega) (by omega) (by omega) (by omega))

/-- One step of the bitwise loops. -/
theorem does_move {i : Nat} (hr : InRange h n src s dst d) (hi : i < n) :
    Does (CopyAccess n src s dst d)
      (do let v ← bitGetPtr src (s + i); bitSetPtr dst (d + i) v) h
      fun _ h' ↦ Copied 1 src (s + i) dst (d + i) h h' := by
  have hs := hr.src_le
  have hd := hr.dst_le
  refine .bind (does_bitGetPtr (by omega) (.inl ⟨rfl, by unfold Covers; omega⟩))
    fun v h₁ ev ⟨hv, ho⟩ ↦ ?_
  have hbit : h₁.bit = h.bit := by funext q; simp [Heap.bit, ho]
  refine .imp (does_bitSetPtr (by rw [ev.size_eq]; omega) hv
    (.inr ⟨rfl, by unfold Covers; omega⟩) ⟨rfl, by unfold Covers; omega⟩) fun _ h₂ _ hb q p ↦ ?_
  rw [hb, hbit]
  by_cases hp : q = dst ∧ p = d + i
  · rw [if_pos hp, if_pos ⟨hp.1, by omega, by omega⟩]
    exact congrArg (h.bit src) (by omega)
  · rw [if_neg hp, if_neg fun hc ↦ hp ⟨hc.1, by omega⟩]

/-- The bitwise path is a snapshot copy whatever the overlap: it walks away from the
side on which the destination would overtake the source. -/
theorem does_bitcpyOverlapFallback (hr : InRange h n src s dst d) :
    Does (CopyAccess n src s dst d) (bitcpyOverlapFallback n src s dst d) h
      fun _ h' ↦ Copied n src s dst d h h' := by
  unfold bitcpyOverlapFallback
  split
  · refine Does.forUp (fun i h' ↦ Copied i src s dst d h h') (.zero src s dst d h)
      fun i hi h₁ ev hI ↦ (does_move (hr.evolves ev) hi).imp fun _ h₂ _ h1 ↦ ?_
    exact hI.append h1 fun _ ↦ .inl (by omega)
  · refine Does.imp (Does.forDown
      (fun i h' ↦ Copied (n - i) src (s + i) dst (d + i) h h') ?_ fun i hi h₁ ev hI ↦
        (does_move (hr.evolves ev) hi).imp fun _ h₂ _ h1 ↦ ?_) fun _ h' _ hc ↦ by simpa using hc
    · rw [Nat.sub_self]
      exact .zero src (s + n) dst (d + n) h
    · have := hI.cons (s := s + i) (d := d + i) (n := 1) h1 fun _ ↦ .inl (by omega)
      rwa [show 1 + (n - (i + 1)) = n - i by omega] at this

/-- Merging one byte under a mask of top bits copies these bits. -/
theorem does_mergeByte (h : Heap ι) (src dst : ι) {i j r : Nat} (hr : r ≤ 8) (h1 : 1 ≤ r) (hi : i < h.size dst)
    (hj : j < h.size src) : Does (CopyAccess r src (8 * j) dst (8 * i))
      (mergeByte dst i src j (keepHi r)) h fun _ h' ↦ Copied r src (8 * j) dst (8 * i) h h' := by
  refine .bind (.load (Q := fun b h' ↦ b = (h.obj dst).get i ∧ h'.obj = h.obj) hi
    (.inr ⟨rfl, by unfold Covers; omega⟩) ⟨rfl, rfl⟩) fun x h₁ ev₁ ⟨hx, ho₁⟩ ↦ ?_
  refine .bind (.load (Q := fun b h' ↦ b = (h.obj src).get j ∧ h'.obj = h.obj)
    (by rw [ev₁.size_eq]; exact hj) (.inl ⟨rfl, by unfold Covers; omega⟩)
    ⟨by rw [ho₁], ho₁⟩) fun y h₂ ev₂ ⟨hy, ho₂⟩ ↦ ?_
  have hbit : h₂.bit = h.bit := by funext q; simp [Heap.bit, ho₂]
  have hsz : h₂.size dst = h.size dst := by rw [ev₂.size_eq, ev₁.size_eq]
  refine .store (by omega) ⟨rfl, by unfold Covers; omega⟩ fun q p ↦ ?_
  rw [Heap.bit_logged, Heap.bit_setByte (by omega), hbit, hx, hy]
  by_cases hq : q = dst ∧ p / 8 = i
  · rw [if_pos hq, BitVec.getLsbD_or, BitVec.getLsbD_and, BitVec.getLsbD_and, BitVec.getLsbD_not,
      getLsbD_keepHi hr (by omega), Buffer.getLsbD_get _ _ (by omega),
      Buffer.getLsbD_get _ _ (by omega)]
    have hp₁ : 8 * i + (7 - (7 - p % 8)) = p := by omega
    have hp₂ : 8 * j + (7 - (7 - p % 8)) = 8 * j + (p - 8 * i) := by omega
    rw [hp₁, hp₂, hq.1]
    by_cases hlt : p < 8 * i + r
    · rw [if_pos ⟨rfl, by omega, hlt⟩, decide_eq_true (show 8 - r ≤ 7 - p % 8 by omega)]
      simp [Heap.bit]
    · rw [if_neg fun hc ↦ hlt hc.2.2, decide_eq_false (show ¬ 8 - r ≤ 7 - p % 8 by omega)]
      simp [Heap.bit, show 7 - p % 8 < 8 by omega]
  · rw [if_neg hq, if_neg fun hc ↦ hq ⟨hc.1, by omega⟩]

/-- The head of two ranges with the same offset in a byte. -/
theorem does_bitcpyHead (h : Heap ι) (src dst : ι) {i j m k : Nat} (hm : m + k ≤ 8) (h1 : 1 ≤ k) (hi : i < h.size dst)
    (hj : j < h.size src) : Does (CopyAccess k src (8 * j + m) dst (8 * i + m))
      (bitcpyHead k m src j dst i) h
      fun _ h' ↦ Copied k src (8 * j + m) dst (8 * i + m) h h' := by
  refine .bind (.load (Q := fun b h' ↦ b = (h.obj src).get j ∧ h'.obj = h.obj) hj
    (.inl ⟨rfl, by unfold Covers; omega⟩) ⟨rfl, rfl⟩) fun y h₁ ev₁ ⟨hy, ho₁⟩ ↦ ?_
  refine .bind (.load (Q := fun b h' ↦ b = (h.obj dst).get i ∧ h'.obj = h.obj)
    (by rw [ev₁.size_eq]; exact hi) (.inr ⟨rfl, by unfold Covers; omega⟩)
    ⟨by rw [ho₁], ho₁⟩) fun x h₂ ev₂ ⟨hx, ho₂⟩ ↦ ?_
  have hbit : h₂.bit = h.bit := by funext q; simp [Heap.bit, ho₂]
  have hsz : h₂.size dst = h.size dst := by rw [ev₂.size_eq, ev₁.size_eq]
  refine .store (by omega) ⟨rfl, by unfold Covers; omega⟩ fun q p ↦ ?_
  rw [Heap.bit_logged, Heap.bit_setByte (by omega), hbit, hx, hy]
  by_cases hq : q = dst ∧ p / 8 = i
  · have hp8 : 7 - p % 8 < 8 := by omega
    rw [if_pos hq, BitVec.getLsbD_or, BitVec.getLsbD_and, BitVec.getLsbD_and, BitVec.getLsbD_and,
      BitVec.getLsbD_not, BitVec.getLsbD_or, getLsbD_keepHi (by omega) hp8,
      getLsbD_keepLo (by omega) hp8, getLsbD_keepLo (by omega) hp8,
      Buffer.getLsbD_get _ _ hp8, Buffer.getLsbD_get _ _ hp8]
    have hp₁ : 8 * i + (7 - (7 - p % 8)) = p := by omega
    rw [hp₁, hq.1]
    by_cases hlt : 8 * i + m ≤ p ∧ p < 8 * i + m + k
    · have hp₂ : 8 * j + (7 - (7 - p % 8)) = 8 * j + m + (p - (8 * i + m)) := by omega
      rw [if_pos ⟨rfl, hlt⟩, hp₂, decide_eq_false (show ¬ 8 - m ≤ 7 - p % 8 by omega),
        decide_eq_false (show ¬ 7 - p % 8 < 8 - (m + k) by omega),
        decide_eq_true (show 7 - p % 8 < 8 - m by omega)]
      simp [Heap.bit, hp8]
    · have hkeep : (decide (8 - m ≤ 7 - p % 8) || decide (7 - p % 8 < 8 - (m + k))) = true := by
        simp only [Bool.or_eq_true, decide_eq_true_eq]
        omega
      rw [if_neg fun hc ↦ hlt hc.2, hkeep]
      simp [Heap.bit]
  · rw [if_neg hq, if_neg fun hc ↦ hq ⟨hc.1, by omega⟩]

theorem does_bitcpyAligned {i j : Nat} (hr : InRange h n src (8 * j) dst (8 * i))
    (ha : Apart n src (8 * j) dst (8 * i)) :
    Does (CopyAccess n src (8 * j) dst (8 * i)) (bitcpyAligned n src j dst i) h
      fun _ h' ↦ Copied n src (8 * j) dst (8 * i) h h' := by
  have hs := hr.src_le
  have hd := hr.dst_le
  have hbytes : Does (CopyAccess n src (8 * j) dst (8 * i))
      (doIf (n / 8 ≠ 0) (memmove dst i src j (n / 8))) h
      fun _ h' ↦ Copied (8 * (n / 8)) src (8 * j) dst (8 * i) h h' := by
    refine .doIf (fun _ ↦ ?_) fun h0 ↦ ?_
    · exact .memmove (by omega) (by omega) (fun k hk ↦ .inl ⟨rfl, by unfold Covers; omega⟩)
        fun k hk ↦ ⟨rfl, by unfold Covers; omega⟩
    · rw [show 8 * (n / 8) = 0 by omega]
      exact .zero src _ dst _ h
  refine .bind hbytes fun _ h₁ ev hc ↦ .doIf (fun h0 ↦ ?_) fun h0 ↦ ?_
  · have hr₁ := hr.evolves ev
    have hm := does_mergeByte h₁ src dst (i := i + n / 8) (j := j + n / 8)
      (r := n % 8) (by omega) (by omega) (by rw [ev.size_eq]; omega) (by rw [ev.size_eq]; omega)
    rw [Nat.mul_add, Nat.mul_add] at hm
    refine (hm.piece (n := n) (by omega)).imp fun _ h₂ _ hc₂ ↦ ?_
    have := hc.append hc₂ fun he ↦ by have := ha he; omega
    rwa [Nat.div_add_mod] at this
  · rwa [show 8 * (n / 8) = n by omega] at hc

theorem does_bitcpySameOffset (hr : InRange h n src s dst d) (ha : Apart n src s dst d)
    (h8 : 8 ≤ n) (hmod : s % 8 = d % 8) : Does (CopyAccess n src s dst d)
      (bitcpySameOffset n src (s / 8) dst (d / 8) (d % 8)) h
      fun _ h' ↦ Copied n src s dst d h h' := by
  have hs := hr.src_le
  have hd := hr.dst_le
  unfold bitcpySameOffset
  split
  · rename_i h0
    rw [Nat.min_eq_left (by omega)]
    have hh := does_bitcpyHead h src dst (i := d / 8) (j := s / 8)
      (m := d % 8) (k := 8 - d % 8) (by omega) (by omega) (by omega) (by omega)
    rw [show 8 * (s / 8) + d % 8 = s + 0 by omega, show 8 * (d / 8) + d % 8 = d + 0 by omega] at hh
    refine .bind (hh.piece (n := n) (by omega)) fun _ h₁ ev hc ↦ ?_
    have hr₁ := (hr.evolves ev).piece (i := 8 - d % 8) (m := n - (8 - d % 8)) (by omega)
    have ha₁ := ha.piece (i := 8 - d % 8) (m := n - (8 - d % 8)) (by omega)
    have es : s + (8 - d % 8) = 8 * (s / 8 + 1) := by omega
    have ed : d + (8 - d % 8) = 8 * (d / 8 + 1) := by omega
    rw [es, ed] at hr₁ ha₁
    have hrest := does_bitcpyAligned hr₁ ha₁
    rw [← es, ← ed] at hrest
    refine (hrest.piece (n := n) (by omega)).imp fun _ h₂ _ hc₂ ↦ ?_
    have := hc.append hc₂ fun he ↦ by have := ha he; omega
    rwa [show 8 - d % 8 + (n - (8 - d % 8)) = n by omega] at this
  · rename_i h0
    have es : s = 8 * (s / 8) := by omega
    have ed : d = 8 * (d / 8) := by omega
    rw [es, ed] at hr ha
    have := does_bitcpyAligned hr ha
    rwa [← es, ← ed] at this

/-- The byte a loop step assembles from the two source bytes it straddles. -/
theorem getLsbD_straddle (b b' : Byte) {m k : Nat} (hm : m < 8) (hk : k < 8) :
    (if m ≠ 0 then b <<< m ||| b' >>> (8 - m) else b <<< m).getLsbD k =
      if k < m then b'.getLsbD (8 - m + k) else b.getLsbD (k - m) := by
  by_cases h0 : m = 0
  · subst h0; simp
  · rw [if_pos h0, BitVec.getLsbD_or, BitVec.getLsbD_shiftLeft, BitVec.getLsbD_ushiftRight]
    by_cases hkm : k < m
    · simp [hk, hkm]
    · have : b'.getLsbD (8 - m + k) = false := BitVec.getLsbD_of_ge _ _ (by omega)
      simp [hk, hkm, this]

omit [DecidableEq ι] in
theorem does_bitcpyStraddle (hr : InRange h n src s dst d) (h8 : 8 ≤ n) :
    Does (CopyAccess n src s dst d) (bitcpyStraddle src (s % 8) (s / 8)) h fun c h' ↦
      h'.obj = h.obj ∧ ∀ k < 8, c.getLsbD k = h.bit src (s + (7 - k)) := by
  have hs := hr.src_le
  have hbyte : ∀ k < 8, (if s % 8 ≠ 0 then
      (h.obj src).get (s / 8) <<< (s % 8) ||| (h.obj src).get (s / 8 + 1) >>> (8 - s % 8)
      else (h.obj src).get (s / 8) <<< (s % 8)).getLsbD k = h.bit src (s + (7 - k)) := by
    intro k hk
    rw [getLsbD_straddle _ _ (by omega) hk]
    split
    · rw [Buffer.getLsbD_get _ _ (by omega)]
      exact congrArg (h.bit src) (by omega)
    · rw [Buffer.getLsbD_get _ _ (by omega)]
      exact congrArg (h.bit src) (by omega)
  refine .bind (.load (Q := fun b h' ↦ b = (h.obj src).get (s / 8) ∧ h'.obj = h.obj)
    (by omega) (.inl ⟨rfl, by unfold Covers; omega⟩) ⟨rfl, rfl⟩) fun b h₁ ev₁ ⟨hb, ho₁⟩ ↦ ?_
  subst hb
  by_cases h0 : s % 8 ≠ 0
  · simp only [if_pos h0] at hbyte ⊢
    refine .bind (.load (Q := fun b' h' ↦ b' = (h.obj src).get (s / 8 + 1) ∧ h'.obj = h.obj)
      (by rw [ev₁.size_eq]; omega) (.inl ⟨rfl, by unfold Covers; omega⟩) ⟨by rw [ho₁], ho₁⟩)
      fun b' h₂ _ ⟨hb', ho₂⟩ ↦ .pure ⟨ho₂, ?_⟩
    rwa [hb']
  · simp only [if_neg h0] at hbyte ⊢
    exact .pure ⟨ho₁, hbyte⟩

theorem does_bitcpyBytes (hr : InRange h n src s dst d) (ha : Apart n src s dst d)
    (hd0 : d % 8 = 0) : Does (CopyAccess n src s dst d)
      (bitcpyBytes src dst (s % 8) (s / 8) (d / 8) s d n) h fun r h' ↦
      r = (s + 8 * (n / 8), d + 8 * (n / 8), n % 8) ∧ Copied (8 * (n / 8)) src s dst d h h' := by
  induction n using Nat.strongRecOn generalizing h s d with
  | ind n ih =>
      have hs := hr.src_le
      have hd := hr.dst_le
      unfold bitcpyBytes
      split
      case isFalse hlt =>
        rw [show n / 8 = 0 by omega, show n % 8 = n by omega]
        exact .pure ⟨rfl, .zero src s dst d h⟩
      case isTrue h8 =>
        refine .bind (does_bitcpyStraddle hr h8) fun c h₁ ev₁ hc ↦ ?_
        obtain ⟨ho₁, hc⟩ := hc
        have hsz₁ : h₁.size = h.size := ev₁.size_eq
        have hbit₁ : h₁.bit = h.bit := by funext q; simp [Heap.bit, ho₁]
        refine .bind (.store (Q := fun _ h' ↦ Copied 8 src s dst d h h' ∧ h'.size = h.size)
          (by rw [hsz₁]; omega) ⟨rfl, by unfold Covers; omega⟩ ⟨fun q p ↦ ?_, by simp [hsz₁]⟩)
          fun _ h₂ ev₂ hc₂ ↦ ?_
        · rw [Heap.bit_logged, Heap.bit_setByte (by rw [hsz₁]; omega), hbit₁]
          by_cases hp : q = dst ∧ p / 8 = d / 8
          · rw [if_pos hp, if_pos ⟨hp.1, by omega, by omega⟩, hc _ (by omega)]
            exact congrArg (h.bit src) (by omega)
          · rw [if_neg hp, if_neg fun hc' ↦ hp ⟨hc'.1, by omega⟩]
        · obtain ⟨hc₂, hsz₂⟩ := hc₂
          have hr₂ : InRange h₂ (n - 8) src (s + 8) dst (d + 8) :=
            ⟨by rw [hsz₂]; omega, by rw [hsz₂]; omega⟩
          have hrest := ih (n - 8) (by omega) hr₂ (ha.piece (by omega)) (by omega)
          rw [show (s + 8) % 8 = s % 8 by omega, show (s + 8) / 8 = s / 8 + 1 by omega,
            show (d + 8) / 8 = d / 8 + 1 by omega] at hrest
          refine (hrest.piece (n := n) (by omega)).imp fun r h₃ _ hres ↦ ⟨?_, ?_⟩
          all_goals obtain ⟨hres, hc₃⟩ := hres
          · rw [hres]
            simp only [Prod.mk.injEq]
            omega
          · have := hc₂.append hc₃ fun he ↦ by have := ha he; omega
            rwa [show 8 + 8 * ((n - 8) / 8) = 8 * (n / 8) by omega] at this

theorem does_bitcpyShifted (hr : InRange h n src s dst d) (ha : Apart n src s dst d)
    (h8 : 8 ≤ n) : Does (CopyAccess n src s dst d) (bitcpyShifted n src s dst d) h
      fun _ h' ↦ Copied n src s dst d h h' := by
  unfold bitcpyShifted
  have hle : (if d % 8 ≠ 0 then min (8 - d % 8) n else 0) ≤ n := by split <;> omega
  have hd8 : (d + if d % 8 ≠ 0 then min (8 - d % 8) n else 0) % 8 = 0 := by split <;> omega
  have hzero : ¬ d % 8 ≠ 0 → (if d % 8 ≠ 0 then min (8 - d % 8) n else 0) = 0 := fun h0 ↦ if_neg h0
  simp only
  generalize (if d % 8 ≠ 0 then min (8 - d % 8) n else 0) = k at hle hd8 hzero ⊢
  have hhead : Does (CopyAccess n src s dst d)
      (doIf (d % 8 ≠ 0) (bitcpyOverlapFallback k src s dst d)) h
      fun _ h' ↦ Copied k src s dst d h h' := by
    refine .doIf (fun _ ↦ ?_) fun h0 ↦ ?_
    · exact (does_bitcpyOverlapFallback (hr.piece (i := 0) (m := k) (by omega))).piece (by omega)
    · rw [hzero h0]
      exact .zero src s dst d h
  refine .bind hhead fun _ h₁ ev₁ hc₁ ↦ ?_
  have hr₁ := (hr.evolves ev₁).piece (i := k) (m := n - k) (by omega)
  have ha₁ := ha.piece (i := k) (m := n - k) (by omega)
  refine .bind ((does_bitcpyBytes hr₁ ha₁ hd8).piece (n := n) (by omega))
    fun r h₂ ev₂ ⟨hres, hc₂⟩ ↦ ?_
  subst hres
  have hc₁₂ := hc₁.append hc₂ fun he ↦ by have := ha he; omega
  refine .doIf (fun _ ↦ ?_) fun h0 ↦ ?_
  · have hr₂ := (hr₁.evolves ev₂).piece (i := 8 * ((n - k) / 8)) (m := (n - k) % 8) (by omega)
    have htail := does_bitcpyOverlapFallback hr₂
    rw [Nat.add_assoc s, Nat.add_assoc d] at htail ⊢
    refine (htail.piece (n := n) (by omega)).imp fun _ h₃ _ hc₃ ↦ ?_
    have := hc₁₂.append hc₃ fun he ↦ by have := ha he; omega
    rwa [show k + 8 * ((n - k) / 8) + (n - k) % 8 = n by omega] at this
  · have h0 : (n - k) % 8 = 0 := not_not.mp h0
    rwa [show k + 8 * ((n - k) / 8) = n by omega] at hc₁₂

omit [DecidableEq ι] in
theorem or_mod_eight_eq_zero {a b : Nat} : (a ||| b) % 8 = 0 ↔ a % 8 = 0 ∧ b % 8 = 0 := by
  rw [show (8 : Nat) = 2 ^ 3 from rfl, Nat.or_mod_two_pow, Nat.or_eq_zero_iff]

omit [DecidableEq ι] in
/-- Bit positions of an object do not overflow `size_t`. -/
theorem InRange.sizeT_eq (hr : InRange h n src s dst d) :
    sizeT (s + n) = s + n ∧ sizeT (d + n) = d + n := by
  have h₁ := h.size_addressable src
  have h₂ := h.size_addressable dst
  have hs := hr.src_le
  have hd := hr.dst_le
  exact ⟨Nat.mod_eq_of_lt (by omega), Nat.mod_eq_of_lt (by omega)⟩

/-- `bitcpy` is a snapshot bit copy on every one of its paths, and touches only the bytes
that cover the two ranges. -/
theorem does_bitcpy (hr : InRange h n src s dst d) :
    Does (CopyAccess n src s dst d) (bitcpy n src s dst d) h
      fun _ h' ↦ Copied n src s dst d h h' := by
  unfold bitcpy
  obtain ⟨es, ed⟩ := hr.sizeT_eq
  rw [es, ed]
  split
  case isTrue h0 => subst h0; exact .pure (.zero src s dst d h)
  split
  case isTrue hsame =>
    obtain ⟨rfl, rfl⟩ := hsame
    exact .pure (.self n src s h)
  split
  case isTrue => exact does_bitcpyOverlapFallback hr
  split
  case isTrue => exact does_bitcpyOverlapFallback hr
  rename_i h8 hover
  have h8 : 8 ≤ n := by omega
  have ha : Apart n src s dst d := fun he ↦ by
    by_contra hc
    exact hover ⟨he, by omega, by omega⟩
  split
  · rename_i hmod
    obtain ⟨hs, hd⟩ := or_mod_eight_eq_zero.mp hmod
    have es : s = 8 * (s / 8) := by omega
    have ed : d = 8 * (d / 8) := by omega
    rw [es, ed] at hr ha
    have := does_bitcpyAligned hr ha
    rwa [← es, ← ed] at this
  split
  · rename_i hmod
    exact does_bitcpySameOffset hr ha h8 hmod
  · exact does_bitcpyShifted hr ha h8

omit [DecidableEq ι] in
/-- An object no bit of which changes is the same object. -/
theorem Heap.Evolves.obj_eq {A : Access ι → Prop} {h' : Heap ι} (ev : h.Evolves A h') {o : ι}
    (hb : ∀ p, h'.bit o p = h.bit o p) : h'.obj o = h.obj o :=
  Buffer.ext_bits (congrFun ev.size_eq o) hb

/-- The contract of `bitcpy`, for one buffer or two: the destination range receives the
original source bits, nothing else changes, and every byte touched covers one of the
two ranges (and the destination range if it is written). -/
theorem bitcpy_snapshot (h : Heap ι) (n : Nat) (src : ι) (s : Nat) (dst : ι) (d : Nat)
    (hs : s + n ≤ 8 * h.size src) (hd : d + n ≤ 8 * h.size dst) :
    ∃ h' new, bitcpy n src s dst d h = some ((), h') ∧
      (∀ i < n, h'.bit dst (d + i) = h.bit src (s + i)) ∧
      (∀ p, ¬(d ≤ p ∧ p < d + n) → h'.bit dst p = h.bit dst p) ∧
      (∀ o, o ≠ dst → h'.obj o = h.obj o) ∧
      h'.log = new ++ h.log ∧
      (∀ o i, .read o i ∈ new → (o = src ∧ ∃ p, s ≤ p ∧ p < s + n ∧ p / 8 = i) ∨
        (o = dst ∧ ∃ p, d ≤ p ∧ p < d + n ∧ p / 8 = i)) ∧
      ∀ o i, .write o i ∈ new → o = dst ∧ ∃ p, d ≤ p ∧ p < d + n ∧ p / 8 = i := by
  obtain ⟨_, h', e, ev, hc⟩ := does_bitcpy (InRange.mk hs hd)
  obtain ⟨new, hlog, hnew⟩ := ev.log_eq
  refine ⟨h', new, e, fun i hi ↦ ?_, fun p hp ↦ ?_, fun o ho ↦ ?_, hlog, fun o i hm ↦ ?_,
    fun o i hm ↦ ?_⟩
  · rw [hc, if_pos ⟨rfl, by omega, by omega⟩, Nat.add_sub_cancel_left]
  · rw [hc, if_neg fun hc' ↦ hp hc'.2]
  · exact ev.obj_eq fun p ↦ by rw [hc, if_neg fun hc' ↦ ho hc'.1]
  · have := hnew _ hm
    simpa only [CopyAccess, covers_iff] using this
  · have := hnew _ hm
    simpa only [CopyAccess, covers_iff] using this

/-- Nine bits moved up by three in a buffer of two bytes: the ranges overlap. -/
theorem bitcpy_snapshot_overlapping :
    let h : Heap Unit := ⟨fun _ ↦ ⟨#[0xA5#8, 0x3C#8], by decide⟩, []⟩
    ∃ h', bitcpy 9 () 0 () 3 h = some ((), h') ∧ (∀ i < 9, h'.bit () (3 + i) = h.bit () (0 + i)) ∧
      ∀ p, ¬(3 ≤ p ∧ p < 3 + 9) → h'.bit () p = h.bit () p := by
  intro h
  obtain ⟨h', _, e, hcopy, hrest, _⟩ :=
    bitcpy_snapshot h 9 () 0 () 3 (by decide) (by decide)
  exact ⟨h', e, hcopy, hrest⟩

end CopySpace
