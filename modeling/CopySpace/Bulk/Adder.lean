import CopySpace.Rv32i.Adder

/-!
# `BulkImage.add`: the prefix adder

The adder of `rv32i_bulk.py` first finds for every bit whether it generates or propagates a
carry, and then combines these in five stages, with spans 1, 2, 4, 8 and 16, from one pair of
words into another.  For a difference the right operand is complemented in the first step, and
the carry that goes in is taken into account only in the last one.

What it leaves in the destination and in `CARRY` is what the ripple adder leaves there
(`adders_agree`).
-/

namespace CopySpace.Bulk

open Rv32i

section Scratch

def pbG0 : Nat := scratch + 64 * 32

def pbP0 : Nat := scratch + 65 * 32

def pbAG : Nat := scratch + 66 * 32

def pbAP : Nat := scratch + 67 * 32

def pbBG : Nat := scratch + 68 * 32

def pbBP : Nat := scratch + 69 * 32

end Scratch

/-- The names of `GATE_FUNCTIONS`. -/
inductive GateName where
  | and
  | or
  | xor
  | not
  | mux
  | signedLt
  | orAnd
  | xorOr
  | andn
  | xnor
deriving DecidableEq

/-- `GATE_FUNCTIONS`. -/
@[simp]
def GateName.function : GateName → List Nat → Except String Nat
  | and, a => .ok (a.all (· ≠ 0)).toNat
  | or, a => .ok (a.any (· ≠ 0)).toNat
  | xor, a => .ok (a.countP (· ≠ 0) &&& 1)
  | not, [a] => .ok (decide (a = 0)).toNat
  | mux, [a, b, select] => .ok (if select ≠ 0 then b else a)
  | signedLt, [signA, signB, unsigned] => .ok (if signA ≠ signB then signA else unsigned)
  | orAnd, [g, p, gs] => .ok (g ||| (p &&& gs))
  | xorOr, [a, g, p] => .ok (a ^^^ (g ||| p))
  | andn, [a, b] => .ok (a &&& (1 - b))
  | xnor, [a, b] => .ok (1 - (a ^^^ b))
  | _, _ => .error "TypeError"

/-- The keys of `gates`: a name and a number of inputs. -/
abbrev GateKey := GateName × Nat

/-- `BulkImage.gate`. -/
def gate (name : GateName) (dst : Nat) (inputs : List Nat) : Gen GateKey Unit :=
  gateAt (name, inputs.length) name.function dst inputs

section Add

variable (dst a b : Nat) (subtract : Bool)

/-- Bit `i` of the first loop of `BulkImage.add`. -/
def generateCell (i : Nat) : Gen GateKey Unit :=
  if subtract then do
    gate .andn (pbG0 + i) [a + i, b + i]
    gate .xnor (pbP0 + i) [a + i, b + i]
  else do
    gate .and (pbG0 + i) [a + i, b + i]
    gate .xor (pbP0 + i) [a + i, b + i]

/-- Bit `i` of a stage. -/
def stageCell (shift destG destP sourceG sourceP i : Nat) : Gen GateKey Unit :=
  if i < shift then do
    emit 1 (.int (destG + i)) (.int (sourceG + i))
    emit 1 (.int (destP + i)) (.int (sourceP + i))
  else do
    gate .orAnd (destG + i) [sourceG + i, sourceP + i, sourceG + i - shift]
    gate .and (destP + i) [sourceP + i, sourceP + i - shift]

/-- `buffers`. -/
def buffer (selected : Bool) : Nat × Nat := if selected then (pbBG, pbBP) else (pbAG, pbAP)

/-- A stage; its results are the sources of the next one. -/
def stage : (Nat × Nat) × Bool → Nat → Gen GateKey ((Nat × Nat) × Bool)
  | (source, selected), shift => do
      let dest := buffer selected
      (List.range 32).forM (stageCell shift dest.1 dest.2 source.1 source.2)
      pure (dest, !selected)

/-- The carry into bit 0. -/
def carryIn (zeroAt : Nat) : Gen GateKey Nat := if subtract then constant 1 else pure zeroAt

/-- Bit `i` of the last loop. -/
def sumCell (zeroAt sourceG sourceP i : Nat) : Gen GateKey Unit :=
  if i = 0 then do
    let carry ← carryIn subtract zeroAt
    gate .xor dst [pbP0, carry]
  else if subtract then gate .xorOr (dst + i) [pbP0 + i, sourceG + i - 1, sourceP + i - 1]
  else gate .xor (dst + i) [pbP0 + i, sourceG + i - 1]

/-- The carry out. -/
def carryCell (sourceG sourceP : Nat) : Gen GateKey Unit :=
  if subtract then gate .or carry [sourceG + 31, sourceP + 31]
  else emit 1 (.int carry) (.int (sourceG + 31))

/-- `BulkImage.add`. -/
def add : Gen GateKey Unit := do
  (List.range 32).forM (generateCell a b subtract)
  let (source, _) ← [1, 2, 4, 8, 16].foldlM stage ((pbG0, pbP0), false)
  let zeroAt ← constant 0
  (List.range 32).forM (sumCell dst subtract zeroAt source.1 source.2)
  carryCell subtract source.1 source.2

end Add

/-! ## Loops over the bits -/

/-- Every step writes its own positions, with values that do not depend on the other steps. -/
theorem foldl_cells (val : Nat → Bool) {n : Nat} {W : Nat → Set Nat} {f : Nat → Bits → Bits}
    {m : Bits} (hf : ∀ i < n, ∀ m' : Bits, (∀ p, (∀ j < n, p ∉ W j) → m' p = m p) →
      (∀ p ∈ W i, f i m' p = val p) ∧ ∀ p ∉ W i, f i m' p = m' p) (p : Nat) :
    ((∃ j < n, p ∈ W j) → (List.range n).foldl (fun m i ↦ f i m) m p = val p) ∧
      ((∀ j < n, p ∉ W j) → (List.range n).foldl (fun m i ↦ f i m) m p = m p) := by
  have hk : ∀ k ≤ n, ∀ p, ((∃ j < k, p ∈ W j) → (List.range k).foldl (fun m i ↦ f i m) m p = val p) ∧
      ((∀ j < k, p ∉ W j) → (List.range k).foldl (fun m i ↦ f i m) m p = m p) := by
    intro k hk
    induction k with
    | zero => exact fun p ↦ ⟨fun ⟨j, hj, _⟩ ↦ absurd hj (Nat.not_lt_zero j), fun _ ↦ rfl⟩
    | succ k ih =>
        have ih := ih (Nat.le_of_lt hk)
        simp only [List.range_succ, List.foldl_append, List.foldl_cons, List.foldl_nil]
        generalize (List.range k).foldl (fun m i ↦ f i m) m = m' at ih
        obtain ⟨hin, hout⟩ := hf k hk m' fun p hp ↦
          (ih p).2 fun j hj ↦ hp j (hj.trans (Nat.lt_of_succ_le hk))
        intro p
        by_cases hp : p ∈ W k
        · exact ⟨fun _ ↦ hin p hp, fun h ↦ absurd hp (h k (Nat.lt_succ_self k))⟩
        · rw [hout p hp]
          refine ⟨fun ⟨j, hj, hw⟩ ↦ (ih p).1 ⟨j, ?_, hw⟩, fun h ↦
            (ih p).2 fun j hj ↦ h j (Nat.lt_succ_of_lt hj)⟩
          rcases Nat.lt_succ_iff_lt_or_eq.mp hj with hj | rfl
          · exact hj
          · exact absurd hw hp
  exact hk n (Nat.le_refl n) p

/-- A pair of words holds what the blocks of bits do with a carry. -/
def HasCarries (m : Bits) (source : Nat × Nat) (g : Nat → Prefix.Carries) : Prop :=
  ∀ i < 32, m (source.1 + i) = (g i).generate ∧ m (source.2 + i) = (g i).propagate

/-- A loop that writes two words. -/
theorem foldl_pair (dest : Nat × Nat) {g : Nat → Prefix.Carries} {f : Nat → Bits → Bits}
    {m : Bits} (hd : Rv32i.Apart dest.1 dest.2)
    (hf : ∀ i < 32, ∀ m' : Bits,
      (∀ p, (∀ j < 32, p ≠ dest.1 + j ∧ p ≠ dest.2 + j) → m' p = m p) →
      f i m' (dest.1 + i) = (g i).generate ∧ f i m' (dest.2 + i) = (g i).propagate ∧
        ∀ p, p ≠ dest.1 + i → p ≠ dest.2 + i → f i m' p = m' p) :
    let m' := (List.range 32).foldl (fun m i ↦ f i m) m
    HasCarries m' dest g ∧ ∀ p, (∀ j < 32, p ≠ dest.1 + j ∧ p ≠ dest.2 + j) → m' p = m p := by
  unfold Rv32i.Apart at hd
  let val : Nat → Bool := fun p ↦
    if dest.1 ≤ p ∧ p < dest.1 + 32 then (g (p - dest.1)).generate else (g (p - dest.2)).propagate
  have hval₁ : ∀ i < 32, val (dest.1 + i) = (g i).generate := fun i hi ↦ by
    simp only [val]
    rw [if_pos (by omega), Nat.add_sub_cancel_left]
  have hval₂ : ∀ i < 32, val (dest.2 + i) = (g i).propagate := fun i hi ↦ by
    simp only [val]
    rw [if_neg (by omega), Nat.add_sub_cancel_left]
  have hcells := foldl_cells val (n := 32) (W := fun i ↦ {p | p = dest.1 + i ∨ p = dest.2 + i}) (f := f) (m := m) fun i hi m' hm' ↦ by
      obtain ⟨h₁, h₂, h₃⟩ := hf i hi m' fun p hp ↦ hm' p fun j hj hw ↦ by
        rcases hw with hw | hw
        · exact (hp j hj).1 hw
        · exact (hp j hj).2 hw
      refine ⟨?_, fun p hp ↦ h₃ p (fun h ↦ hp (.inl h)) fun h ↦ hp (.inr h)⟩
      rintro p (rfl | rfl)
      · rw [h₁, hval₁ i hi]
      · rw [h₂, hval₂ i hi]
  refine ⟨fun i hi ↦ ⟨?_, ?_⟩, fun p hp ↦ (hcells p).2 fun j hj hw ↦ ?_⟩
  · rw [← hval₁ i hi]
    exact (hcells _).1 ⟨i, hi, .inl rfl⟩
  · rw [← hval₂ i hi]
    exact (hcells _).1 ⟨i, hi, .inr rfl⟩
  · rcases hw with hw | hw
    · exact (hp j hj).1 hw
    · exact (hp j hj).2 hw

/-! ## What the copies do -/

section Effect

variable {dst a b : Nat} {subtract : Bool} {m : Bits}

/-- The words that `BulkImage.add` works in. -/
def addWords : List Nat := [pbG0, pbP0, pbAG, pbAP, pbBG, pbBP, carry]

def generateEffect (a b : Nat) (subtract : Bool) (i : Nat) (m : Bits) : Bits :=
  let m := Function.update m (pbG0 + i) (m (a + i) && (m (b + i) ^^ subtract))
  Function.update m (pbP0 + i) (m (a + i) ^^ (m (b + i) ^^ subtract))

def stageEffect (shift destG destP sourceG sourceP i : Nat) (m : Bits) : Bits :=
  if i < shift then
    let m := Function.update m (destG + i) (m (sourceG + i))
    Function.update m (destP + i) (m (sourceP + i))
  else
    let m := Function.update m (destG + i)
      (m (sourceG + i) || (m (sourceP + i) && m (sourceG + i - shift)))
    Function.update m (destP + i) (m (sourceP + i) && m (sourceP + i - shift))

def sumEffect (dst : Nat) (subtract : Bool) (sourceG sourceP i : Nat) (m : Bits) : Bits :=
  Function.update m (dst + i) (m (pbP0 + i) ^^
    if i = 0 then subtract
    else if subtract then m (sourceG + i - 1) || m (sourceP + i - 1) else m (sourceG + i - 1))

def carryEffect (subtract : Bool) (sourceG sourceP : Nat) (m : Bits) : Bits :=
  Function.update m carry
    (if subtract then m (sourceG + 31) || m (sourceP + 31) else m (sourceG + 31))

/-- What the copies of `BulkImage.add` do; the five stages go to and fro between the buffers. -/
def addEffect (dst a b : Nat) (subtract : Bool) (m : Bits) : Bits :=
  let loop (f : Nat → Bits → Bits) (m : Bits) : Bits :=
    (List.range 32).foldl (fun m i ↦ f i m) m
  let m := loop (generateEffect a b subtract) m
  let m := loop (stageEffect 1 pbAG pbAP pbG0 pbP0) m
  let m := loop (stageEffect 2 pbBG pbBP pbAG pbAP) m
  let m := loop (stageEffect 4 pbAG pbAP pbBG pbBP) m
  let m := loop (stageEffect 8 pbBG pbBP pbAG pbAP) m
  let m := loop (stageEffect 16 pbAG pbAP pbBG pbBP) m
  carryEffect subtract pbAG pbAP (loop (sumEffect dst subtract pbAG pbAP) m)

/-- The first loop. -/
theorem foldl_generate (subtract : Bool) (hop : Operands addWords dst a b) {x y : BitVec 32} (hx : HasWord m a x)
    (hy : HasWord m b y) :
    HasCarries ((List.range 32).foldl (fun m i ↦ generateEffect a b subtract i m) m) (pbG0, pbP0)
      (Prefix.Carries.ofBits x (Prefix.addend subtract y)) := by
  have hp : pbP0 = pbG0 + 32 := rfl
  obtain ⟨-, h₁, h₂⟩ := hop.apart pbG0 (by simp [addWords])
  obtain ⟨-, h₃, h₄⟩ := hop.apart pbP0 (by simp [addWords])
  unfold Rv32i.Apart at h₁ h₂ h₃ h₄
  refine (foldl_pair (pbG0, pbP0) (.inl (Nat.le_refl _)) fun i hi m' hm' ↦ ?_).1
  have ha : m' (a + i) = x.getLsbD i := by
    rw [hm' _ fun j hj ↦ ⟨by dsimp only; omega, by dsimp only; omega⟩, hx i hi]
  have hb : m' (b + i) = y.getLsbD i := by
    rw [hm' _ fun j hj ↦ ⟨by dsimp only; omega, by dsimp only; omega⟩, hy i hi]
  unfold generateEffect Prefix.Carries.ofBits
  rw [Prefix.getLsbD_addend y subtract hi]
  dsimp only
  refine ⟨?_, ?_, fun p h₁ h₂ ↦ ?_⟩
  · rw [Function.update_of_ne (by omega), Function.update_self, ha, hb]
  · rw [Function.update_self, Function.update_of_ne (by omega), Function.update_of_ne (by omega),
      ha, hb]
  · rw [Function.update_of_ne h₂, Function.update_of_ne h₁]

/-- A stage. -/
theorem foldl_stage (shift : Nat) {source dest : Nat × Nat} {g : Nat → Prefix.Carries}
    (hd : Rv32i.Apart dest.1 dest.2)
    (hs : ∀ d ∈ [dest.1, dest.2], Rv32i.Apart d source.1 ∧ Rv32i.Apart d source.2)
    (hg : HasCarries m source g) :
    let m' := (List.range 32).foldl
      (fun m i ↦ stageEffect shift dest.1 dest.2 source.1 source.2 i m) m
    HasCarries m' dest (Prefix.stage shift g) ∧
      ∀ p, (∀ j < 32, p ≠ dest.1 + j ∧ p ≠ dest.2 + j) → m' p = m p := by
  obtain ⟨h₁, h₂⟩ := hs dest.1 (by simp)
  obtain ⟨h₃, h₄⟩ := hs dest.2 (by simp)
  have hd' := hd
  unfold Rv32i.Apart at hd' h₁ h₂ h₃ h₄
  refine foldl_pair dest hd fun i hi m' hm' ↦ ?_
  have hG : ∀ j < 32, m' (source.1 + j) = (g j).generate := fun j hj ↦ by
    rw [hm' _ fun k hk ↦ ⟨by omega, by omega⟩, (hg j hj).1]
  have hP : ∀ j < 32, m' (source.2 + j) = (g j).propagate := fun j hj ↦ by
    rw [hm' _ fun k hk ↦ ⟨by omega, by omega⟩, (hg j hj).2]
  unfold stageEffect Prefix.stage
  by_cases hsh : i < shift
  · simp only [if_pos hsh]
    refine ⟨?_, ?_, fun p h₁ h₂ ↦ ?_⟩
    · rw [Function.update_of_ne (by omega), Function.update_self, hG i hi]
    · rw [Function.update_self, Function.update_of_ne (by omega), hP i hi]
    · rw [Function.update_of_ne h₂, Function.update_of_ne h₁]
  · simp only [if_neg hsh, Prefix.Carries.mul_def]
    have hG' := hG (i - shift) (by omega)
    have hP' := hP (i - shift) (by omega)
    rw [← Nat.add_sub_assoc (Nat.not_lt.mp hsh)] at hG' hP'
    refine ⟨?_, ?_, fun p h₁ h₂ ↦ ?_⟩
    · rw [Function.update_of_ne (by omega), Function.update_self, hG i hi, hP i hi, hG']
    · rw [Function.update_self, Function.update_of_ne (by omega), Function.update_of_ne (by omega),
        hP i hi, hP']
    · rw [Function.update_of_ne h₂, Function.update_of_ne h₁]

/-- The last loop. -/
theorem foldl_sum (subtract : Bool) {source : Nat × Nat} {g : Nat → Prefix.Carries} {u : Nat → Bool}
    (hs : Rv32i.Apart source.1 dst ∧ Rv32i.Apart source.2 dst ∧ Rv32i.Apart pbP0 dst)
    (hg : HasCarries m source g) (hu : ∀ i < 32, m (pbP0 + i) = u i) :
    let m' := (List.range 32).foldl (fun m i ↦ sumEffect dst subtract source.1 source.2 i m) m
    (∀ i < 32, m' (dst + i) = (u i ^^ if i = 0 then subtract else (g (i - 1)).out subtract)) ∧
      HasCarries m' source g := by
  unfold Rv32i.Apart at hs
  have hcells := foldl_cells (fun p ↦ u (p - dst) ^^
      if p - dst = 0 then subtract else (g (p - dst - 1)).out subtract)
    (n := 32) (W := fun i ↦ {dst + i}) (f := sumEffect dst subtract source.1 source.2)
    (m := m) fun i hi m' hm' ↦ by
      refine ⟨fun p hp ↦ ?_, fun p hp ↦ Function.update_of_ne hp _ _⟩
      obtain rfl : p = dst + i := hp
      have hsame : ∀ p, (∀ j < 32, p ≠ dst + j) → m' p = m p := fun p hp ↦
        hm' p fun j hj ↦ hp j hj
      unfold sumEffect
      rw [Function.update_self, Nat.add_sub_cancel_left, hsame _ fun j hj ↦ by omega, hu i hi]
      by_cases h0 : i = 0
      · rw [if_pos h0, if_pos h0]
      · obtain ⟨hG, hP⟩ := hg (i - 1) (by omega)
        rw [← Nat.add_sub_assoc (Nat.pos_of_ne_zero h0)] at hG hP
        rw [if_neg h0, if_neg h0, hsame _ fun j hj ↦ by omega, hsame _ fun j hj ↦ by omega, hG, hP,
          Prefix.Carries.out]
        cases subtract <;> simp
  refine ⟨fun i hi ↦ ?_, fun i hi ↦ ⟨?_, ?_⟩⟩
  · rw [(hcells _).1 ⟨i, hi, rfl⟩, Nat.add_sub_cancel_left]
  · rw [(hcells _).2 fun j hj (h : _ = _) ↦ by omega, (hg i hi).1]
  · rw [(hcells _).2 fun j hj (h : _ = _) ↦ by omega, (hg i hi).2]

/-- One stage more of the prefixes; the propagating bits of the single positions stay. -/
theorem prefix_stage (dest : Nat × Nat) {source : Nat × Nat} {s : Nat} {g : Nat → Prefix.Carries}
    (hs0 : 0 < s) (hd : Rv32i.Apart dest.1 dest.2)
    (hs : ∀ d ∈ [dest.1, dest.2], Rv32i.Apart d source.1 ∧ Rv32i.Apart d source.2)
    (hp : Rv32i.Apart dest.1 pbP0 ∧ Rv32i.Apart dest.2 pbP0)
    (hg : HasCarries m source fun i ↦ Prefix.block g (i + 1 - s) i)
    (hu : ∀ i < 32, m (pbP0 + i) = (g i).propagate) :
    let m' := (List.range 32).foldl
      (fun m i ↦ stageEffect s dest.1 dest.2 source.1 source.2 i m) m
    HasCarries m' dest (fun i ↦ Prefix.block g (i + 1 - 2 * s) i) ∧
      ∀ i < 32, m' (pbP0 + i) = (g i).propagate := by
  obtain ⟨h₁, h₂⟩ := foldl_stage s hd hs hg
  unfold Rv32i.Apart at hp
  refine ⟨?_, fun i hi ↦ (h₂ _ fun j hj ↦ ⟨by omega, by omega⟩).trans (hu i hi)⟩
  rwa [funext (Prefix.stage_block (f := g) hs0)] at h₁

/-- The prefix adder adds. -/
theorem addEffect_eq (subtract : Bool) (hop : Operands addWords dst a b) {x y : BitVec 32} (hx : HasWord m a x)
    (hy : HasWord m b y) :
    HasWord (addEffect dst a b subtract m) dst (rippleResult subtract x y) ∧
      addEffect dst a b subtract m carry = carryOut subtract x y := by
  have hword : ∀ w ∈ addWords, Rv32i.Apart w dst := fun w hw ↦ (hop.apart w hw).1
  have h₀ := foldl_generate subtract hop hx hy
  let g := Prefix.Carries.ofBits x (Prefix.addend subtract y)
  have hg₀ : HasCarries ((List.range 32).foldl (fun m i ↦ generateEffect a b subtract i m) m)
      (pbG0, pbP0) fun i ↦ Prefix.block g (i + 1 - 1) i := fun i hi ↦ by
    have hb : Prefix.block g (i + 1 - 1) i = g i := Prefix.block_of_le (Nat.le_refl i)
    dsimp only at hb ⊢
    rw [hb]
    exact h₀ i hi
  obtain ⟨hg₁, hu₁⟩ := prefix_stage (pbAG, pbAP) (by decide) (by decide) (by decide)
    (by decide) hg₀ fun i hi ↦ (h₀ i hi).2
  obtain ⟨hg₂, hu₂⟩ := prefix_stage (pbBG, pbBP) (by decide) (by decide) (by decide)
    (by decide) hg₁ hu₁
  obtain ⟨hg₃, hu₃⟩ := prefix_stage (pbAG, pbAP) (by decide) (by decide) (by decide)
    (by decide) hg₂ hu₂
  obtain ⟨hg₄, hu₄⟩ := prefix_stage (pbBG, pbBP) (by decide) (by decide) (by decide)
    (by decide) hg₃ hu₃
  obtain ⟨hg₅, hu₅⟩ := prefix_stage (pbAG, pbAP) (by decide) (by decide) (by decide)
    (by decide) hg₄ hu₄
  have hinitial : ∀ i < 32, (Prefix.block g (i + 1 - 32) i).out subtract =
      BitVec.carry (i + 1) x (Prefix.addend subtract y) subtract := fun i hi ↦ by
    rw [Prefix.carry_eq_block, show i + 1 - 32 = 0 by omega]
  obtain ⟨hsum, hg⟩ := foldl_sum subtract
    ⟨hword pbAG (by simp [addWords]), hword pbAP (by simp [addWords]),
      hword pbP0 (by simp [addWords])⟩ hg₅ hu₅
  have hcarry := hword carry (by simp [addWords])
  unfold Rv32i.Apart at hcarry
  constructor
  · intro i hi
    refine (Function.update_of_ne (by omega) _ _).trans ((hsum i hi).trans ?_)
    rw [Prefix.getLsbD_result x y subtract hi, ← Bool.xor_assoc]
    refine congrArg (_ ^^ ·) ?_
    by_cases h0 : i = 0
    · rw [if_pos h0, h0, BitVec.carry_zero]
    · rw [if_neg h0, hinitial (i - 1) (by omega), Nat.sub_add_cancel (Nat.pos_of_ne_zero h0)]
  · unfold addEffect carryEffect
    dsimp only
    rw [Function.update_self]
    obtain ⟨hG, hP⟩ := hg 31 (by decide)
    have hout := hinitial 31 (by decide)
    rw [Prefix.carry_width] at hout
    rw [carryOut, ← hout, hG, hP, Prefix.Carries.out]
    cases subtract <;> simp

end Effect

/-! ## The copies of the adder -/

/-- The tables under the keys of `BulkImage.gates`. -/
def tables (key : GateKey) (stride : Nat) (values : List Nat) : Prop :=
  stride = 0 ∧ gateValues key.1.function key.2 = .ok values

section Emits

variable (labels : String → Nat) (dst : Nat) {a b : Nat} {subtract : Bool} {I I₁ : Image GateKey}

theorem gate_emits {name : GateName} {p : Nat} {inputs : List Nat} {e : Bits → Bool}
    (hI : I.Good tables) (hp : p ∈ Written addWords dst)
    (h : gate name p inputs I = .ok ((), I₁))
    (he : ∀ m, Installed I₁.data m →
      name.function (inputs.map fun p ↦ (m p).toNat) = .ok (e m).toNat) :
    I₁.Good tables ∧
      Emits labels I I₁ (Written addWords dst) fun m ↦ Function.update m p (e m) := by
  obtain ⟨h₁, h₂⟩ := gateAt_emits labels hI (fun _ _ ↦ Iff.rfl) h he
  exact ⟨h₁, h₂.mono (Set.singleton_subset_iff.mpr hp)⟩

theorem emit_emits {p q : Nat} (hI : I.Good tables) (hp : p ∈ Written addWords dst)
    (h : emit 1 (.int p) (.int q) I = .ok ((), I₁)) : I₁.Good tables ∧
      Emits labels I I₁ (Written addWords dst) fun m ↦ Function.update m p (m q) := by
  obtain ⟨hs, he⟩ := emit_bit_emits labels h
  exact ⟨hI.of_same hs, he.mono (Set.singleton_subset_iff.mpr hp)⟩

theorem generateCell_emits {i : Nat} (hi : i < 32) (hI : I.Good tables)
    (h : generateCell a b subtract i I = .ok ((), I₁)) : I₁.Good tables ∧
      Emits labels I I₁ (Written addWords dst) (generateEffect a b subtract i) := by
  have hG : pbG0 + i ∈ Written addWords dst := mem_written (by simp [addWords]) hi
  have hP : pbP0 + i ∈ Written addWords dst := mem_written (by simp [addWords]) hi
  cases subtract with
  | false =>
      obtain ⟨⟨⟩, I₂, h₂, h₁⟩ := bind_eq_ok.mp h
      obtain ⟨hI₂, he₂⟩ := gate_emits labels dst (e := fun m ↦ m (a + i) && (m (b + i) ^^ false)) hI hG
        h₂ fun m _ ↦ by
          cases h₁ : m (a + i) <;> cases h₂ : m (b + i) <;> simp [h₁, h₂]
      obtain ⟨hI₁, he₁⟩ := gate_emits labels dst (e := fun m ↦ m (a + i) ^^ (m (b + i) ^^ false)) hI₂ hP
        h₁ fun m _ ↦ by
          cases h₁ : m (a + i) <;> cases h₂ : m (b + i) <;> simp [h₁, h₂]
      have hall := he₂.trans he₁
      rw [Set.union_self] at hall
      exact ⟨hI₁, hall⟩
  | true =>
      obtain ⟨⟨⟩, I₂, h₂, h₁⟩ := bind_eq_ok.mp h
      obtain ⟨hI₂, he₂⟩ := gate_emits labels dst (e := fun m ↦ m (a + i) && (m (b + i) ^^ true)) hI hG
        h₂ fun m _ ↦ by
          cases h₁ : m (a + i) <;> cases h₂ : m (b + i) <;> simp [h₁, h₂]
      obtain ⟨hI₁, he₁⟩ := gate_emits labels dst (e := fun m ↦ m (a + i) ^^ (m (b + i) ^^ true)) hI₂ hP
        h₁ fun m _ ↦ by
          cases h₁ : m (a + i) <;> cases h₂ : m (b + i) <;> simp [h₁, h₂]
      have hall := he₂.trans he₁
      rw [Set.union_self] at hall
      exact ⟨hI₁, hall⟩

theorem stageCell_emits {dest source : Nat × Nat} {shift i : Nat} (hi : i < 32)
    (hd : dest.1 ∈ addWords ∧ dest.2 ∈ addWords) (hI : I.Good tables)
    (h : stageCell shift dest.1 dest.2 source.1 source.2 i I = .ok ((), I₁)) :
    I₁.Good tables ∧ Emits labels I I₁ (Written addWords dst)
      (stageEffect shift dest.1 dest.2 source.1 source.2 i) := by
  have hG : dest.1 + i ∈ Written addWords dst := mem_written (List.mem_cons_of_mem _ hd.1) hi
  have hP : dest.2 + i ∈ Written addWords dst := mem_written (List.mem_cons_of_mem _ hd.2) hi
  unfold stageCell at h
  by_cases hsh : i < shift
  · rw [if_pos hsh] at h
    obtain ⟨⟨⟩, I₂, h₂, h₁⟩ := bind_eq_ok.mp h
    obtain ⟨hI₂, he₂⟩ := emit_emits labels dst hI hG h₂
    obtain ⟨hI₁, he₁⟩ := emit_emits labels dst hI₂ hP h₁
    have hall := he₂.trans he₁
    rw [Set.union_self] at hall
    refine ⟨hI₁, hall.congr (fun m _ ↦ (if_pos hsh).symm) fun m p hp ↦ ?_⟩
    unfold stageEffect
    rw [if_pos hsh]
    exact hall.frame m p hp
  · rw [if_neg hsh] at h
    obtain ⟨⟨⟩, I₂, h₂, h₁⟩ := bind_eq_ok.mp h
    obtain ⟨hI₂, he₂⟩ := gate_emits labels dst
      (e := fun m ↦ m (source.1 + i) || (m (source.2 + i) && m (source.1 + i - shift))) hI hG h₂
      fun m _ ↦ by
        cases h₁ : m (source.1 + i) <;> cases h₂ : m (source.2 + i) <;>
          cases h₃ : m (source.1 + i - shift) <;> simp [h₁, h₂, h₃]
    obtain ⟨hI₁, he₁⟩ := gate_emits labels dst
      (e := fun m ↦ m (source.2 + i) && m (source.2 + i - shift)) hI₂ hP h₁ fun m _ ↦ by
        cases h₁ : m (source.2 + i) <;> cases h₂ : m (source.2 + i - shift) <;>
          simp [h₁, h₂]
    have hall := he₂.trans he₁
    rw [Set.union_self] at hall
    refine ⟨hI₁, hall.congr (fun m _ ↦ (if_neg hsh).symm) fun m p hp ↦ ?_⟩
    unfold stageEffect
    rw [if_neg hsh]
    exact hall.frame m p hp

theorem stage_emits {source : Nat × Nat} {selected : Bool} {shift : Nat}
    {r : (Nat × Nat) × Bool} (hI : I.Good tables)
    (h : stage (source, selected) shift I = .ok (r, I₁)) : r = (buffer selected, !selected) ∧
      I₁.Good tables ∧ Emits labels I I₁ (Written addWords dst) fun m ↦
        (List.range 32).foldl (fun m i ↦ stageEffect shift (buffer selected).1 (buffer selected).2
          source.1 source.2 i m) m := by
  obtain ⟨⟨⟩, I₂, h₂, h₁⟩ := bind_eq_ok.mp h
  cases h₁
  have hd : (buffer selected).1 ∈ addWords ∧ (buffer selected).2 ∈ addWords := by
    cases selected <;> decide
  obtain ⟨hI₁, he⟩ := forM_emits (fun I ↦ I.Good tables)
    (fun i hi I I₁ hI h ↦ stageCell_emits labels dst (List.mem_range.mp hi) hd hI h) hI h₂
  exact ⟨rfl, hI₁, he⟩

/-- The carry into bit 0 stands where `carryIn` says. -/
theorem carryIn_emits {zeroAt address : Nat} (hI : I.Good tables)
    (hz : ⟨zeroAt, 32, 0⟩ ∈ I.data) (h : carryIn subtract zeroAt I = .ok (address, I₁)) :
    I₁.Good tables ∧ Emits labels I I₁ ∅ id ∧ ⟨address, 32, subtract.toNat⟩ ∈ I₁.data := by
  cases subtract with
  | false =>
      cases h
      exact ⟨hI, .refl (List.Subset.refl _) (Nat.le_refl _) rfl, hz⟩
  | true => exact constant_emits labels hI h

theorem bit_of_installed {data : List Datum} {m : Bits} {address : Nat} {v : Bool}
    (hm : Installed data m) (h : ⟨address, 32, v.toNat⟩ ∈ data) : m address = v := by
  have hbit : m (address + 0) = v.toNat.testBit 0 := Bits.bit_of_field (hm _ h) (Nat.succ_pos 31)
  exact hbit.trans (by cases v <;> rfl)

theorem sumCell_emits {zeroAt i : Nat} {source : Nat × Nat} (hi : i < 32) (hI : I.Good tables)
    (hz : ⟨zeroAt, 32, 0⟩ ∈ I.data)
    (h : sumCell dst subtract zeroAt source.1 source.2 i I = .ok ((), I₁)) :
    (I₁.Good tables ∧ ⟨zeroAt, 32, 0⟩ ∈ I₁.data) ∧ Emits labels I I₁ (Written addWords dst)
      (sumEffect dst subtract source.1 source.2 i) := by
  have hD : dst + i ∈ Written addWords dst := mem_written List.mem_cons_self hi
  unfold sumCell at h
  have hgoal : ∃ e : Bits → Bool, I₁.Good tables ∧
      Emits labels I I₁ (Written addWords dst) (fun m ↦ Function.update m (dst + i) (e m)) ∧
      ∀ m, e m = (m (pbP0 + i) ^^ if i = 0 then subtract else if subtract then
        m (source.1 + i - 1) || m (source.2 + i - 1) else m (source.1 + i - 1)) := by
    by_cases h0 : i = 0
    · subst h0
      rw [if_pos rfl] at h
      obtain ⟨address, I₂, h₂, h₁⟩ := bind_eq_ok.mp h
      obtain ⟨hI₂, he₂, haddress⟩ := carryIn_emits labels hI hz h₂
      obtain ⟨hI₁, he₁⟩ := gate_emits labels dst (e := fun m ↦ m pbP0 ^^ m address) hI₂ hD h₁
        fun m _ ↦ by
          cases h₁ : m pbP0 <;> cases h₂ : m address <;> simp [h₁, h₂]
      have hall := he₂.trans (he₁.congr
        (g := fun m ↦ Function.update m (dst + 0) (m pbP0 ^^ subtract))
        (fun m hm ↦ by
          have := bit_of_installed hm (he₁.data haddress)
          simp only [this])
        fun m p hp ↦ Function.update_of_ne (fun h ↦ hp (by rw [h]; exact hD)) _ _)
      rw [Set.empty_union] at hall
      exact ⟨fun m ↦ m pbP0 ^^ subtract, hI₁, hall, fun m ↦ by simp⟩
    · rw [if_neg h0] at h
      cases subtract with
      | false =>
          obtain ⟨hI₁, he₁⟩ := gate_emits labels dst
            (e := fun m ↦ m (pbP0 + i) ^^ m (source.1 + i - 1)) hI hD h fun m _ ↦ by
              cases h₁ : m (pbP0 + i) <;> cases h₂ : m (source.1 + i - 1) <;>
                simp [h₁, h₂]
          exact ⟨_, hI₁, he₁, fun m ↦ by rw [if_neg h0]; rfl⟩
      | true =>
          obtain ⟨hI₁, he₁⟩ := gate_emits labels dst
            (e := fun m ↦ m (pbP0 + i) ^^ (m (source.1 + i - 1) || m (source.2 + i - 1))) hI hD h
            fun m _ ↦ by
              cases h₁ : m (pbP0 + i) <;> cases h₂ : m (source.1 + i - 1) <;>
                cases h₃ : m (source.2 + i - 1) <;> simp [h₁, h₂, h₃]
          exact ⟨_, hI₁, he₁, fun m ↦ by rw [if_neg h0]; rfl⟩
  obtain ⟨e, hI₁, he, heq⟩ := hgoal
  rw [show e = _ from funext heq] at he
  exact ⟨⟨hI₁, he.data hz⟩, he⟩

theorem carryCell_emits {source : Nat × Nat} (hI : I.Good tables)
    (h : carryCell subtract source.1 source.2 I = .ok ((), I₁)) : I₁.Good tables ∧
      Emits labels I I₁ (Written addWords dst) (carryEffect subtract source.1 source.2) := by
  have hC : carry + 0 ∈ Written addWords dst := mem_written (by simp [addWords]) (by decide)
  cases subtract with
  | false => exact emit_emits labels dst hI hC h
  | true =>
      exact gate_emits labels dst (e := fun m ↦ m (source.1 + 31) || m (source.2 + 31)) hI hC h
        fun m _ ↦ by
          cases h₁ : m (source.1 + 31) <;> cases h₂ : m (source.2 + 31) <;>
            simp [h₁, h₂]

/-- What `BulkImage.add` emits. -/
theorem add_emits (hI : I.Good tables) (h : add dst a b subtract I = .ok ((), I₁)) :
    I₁.Good tables ∧
      Emits labels I I₁ (Written addWords dst) (addEffect dst a b subtract) := by
  obtain ⟨⟨⟩, Ig, hg, h⟩ := bind_eq_ok.mp h
  obtain ⟨⟨source, last⟩, Is, hs, h⟩ := bind_eq_ok.mp h
  obtain ⟨zeroAt, Iz, hz, h⟩ := bind_eq_ok.mp h
  obtain ⟨⟨⟩, Il, hl, hc⟩ := bind_eq_ok.mp h
  simp only [List.foldlM_cons, List.foldlM_nil] at hs
  obtain ⟨r₁, I₁', h₁, hs⟩ := bind_eq_ok.mp hs
  obtain ⟨r₂, I₂, h₂, hs⟩ := bind_eq_ok.mp hs
  obtain ⟨r₃, I₃, h₃, hs⟩ := bind_eq_ok.mp hs
  obtain ⟨r₄, I₄, h₄, hs⟩ := bind_eq_ok.mp hs
  obtain ⟨r₅, I₅, h₅, hs⟩ := bind_eq_ok.mp hs
  obtain ⟨hIg, heg⟩ := forM_emits (fun I ↦ I.Good tables)
    (fun i hi I I₁ hI h ↦ generateCell_emits labels dst (List.mem_range.mp hi) hI h) hI hg
  obtain ⟨rfl, hI₁, he₁⟩ := stage_emits labels dst hIg h₁
  obtain ⟨rfl, hI₂, he₂⟩ := stage_emits labels dst hI₁ h₂
  obtain ⟨rfl, hI₃, he₃⟩ := stage_emits labels dst hI₂ h₃
  obtain ⟨rfl, hI₄, he₄⟩ := stage_emits labels dst hI₃ h₄
  obtain ⟨rfl, hI₅, he₅⟩ := stage_emits labels dst hI₄ h₅
  cases hs
  obtain ⟨hIz, hez, hzero⟩ := constant_emits labels hI₅ hz
  obtain ⟨⟨hIl, -⟩, hel⟩ := forM_emits
    (fun I ↦ I.Good tables ∧ ⟨zeroAt, 32, 0⟩ ∈ I.data)
    (fun i hi I I₁ hI h ↦ sumCell_emits labels dst (List.mem_range.mp hi) hI.1 hI.2 h)
    ⟨hIz, hzero⟩ hl
  obtain ⟨hI₁, hec⟩ := carryCell_emits labels dst hIl hc
  have hall := (((((((heg.trans he₁).trans he₂).trans he₃).trans he₄).trans he₅).trans hez).trans
    hel).trans hec
  simp only [Set.union_self, Set.union_empty, Function.comp_def, id_eq] at hall
  refine ⟨hI₁, ?_⟩
  unfold addEffect
  exact hall

end Emits

/-- The two adders leave the same bits in the destination and in `CARRY`: the sum or the
difference, and the carry out, which for a difference says that nothing was borrowed. -/
theorem adders_agree (labels : String → Nat) {dst a b : Nat} {subtract : Bool}
    {I I₁ : Image Rv32i.GateKey} {J J₁ : Image GateKey} {ops ops' : List Rv32i.Copy}
    (hop : Operands Rv32i.addWords dst a b) (hop' : Operands addWords dst a b)
    (hI : I.Good Image.tables) (hJ : J.Good tables)
    (h : Image.add dst a b subtract I = .ok ((), I₁))
    (h' : add dst a b subtract J = .ok ((), J₁))
    (ho : I₁.ops = I.ops ++ ops) (ho' : J₁.ops = J.ops ++ ops')
    (hc : WordsClear I₁.data (dst :: Rv32i.addWords)) (hc' : WordsClear J₁.data (dst :: addWords))
    {m m' : Bits} (hm : Installed I₁.data m) (hm' : Installed J₁.data m') {x y : BitVec 32}
    (hx : HasWord m a x) (hy : HasWord m b y) (hx' : HasWord m' a x) (hy' : HasWord m' b y) :
    let r := (execute ops (start labels ops m)).space
    let r' := (execute ops' (start labels ops' m')).space
    (∀ i < 32, r' (dst + i) = r (dst + i)) ∧ r' carry = r carry ∧
      HasWord r dst (rippleResult subtract x y) ∧ r carry = carryOut subtract x y := by
  obtain ⟨-, f, he, hf⟩ := Rv32i.add_emits labels hop hI h
  obtain ⟨-, he'⟩ := add_emits labels dst hJ h'
  dsimp only
  rw [he.space_eq ho hm hc.clear, he'.space_eq ho' hm' hc'.clear]
  obtain ⟨hsum, hcarry⟩ := hf m x y hx hy
  obtain ⟨hsum', hcarry'⟩ := addEffect_eq subtract hop' hx' hy'
  exact ⟨fun i hi ↦ (hsum' i hi).trans (hsum i hi).symm, hcarry'.trans hcarry.symm, hsum, hcarry⟩

/-! A run of both adders, on an image without tables: `5 - 7`, into the left operand. -/

section Small

/-- The image after a step that succeeds. -/
def made {κ : Type} (x : Gen κ Unit) (I : Image κ) : Image κ :=
  match x I with
  | .ok r => r.2
  | .error _ => I

theorem made_eq {κ : Type} {x : Gen κ Unit} {I : Image κ} (h : (x I).isOk = true) :
    x I = .ok ((), made x I) := by
  unfold made
  cases hx : x I with
  | error => rw [hx] at h; cases h
  | ok r => rfl

def smallDst : Nat := scratch + 2 * 32

def smallRight : Nat := scratch + 4 * 32

/-- A space with the data and the two operands. -/
def smallSpace (data : List Datum) : Bits :=
  data.foldl (fun m e ↦ m.putField e.address e.width e.value)
    (Bits.putField smallDst 32 5 (Bits.putField smallRight 32 7 fun _ ↦ false))

def smallImage : Image Rv32i.GateKey :=
  made (Image.add smallDst smallDst smallRight true) (.new _ 0x40000 0x24000 0x30000)

def smallBulkImage : Image GateKey :=
  made (add smallDst smallDst smallRight true) (.new _ 0x40000 0x24000 0x30000)


theorem small_add : Image.add smallDst smallDst smallRight true (.new _ 0x40000 0x24000 0x30000) =
    .ok ((), smallImage) := made_eq (by decide +kernel)

theorem smallBulk_add : add smallDst smallDst smallRight true (.new _ 0x40000 0x24000 0x30000) =
    .ok ((), smallBulkImage) := made_eq (by decide +kernel)

theorem adders_agree_small :
    let r := (execute smallImage.ops
      (start (fun _ ↦ 0) smallImage.ops (smallSpace smallImage.data))).space
    let r' := (execute smallBulkImage.ops
      (start (fun _ ↦ 0) smallBulkImage.ops (smallSpace smallBulkImage.data))).space
    (∀ i < 32, r' (smallDst + i) = r (smallDst + i)) ∧ r' carry = r carry ∧
      HasWord r smallDst (rippleResult true 5 7) ∧ r carry = carryOut true 5 7 :=
  adders_agree (fun _ ↦ 0) ⟨by decide, by decide, by decide⟩ ⟨by decide, by decide, by decide⟩
    (Image.new_good _ _ _) (Image.new_good _ _ _) small_add smallBulk_add
    (List.nil_append smallImage.ops).symm (List.nil_append smallBulkImage.ops).symm
    (by decide +kernel) (by decide +kernel) (by decide +kernel) (by decide +kernel)
    (by decide +kernel) (by decide +kernel) (by decide +kernel) (by decide +kernel)

end Small

end CopySpace.Bulk
