import CopySpace.Lib.Digits
import CopySpace.Link.Compare

/-!
# Words

What the copies of the operators do to words: a word is copied or shifted by one place.
-/

namespace CopySpace.Link

open Emit BitMachine

variable {cfg : Config} {ctx ctx' ctx₁ ctx₂ : Context}
  {F : Linked} {D D' : Bits} {a b n z : Nat} {v : BitVec 32}

instance (a n b k : Nat) : Decidable (Separate a n b k) := by
  unfold Separate
  infer_instance

/-- A word is written, and nothing else. -/
structure Places (a : Nat) (v : BitVec 32) (D D' : Bits) : Prop where
  word : word D' a = v
  rest : ∀ p, ¬(a ≤ p ∧ p < a + 32) → D' p = D p

/-- Other words stay. -/
theorem Places.other (h : Places a v D D') (hb : Separate b 32 a 32) : Emit.word D' b = Emit.word D b :=
  word_congr fun i hi ↦ h.rest _ (by
    unfold Separate at hb
    omega)

theorem places_of_bits (h : ∀ i < 32, D' (a + i) = v.getLsbD i)
    (hrest : ∀ p, ¬(a ≤ p ∧ p < a + 32) → D' p = D p) : Places a v D D' :=
  ⟨Bits.toBitVec_eq h, hrest⟩

theorem places_copy (a b : Nat) (D : Bits) : Places a (word D b) D (D.blit 32 a b) :=
  places_of_bits (fun i hi ↦ by rw [Bits.blit_add _ hi, getLsbD_word _ _ hi])
    fun _ hp ↦ Bits.blit_of_notMem _ hp

/-- One place to the left, with a bit that is shifted in. -/
theorem places_shiftLeft (hz : z < a ∨ a + 32 ≤ z) :
    Places a (word D a <<< 1 ||| BitVec.ofNat 32 (D z).toNat) D
      ((D.blit 31 (a + 1) a).blit 1 a z) := by
  refine places_of_bits (fun i hi ↦ ?_) fun p hp ↦ ?_
  · rw [blit_one, BitVec.getLsbD_or, BitVec.getLsbD_shiftLeft]
    rcases i with - | i
    · rw [Nat.add_zero, if_pos rfl, Bits.blit_of_notMem _ (by omega)]
      cases D z <;> simp
    · rw [if_neg (by omega), Bits.blit_of_mem _ (by omega),
        show a + (i + 1) - (a + 1) = i by omega, Nat.add_sub_cancel, getLsbD_word _ _ (by omega)]
      have hbit : (BitVec.ofNat 32 (D z).toNat).getLsbD (i + 1) = false := by
        rw [BitVec.getLsbD_ofNat, Nat.testBit_lt_two_pow, Bool.and_false]
        have hpow : 2 ^ 1 ≤ 2 ^ (i + 1) := Nat.pow_le_pow_right (by decide) (by omega)
        exact (Bool.toNat_lt (D z)).trans_le hpow
      rw [hbit]
      simp [hi]
  · rw [blit_one, if_neg (by omega), Bits.blit_of_notMem _ (by omega)]

/-- One place to the right, with a zero that is shifted in. -/
theorem places_shiftRight (hz : z < a ∨ a + 32 ≤ z) (h0 : D z = false) :
    Places a (word D a >>> 1) D ((D.blit 31 a (a + 1)).blit 1 (a + 31) z) := by
  refine places_of_bits (fun i hi ↦ ?_) fun p hp ↦ ?_
  · rw [blit_one, BitVec.getLsbD_ushiftRight]
    by_cases hlast : i = 31
    · subst hlast
      rw [if_pos rfl, Bits.blit_of_notMem _ (by omega), h0, BitVec.getLsbD_of_ge _ _ (by decide)]
    · rw [if_neg (by omega), Bits.blit_of_mem _ (by omega), Nat.add_sub_cancel_left,
        getLsbD_word _ _ (by omega), ← Nat.add_assoc]
  · rw [blit_one, if_neg (by omega), Bits.blit_of_notMem _ (by omega)]

/-- The word of a register. -/
def IsRegister (a : Nat) : Prop := ∃ i < 16, a = regBase + 32 * i

theorem IsRegister.bounds (h : IsRegister a) : regBase ≤ a ∧ a + 32 ≤ regBase + 512 := by
  obtain ⟨i, hi, rfl⟩ := h
  omega

theorem IsRegister.scratch (h : IsRegister a) : Scratch a 32 := by
  have hbounds := h.bounds
  dsimp only [Scratch, regBase, addTable] at *
  omega

theorem IsRegister.behind (h : IsRegister a) (hs : ctx.Sound cfg) : Behind cfg a 32 :=
  h.scratch.behind hs

theorem IsRegister.separate (ha : IsRegister a) (hb : IsRegister b) (hne : a ≠ b) :
    Separate a 32 b 32 := by
  obtain ⟨i, -, rfl⟩ := ha
  obtain ⟨j, -, rfl⟩ := hb
  unfold Separate
  omega

/-- A marker bit is at the end in the last of 32 rounds. -/
theorem msb_one_shiftLeft {i : Nat} (hi : i < 32) : (1#32 <<< i).msb = decide (i = 31) := by
  rw [BitVec.msb_eq_getLsbD_last, BitVec.getLsbD_shiftLeft, BitVec.getLsbD_one]
  by_cases h : i = 31
  · subst h
    rfl
  · simp only [h, decide_false]
    simp
    omega

/-! ## Emitted -/

theorem emits_word (hs : ctx.Sound cfg) (ha : Scratch a 32) (hb : Behind cfg b 32)
    (h : ctx.emit 32 a b = some ctx') :
    Emits cfg ctx (fun D D' ↦ Places a (word D b) D D') ctx' :=
  (emits_copy hs h ha hb).imp fun _ _ D _ _ _ hD' ↦ hD' ▸ places_copy a b D

theorem emits_bit (hs : ctx.Sound cfg) (ha : Scratch a 1) (hb : Behind cfg b 1)
    (h : ctx.emit 1 a b = some ctx') :
    Emits cfg ctx (fun D D' ↦ D' = Function.update D a (D b)) ctx' :=
  (emits_copy hs h ha hb).imp fun _ _ D D' _ _ hD' ↦ by
    funext p
    rw [hD', blit_one, Function.update_apply]

theorem emits_shiftLeft (hs : ctx.Sound cfg) (ha : Scratch a 32) (hz : Behind cfg z 1)
    (hza : z < a ∨ a + 32 ≤ z) (h₁ : ctx.emit 31 (a + 1) a = some ctx₁)
    (h₂ : ctx₁.emit 1 a z = some ctx₂) : Emits cfg ctx (fun D D' ↦
      Places a (word D a <<< 1 ||| BitVec.ofNat 32 (D z).toNat) D D') ctx₂ := by
  have hbehind := ha.behind hs
  have ha₁ : Scratch (a + 1) 31 := by
    unfold Scratch at ha ⊢
    omega
  have ha₂ : Scratch a 1 := by
    unfold Scratch at ha ⊢
    omega
  have e₁ := emits_copy hs h₁ ha₁ ⟨hbehind.1, by have := hbehind.2; omega⟩
  refine (e₁.trans hs (emits_copy e₁.sound h₂ ha₂ hz)).imp ?_
  rintro F - D D' - - ⟨D₁, rfl, rfl⟩
  exact places_shiftLeft hza

theorem emits_shiftRight (hs : ctx.Sound cfg) (ha : Scratch a 32) (hz : Behind cfg z 1)
    (hza : z < a ∨ a + 32 ≤ z) (h₁ : ctx.emit 31 a (a + 1) = some ctx₁)
    (h₂ : ctx₁.emit 1 (a + 31) z = some ctx₂) : Emits cfg ctx (fun D D' ↦
      D z = false → Places a (word D a >>> 1) D D') ctx₂ := by
  have hbehind := ha.behind hs
  have ha₁ : Scratch a 31 := by
    unfold Scratch at ha ⊢
    omega
  have ha₂ : Scratch (a + 31) 1 := by
    unfold Scratch at ha ⊢
    omega
  have e₁ := emits_copy hs h₁ ha₁ ⟨by have := hbehind.1; omega, by
    have := hbehind.2
    omega⟩
  refine (e₁.trans hs (emits_copy e₁.sound h₂ ha₂ hz)).imp ?_
  rintro F - D D' - - ⟨D₁, rfl, rfl⟩ h0
  exact places_shiftRight hza h0

/-- A zero is shifted in from the right. -/
theorem emits_double (hs : ctx.Sound cfg) (ha : Scratch a 32) (hz : IsConstant ctx z 0)
    (h₁ : ctx.emit 31 (a + 1) a = some ctx₁) (h₂ : ctx₁.emit 1 a z = some ctx₂) :
    Emits cfg ctx (fun D D' ↦ Places a (word D a <<< 1) D D') ctx₂ := by
  have hbounds := hz.bounds hs
  have e := emits_shiftLeft hs ha (hz.behind hs (by decide)) (by
    dsimp only [Scratch, regBase, temporary, shiftZero, eqTable, memBitAddress] at *
    omega) h₁ h₂
  refine e.imp fun F hF D D' hD _ hplaces ↦ ?_
  rw [(hz.mono e.extension).zero e.sound hF hD, Bool.toNat_false] at hplaces
  rwa [← BitVec.or_zero (x := word D a <<< 1)]

/-- A zero is shifted in from the left. -/
theorem emits_halve (hs : ctx.Sound cfg) (ha : Scratch a 32) (hz : IsConstant ctx z 0)
    (h₁ : ctx.emit 31 a (a + 1) = some ctx₁) (h₂ : ctx₁.emit 1 (a + 31) z = some ctx₂) :
    Emits cfg ctx (fun D D' ↦ Places a (word D a >>> 1) D D') ctx₂ := by
  have hbounds := hz.bounds hs
  have e := emits_shiftRight hs ha (hz.behind hs (by decide)) (by
    dsimp only [Scratch, regBase, temporary, shiftZero, eqTable, memBitAddress] at *
    omega) h₁ h₂
  exact e.imp fun F hF D D' hD _ hplaces ↦ hplaces ((hz.mono e.extension).zero e.sound hF hD)

end CopySpace.Link
