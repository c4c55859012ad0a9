import CopySpace.Link.Words

/-!
# `multiply32`

The loop adds the multiplicand, which is doubled in every round, when the lowest bit of the
multiplier is set, which is halved.  A marker that is doubled as well says when 32 rounds are over.
-/

namespace CopySpace.Link

open Emit BitMachine

variable {cfg : Config} {ctx ctx' : Context} {F : Linked}
  {D D₀ D' : Bits} {z d s i : Nat} {loop : Key} {x y : BitVec 32}

/-- What no multiplication changes, but for its destination. -/
def MultiplyScratch (p : Nat) : Prop :=
  mulLeft ≤ p ∧ p ≤ mulStop ∨ temporary ≤ p ∧ p ≤ carry

/-- A round of the loop. -/
structure MultiplyRound (D D' : Bits) : Prop where
  left : word D' mulLeft = word D mulLeft <<< 1
  right : word D' mulRight = word D mulRight >>> 1
  acc : word D' mulAcc = word D mulAcc + if D mulRight then word D mulLeft else 0#32
  marker : word D' mulMarker = word D mulMarker <<< 1
  stop : D' mulStop = D (mulMarker + 31)
  rest : ∀ p, ¬ MultiplyScratch p → D' p = D p

/-- The word that is added: the multiplicand, or zero. -/
theorem emits_addend (hs : ctx.Sound cfg) (h : (List.range 32).foldlM (fun ctx bit ↦
      ctx.lookup (mulAddend + bit) andTable (mulLeft + bit) mulRight 0 2) ctx = some ctx') :
    Emits cfg ctx (fun D D' ↦
      Places mulAddend (if D mulRight then word D mulLeft else 0#32) D D') ctx' := by
  refine (emits_foldlM (R := fun i D D' ↦ D' = Function.update D (mulAddend + i)
      (D (mulLeft + i) && D mulRight)) (P := fun n D₀ D ↦
      (∀ i < n, D (mulAddend + i) = (D₀ (mulLeft + i) && D₀ mulRight)) ∧
        ∀ p, ¬(mulAddend ≤ p ∧ p < mulAddend + n) → D p = D₀ p) hs h
    (fun i hi ctx ctx' hs h ↦ emits_lookup .and hs h ?_ (hs.behind ?_ ?_)
      (hs.behind (by decide) (by decide)))
    (fun D ↦ ⟨fun i hi ↦ absurd hi (Nat.not_lt_zero i), fun _ _ ↦ rfl⟩) ?_).imp ?_
  · dsimp only [Scratch, eqTable, mulAddend, memBitAddress]
    omega
  · dsimp only [constantBase, mulLeft]
    omega
  · dsimp only [mulLeft, branchTable]
    omega
  · rintro i hi D₀ D D' ⟨hset, hrest⟩ rfl
    refine ⟨fun j hj ↦ ?_, fun p hp ↦ ?_⟩
    · rcases Nat.lt_succ_iff_lt_or_eq.mp hj with hj | rfl
      · rw [Function.update_of_ne (by omega), hset j hj]
      · rw [Function.update_self, hrest, hrest]
        · dsimp only [mulAddend, mulRight]
          omega
        · dsimp only [mulAddend, mulLeft]
          omega
    · rw [Function.update_of_ne (by omega), hrest p (by omega)]
  · rintro F - D D' - - ⟨hset, hrest⟩
    refine places_of_bits (fun i hi ↦ ?_) hrest
    rw [hset i hi, ← getLsbD_word D mulLeft hi]
    cases D mulRight
    · rw [Bool.and_false]
      exact BitVec.getLsbD_zero.symm
    · exact Bool.and_true _

theorem MultiplyRound.of_steps {D₁ D₂ D₃ D₄ D₅ : Bits}
    (h₁ : Places mulAddend (if D mulRight then word D mulLeft else 0#32) D D₁)
    (h₂ : Sums false mulAcc mulAcc mulAddend D₁ D₂)
    (h₃ : D₃ = Function.update D₂ mulStop (D₂ (mulMarker + 31)))
    (h₄ : Places mulLeft (word D₃ mulLeft <<< 1) D₃ D₄)
    (h₅ : Places mulRight (word D₄ mulRight >>> 1) D₄ D₅)
    (h₆ : Places mulMarker (word D₅ mulMarker <<< 1) D₅ D') : MultiplyRound D D' := by
  have hsum : ∀ a, Separate a 32 mulAcc 32 → Separate a 32 temporary 3 → word D₂ a = word D₁ a :=
    fun a ha ha' ↦ word_congr fun i hi ↦ h₂.rest _ (by unfold Separate at ha; omega) (by
      unfold Separate at ha'
      dsimp only [temporary, carry] at *
      omega)
  have hstop : ∀ a, Separate a 32 mulStop 1 → word D₃ a = word D₂ a := fun a ha ↦
    word_congr fun i hi ↦ by
      rw [h₃, Function.update_of_ne]
      unfold Separate at ha
      omega
  refine ⟨?_, ?_, ?_, ?_, ?_, fun p hp ↦ ?_⟩
  · rw [h₆.other (by decide), h₅.other (by decide), h₄.word, hstop _ (by decide),
      hsum _ (by decide) (by decide), h₁.other (by decide)]
  · rw [h₆.other (by decide), h₅.word, h₄.other (by decide), hstop _ (by decide),
      hsum _ (by decide) (by decide), h₁.other (by decide)]
  · rw [h₆.other (by decide), h₅.other (by decide), h₄.other (by decide), hstop _ (by decide),
      h₂.result, h₁.other (by decide), h₁.word]
    rfl
  · rw [h₆.word, h₅.other (by decide), h₄.other (by decide), hstop _ (by decide),
      hsum _ (by decide) (by decide), h₁.other (by decide)]
  · rw [h₆.rest _ (by decide), h₅.rest _ (by decide), h₄.rest _ (by decide), h₃,
      Function.update_self, h₂.rest _ (by decide) (by decide), h₁.rest _ (by decide)]
  · dsimp only [MultiplyScratch, mulLeft, mulRight, mulAcc, mulAddend, mulMarker, mulStop, temporary,
      carry] at *
    rw [h₆.rest _ (by omega), h₅.rest _ (by omega), h₄.rest _ (by omega), h₃,
      Function.update_of_ne (by omega), h₂.rest _ (by omega) (by dsimp only [temporary, carry]; omega),
      h₁.rest _ (by omega)]

/-- A round of the loop, and the jump that ends it. -/
theorem emits_multiplyRound (hs : ctx.Sound cfg) (hz : IsConstant ctx z 0)
    (h : ctx.multiplyRound z loop = some ctx') : ∃ ctx₁,
      Emits cfg ctx MultiplyRound ctx₁ ∧ Branches cfg ctx₁ loop mulStop true ctx' := by
  obtain ⟨ctx₁, h₁, h⟩ := Option.bind_eq_some_iff.mp h
  obtain ⟨ctx₂, h₂, h⟩ := Option.bind_eq_some_iff.mp h
  obtain ⟨ctx₃, h₃, h⟩ := Option.bind_eq_some_iff.mp h
  obtain ⟨ctx₄, h₄, h⟩ := Option.bind_eq_some_iff.mp h
  obtain ⟨ctx₅, h₅, h⟩ := Option.bind_eq_some_iff.mp h
  obtain ⟨ctx₆, h₆, h⟩ := Option.bind_eq_some_iff.mp h
  obtain ⟨ctx₇, h₇, h⟩ := Option.bind_eq_some_iff.mp h
  obtain ⟨ctx₈, h₈, h⟩ := Option.bind_eq_some_iff.mp h
  obtain ⟨ctx₉, h₉, h⟩ := Option.bind_eq_some_iff.mp h
  have e₁ := emits_addend hs h₁
  have e₂ := emits_add32 e₁.sound h₂ (by decide)
  have x₂ := e₁.extension.trans hs e₂.extension
  have e₃ := emits_bit e₂.sound (by decide) (hs.behind (by decide) (by decide)) h₃
  have x₃ := x₂.trans hs e₃.extension
  have e₄ := emits_double e₃.sound (by decide) (hz.mono x₃) h₄ h₅
  have x₄ := x₃.trans hs e₄.extension
  have e₅ := emits_halve e₄.sound (by decide) (hz.mono x₄) h₆ h₇
  have x₅ := x₄.trans hs e₅.extension
  have e₆ := emits_double e₅.sound (by decide) (hz.mono x₅) h₈ h₉
  refine ⟨ctx₉, (((((e₁.trans hs e₂).trans hs e₃).trans hs e₄).trans hs e₅).trans hs e₆).imp ?_, ?_⟩
  · rintro F - D D' - - ⟨D₅, ⟨D₄, ⟨D₃, ⟨D₂, ⟨D₁, r₁, r₂⟩, r₃⟩, r₄⟩, r₅⟩, r₆⟩
    exact .of_steps r₁ r₂ r₃ r₄ r₅ r₆
  · exact emits_conditionalJump e₆.sound (toOption_eq_some h) (hs.behind (by decide) (by decide))

/-! ## The loop -/

/-- The product after some rounds. -/
structure Multiplying (x y : BitVec 32) (D₀ : Bits) (i : Nat) (D : Bits) : Prop where
  left : word D mulLeft = x <<< i
  right : word D mulRight = y >>> i
  acc : word D mulAcc = Digits.product x y i
  marker : word D mulMarker = 1#32 <<< i
  rest : ∀ p, ¬ MultiplyScratch p → D p = D₀ p

theorem Multiplying.step (h : Multiplying x y D₀ i D) (hi : i < 32) (hR : MultiplyRound D D') :
    Multiplying x y D₀ (i + 1) D' ∧ (D' mulStop = true ↔ i + 1 = 32) := by
  have hlow : D mulRight = y.getLsbD i := by
    rw [← Nat.add_zero mulRight, ← getLsbD_word D mulRight (by decide), h.right,
      BitVec.getLsbD_ushiftRight, Nat.add_zero]
  refine ⟨⟨?_, ?_, ?_, ?_, fun p hp ↦ (hR.rest p hp).trans (h.rest p hp)⟩, ?_⟩
  · rw [hR.left, h.left, ← BitVec.shiftLeft_add]
  · rw [hR.right, h.right, ← BitVec.shiftRight_add]
  · rw [hR.acc, h.acc, Digits.product_succ, hlow, h.left]
  · rw [hR.marker, h.marker, ← BitVec.shiftLeft_add]
  · rw [hR.stop, ← getLsbD_word D mulMarker (by decide), h.marker]
    have hmsb := msb_one_shiftLeft hi
    rw [BitVec.msb_eq_getLsbD_last] at hmsb
    rw [hmsb, decide_eq_true_iff]
    omega

/-- What a multiplication does. -/
structure Multiplies (d s : Nat) (D D' : Bits) : Prop where
  result : word D' d = word D d * word D s
  rest : ∀ p, ¬(d ≤ p ∧ p < d + 32) → ¬ MultiplyScratch p → D' p = D p

theorem IsRegister.not_multiplyScratch {a : Nat} (h : IsRegister a) {i : Nat} (hi : i < 32) :
    ¬ MultiplyScratch (a + i) := by
  have hbounds := h.bounds
  dsimp only [MultiplyScratch, regBase, mulLeft, mulStop, temporary, carry] at *
  omega

/-- The operands, an empty sum and the marker are there before the loop. -/
theorem Multiplying.start {D₁ D₂ D₃ : Bits} {one : Nat} (hd : IsRegister d) (hs : IsRegister s)
    (hz : word D z = 0#32) (hone : word D one = 1#32) (hz' : z + 32 ≤ regBase)
    (hone' : one + 32 ≤ regBase) (h₁ : Places mulLeft (word D d) D D₁)
    (h₂ : Places mulRight (word D₁ s) D₁ D₂) (h₃ : Places mulAcc (word D₂ z) D₂ D₃)
    (h₄ : Places mulMarker (word D₃ one) D₃ D') :
    Multiplying (word D d) (word D s) D 0 D' := by
  have hbounds := hd.bounds
  have hbounds' := hs.bounds
  have hsep : ∀ a, a + 32 ≤ temporary → Separate a 32 mulLeft 32 ∧ Separate a 32 mulRight 32 ∧
      Separate a 32 mulAcc 32 := fun a ha ↦ by
    dsimp only [Separate, mulLeft, mulRight, mulAcc, temporary] at *
    omega
  dsimp only [regBase] at hbounds hbounds' hz' hone'
  have hs₁ := hsep s (by dsimp only [temporary]; omega)
  have hz₁ := hsep z (by dsimp only [temporary]; omega)
  have hone₁ := hsep one (by dsimp only [temporary]; omega)
  refine ⟨?_, ?_, ?_, ?_, fun p hp ↦ ?_⟩
  · rw [h₄.other (by decide), h₃.other (by decide), h₂.other (by decide), h₁.word]
    exact (BitVec.shiftLeft_zero _).symm
  · rw [h₄.other (by decide), h₃.other (by decide), h₂.word, h₁.other hs₁.1]
    exact (BitVec.ushiftRight_zero _).symm
  · rw [h₄.other (by decide), h₃.word, h₂.other hz₁.2.1, h₁.other hz₁.1, hz, Digits.product_zero]
  · rw [h₄.word, h₃.other hone₁.2.2, h₂.other hone₁.2.1, h₁.other hone₁.1, hone]
    exact (BitVec.shiftLeft_zero _).symm
  · dsimp only [MultiplyScratch, mulLeft, mulRight, mulAcc, mulMarker, mulStop] at *
    rw [h₄.rest _ (by omega), h₃.rest _ (by omega), h₂.rest _ (by omega), h₁.rest _ (by omega)]

theorem emits_multiply32 (hs : ctx.Sound cfg) (hd : IsRegister d) (hr : IsRegister s)
    (h : ctx.multiply32 d s = some ctx') : Emits cfg ctx (Multiplies d s) ctx' := by
  unfold Context.multiply32 at h
  split at h
  · cases h
  obtain ⟨⟨z, ctx₁⟩, h₁, h⟩ := Option.bind_eq_some_iff.mp h
  obtain ⟨⟨one, ctx₂⟩, h₂, h⟩ := Option.bind_eq_some_iff.mp h
  obtain ⟨ctx₃, h₃, h⟩ := Option.bind_eq_some_iff.mp h
  obtain ⟨ctx₄, h₄, h⟩ := Option.bind_eq_some_iff.mp h
  obtain ⟨ctx₅, h₅, h⟩ := Option.bind_eq_some_iff.mp h
  obtain ⟨ctx₆, h₆, h⟩ := Option.bind_eq_some_iff.mp h
  obtain ⟨ctx₇, h₇, h⟩ := Option.bind_eq_some_iff.mp h
  obtain ⟨⟨loop, ctx₈⟩, h₈, h⟩ := Option.bind_eq_some_iff.mp h
  obtain ⟨ctx₉, h₉, h⟩ := Option.bind_eq_some_iff.mp h
  obtain ⟨e₁, hz, -, -⟩ := emits_constant hs (by decide) h₁
  obtain ⟨e₂, hone, -, -⟩ := emits_constant e₁.sound (by decide) h₂
  have hz := hz.mono e₂.extension
  have e₃ := emits_word e₂.sound (by decide) (hd.behind hs) h₃
  have e₄ := emits_word e₃.sound (by decide) (hr.behind hs) h₄
  have e₅ := emits_word e₄.sound (by decide) (hz.behind e₂.sound le_rfl) h₅
  have e₆ := emits_word e₅.sound (by decide) (hone.behind e₂.sound le_rfl) h₆
  have e₇ := emits_next e₆.sound h₇
  obtain ⟨e₈, hpending, hspot, -⟩ := emits_internalLabel e₇.sound h₈
  obtain ⟨e₉, hdefined, -⟩ := emits_defineHere e₈.sound hpending
  have hslot : (ctx₈.defineHere loop).program.image.slot = 3 :=
    (congrArg Spot.slot hspot).trans (spot_slot e₆.sound h₇)
  have x := e₃.extension.trans e₂.sound <| e₄.extension.trans e₃.sound <|
    e₅.extension.trans e₄.sound <| e₆.extension.trans e₅.sound <| e₇.extension.trans e₆.sound <|
    e₈.extension.trans e₇.sound e₉.extension
  have hprelude : Emits cfg ctx (fun D D' ↦ Multiplying (word D d) (word D s) D 0 D')
      (ctx₈.defineHere loop) := by
    refine (((((((((e₁.trans hs e₂).trans hs e₃).trans hs e₄).trans hs e₅).trans hs e₆).trans hs
      e₇).trans hs e₈).trans hs e₉)).imp ?_
    rintro F hF D D' hD - ⟨D₈, ⟨D₇, ⟨D₆, ⟨D₅, ⟨D₄, ⟨D₃, ⟨D₂, ⟨D₁, rfl, rfl⟩, r₃⟩, r₄⟩, r₅⟩, r₆⟩,
      rfl⟩, rfl⟩, rfl⟩
    exact .start hd hr ((hz.mono x).word e₉.sound hF hD) ((hone.mono x).word e₉.sound hF hD)
      (hz.bounds e₂.sound).2 (hone.bounds e₂.sound).2 r₃ r₄ r₅ r₆
  obtain ⟨ctx₁₀, hbody, hbranch⟩ := emits_multiplyRound e₉.sound (hz.mono x) h₉
  have hlast := emits_word hbranch.sound hd.scratch (hs.behind (a := mulAcc)
    (by decide) (by decide)) h
  have hx := hbranch.extension.trans hbody.sound hlast.extension
  refine ⟨hlast.sound, hprelude.extension.trans hs (hbody.extension.trans e₉.sound hx),
    fun F hF D hD ↦ ?_⟩
  have hF₉ := hF.mono hbranch.sound hlast.extension
  obtain ⟨D₁, hstart, hD₁, hl₁⟩ := hprelude.leads F
    (hF.mono e₉.sound (hbody.extension.trans e₉.sound hx)) D hD
  obtain ⟨D₂, hloop, hD₂, hl₂⟩ := hbranch.loop hbody hslot hdefined hF₉
    (P := Multiplying (word D d) (word D s) D) (fun i hi D₁ D₂ _ _ hP hR ↦ hP.step hi hR)
    (i := 0) (by decide) hD₁ hstart
  obtain ⟨D₃, hresult, hD₃, hl₃⟩ := hlast.leads F hF D₂ hD₂
  refine ⟨D₃, ⟨?_, fun p hp hp' ↦ ?_⟩, hD₃, (hl₁.trans hl₂).trans hl₃⟩
  · rw [hresult.word, hloop.acc, Digits.product_width]
  · rw [hresult.rest p hp, hloop.rest p hp']

end CopySpace.Link
