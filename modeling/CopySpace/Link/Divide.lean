import CopySpace.Link.Words

/-!
# `divide32`

Restoring division: a round shifts a digit of the dividend into the remainder, and subtracts the
divisor when it goes into it.  A signed division takes the signs from its operands first and gives
its result a sign at the end; a division by zero leaves a quotient of ones, which keeps its bits.
-/

namespace CopySpace.Link

open Emit BitMachine

variable {cfg : Config} {ctx ctx' ctx₁ : Context} {F : Linked}
  {D D₀ D' : Bits} {d s z one value sign i : Nat} {loop skip : Key} {x y : BitVec 32}

/-! ## Signs -/

/-- A word is negated if the sign is set. -/
structure Negates (value sign : Nat) (D D' : Bits) : Prop where
  result : word D' value = if D sign then -word D value else word D value
  rest : ∀ p, ¬(value ≤ p ∧ p < value + 32) → ¬(temporary ≤ p ∧ p ≤ carry) → D' p = D p

theorem emits_absolute32 (hs : ctx.Sound cfg) (hvalue : Scratch value 32)
    (hsign : Behind cfg sign 1) (hz : IsConstant ctx z 0)
    (h : ctx.absolute32 value sign z = some ctx') :
    Emits cfg ctx (Negates value sign) ctx' := by
  unfold Context.absolute32 at h
  obtain ⟨⟨skip, ctx₁⟩, h₁, h⟩ := Option.bind_eq_some_iff.mp h
  obtain ⟨ctx₂, h₂, h⟩ := Option.bind_eq_some_iff.mp h
  obtain ⟨ctx₃, h₃, h₄⟩ := Option.bind_eq_some_iff.mp h
  obtain ⟨e₁, hpending, -⟩ := emits_internalLabel hs h₁
  have b₂ := emits_conditionalJump e₁.sound (toOption_eq_some h₂) hsign
  have e₃ := emits_sub32 b₂.sound h₃ hvalue
  have hlabels : ctx₃.labels = ctx₁.labels := (labels_onProgram h₃).trans b₂.labels
  have e₄ := b₂.skip e₁.sound e₃ hlabels hpending h₄
  have hx := e₁.extension.trans hs e₄.extension
  refine (e₁.trans hs e₄).imp ?_
  rintro F hF D D' hD - ⟨D₁, rfl, hR⟩
  by_cases hset : D₁ sign = true
  · rw [if_pos hset] at hR
    have hzero := (hz.mono hx).word e₄.sound hF hD
    refine ⟨?_, hR.rest⟩
    rw [hR.result, hzero, if_pos hset]
    exact BitVec.zero_sub _
  · rw [if_neg hset] at hR
    subst hR
    exact ⟨by rw [if_neg hset], fun _ _ _ ↦ rfl⟩

/-! ## A round -/

/-- What a round may change, but for its jumps. -/
def DivideScratch (p : Nat) : Prop :=
  divNum ≤ p ∧ p < divDen ∨ divRem ≤ p ∧ p ≤ divStop ∨ p = divReduce ∨
    cmpEq ≤ p ∧ p ≤ cmpSign ∨ temporary ≤ p ∧ p ≤ carry

/-- The remainder with the next digit of the dividend. -/
def shiftedRemainder (D : Bits) : BitVec 32 :=
  word D divRem <<< 1 ||| BitVec.ofNat 32 (D (divNum + 31)).toNat

/-- A digit is shifted from the dividend to the remainder. -/
structure DivideShift (D D' : Bits) : Prop where
  rem : word D' divRem = shiftedRemainder D
  num : word D' divNum = word D divNum <<< 1
  quo : word D' divQuo = word D divQuo <<< 1
  reduce : D' divReduce = ((!(shiftedRemainder D).ult (word D divDen)) || D (divRem + 31))
  rest : ∀ p, ¬ DivideScratch p → D' p = D p
  mark : word D' divMark = word D divMark

theorem DivideShift.of_steps {D₁ D₂ D₃ D₄ D₅ D₆ : Bits} (hone : D₅ one = true)
    (h₁ : D₁ = Function.update D divOverflow (D (divRem + 31)))
    (h₂ : Places divRem (shiftedRemainder D₁) D₁ D₂)
    (h₃ : Places divNum (word D₂ divNum <<< 1) D₂ D₃)
    (h₄ : Places divQuo (word D₃ divQuo <<< 1) D₃ D₄)
    (h₅ : Compares divRem divDen D₄ D₅)
    (h₆ : D₆ = Function.update D₅ divReduce (D₅ cmpLtu ^^ D₅ one))
    (h₇ : D' = Function.update D₆ divReduce (D₆ divReduce || D₆ divOverflow)) :
    DivideShift D D' := by
  have hother : ∀ a, Separate a 32 divOverflow 1 → word D₁ a = word D a := fun a ha ↦
    word_congr fun i hi ↦ by
      rw [h₁, Function.update_of_ne]
      unfold Separate at ha
      omega
  have hflags : ∀ p, ¬(cmpEq ≤ p ∧ p ≤ cmpSign) → p ≠ divReduce → D' p = D₄ p := fun p hp hp' ↦ by
    rw [h₇, Function.update_of_ne hp', h₆, Function.update_of_ne hp', h₅.rest p hp]
  have hwords : ∀ a, Separate a 32 cmpEq 6 → Separate a 32 divReduce 1 → word D' a = word D₄ a :=
    fun a ha ha' ↦ word_congr fun i hi ↦ hflags _ (by
      dsimp only [Separate, cmpEq, cmpSign] at *
      omega) (by
      dsimp only [Separate] at ha'
      omega)
  have hshifted : shiftedRemainder D₁ = shiftedRemainder D := by
    have hbit : D₁ (divNum + 31) = D (divNum + 31) := by
      rw [h₁, Function.update_of_ne (by decide)]
    rw [shiftedRemainder, shiftedRemainder, hbit, hother _ (by decide)]
  have hrem : word D₄ divRem = shiftedRemainder D := by
    rw [h₄.other (by decide), h₃.other (by decide), h₂.word, hshifted]
  have hden : word D₄ divDen = word D divDen := by
    rw [h₄.other (by decide), h₃.other (by decide), h₂.other (by decide), hother _ (by decide)]
  have hoverflow : D₄ divOverflow = D (divRem + 31) := by
    rw [h₄.rest _ (by decide), h₃.rest _ (by decide), h₂.rest _ (by decide), h₁,
      Function.update_self]
  refine ⟨?_, ?_, ?_, ?_, fun p hp ↦ ?_, ?_⟩
  · rw [hwords _ (by decide) (by decide), hrem]
  · rw [hwords _ (by decide) (by decide), h₄.other (by decide), h₃.word, h₂.other (by decide),
      hother _ (by decide)]
  · rw [hwords _ (by decide) (by decide), h₄.word, h₃.other (by decide), h₂.other (by decide),
      hother _ (by decide)]
  · rw [h₇, Function.update_self, h₆, Function.update_self, Function.update_of_ne (by decide),
      hone, h₅.flags.ltu, hrem, hden, h₅.rest _ (by decide), hoverflow, Bool.xor_true]
  · dsimp only [DivideScratch, divNum, divDen, divRem, divStop, divReduce, cmpEq, cmpSign,
      temporary, carry] at hp
    rw [hflags p (by dsimp only [cmpEq, cmpSign]; omega) (by dsimp only [divReduce]; omega),
      h₄.rest _ (by dsimp only [divQuo]; omega), h₃.rest _ (by dsimp only [divNum]; omega),
      h₂.rest _ (by dsimp only [divRem]; omega), h₁,
      Function.update_of_ne (by dsimp only [divOverflow]; omega)]
  · rw [hwords _ (by decide) (by decide), h₄.other (by decide), h₃.other (by decide),
      h₂.other (by decide), hother _ (by decide)]

theorem emits_divideShift (hs : ctx.Sound cfg) (hz : IsConstant ctx z 0)
    (hone : IsConstant ctx one 1) (h : ctx.divideShift z one = some ctx') :
    Emits cfg ctx DivideShift ctx' ∧ ctx'.labels = ctx.labels := by
  obtain ⟨ctx₁, h₁, h⟩ := Option.bind_eq_some_iff.mp h
  obtain ⟨ctx₂, h₂, h⟩ := Option.bind_eq_some_iff.mp h
  obtain ⟨ctx₃, h₃, h⟩ := Option.bind_eq_some_iff.mp h
  obtain ⟨ctx₄, h₄, h⟩ := Option.bind_eq_some_iff.mp h
  obtain ⟨ctx₅, h₅, h⟩ := Option.bind_eq_some_iff.mp h
  obtain ⟨ctx₆, h₆, h⟩ := Option.bind_eq_some_iff.mp h
  obtain ⟨ctx₇, h₇, h⟩ := Option.bind_eq_some_iff.mp h
  obtain ⟨ctx₈, h₈, h⟩ := Option.bind_eq_some_iff.mp h
  obtain ⟨ctx₉, h₉, h₁₀⟩ := Option.bind_eq_some_iff.mp h
  have hcell : ∀ {a n}, Scratch a n → Behind cfg a n := fun ha ↦ ha.behind hs
  have e₁ := emits_bit hs (by decide) (hcell (by decide)) h₁
  have e₂ := emits_shiftLeft (a := divRem) e₁.sound (by decide) (hcell (by decide))
    (by decide) h₂ h₃
  have x₂ := e₁.extension.trans hs e₂.extension
  have e₃ := emits_double (a := divNum) e₂.sound (by decide) (hz.mono x₂) h₄ h₅
  have x₃ := x₂.trans hs e₃.extension
  have e₄ := emits_double (a := divQuo) e₃.sound (by decide) (hz.mono x₃) h₆ h₇
  have x₄ := x₃.trans hs e₄.extension
  have e₅ := emits_compare32 e₄.sound (hcell (by decide)) (hcell (by decide))
    (by decide) (by decide) h₈
  have x₅ := x₄.trans hs e₅.extension
  have e₆ := (emits_lookup .xor e₅.sound h₉ (by decide)
    (hcell (by decide)) ((hone.mono x₅).behind e₅.sound (by decide)))
  have e₆' : Emits cfg ctx₈ (fun D D' ↦ D one = true ∧
      D' = Function.update D divReduce (D cmpLtu ^^ D one)) ctx₉ := e₆.imp fun F hF D D' hD _ hR ↦
    ⟨(hone.mono (x₅.trans hs e₆.extension)).bit e₆.sound hF hD (i := 0) (by decide), hR⟩
  have e₇ := emits_lookup .or e₆.sound h₁₀ (by decide)
    (hcell (by decide)) (hcell (by decide))
  refine ⟨((((((e₁.trans hs e₂).trans hs e₃).trans hs e₄).trans hs e₅).trans hs e₆').trans hs
    e₇).imp ?_, ?_⟩
  · rintro F - D D' - - ⟨D₆, ⟨D₅, ⟨D₄, ⟨D₃, ⟨D₂, ⟨D₁, r₁, r₂⟩, r₃⟩, r₄⟩, r₅⟩, hset, r₆⟩, r₇⟩
    exact .of_steps hset r₁ r₂ r₃ r₄ r₅ r₆ r₇
  · rw [labels_lookup h₁₀, labels_lookup h₉, labels_compare32 h₈, labels_onProgram h₇,
      labels_onProgram h₆, labels_onProgram h₅, labels_onProgram h₄, labels_onProgram h₃,
      labels_onProgram h₂, labels_onProgram h₁]

/-- A round of the loop. -/
structure DivideRound (D D' : Bits) : Prop where
  num : word D' divNum = word D divNum <<< 1
  mark : word D' divMark = word D divMark <<< 1
  stop : D' divStop = D (divMark + 31)
  result : if (!(shiftedRemainder D).ult (word D divDen)) || D (divRem + 31) then
      word D' divRem = shiftedRemainder D - word D divDen ∧
        word D' divQuo = word D divQuo <<< 1 ||| 1#32
    else word D' divRem = shiftedRemainder D ∧ word D' divQuo = word D divQuo <<< 1
  rest : ∀ p, ¬ DivideScratch p → D' p = D p

/-- The divisor goes into the remainder: a difference and a bit of the quotient. -/
structure Reduces (D D' : Bits) : Prop where
  rem : word D' divRem = word D divRem - word D divDen
  quo : (word D divQuo).getLsbD 0 = false → word D' divQuo = word D divQuo ||| 1#32
  rest : ∀ p, ¬(divRem ≤ p ∧ p < divRem + 32) → p ≠ divQuo → ¬(temporary ≤ p ∧ p ≤ carry) →
    D' p = D p

theorem Reduces.of_steps {D₁ : Bits} (hone : D₁ one = true) (h₁ : Sums true divRem divRem divDen D D₁)
    (h₂ : D' = Function.update D₁ divQuo (D₁ one)) : Reduces D D' := by
  have hquo : ∀ i < 32, D₁ (divQuo + i) = D (divQuo + i) := fun i hi ↦ h₁.rest _ (by
    dsimp only [divRem, divQuo]
    omega) (by
    dsimp only [temporary, carry, divQuo]
    omega)
  refine ⟨?_, fun h0 ↦ Bits.toBitVec_eq fun i hi ↦ ?_, fun p hp hp' hp'' ↦ ?_⟩
  · rw [← show word D₁ divRem = word D divRem - word D divDen from h₁.result]
    refine word_congr fun i hi ↦ ?_
    rw [h₂, Function.update_of_ne (by dsimp only [divRem, divQuo]; omega)]
  · rw [h₂, BitVec.getLsbD_or, getLsbD_word _ _ hi, hone]
    rcases i with - | i
    · rw [Nat.add_zero, Function.update_self, BitVec.getLsbD_one]
      simp
    · rw [Function.update_of_ne (by omega), hquo _ hi, BitVec.getLsbD_one]
      simp
  · rw [h₂, Function.update_of_ne hp', h₁.rest p hp hp'']

theorem DivideRound.of_steps {D₁ D₂ D₃ : Bits} (h₁ : DivideShift D D₁)
    (h₂ : if D₁ divReduce = true then Reduces D₁ D₂ else D₂ = D₁)
    (h₃ : D₃ = Function.update D₂ divStop (D₂ (divMark + 31)))
    (h₄ : Places divMark (word D₃ divMark <<< 1) D₃ D') : DivideRound D D' := by
  have hden : word D₁ divDen = word D divDen := word_congr fun i hi ↦ h₁.rest _ (by
    dsimp only [DivideScratch, divNum, divDen, divRem, divStop, divReduce, cmpEq, cmpSign,
      temporary, carry]
    omega)
  have hkeep : ∀ p, ¬(divRem ≤ p ∧ p < divRem + 32) → p ≠ divQuo →
      ¬(temporary ≤ p ∧ p ≤ carry) → D₂ p = D₁ p := fun p hp hp' hp'' ↦ by
    split at h₂
    · exact h₂.rest p hp hp' hp''
    · rw [h₂]
  have hkept : ∀ a, Separate a 32 divRem 64 → Separate a 32 temporary 3 → word D₂ a = word D₁ a :=
    fun a ha ha' ↦ word_congr fun i hi ↦ by
      dsimp only [Separate, temporary, divRem] at ha ha'
      exact hkeep _ (by dsimp only [divRem]; omega) (by dsimp only [divQuo]; omega)
        (by dsimp only [temporary, carry]; omega)
  have hstop : ∀ a, Separate a 32 divStop 1 → word D₃ a = word D₂ a := fun a ha ↦
    word_congr fun i hi ↦ by
      rw [h₃, Function.update_of_ne]
      dsimp only [Separate] at ha
      omega
  refine ⟨?_, ?_, ?_, ?_, fun p hp ↦ ?_⟩
  · rw [h₄.other (by decide), hstop _ (by decide), hkept _ (by decide) (by decide), h₁.num]
  · rw [h₄.word, hstop _ (by decide), hkept _ (by decide) (by decide), h₁.mark]
  · have hmark : D₁ (divMark + 31) = D (divMark + 31) := by
      rw [← getLsbD_word D₁ divMark (by decide), h₁.mark, getLsbD_word _ _ (by decide)]
    rw [h₄.rest _ (by decide), h₃, Function.update_self, hkeep _ (by decide) (by decide) (by decide),
      hmark]
  · rw [h₄.other (by decide), h₄.other (by decide), hstop _ (by decide), hstop _ (by decide),
      ← h₁.reduce]
    split
    · next hreduce =>
        rw [if_pos hreduce] at h₂
        refine ⟨by rw [h₂.rem, h₁.rem, hden], ?_⟩
        rw [h₂.quo, h₁.quo]
        rw [h₁.quo, BitVec.getLsbD_shiftLeft]
        rfl
    · next hreduce =>
        rw [if_neg hreduce] at h₂
        rw [h₂]
        exact ⟨h₁.rem, h₁.quo⟩
  · have hp₁ := h₁.rest p hp
    dsimp only [DivideScratch, divNum, divDen, divRem, divStop, divReduce, cmpEq, cmpSign,
      temporary, carry] at hp
    rw [h₄.rest _ (by dsimp only [divMark]; omega), h₃,
      Function.update_of_ne (by dsimp only [divStop]; omega),
      hkeep p (by dsimp only [divRem]; omega) (by dsimp only [divQuo]; omega)
        (by dsimp only [temporary, carry]; omega), hp₁]

theorem emits_divideRound (hs : ctx.Sound cfg) (hz : IsConstant ctx z 0)
    (hone : IsConstant ctx one 1) (hskip : Pending ctx skip)
    (h : ctx.divideRound z one loop skip = some ctx') : ∃ ctx₁,
      Emits cfg ctx DivideRound ctx₁ ∧ Branches cfg ctx₁ loop divStop true ctx' := by
  obtain ⟨ctx₁, h₁, h⟩ := Option.bind_eq_some_iff.mp h
  obtain ⟨ctx₂, h₂, h⟩ := Option.bind_eq_some_iff.mp h
  obtain ⟨ctx₃, h₃, h⟩ := Option.bind_eq_some_iff.mp h
  obtain ⟨ctx₄, h₄, h⟩ := Option.bind_eq_some_iff.mp h
  obtain ⟨ctx₅, h₅, h⟩ := Option.bind_eq_some_iff.mp h
  obtain ⟨ctx₆, h₆, h⟩ := Option.bind_eq_some_iff.mp h
  obtain ⟨ctx₇, h₇, h⟩ := Option.bind_eq_some_iff.mp h
  obtain ⟨ctx₈, h₈, h₉⟩ := Option.bind_eq_some_iff.mp h
  have hcell : ∀ {a n}, Scratch a n → Behind cfg a n := fun ha ↦ ha.behind hs
  obtain ⟨e₁, hlabels₁⟩ := emits_divideShift hs hz hone h₁
  have b₂ := emits_conditionalJump e₁.sound (toOption_eq_some h₂) (hcell (by decide))
  have x₂ := e₁.extension.trans hs b₂.extension
  have e₃ := emits_sub32 b₂.sound h₃ (by decide)
  have x₃ := x₂.trans hs e₃.extension
  have e₄ := emits_bit (a := divQuo) e₃.sound (by decide)
    ((hone.mono x₃).behind e₃.sound (by decide)) h₄
  have hreduces : Emits cfg ctx₂ Reduces ctx₄ := by
    have e₄' : Emits cfg ctx₃ (fun D D' ↦ D one = true ∧
        D' = Function.update D divQuo (D one)) ctx₄ := e₄.imp fun F hF D D' hD _ hR ↦
      ⟨(hone.mono (x₃.trans hs e₄.extension)).bit e₄.sound hF hD (i := 0) (by decide), hR⟩
    refine (e₃.trans b₂.sound e₄').imp ?_
    rintro F - D D' - - ⟨D₁, hsum, hset, hD'⟩
    exact .of_steps hset hsum hD'
  have hlabels : ctx₄.labels = ctx₁.labels := by
    rw [labels_onProgram h₄, labels_onProgram h₃, b₂.labels]
  have e₅ := b₂.skip e₁.sound hreduces hlabels (hskip.congr hlabels₁) h₅
  have x₅ := e₁.extension.trans hs e₅.extension
  have e₆ := emits_bit e₅.sound (by decide) (hcell (by decide)) h₆
  have x₆ := x₅.trans hs e₆.extension
  have e₇ := emits_double (a := divMark) e₆.sound (by decide) (hz.mono x₆) h₇ h₈
  refine ⟨ctx₈, (((e₁.trans hs e₅).trans hs e₆).trans hs e₇).imp ?_, ?_⟩
  · rintro F - D D' - - ⟨D₃, ⟨D₂, ⟨D₁, r₁, r₂⟩, r₃⟩, r₄⟩
    exact .of_steps r₁ r₂ r₃ r₄
  · exact emits_conditionalJump e₇.sound (toOption_eq_some h₉) (hcell (by decide))

/-! ## The loop -/

/-- Quotient and remainder after some rounds. -/
structure Dividing (x y : BitVec 32) (D₀ : Bits) (i : Nat) (D : Bits) : Prop where
  num : word D divNum = x <<< i
  den : word D divDen = y
  mark : word D divMark = 1#32 <<< i
  divided : Digits.Divided 32 x.toNat y.toNat i (word D divQuo).toNat (word D divRem).toNat
  rest : ∀ p, ¬ DivideScratch p → D p = D₀ p

theorem toNat_shiftLeft_or {r : BitVec 32} {b : Bool} (h : 2 * r.toNat + b.toNat < 2 ^ 32) :
    (r <<< 1 ||| BitVec.ofNat 32 b.toNat).toNat = 2 * r.toNat + b.toNat := by
  have hb := Bool.toNat_lt b
  rw [BitVec.toNat_or, BitVec.toNat_shiftLeft, BitVec.toNat_ofNat,
    Nat.mod_eq_of_lt (hb.trans (by decide)), Nat.shiftLeft_eq, Nat.pow_one, Nat.mod_eq_of_lt (by omega),
    Nat.mul_comm r.toNat 2]
  exact (Nat.two_pow_add_eq_or_of_lt (i := 1) hb r.toNat).symm

theorem Dividing.step (h : Dividing x y D₀ i D) (hi : i < 32) (hR : DivideRound D D') :
    Dividing x y D₀ (i + 1) D' ∧ (D' divStop = true ↔ i + 1 = 32) := by
  have hden : ∀ p, divDen ≤ p → p < divDen + 32 → D' p = D p := fun p hp hp' ↦ hR.rest p (by
    dsimp only [DivideScratch, divNum, divDen, divRem, divStop, divReduce, cmpEq, cmpSign,
      temporary, carry] at *
    omega)
  have hdivided := h.divided.succ hi
  have hremlt := h.divided.rem_lt x.isLt (Nat.le_of_lt hi)
  have hquolt := h.divided.quo_lt x.isLt (Nat.le_of_lt hi)
  have hpow : 2 ^ i ≤ 2 ^ 31 := Nat.pow_le_pow_right (by decide) (by omega)
  have hdigit : D (divNum + 31) = x.toNat.testBit (32 - 1 - i) := by
    rw [← getLsbD_word D divNum (by decide), h.num, BitVec.getLsbD_shiftLeft]
    simp [show ¬ 31 < i by omega]
    rfl
  have hbit := Bool.toNat_le (x.toNat.testBit (32 - 1 - i))
  have hext : (shiftedRemainder D).toNat =
      Digits.extended 32 x.toNat i (word D divRem).toNat := by
    rw [shiftedRemainder, hdigit, toNat_shiftLeft_or (by omega)]
    rfl
  have hoverflow : D (divRem + 31) = false := by
    rw [← getLsbD_word D divRem (by decide)]
    exact Nat.testBit_lt_two_pow (hremlt.trans_le hpow)
  have hgoes : ((!(shiftedRemainder D).ult (word D divDen)) || D (divRem + 31)) = true ↔
      y.toNat ≤ Digits.extended 32 x.toNat i (word D divRem).toNat := by
    rw [hoverflow, Bool.or_false, h.den, ← hext]
    simp [BitVec.ult]
  have hresult := hR.result
  refine ⟨⟨?_, ?_, ?_, ?_, fun p hp ↦ (hR.rest p hp).trans (h.rest p hp)⟩, ?_⟩
  · rw [hR.num, h.num, ← BitVec.shiftLeft_add]
  · rw [← h.den]
    exact word_congr fun j hj ↦ hden _ (Nat.le_add_right _ _) (by omega)
  · rw [hR.mark, h.mark, ← BitVec.shiftLeft_add]
  · have hdouble : (word D divQuo <<< 1).toNat = 2 * (word D divQuo).toNat := by
      have := toNat_shiftLeft_or (r := word D divQuo) (b := false) (by
        rw [Bool.toNat_false]
        omega)
      simpa using this
    by_cases hle : y.toNat ≤ Digits.extended 32 x.toNat i (word D divRem).toNat
    · rw [if_pos (hgoes.mpr hle)] at hresult
      rw [if_pos hle, if_pos hle] at hdivided
      have hquo : (word D' divQuo).toNat = 2 * (word D divQuo).toNat + 1 := by
        rw [hresult.2]
        exact toNat_shiftLeft_or (b := true) (by
          rw [Bool.toNat_true]
          omega)
      have hrem : (word D' divRem).toNat =
          Digits.extended 32 x.toNat i (word D divRem).toNat - y.toNat := by
        rw [hresult.1, h.den, BitVec.toNat_sub_of_le, hext]
        rwa [BitVec.le_def, hext]
      rwa [hquo, hrem]
    · rw [if_neg fun hg ↦ hle (hgoes.mp hg)] at hresult
      rw [if_neg hle, if_neg hle] at hdivided
      rwa [hresult.1, hresult.2, hdouble, hext]
  · rw [hR.stop, ← getLsbD_word D divMark (by decide), h.mark]
    have hmsb := msb_one_shiftLeft hi
    rw [BitVec.msb_eq_getLsbD_last] at hmsb
    rw [hmsb, decide_eq_true_iff]
    omega

end CopySpace.Link
