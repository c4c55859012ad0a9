import CopySpace.Link.Divide

/-!
# `divide32`: the whole operator

A signed division is an unsigned one of the magnitudes, with a sign at the end.  The flags of the
program are saved before the comparisons of the loop and restored after them.
-/

namespace CopySpace.Link

open Emit BitMachine

variable {cfg : Config} {ctx ctx' ctx₁ : Context} {F : Linked} {D D₀ D' : Bits}
  {d s z one : Nat} {signed remainder : Bool} {x y : BitVec 32}

/-! ## Arithmetic -/

/-- The result of a division; a quotient by zero has only ones. -/
def divisionOf (signed remainder : Bool) (x y : BitVec 32) : BitVec 32 :=
  if remainder then if signed then x.srem y else x % y
  else if y = 0#32 then BitVec.allOnes 32
  else if signed then x.sdiv y else x / y

/-- A word of a signed division is taken without its sign. -/
def magnitude (signed : Bool) (x : BitVec 32) : BitVec 32 := if signed then x.abs else x

theorem abs_eq_zero_iff : x.abs = 0#32 ↔ x = 0#32 := by
  unfold BitVec.abs
  split
  · exact BitVec.neg_eq_zero_iff
  · exact Iff.rfl

theorem sdiv_eq_abs (x y : BitVec 32) :
    x.sdiv y = if x.msb ^^ y.msb then -(x.abs / y.abs) else x.abs / y.abs := by
  rw [BitVec.sdiv_eq, BitVec.abs, BitVec.abs]
  cases x.msb <;> cases y.msb <;> rfl

theorem srem_eq_abs (x y : BitVec 32) :
    x.srem y = if x.msb then -(x.abs % y.abs) else x.abs % y.abs := by
  rw [BitVec.srem_eq, BitVec.abs, BitVec.abs]
  cases x.msb <;> cases y.msb <;> rfl

/-- The sign of the result, with the exception of the quotient by zero. -/
def negative (remainder : Bool) (x y : BitVec 32) : Bool :=
  if remainder then x.msb else (x.msb ^^ y.msb) && !(y.abs == 0#32)

theorem divisionOf_signed (remainder : Bool) (x y : BitVec 32) :
    divisionOf true remainder x y =
      let result := divisionOf false remainder x.abs y.abs
      if negative remainder x y then -result else result := by
  cases remainder
  · simp only [divisionOf, negative, Bool.false_eq_true, if_false, if_true, abs_eq_zero_iff]
    by_cases hy : y = 0#32
    · simp [hy]
    · have habs : (y.abs == 0#32) = false := beq_false_of_ne (mt abs_eq_zero_iff.mp hy)
      rw [if_neg hy, if_neg hy, habs, Bool.not_false, Bool.and_true, sdiv_eq_abs]
  · simp only [divisionOf, negative, Bool.false_eq_true, if_false, if_true, srem_eq_abs]

/-! ## Before the loop -/

/-- What a division may change, but for its destination. -/
def DivisionScratch (p : Nat) : Prop :=
  divNum ≤ p ∧ p ≤ divSign ∨ p = cmpSign ∨ temporary ≤ p ∧ p ≤ carry

/-- The operands have been copied, and the flags. -/
structure DivideOperands (d s : Nat) (D D' : Bits) : Prop where
  num : word D' divNum = word D d
  den : word D' divDen = word D s
  numSign : D' divNumSign = (word D d).msb
  denSign : D' divDenSign = (word D s).msb
  flags : ∀ i < 5, D' (divFlags + i) = D (cmpEq + i)
  rest : ∀ p, ¬ DivisionScratch p → D' p = D p

theorem DivideOperands.of_steps {D₁ D₂ D₃ D₄ : Bits} (hd : IsRegister d) (hs : IsRegister s)
    (h₁ : D₁ = D.blit 5 divFlags cmpEq) (h₂ : Places divNum (word D₁ d) D₁ D₂)
    (h₃ : Places divDen (word D₂ s) D₂ D₃)
    (h₄ : D₄ = Function.update D₃ divNumSign (D₃ (divNum + 31)))
    (h₅ : D' = Function.update D₄ divDenSign (D₄ (divDen + 31))) : DivideOperands d s D D' := by
  have hbounds := hd.bounds
  have hbounds' := hs.bounds
  dsimp only [regBase] at hbounds hbounds'
  have hrest : ∀ p, p ≠ divNumSign → p ≠ divDenSign → D' p = D₃ p := fun p hp hp' ↦ by
    rw [h₅, Function.update_of_ne hp', h₄, Function.update_of_ne hp]
  have hfirst : ∀ p, ¬(divFlags ≤ p ∧ p < divFlags + 5) → D₁ p = D p := fun p hp ↦ by
    rw [h₁, Bits.blit_of_notMem _ hp]
  have hregister : ∀ {a}, a + 32 ≤ divNum → word D₁ a = word D a := fun ha ↦
    word_congr fun i hi ↦ hfirst _ (by
      dsimp only [divNum, divFlags] at *
      omega)
  have hnum : word D₃ divNum = word D d := by
    rw [h₃.other (by decide), h₂.word, hregister (by dsimp only [divNum]; omega)]
  have hden : word D₃ divDen = word D s := by
    rw [h₃.word, h₂.other (by dsimp only [Separate, divNum]; omega),
      hregister (by dsimp only [divNum]; omega)]
  refine ⟨?_, ?_, ?_, ?_, fun i hi ↦ ?_, fun p hp ↦ ?_⟩
  · rw [← hnum]
    exact word_congr fun i hi ↦ hrest _ (by dsimp only [divNum, divNumSign]; omega)
      (by dsimp only [divNum, divDenSign]; omega)
  · rw [← hden]
    exact word_congr fun i hi ↦ hrest _ (by dsimp only [divDen, divNumSign]; omega)
      (by dsimp only [divDen, divDenSign]; omega)
  · rw [h₅, Function.update_of_ne (by decide), h₄, Function.update_self, ← hnum,
      BitVec.msb_eq_getLsbD_last, getLsbD_word _ _ (by decide)]
  · rw [h₅, Function.update_self, h₄, Function.update_of_ne (by decide), ← hden,
      BitVec.msb_eq_getLsbD_last, getLsbD_word _ _ (by decide)]
  · rw [hrest _ (by dsimp only [divFlags, divNumSign]; omega)
        (by dsimp only [divFlags, divDenSign]; omega),
      h₃.rest _ (by dsimp only [divDen, divFlags]; omega),
      h₂.rest _ (by dsimp only [divNum, divFlags]; omega), h₁, Bits.blit_add _ hi]
  · dsimp only [DivisionScratch, divNum, divSign] at hp
    rw [hrest _ (by dsimp only [divNumSign]; omega) (by dsimp only [divDenSign]; omega),
      h₃.rest _ (by dsimp only [divDen]; omega), h₂.rest _ (by dsimp only [divNum]; omega),
      hfirst _ (by dsimp only [divFlags]; omega)]

/-- A signed division goes on without the signs. -/
structure DivideMagnitudes (signed : Bool) (D D' : Bits) : Prop where
  num : word D' divNum = if signed && D divNumSign then -word D divNum else word D divNum
  den : word D' divDen = if signed && D divDenSign then -word D divDen else word D divDen
  rest : ∀ p, ¬(divNum ≤ p ∧ p < divDen + 32) → ¬(temporary ≤ p ∧ p ≤ carry) → D' p = D p

theorem DivideMagnitudes.of_steps {D₁ : Bits} (h₁ : Negates divNum divNumSign D D₁)
    (h₂ : Negates divDen divDenSign D₁ D') : DivideMagnitudes true D D' := by
  have hden : word D₁ divDen = word D divDen := word_congr fun i hi ↦
    h₁.rest _ (by dsimp only [divNum, divDen]; omega) (by
      dsimp only [divDen, temporary, carry]
      omega)
  refine ⟨?_, ?_, fun p hp hp' ↦ ?_⟩
  · rw [Bool.true_and, ← h₁.result]
    exact word_congr fun i hi ↦ h₂.rest _ (by dsimp only [divNum, divDen]; omega) (by
      dsimp only [divNum, temporary, carry]
      omega)
  · rw [Bool.true_and, h₂.result, hden, h₁.rest divDenSign (by decide) (by decide)]
  · dsimp only [divNum, divDen] at hp
    rw [h₂.rest p (by dsimp only [divDen]; omega) hp', h₁.rest p (by dsimp only [divNum]; omega) hp']

theorem emits_divideAbsolute (hs : ctx.Sound cfg) (hz : IsConstant ctx z 0)
    (h : ctx.divideAbsolute z = some ctx') :
    Emits cfg ctx (DivideMagnitudes true) ctx' := by
  obtain ⟨ctx₁, h₁, h₂⟩ := Option.bind_eq_some_iff.mp h
  have e₁ := emits_absolute32 hs (by decide) (hs.behind (by decide) (by decide)) hz h₁
  have e₂ := emits_absolute32 e₁.sound (by decide) (hs.behind (by decide) (by decide))
    (hz.mono e₁.extension) h₂
  refine (e₁.trans hs e₂).imp ?_
  rintro F - D D' - - ⟨D₁, r₁, r₂⟩
  exact .of_steps r₁ r₂

/-- Everything is there when the loop begins, and the flags and the signs are saved. -/
structure DivideStart (signed : Bool) (d s : Nat) (D D' : Bits) : Prop where
  dividing : Dividing (magnitude signed (word D d)) (magnitude signed (word D s)) D' 0 D'
  numSign : D' divNumSign = (word D d).msb
  denSign : D' divDenSign = (word D s).msb
  flags : ∀ i < 5, D' (divFlags + i) = D (cmpEq + i)
  rest : ∀ p, ¬ DivisionScratch p → D' p = D p

theorem DivideStart.of_steps {D₁ D₂ D₃ D₄ : Bits} (h₁ : DivideOperands d s D D₁)
    (h₂ : if signed then DivideMagnitudes true D₁ D₂ else D₂ = D₁) (hz : word D z = 0#32)
    (hone : word D one = 1#32) (hz' : z + 32 ≤ regBase) (hone' : one + 32 ≤ regBase)
    (h₃ : Places divRem (word D₂ z) D₂ D₃) (h₄ : Places divQuo (word D₃ z) D₃ D₄)
    (h₅ : Places divMark (word D₄ one) D₄ D') : DivideStart signed d s D D' := by
  have hkept : ∀ p, ¬(divNum ≤ p ∧ p < divDen + 32) → ¬(temporary ≤ p ∧ p ≤ carry) →
      D₂ p = D₁ p := fun p hp hp' ↦ by
    cases signed
    · rw [if_neg Bool.false_ne_true] at h₂
      rw [h₂]
    · rw [if_pos rfl] at h₂
      exact h₂.rest p hp hp'
  have hmagnitudes : word D₂ divNum = magnitude signed (word D d) ∧
      word D₂ divDen = magnitude signed (word D s) := by
    cases signed
    · rw [if_neg Bool.false_ne_true] at h₂
      rw [h₂]
      exact ⟨h₁.num, h₁.den⟩
    · rw [if_pos rfl] at h₂
      rw [h₂.num, h₂.den, h₁.num, h₁.den, h₁.numSign, h₁.denSign, Bool.true_and, Bool.true_and]
      exact ⟨rfl, rfl⟩
  have hconstant : ∀ {a}, a + 32 ≤ regBase → word D₂ a = word D a := fun ha ↦
    word_congr fun i hi ↦ by
      dsimp only [regBase] at ha
      rw [hkept _ (by dsimp only [divNum]; omega) (by dsimp only [temporary]; omega),
        h₁.rest _ (by dsimp only [DivisionScratch, divNum, cmpSign, temporary]; omega)]
  have hlast : ∀ p, ¬(divRem ≤ p ∧ p < divMark + 32) → D' p = D₂ p := fun p hp ↦ by
    dsimp only [divRem, divMark] at hp
    rw [h₅.rest _ (by dsimp only [divMark]; omega), h₄.rest _ (by dsimp only [divQuo]; omega),
      h₃.rest _ (by dsimp only [divRem]; omega)]
  dsimp only [regBase] at hz' hone'
  have hrem : word D' divRem = 0#32 := by
    rw [h₅.other (by decide), h₄.other (by decide), h₃.word, hconstant hz', hz]
  have hquo : word D' divQuo = 0#32 := by
    rw [h₅.other (by decide), h₄.word, h₃.other (by dsimp only [Separate, divRem]; omega),
      hconstant hz', hz]
  have hmark : word D' divMark = 1#32 := by
    rw [h₅.word, h₄.other (by dsimp only [Separate, divQuo]; omega),
      h₃.other (by dsimp only [Separate, divRem]; omega), hconstant hone', hone]
  have hnum : word D' divNum = magnitude signed (word D d) := by
    rw [h₅.other (by decide), h₄.other (by decide), h₃.other (by decide), hmagnitudes.1]
  have hden : word D' divDen = magnitude signed (word D s) := by
    rw [h₅.other (by decide), h₄.other (by decide), h₃.other (by decide), hmagnitudes.2]
  refine ⟨⟨?_, hden, ?_, ?_, fun _ _ ↦ rfl⟩, ?_, ?_, fun i hi ↦ ?_, fun p hp ↦ ?_⟩
  · rw [hnum, BitVec.shiftLeft_zero]
  · rw [hmark, BitVec.shiftLeft_zero]
  · rw [hrem, hquo]
    exact .zero (BitVec.isLt _)
  · rw [hlast _ (by decide), hkept _ (by decide) (by decide), h₁.numSign]
  · rw [hlast _ (by decide), hkept _ (by decide) (by decide), h₁.denSign]
  · rw [hlast _ (by dsimp only [divRem, divMark, divFlags]; omega),
      hkept _ (by dsimp only [divNum, divDen, divFlags]; omega)
        (by dsimp only [temporary, carry, divFlags]; omega), h₁.flags i hi]
  · have hp' := h₁.rest p hp
    dsimp only [DivisionScratch, divNum, divSign, temporary, carry] at hp
    rw [hlast _ (by dsimp only [divRem, divMark]; omega),
      hkept _ (by dsimp only [divNum, divDen]; omega) (by dsimp only [temporary, carry]; omega), hp']

/-! ## After the loop -/

/-- The results of the loop. -/
structure DivideDone (x y : BitVec 32) (D₀ D : Bits) : Prop where
  result : ∀ remainder, word D (if remainder then divRem else divQuo) =
    divisionOf false remainder x y
  den : word D divDen = y
  rest : ∀ p, ¬ DivideScratch p → D p = D₀ p

theorem Dividing.done (h : Dividing x y D₀ 32 D) : DivideDone x y D₀ D := by
  obtain ⟨hquo, hrem⟩ := h.divided.width
  refine ⟨fun remainder ↦ ?_, h.den, h.rest⟩
  have hzero : y.toNat = 0 ↔ y = 0#32 := BitVec.toNat_inj (y := 0#32)
  cases remainder
  · rw [divisionOf, if_neg Bool.false_ne_true, if_neg Bool.false_ne_true,
      if_neg Bool.false_ne_true]
    refine BitVec.eq_of_toNat_eq ?_
    by_cases hy : y = 0#32
    · rw [hquo, if_pos (hzero.mpr hy), if_pos hy, BitVec.toNat_allOnes]
    · rw [hquo, if_neg (mt hzero.mp hy), if_neg hy, BitVec.toNat_udiv]
  · rw [divisionOf, if_pos rfl, if_pos rfl, if_neg Bool.false_ne_true]
    refine BitVec.eq_of_toNat_eq ?_
    rw [hrem, BitVec.toNat_umod]

/-- The sign of the result. -/
structure DivideSign (remainder : Bool) (D D' : Bits) : Prop where
  sign : D' divSign = if remainder then D divNumSign
    else (D divNumSign ^^ D divDenSign) && !(word D divDen == 0#32)
  rest : ∀ p, p ≠ divSign → p ≠ divDenSign → ¬(cmpEq ≤ p ∧ p ≤ cmpSign) → D' p = D p

theorem DivideSign.of_steps {D₁ D₂ D₃ : Bits} (hone : D₂ one = true) (hz : word D₁ z = 0#32)
    (h₁ : D₁ = Function.update D divSign (D divNumSign ^^ D divDenSign))
    (h₂ : Compares divDen z D₁ D₂)
    (h₃ : D₃ = Function.update D₂ divDenSign (D₂ cmpEq ^^ D₂ one))
    (h₄ : D' = Function.update D₃ divSign (D₃ divSign && D₃ divDenSign)) :
    DivideSign false D D' := by
  have hden : word D₁ divDen = word D divDen := word_congr fun i hi ↦ by
    rw [h₁, Function.update_of_ne (by dsimp only [divDen, divSign]; omega)]
  refine ⟨?_, fun p hp hp' hp'' ↦ ?_⟩
  · rw [if_neg Bool.false_ne_true, h₄, Function.update_self, h₃, Function.update_self,
      Function.update_of_ne (by decide), h₂.rest divSign (by decide), h₁, Function.update_self,
      hone, Bool.xor_true, h₂.flags.eq, hz, hden]
  · rw [h₄, Function.update_of_ne hp, h₃, Function.update_of_ne hp', h₂.rest p hp'', h₁,
      Function.update_of_ne hp]

theorem emits_divideSign (hs : ctx.Sound cfg) (hz : IsConstant ctx z 0)
    (hone : IsConstant ctx one 1) (h : ctx.divideSign z one remainder = some ctx') :
    Emits cfg ctx (DivideSign remainder) ctx' := by
  have hcell : ∀ {a n}, Scratch a n → Behind cfg a n := fun ha ↦ ha.behind hs
  unfold Context.divideSign at h
  cases remainder with
  | true =>
      rw [if_pos rfl] at h
      refine (emits_bit hs (by decide) (hcell (by decide)) h).imp ?_
      rintro F - D D' - - rfl
      exact ⟨by rw [Function.update_self, if_pos rfl], fun p hp _ _ ↦ Function.update_of_ne hp _ _⟩
  | false =>
      rw [if_neg Bool.false_ne_true] at h
      obtain ⟨ctx₁, h₁, h⟩ := Option.bind_eq_some_iff.mp h
      obtain ⟨ctx₂, h₂, h⟩ := Option.bind_eq_some_iff.mp h
      obtain ⟨ctx₃, h₃, h₄⟩ := Option.bind_eq_some_iff.mp h
      have hbounds := hz.bounds hs
      have e₁ := emits_lookup .xor hs h₁ (by decide) (hcell (by decide)) (hcell (by decide))
      have e₂ := emits_compare32 e₁.sound (hcell (by decide)) (hz.behind hs le_rfl) (by decide) (by
        dsimp only [Separate, regBase, cmpEq] at *
        omega) h₂
      have x₂ := e₁.extension.trans hs e₂.extension
      have e₃ := emits_lookup .xor e₂.sound h₃ (by decide) (hcell (by decide))
        ((hone.mono x₂).behind e₂.sound (by decide))
      have x₃ := x₂.trans hs e₃.extension
      have e₄ := emits_lookup .and e₃.sound h₄ (by decide) (hcell (by decide)) (hcell (by decide))
      have x := e₂.extension.trans e₁.sound (e₃.extension.trans e₂.sound e₄.extension)
      -- the constants are there in every run of the image
      have e₁' : Emits cfg ctx (fun D D' ↦ word D' z = 0#32 ∧
          D' = Function.update D divSign (D divNumSign ^^ D divDenSign)) ctx₁ :=
        e₁.imp fun F hF D D' _ hD' hR ↦ ⟨(hz.mono e₁.extension).word e₁.sound hF hD', hR⟩
      have e₂' : Emits cfg ctx₁ (fun D D' ↦ D' one = true ∧ Compares divDen z D D') ctx₂ :=
        e₂.imp fun F hF D D' _ hD' hR ↦
          ⟨(hone.mono x₂).bit e₂.sound hF hD' (i := 0) (by decide), hR⟩
      refine (((e₁'.trans hs e₂').trans hs e₃).trans hs e₄).imp ?_
      rintro F - D D' - - ⟨D₃, ⟨D₂, ⟨D₁, ⟨hzero, r₁⟩, hset, r₂⟩, r₃⟩, r₄⟩
      exact .of_steps hset hzero r₁ r₂ r₃ r₄

/-- A signed result is given its sign. -/
structure DivideNegate (remainder : Bool) (D D' : Bits) : Prop where
  result : word D' (if remainder then divRem else divQuo) =
    if (if remainder then D divNumSign
      else (D divNumSign ^^ D divDenSign) && !(word D divDen == 0#32))
    then -word D (if remainder then divRem else divQuo)
    else word D (if remainder then divRem else divQuo)
  rest : ∀ p, ¬(divRem ≤ p ∧ p < divMark) → p ≠ divSign → p ≠ divDenSign →
    ¬(cmpEq ≤ p ∧ p ≤ cmpSign) → ¬(temporary ≤ p ∧ p ≤ carry) → D' p = D p

theorem DivideNegate.of_steps {D₁ : Bits} (h₁ : DivideSign remainder D D₁)
    (h₂ : Negates (if remainder then divRem else divQuo) divSign D₁ D') :
    DivideNegate remainder D D' := by
  have hplace : divRem ≤ (if remainder then divRem else divQuo) ∧
      (if remainder then divRem else divQuo) ≤ divQuo := by cases remainder <;> decide
  dsimp only [divRem, divQuo] at hplace
  have hword : word D₁ (if remainder then divRem else divQuo) =
      word D (if remainder then divRem else divQuo) := word_congr fun i hi ↦
    h₁.rest _ (by dsimp only [divRem, divQuo, divSign]; omega)
      (by dsimp only [divRem, divQuo, divDenSign]; omega)
      (by dsimp only [divRem, divQuo, cmpEq, cmpSign]; omega)
  refine ⟨?_, fun p hp hp₁ hp₂ hp₃ hp₄ ↦ ?_⟩
  · rw [h₂.result, h₁.sign, hword]
  · rw [h₂.rest p ?_ hp₄, h₁.rest p hp₁ hp₂ hp₃]
    dsimp only [divRem, divMark, divQuo] at hp ⊢
    omega

theorem emits_divideNegate (hs : ctx.Sound cfg) (hz : IsConstant ctx z 0)
    (hone : IsConstant ctx one 1) (h : ctx.divideNegate z one remainder = some ctx') :
    Emits cfg ctx (DivideNegate remainder) ctx' := by
  obtain ⟨ctx₁, h₁, h₂⟩ := Option.bind_eq_some_iff.mp h
  have e₁ := emits_divideSign hs hz hone h₁
  have e₂ := emits_absolute32 e₁.sound (by cases remainder <;> decide)
    (hs.behind (by decide) (by decide)) (hz.mono e₁.extension) h₂
  refine (e₁.trans hs e₂).imp ?_
  rintro F - D D' - - ⟨D₁, r₁, r₂⟩
  exact .of_steps r₁ r₂

/-! ## The operator -/

/-- What a division does. -/
structure Divides (signed remainder : Bool) (d s : Nat) (D D' : Bits) : Prop where
  result : word D' d = divisionOf signed remainder (word D d) (word D s)
  rest : ∀ p, ¬(d ≤ p ∧ p < d + 32) → ¬ DivisionScratch p → D' p = D p

theorem Divides.of_steps {D₁ D₂ D₃ D₄ : Bits} (hd : IsRegister d)
    (h₁ : DivideStart signed d s D D₁)
    (h₂ : DivideDone (magnitude signed (word D d)) (magnitude signed (word D s)) D₁ D₂)
    (h₃ : if signed then DivideNegate remainder D₂ D₃ else D₃ = D₂)
    (h₄ : Places d (word D₃ (if remainder then divRem else divQuo)) D₃ D₄)
    (h₅ : D' = D₄.blit 5 cmpEq divFlags) : Divides signed remainder d s D D' := by
  have hbounds := hd.bounds
  dsimp only [regBase] at hbounds
  have hkept : ∀ p, ¬(divRem ≤ p ∧ p < divMark) → p ≠ divSign → p ≠ divDenSign →
      ¬(cmpEq ≤ p ∧ p ≤ cmpSign) → ¬(temporary ≤ p ∧ p ≤ carry) → D₃ p = D₂ p := by
    cases signed
    · rw [if_neg Bool.false_ne_true] at h₃
      rw [h₃]
      exact fun _ _ _ _ _ _ ↦ rfl
    · rw [if_pos rfl] at h₃
      exact h₃.rest
  have hresult : word D₃ (if remainder then divRem else divQuo) =
      divisionOf signed remainder (word D d) (word D s) := by
    cases signed with
    | false =>
        rw [if_neg Bool.false_ne_true] at h₃
        rw [h₃, h₂.result]
        rfl
    | true =>
        rw [if_pos rfl] at h₃
        rw [h₃.result, h₂.result, h₂.den, h₂.rest divNumSign (by unfold DivideScratch; decide),
          h₂.rest divDenSign (by unfold DivideScratch; decide), h₁.numSign, h₁.denSign, divisionOf_signed]
        rfl
  refine ⟨?_, fun p hp hp' ↦ ?_⟩
  · rw [← hresult, ← h₄.word]
    refine word_congr fun i hi ↦ ?_
    rw [h₅, Bits.blit_of_notMem _ (by dsimp only [cmpEq]; omega)]
  · by_cases hflag : cmpEq ≤ p ∧ p < cmpEq + 5
    · -- a flag is the one that has been saved
      obtain ⟨i, hi, rfl⟩ : ∃ i < 5, p = cmpEq + i := ⟨p - cmpEq, by omega, by omega⟩
      rw [h₅, Bits.blit_add _ hi, h₄.rest _ (by dsimp only [divFlags]; omega),
        hkept _ (by dsimp only [divRem, divMark, divFlags]; omega)
          (by dsimp only [divSign, divFlags]; omega) (by dsimp only [divDenSign, divFlags]; omega)
          (by dsimp only [cmpEq, cmpSign, divFlags]; omega)
          (by dsimp only [temporary, carry, divFlags]; omega),
        h₂.rest _ ?_, h₁.flags i hi]
      dsimp only [DivideScratch, divNum, divDen, divRem, divStop, divReduce, divFlags, cmpEq,
        cmpSign, temporary, carry]
      omega
    · have hp₁ := h₁.rest p hp'
      dsimp only [DivisionScratch, divNum, divSign, cmpSign, temporary, carry, cmpEq] at hp' hflag
      rw [h₅, Bits.blit_of_notMem _ (by dsimp only [cmpEq]; omega), h₄.rest p hp,
        hkept _ (by dsimp only [divRem, divMark]; omega) (by dsimp only [divSign]; omega)
          (by dsimp only [divDenSign]; omega) (by dsimp only [cmpEq, cmpSign]; omega)
          (by dsimp only [temporary, carry]; omega), h₂.rest p ?_, hp₁]
      dsimp only [DivideScratch, divNum, divDen, divRem, divStop, divReduce, cmpEq, cmpSign,
        temporary, carry]
      omega

theorem emits_divideStart {ctx₂ ctx₃ ctx₄ ctx₅ ctx₆ ctx₇ ctx₈ ctx₉ ctx₁₀ : Context}
    (hs : ctx.Sound cfg) (hd : IsRegister d) (hr : IsRegister s) (hz : IsConstant ctx z 0)
    (hone : IsConstant ctx one 1) (h₁ : ctx.emit 5 divFlags cmpEq = some ctx₂)
    (h₂ : ctx₂.emit 32 divNum d = some ctx₃) (h₃ : ctx₃.emit 32 divDen s = some ctx₄)
    (h₄ : ctx₄.emit 1 divNumSign (divNum + 31) = some ctx₅)
    (h₅ : ctx₅.emit 1 divDenSign (divDen + 31) = some ctx₆)
    (h₆ : (if signed then ctx₆.divideAbsolute z else some ctx₆) = some ctx₇)
    (h₇ : ctx₇.emit 32 divRem z = some ctx₈) (h₈ : ctx₈.emit 32 divQuo z = some ctx₉)
    (h₉ : ctx₉.emit 32 divMark one = some ctx₁₀) :
    Emits cfg ctx (DivideStart signed d s) ctx₁₀ := by
  have hcell : ∀ {a n}, Scratch a n → Behind cfg a n := fun ha ↦ ha.behind hs
  have e₁ := emits_copy hs h₁ (by decide) (hcell (by decide))
  have e₂ := emits_word e₁.sound (by decide) (hd.behind hs) h₂
  have e₃ := emits_word e₂.sound (by decide) (hr.behind hs) h₃
  have e₄ := emits_bit e₃.sound (by decide) (hcell (by decide)) h₄
  have e₅ := emits_bit e₄.sound (by decide) (hcell (by decide)) h₅
  have operands : Emits cfg ctx (DivideOperands d s) ctx₆ := by
    refine ((((e₁.trans hs e₂).trans hs e₃).trans hs e₄).trans hs e₅).imp ?_
    rintro F - D D' - - ⟨D₄, ⟨D₃, ⟨D₂, ⟨D₁, r₁, r₂⟩, r₃⟩, r₄⟩, r₅⟩
    exact .of_steps hd hr r₁ r₂ r₃ r₄ r₅
  have e₆ : Emits cfg ctx₆ (fun D D' ↦ if signed then DivideMagnitudes true D D' else D' = D)
      ctx₇ := by
    cases signed
    · obtain rfl := Option.some.inj h₆
      exact .refl operands.sound
    · exact emits_divideAbsolute operands.sound (hz.mono operands.extension) h₆
  have e₇ := emits_word e₆.sound (by decide) (hz.behind hs le_rfl) h₇
  have e₈ := emits_word e₇.sound (by decide) (hz.behind hs le_rfl) h₈
  have e₉ := emits_word e₈.sound (by decide) (hone.behind hs le_rfl) h₉
  have x := operands.extension.trans hs <| e₆.extension.trans operands.sound <|
    e₇.extension.trans e₆.sound <| e₈.extension.trans e₇.sound e₉.extension
  refine ((((operands.trans hs e₆).trans hs e₇).trans hs e₈).trans hs e₉).imp ?_
  rintro F hF D D' hD - ⟨D₄, ⟨D₃, ⟨D₂, ⟨D₁, r₁, r₂⟩, r₃⟩, r₄⟩, r₅⟩
  exact .of_steps r₁ r₂ ((hz.mono x).word e₉.sound hF hD) ((hone.mono x).word e₉.sound hF hD)
    (hz.bounds hs).2 (hone.bounds hs).2 r₃ r₄ r₅

theorem emits_divideEnd {ctx₂ ctx₃ : Context} (hs : ctx.Sound cfg) (hd : IsRegister d)
    (hz : IsConstant ctx z 0) (hone : IsConstant ctx one 1)
    (h₁ : (if signed then ctx.divideNegate z one remainder else some ctx) = some ctx₁)
    (h₂ : ctx₁.emit 32 d (if remainder then divRem else divQuo) = some ctx₂)
    (h₃ : ctx₂.emit 5 cmpEq divFlags = some ctx₃) :
    Emits cfg ctx (fun D D' ↦ ∃ D₃ D₄, (if signed then DivideNegate remainder D D₃ else D₃ = D) ∧
      Places d (word D₃ (if remainder then divRem else divQuo)) D₃ D₄ ∧
      D' = D₄.blit 5 cmpEq divFlags) ctx₃ := by
  have hcell : ∀ {a n}, Scratch a n → Behind cfg a n := fun ha ↦ ha.behind hs
  have e₁ : Emits cfg ctx (fun D D' ↦ if signed then DivideNegate remainder D D' else D' = D)
      ctx₁ := by
    cases signed
    · obtain rfl := Option.some.inj h₁
      exact .refl hs
    · exact emits_divideNegate hs hz hone h₁
  have e₂ := emits_word e₁.sound hd.scratch (hcell (by cases remainder <;> decide)) h₂
  have e₃ := emits_copy e₂.sound h₃ (by decide) (hcell (by decide))
  refine ((e₁.trans hs e₂).trans hs e₃).imp ?_
  rintro F - D D' - - ⟨D₄, ⟨D₃, r₁, r₂⟩, r₃⟩
  exact ⟨D₃, D₄, r₁, r₂, r₃⟩

theorem emits_divide32 (hs : ctx.Sound cfg) (hd : IsRegister d) (hr : IsRegister s)
    (h : ctx.divide32 d s signed remainder = some ctx') :
    Emits cfg ctx (Divides signed remainder d s) ctx' := by
  obtain ⟨⟨z, ctx₁⟩, h₁, h⟩ := Option.bind_eq_some_iff.mp h
  obtain ⟨⟨one, ctx₂⟩, h₂, h⟩ := Option.bind_eq_some_iff.mp h
  obtain ⟨ctx₃, h₃, h⟩ := Option.bind_eq_some_iff.mp h
  obtain ⟨ctx₄, h₄, h⟩ := Option.bind_eq_some_iff.mp h
  obtain ⟨ctx₅, h₅, h⟩ := Option.bind_eq_some_iff.mp h
  obtain ⟨ctx₆, h₆, h⟩ := Option.bind_eq_some_iff.mp h
  obtain ⟨ctx₇, h₇, h⟩ := Option.bind_eq_some_iff.mp h
  obtain ⟨ctx₈, h₈, h⟩ := Option.bind_eq_some_iff.mp h
  obtain ⟨ctx₉, h₉, h⟩ := Option.bind_eq_some_iff.mp h
  obtain ⟨ctx₁₀, h₁₀, h⟩ := Option.bind_eq_some_iff.mp h
  obtain ⟨ctx₁₁, h₁₁, h⟩ := Option.bind_eq_some_iff.mp h
  obtain ⟨ctx₁₂, h₁₂, h⟩ := Option.bind_eq_some_iff.mp h
  obtain ⟨⟨loop, ctx₁₃⟩, h₁₃, h⟩ := Option.bind_eq_some_iff.mp h
  obtain ⟨⟨skip, ctx₁₄⟩, h₁₄, h⟩ := Option.bind_eq_some_iff.mp h
  obtain ⟨ctx₁₅, h₁₅, h⟩ := Option.bind_eq_some_iff.mp h
  obtain ⟨ctx₁₆, h₁₆, h⟩ := Option.bind_eq_some_iff.mp h
  obtain ⟨ctx₁₇, h₁₇, h⟩ := Option.bind_eq_some_iff.mp h
  obtain ⟨ctx₁₈, h₁₈, h⟩ := Option.bind_eq_some_iff.mp h
  obtain rfl := Option.some.inj h
  -- the operands, and the labels of the loop
  obtain ⟨e₁, hz, -, -⟩ := emits_constant hs (by decide) h₁
  obtain ⟨e₂, hone, -, -⟩ := emits_constant e₁.sound (by decide) h₂
  have hz := hz.mono e₂.extension
  have e₁₁ := emits_divideStart e₂.sound hd hr hz hone h₃ h₄ h₅ h₆ h₇ h₈ h₉ h₁₀ h₁₁
  have e₁₂ := emits_next e₁₁.sound h₁₂
  obtain ⟨e₁₃, hloop, hspot₁₃, -⟩ := emits_internalLabel e₁₂.sound h₁₃
  obtain ⟨e₁₄, hskip, hspot₁₄, hother⟩ := emits_internalLabel e₁₃.sound h₁₄
  obtain ⟨hloop, hne⟩ := hother loop hloop
  obtain ⟨e, hdefined, hkeep⟩ := emits_defineHere e₁₄.sound hloop
  have hskip := hkeep skip hne.symm hskip
  have hslot : (ctx₁₄.defineHere loop).program.image.slot = 3 :=
    (congrArg Spot.slot (hspot₁₄.trans hspot₁₃)).trans (spot_slot e₁₁.sound h₁₂)
  have hprelude : Emits cfg ctx (DivideStart signed d s) (ctx₁₄.defineHere loop) := by
    refine ((((((e₁.trans hs e₂).trans hs e₁₁).trans hs e₁₂).trans hs e₁₃).trans hs e₁₄).trans hs
      e).imp ?_
    rintro F - D D' - - ⟨D₆, ⟨D₅, ⟨D₄, ⟨D₃, ⟨D₂, ⟨D₁, rfl, rfl⟩, r⟩, rfl⟩, rfl⟩, rfl⟩, rfl⟩
    exact r
  have x := e₁₁.extension.trans e₂.sound <| e₁₂.extension.trans e₁₁.sound <|
    e₁₃.extension.trans e₁₂.sound <| e₁₄.extension.trans e₁₃.sound e.extension
  have hz := hz.mono x
  have hone := hone.mono x
  -- the loop, and what follows it
  obtain ⟨ctx', hbody, hbranch⟩ := emits_divideRound e.sound hz hone hskip h₁₅
  have hx := hbody.extension.trans e.sound hbranch.extension
  have hend := (emits_divideEnd hbranch.sound hd (hz.mono hx) (hone.mono hx) h₁₆ h₁₇ h₁₈).trans
    hbranch.sound (emits_compared (show ctx₁₈.Sound cfg from ?_) ctx.compared)
  · have hx' := hbranch.extension.trans hbody.sound hend.extension
    refine ⟨hend.sound, hprelude.extension.trans hs (hbody.extension.trans e.sound hx'),
      fun F hF D hD ↦ ?_⟩
    have hF' := hF.mono hbranch.sound hend.extension
    obtain ⟨D₁, hstart, hD₁, hl₁⟩ := hprelude.leads F
      (hF.mono e.sound (hbody.extension.trans e.sound hx')) D hD
    obtain ⟨D₂, hdivided, hD₂, hl₂⟩ := hbranch.loop hbody hslot hdefined hF'
      (P := Dividing (magnitude signed (word D d)) (magnitude signed (word D s)) D₁)
      (fun i hi D₁ D₂ _ _ hP hR ↦ hP.step hi hR) (i := 0) (by decide) hD₁ hstart.dividing
    obtain ⟨D₃, ⟨D₄, ⟨D₅, D₆, r₁, r₂, r₃⟩, rfl⟩, hD₃, hl₃⟩ := hend.leads F hF D₂ hD₂
    exact ⟨D₃, .of_steps hd hstart hdivided.done r₁ r₂ r₃, hD₃, (hl₁.trans hl₂).trans hl₃⟩
  · exact (emits_divideEnd hbranch.sound hd (hz.mono hx) (hone.mono hx) h₁₆ h₁₇ h₁₈).sound

end CopySpace.Link
