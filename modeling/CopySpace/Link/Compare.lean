import CopySpace.Link.Jumps

/-!
# Comparisons

A comparison goes through the bits of two words from the lowest: the unsigned order of what has been
read is the borrow of a subtraction.  From it and from the signs come the other flags.
-/

namespace CopySpace.Link

open Emit BitMachine

variable {cfg : Config} {ctx ctx' ctx₁ ctx₂ : Context}
  {F : Linked} {D D' : Bits} {left right n : Nat}

/-- A loop of the linker. -/
theorem emits_foldlM {f : Context → Nat → Option Context} {R : Nat → Bits → Bits → Prop}
    (hs : ctx.Sound cfg) (h : (List.range n).foldlM f ctx = some ctx')
    (hstep : ∀ i < n, ∀ ctx ctx' : Context, ctx.Sound cfg → f ctx i = some ctx' →
      Emits cfg ctx (R i) ctx') {P : Nat → Bits → Bits → Prop} (h0 : ∀ D, P 0 D D)
    (hP : ∀ i < n, ∀ D₀ D D', P i D₀ D → R i D D' → P (i + 1) D₀ D') :
    Emits cfg ctx (P n) ctx' := by
  induction n generalizing ctx' with
  | zero =>
      obtain rfl := Option.some.inj h
      exact (Emits.refl hs).imp fun _ _ D D' _ _ h ↦ h ▸ h0 D
  | succ n ih =>
      rw [List.range_succ, List.foldlM_append, Option.bind_eq_bind] at h
      obtain ⟨ctx₁, h₁, h₂⟩ := Option.bind_eq_some_iff.mp h
      simp only [List.foldlM_cons, List.foldlM_nil, bind_pure] at h₂
      have hfirst := ih h₁ (fun i hi ↦ hstep i (Nat.lt_succ_of_lt hi))
        fun i hi ↦ hP i (Nat.lt_succ_of_lt hi)
      refine (hfirst.trans hs (hstep n (Nat.lt_succ_self n) ctx₁ ctx' hfirst.sound h₂)).imp ?_
      rintro F - D D' - - ⟨D₁, hD₁, hR⟩
      exact hP n (Nat.lt_succ_self n) D D₁ D' hD₁ hR

/-- What the flags say of two words. -/
structure Flags (x y : BitVec 32) (D : Bits) : Prop where
  eq : D cmpEq = (x == y)
  ltu : D cmpLtu = x.ult y
  lts : D cmpLts = x.slt y
  leu : D cmpLeu = x.ule y
  les : D cmpLes = x.sle y

/-- A comparison. -/
structure Compares (left right : Nat) (D D' : Bits) : Prop where
  flags : Flags (word D left) (word D right) D'
  rest : ∀ p, ¬(cmpEq ≤ p ∧ p ≤ cmpSign) → D' p = D p

theorem word_congr {a : Nat} (h : ∀ i < 32, D' (a + i) = D (a + i)) : word D' a = word D a :=
  Bits.toBitVec_congr h

theorem Compares.congr {D₀ : Bits} (h : Compares left right D D') (hl : Separate left 32 cmpEq 6)
    (hr : Separate right 32 cmpEq 6) (hD : ∀ p, ¬(cmpEq ≤ p ∧ p ≤ cmpSign) → D p = D₀ p) :
    Compares left right D₀ D' := by
  unfold Separate at hl hr
  obtain ⟨hflags, hrest⟩ := h
  refine ⟨?_, fun p hp ↦ (hrest p hp).trans (hD p hp)⟩
  rwa [word_congr (fun i hi ↦ hD _ (by dsimp only [cmpEq, cmpSign] at *; omega)),
    word_congr (fun i hi ↦ hD _ (by dsimp only [cmpEq, cmpSign] at *; omega))] at hflags

/-- What has been found out after some bits. -/
structure Compared (left right n : Nat) (D D' : Bits) : Prop where
  eq : D' cmpEq = decide (∀ i < n, D (left + i) = D (right + i))
  ltu : D' cmpLtu = rippleCarry true (word D left) (word D right) n
  rest : ∀ p, p ≠ cmpEq → p ≠ cmpLtu → D' p = D p

theorem compare_bit (x y c : Bool) : (if x = y then c else y) = rippleNext true x y c := by
  cases x <;> cases y <;> cases c <;> rfl

theorem Compared.step {D₁ D₂ : Bits} (hl : Separate left 32 cmpEq 6)
    (hr : Separate right 32 cmpEq 6) (hn : n < 32)
    (h : Compared left right n D D₁) (hD₂ : D₂ = Function.update D₁ cmpLtu
      (if D₁ (left + n) = D₁ (right + n) then D₁ cmpLtu else D₁ (right + n)))
    (hD' : D' = Function.update D₂ cmpEq ((D₂ (left + n) == D₂ (right + n)) && D₂ cmpEq)) :
    Compared left right (n + 1) D D' := by
  unfold Separate at hl hr
  have hne : cmpEq ≠ cmpLtu := by decide
  have hbit : ∀ a, a + 32 ≤ cmpEq ∨ cmpEq + 6 ≤ a → a + n ≠ cmpEq ∧ a + n ≠ cmpLtu := by
    intro a ha
    dsimp only [cmpEq, cmpLtu] at *
    omega
  obtain ⟨hl₁, hl₂⟩ := hbit left hl
  obtain ⟨hr₁, hr₂⟩ := hbit right hr
  have hleft : D₁ (left + n) = D (left + n) := h.rest _ hl₁ hl₂
  have hright : D₁ (right + n) = D (right + n) := h.rest _ hr₁ hr₂
  have hltu : D₂ cmpLtu = rippleCarry true (word D left) (word D right) (n + 1) := by
    rw [hD₂, Function.update_self, hleft, hright, h.ltu, rippleCarry_succ _ _ _ hn, compare_bit,
      getLsbD_word _ _ hn, getLsbD_word _ _ hn]
  have hrest : ∀ p, p ≠ cmpLtu → D₂ p = D₁ p := fun p hp ↦ by
    rw [hD₂, Function.update_of_ne hp]
  refine ⟨?_, ?_, fun p hp hp' ↦ ?_⟩
  · rw [hD', Function.update_self, hrest _ hl₂, hrest _ hr₂, hrest _ hne, hleft, hright, h.eq]
    by_cases heq : D (left + n) = D (right + n)
    · rw [heq, beq_self_eq_true, Bool.true_and]
      refine decide_eq_decide.mpr ⟨fun hall i hi ↦ ?_, fun hall i hi ↦ hall i (by omega)⟩
      rcases Nat.lt_succ_iff_lt_or_eq.mp hi with hi | rfl
      · exact hall i hi
      · exact heq
    · rw [beq_false_of_ne heq, Bool.false_and]
      exact (decide_eq_false fun hall ↦ heq (hall n (Nat.lt_succ_self n))).symm
  · rw [hD', Function.update_of_ne hne.symm, hltu]
  · rw [hD', Function.update_of_ne hp, hrest p hp', h.rest p hp hp']

theorem emits_compareBit (hs : ctx.Sound cfg) (hleft : Behind cfg left 32)
    (hright : Behind cfg right 32) (hn : n < 32) (h : ctx.compareBit left right n = some ctx') :
    Emits cfg ctx (fun D D' ↦ ∃ D₂, D₂ = Function.update D cmpLtu
        (if D (left + n) = D (right + n) then D cmpLtu else D (right + n)) ∧
      D' = Function.update D₂ cmpEq ((D₂ (left + n) == D₂ (right + n)) && D₂ cmpEq)) ctx' := by
  obtain ⟨ctx₁, h₁, h₂⟩ := Option.bind_eq_some_iff.mp h
  have hbehind : ∀ {a}, Behind cfg a 32 → Behind cfg (a + n) 1 := fun ha ↦ by
    unfold Behind at ha ⊢
    omega
  have hflag : ∀ {a}, Scratch a 1 → Behind cfg a 1 := fun ha ↦ ha.behind hs
  have hfirst := emits_lookupLt hs h₁ (by decide) (hbehind hleft) (hbehind hright)
    (hflag (by decide))
  exact hfirst.trans hs (emits_lookupEq hfirst.sound h₂ (by decide) (hbehind hleft)
    (hbehind hright) (hflag (by decide)))

theorem eq_of_bits {x y : BitVec 32} (h : ∀ i < 32, x.getLsbD i = y.getLsbD i) : x = y :=
  BitVec.eq_of_getLsbD_eq fun i hi ↦ h i hi

/-- The loop of a comparison, with its first two copies. -/
theorem Compared.words (h : Compared left right 32 D D') :
    D' cmpEq = (word D left == word D right) ∧ D' cmpLtu = (word D left).ult (word D right) := by
  refine ⟨?_, ?_⟩
  · rw [h.eq, Bool.eq_iff_iff, decide_eq_true_iff, beq_iff_eq]
    refine ⟨fun hall ↦ eq_of_bits fun i hi ↦ ?_, fun heq i hi ↦ ?_⟩
    · rw [getLsbD_word _ _ hi, getLsbD_word _ _ hi, hall i hi]
    · rw [← getLsbD_word D left hi, ← getLsbD_word D right hi, heq]
  · rw [h.ltu, rippleCarry_width]
    rfl

/-- The flags that are made of the first two. -/
theorem Compared.flags {D₁ D₂ D₃ D₄ : Bits} (h : Compared left right 32 D D₁)
    (hl : Separate left 32 cmpEq 6) (hr : Separate right 32 cmpEq 6)
    (h₂ : D₂ = Function.update D₁ cmpSign (D₁ (left + 31) ^^ D₁ (right + 31)))
    (h₃ : D₃ = Function.update D₂ cmpLts (D₂ cmpSign ^^ D₂ cmpLtu))
    (h₄ : D₄ = Function.update D₃ cmpLeu (D₃ cmpLtu || D₃ cmpEq))
    (h₅ : D' = Function.update D₄ cmpLes (D₄ cmpLts || D₄ cmpEq)) : Compares left right D D' := by
  obtain ⟨heq, hltu⟩ := h.words
  unfold Separate at hl hr
  have hbit : ∀ a, a + 32 ≤ cmpEq ∨ cmpEq + 6 ≤ a → D₁ (a + 31) = (word D a).msb := by
    intro a ha
    rw [h.rest, BitVec.msb_eq_getLsbD_last, getLsbD_word _ _ (by decide)]
    · dsimp only [cmpEq] at *
      omega
    · dsimp only [cmpEq, cmpLtu] at *
      omega
  have hlts : D₃ cmpLts = (word D left).slt (word D right) := by
    rw [h₃, Function.update_self, h₂, Function.update_self, Function.update_of_ne (by decide),
      hbit left hl, hbit right hr, hltu, BitVec.slt_eq_ult]
  have hkeep : ∀ p, p ≠ cmpSign → p ≠ cmpLts → D₃ p = D₁ p := fun p hp hp' ↦ by
    rw [h₃, Function.update_of_ne hp', h₂, Function.update_of_ne hp]
  have hkeep' : ∀ p, p ≠ cmpLeu → D₄ p = D₃ p := fun p hp ↦ by rw [h₄, Function.update_of_ne hp]
  have hkeep'' : ∀ p, p ≠ cmpLes → D' p = D₄ p := fun p hp ↦ by rw [h₅, Function.update_of_ne hp]
  refine ⟨⟨?_, ?_, ?_, ?_, ?_⟩, fun p hp ↦ ?_⟩
  · rw [hkeep'' _ (by decide), hkeep' _ (by decide), hkeep _ (by decide) (by decide), heq]
  · rw [hkeep'' _ (by decide), hkeep' _ (by decide), hkeep _ (by decide) (by decide), hltu]
  · rw [hkeep'' _ (by decide), hkeep' _ (by decide), hlts]
  · rw [hkeep'' _ (by decide), h₄, Function.update_self, hkeep _ (by decide) (by decide),
      hkeep _ (by decide) (by decide), hltu, heq, Bool.eq_iff_iff, Bool.or_eq_true, beq_iff_eq,
      BitVec.ult_iff_lt, BitVec.ule_iff_le, BitVec.lt_def, BitVec.le_def, ← BitVec.toNat_inj]
    omega
  · rw [h₅, Function.update_self, hkeep' _ (by decide), hlts, hkeep' _ (by decide),
      hkeep _ (by decide) (by decide), heq, BitVec.sle_eq_slt_or_eq]
  · dsimp only [cmpEq, cmpSign] at hp
    rw [hkeep'' _ (by dsimp only [cmpLes]; omega), hkeep' _ (by dsimp only [cmpLeu]; omega),
      hkeep _ (by dsimp only [cmpSign]; omega) (by dsimp only [cmpLts]; omega),
      h.rest _ (by dsimp only [cmpEq]; omega) (by dsimp only [cmpLtu]; omega)]

theorem emits_compared (hs : ctx.Sound cfg) (compared : Bool) :
    Emits cfg ctx (fun D D' ↦ D' = D) { ctx with compared := compared } :=
  ⟨⟨hs.target, hs.address_le, hs.laid, hs.tables, hs.constants_le, hs.constants, hs.jumps_le,
    hs.jumps, hs.jumpTables, hs.jumpLayers, hs.jumpsApart, hs.calls, hs.internals, hs.memoryBytes,
    hs.memory_ge, hs.memory⟩, ⟨rfl, rfl, rfl, rfl, rfl, le_rfl, .inl ⟨rfl, rfl, le_rfl⟩,
      fun _ _ _ ↦ rfl, fun _ _ ↦ rfl, fun _ _ ↦ rfl, List.prefix_refl _, List.prefix_refl _,
      fun _ hj ↦ .inl hj, fun _ hk ↦ ⟨hk, rfl, rfl⟩, fun _ hk _ ↦ .inl hk, fun _ ha ↦ ha,
      fun _ ↦ ⟨rfl, rfl, id⟩,
      fun _ _ _ ↦ rfl⟩, fun _ _ D hD ↦ ⟨D, rfl, hD, .refl _ _⟩⟩

theorem labels_compare32 (h : ctx.compare32 left right = some ctx') :
    ctx'.labels = ctx.labels := by
  obtain ⟨ctx₁, h₁, h⟩ := Option.bind_eq_some_iff.mp h
  obtain ⟨ctx₂, h₂, h⟩ := Option.bind_eq_some_iff.mp h
  obtain ⟨ctx₃, h₃, h⟩ := Option.bind_eq_some_iff.mp h
  obtain ⟨ctx₄, h₄, h⟩ := Option.bind_eq_some_iff.mp h
  obtain ⟨ctx₅, h₅, h⟩ := Option.bind_eq_some_iff.mp h
  obtain ⟨ctx₆, h₆, h⟩ := Option.bind_eq_some_iff.mp h
  obtain ⟨ctx₇, h₇, h⟩ := Option.bind_eq_some_iff.mp h
  obtain rfl := Option.some.inj h
  have hfold : ctx₃.labels = ctx₂.labels :=
    labels_foldlM (fun h ↦ labels_bind labels_lookup labels_lookup h) h₃
  change ctx₇.labels = ctx.labels
  rw [labels_lookup h₇, labels_lookup h₆, labels_lookup h₅, labels_lookup h₄, hfold,
    labels_onProgram h₂, labels_onProgram h₁]

/-- A cell that is copied from a table of the comparisons. -/
theorem Linked.Runs.eqTable_bit (hF : F.Final cfg ctx) (hD : F.Runs D) {i : Nat} (hi : i < 8) :
    D (Link.eqTable + i) = (144 : Nat).testBit i :=
  (hD _ (.inr (.inr (.inr (.inl ⟨by omega, by omega⟩))))).trans (hF.tables.eq i hi)

/-- The flags after `compare32` are those of the two words, which it does not change. -/
theorem emits_compare32 (hs : ctx.Sound cfg) (hleft : Behind cfg left 32)
    (hright : Behind cfg right 32) (hl : Separate left 32 cmpEq 6) (hr : Separate right 32 cmpEq 6)
    (h : ctx.compare32 left right = some ctx') :
    Emits cfg ctx (Compares left right) ctx' := by
  obtain ⟨ctx₁, h₁, h⟩ := Option.bind_eq_some_iff.mp h
  obtain ⟨ctx₂, h₂, h⟩ := Option.bind_eq_some_iff.mp h
  obtain ⟨ctx₃, h₃, h⟩ := Option.bind_eq_some_iff.mp h
  obtain ⟨ctx₄, h₄, h⟩ := Option.bind_eq_some_iff.mp h
  obtain ⟨ctx₅, h₅, h⟩ := Option.bind_eq_some_iff.mp h
  obtain ⟨ctx₆, h₆, h⟩ := Option.bind_eq_some_iff.mp h
  obtain ⟨ctx₇, h₇, h⟩ := Option.bind_eq_some_iff.mp h
  obtain rfl := Option.some.inj h
  have hbit : ∀ {a}, Behind cfg a 32 → Behind cfg (a + 31) 1 := fun ha ↦ by
    unfold Behind at ha ⊢
    omega
  have e₁ := emits_copy hs h₁ (by decide) (hs.behind (by decide) (by decide))
  have e₂ := emits_copy e₁.sound h₂ (by decide) (hs.behind (by decide) (by decide))
  have e₃ := emits_foldlM (P := fun n D D' ↦ D cmpEq = true → D cmpLtu = false →
    Compared left right n D D') e₂.sound h₃
    (fun i hi ctx ctx' hs h ↦ emits_compareBit hs hleft hright hi h)
    (fun D heq hltu ↦ ⟨by rw [heq]; exact (decide_eq_true fun i hi ↦ absurd hi (by omega)).symm,
      by rw [hltu, rippleCarry_zero], fun _ _ _ ↦ rfl⟩)
    fun i hi D₀ D D' hP hR heq hltu ↦ by
      obtain ⟨D₂, hD₂, hD'⟩ := hR
      exact (hP heq hltu).step hl hr hi hD₂ hD'
  have hflag : ∀ {a}, Scratch a 1 → Behind cfg a 1 := fun ha ↦ ha.behind hs
  have e₄ := emits_lookup .xor e₃.sound h₄ (by decide) (hbit hleft)
    (hbit hright)
  have e₅ := emits_lookup .xor e₄.sound h₅ (by decide)
    (hflag (by decide)) (hflag (by decide))
  have e₆ := emits_lookup .or e₅.sound h₆ (by decide)
    (hflag (by decide)) (hflag (by decide))
  have e₇ := emits_lookup .or e₆.sound h₇ (by decide)
    (hflag (by decide)) (hflag (by decide))
  refine ((((((((e₁.trans hs e₂).trans hs e₃).trans hs e₄).trans hs e₅).trans hs e₆).trans hs
    e₇).trans hs (emits_compared e₇.sound true))).imp ?_
  rintro F hF D D' hD - ⟨D₇, ⟨D₆, ⟨D₅, ⟨D₄, ⟨D₃, ⟨D₂, ⟨D₁, hD₁, hD₂⟩, hD₃⟩, hD₄⟩, hD₅⟩, hD₆⟩,
    hD₇⟩, rfl⟩
  have hset : D₁ cmpEq = true := by
    rw [hD₁, blit_one, if_pos rfl, hD.eqTable_bit hF (by decide)]
    rfl
  have hclear : D₁ eqTable = false := by
    rw [hD₁, blit_one, if_neg (by decide), show eqTable = eqTable + 0 from rfl,
      hD.eqTable_bit hF (by decide)]
    rfl
  have heq : D₂ cmpEq = true := by rw [hD₂, blit_one, if_neg (by decide), hset]
  have hltu : D₂ cmpLtu = false := by rw [hD₂, blit_one, if_pos rfl, hclear]
  refine ((hD₃ heq hltu).flags hl hr hD₄ hD₅ hD₆ hD₇).congr hl hr fun p hp ↦ ?_
  dsimp only [cmpEq, cmpSign] at hp
  rw [hD₂, blit_one, if_neg (by dsimp only [cmpLtu]; omega), hD₁, blit_one,
    if_neg (by dsimp only [cmpEq]; omega)]

end CopySpace.Link
