import CopySpace.Link.Words

/-!
# `shift32`

A shift goes through the five low bits of the count.  For each of them every bit of the destination
is chosen between what is there and what is a power of two away, from a copy of the word.
-/

namespace CopySpace.Link

open Emit BitMachine

variable {cfg : Config} {ctx ctx' ctx₁ : Context} {F : Linked}
  {D D₀ D' : Bits} {d c stage i n : Nat} {right arithmetic : Bool} {x : BitVec 32}

/-- What the operator computes. -/
def shiftOf (right arithmetic : Bool) (n : Nat) (x : BitVec 32) : BitVec 32 :=
  if right then if arithmetic then x.sshiftRight n else x >>> n else x <<< n

theorem shiftOf_add (a b : Nat) (x : BitVec 32) :
    shiftOf right arithmetic (a + b) x =
      shiftOf right arithmetic b (shiftOf right arithmetic a x) := by
  unfold shiftOf
  cases right
  · exact BitVec.shiftLeft_add x a b
  · cases arithmetic
    · exact BitVec.shiftRight_add x a b
    · exact BitVec.sshiftRight_add

theorem shiftOf_zero (x : BitVec 32) : shiftOf right arithmetic 0 x = x := by
  unfold shiftOf
  cases right
  · exact BitVec.shiftLeft_zero x
  · cases arithmetic
    · exact BitVec.ushiftRight_zero x
    · exact BitVec.sshiftRight_zero

/-- The bit that a stage moves to a place is that of the shifted word. -/
theorem getLsbD_shiftOf (hz : D shiftZero = false) (hi : i < 32) :
    D (Context.shiftSelected right arithmetic n i) =
      (shiftOf right arithmetic n (word D shiftWord)).getLsbD i := by
  unfold Context.shiftSelected shiftOf
  cases right
  · rw [if_neg Bool.false_ne_true, if_neg Bool.false_ne_true, BitVec.getLsbD_shiftLeft]
    by_cases hle : i ≥ n
    · rw [if_pos hle, getLsbD_word _ _ (by omega), Nat.add_sub_assoc hle]
      simp [hi, Nat.not_lt.mpr hle]
    · rw [if_neg hle, hz]
      simp [Nat.not_le.mp hle]
  · rw [if_pos rfl, if_pos rfl]
    cases arithmetic
    · rw [if_neg Bool.false_ne_true, if_neg Bool.false_ne_true, BitVec.getLsbD_ushiftRight]
      by_cases hlt : i + n < 32
      · rw [if_pos hlt, getLsbD_word _ _ (by omega)]
        exact congrArg D (by omega)
      · rw [if_neg hlt, hz, BitVec.getLsbD_of_ge _ _ (by omega)]
    · rw [if_pos rfl, if_pos rfl, BitVec.getLsbD_sshiftRight, Nat.add_comm n i,
        decide_eq_false (Nat.not_le.mpr hi), Bool.not_false, Bool.true_and]
      by_cases hlt : i + n < 32
      · rw [if_pos hlt, if_pos hlt, getLsbD_word _ _ hlt, ← Nat.add_assoc]
      · rw [if_neg hlt, if_neg hlt, BitVec.msb_eq_getLsbD_last, getLsbD_word _ _ (by decide)]

/-! ## One bit -/

/-- The rows of a stage for one bit. -/
def shiftRows (cfg : Config) (right arithmetic : Bool) (d stage bit i : Nat) : List Instruction :=
  [⟨1, shiftPair, shiftWord + bit⟩,
    ⟨1, shiftPair + 1, Context.shiftSelected right arithmetic (2 ^ stage) bit⟩,
    ⟨1, cfg.srcBit (i + 3) 0, shiftCount + stage⟩, ⟨1, d + bit, shiftPair⟩]

/-- The pair that a bit is chosen from, and the bit. -/
def shiftStep (right arithmetic : Bool) (d stage bit : Nat) (D : Bits) : Bits :=
  let old := D (shiftWord + bit)
  let new := D (Context.shiftSelected right arithmetic (2 ^ stage) bit)
  Function.update (Function.update (Function.update D shiftPair old) (shiftPair + 1) new) (d + bit)
    (if D (shiftCount + stage) then new else old)

theorem shiftSelected_bounds (right arithmetic : Bool) (n : Nat) (hi : i < 32) :
    shiftWord ≤ Context.shiftSelected right arithmetic n i ∧
      Context.shiftSelected right arithmetic n i ≤ shiftZero ∧
      (Context.shiftSelected right arithmetic n i < shiftCount ∨
        Context.shiftSelected right arithmetic n i = shiftZero) := by
  unfold Context.shiftSelected
  split
  · split
    · dsimp only [shiftWord, shiftCount, shiftZero]
      omega
    · split <;> dsimp only [shiftWord, shiftCount, shiftZero] <;> omega
  · split
    · dsimp only [shiftWord, shiftCount, shiftZero]
      omega
    · dsimp only [shiftWord, shiftZero]
      omega

theorem performs_shiftRows (hs : ctx.Sound cfg) {slot : Nat} (hslot : 3 ≤ slot) (hd : IsRegister d)
    (hstage : stage < 5) (hi : i < 32) (D : Bits) :
    Performs cfg slot (shiftRows cfg right arithmetic d stage i slot) D
      (shiftStep right arithmetic d stage i D) := by
  have hbounds := hd.bounds
  obtain ⟨h₁, h₂, h₃⟩ := shiftSelected_bounds right arithmetic (2 ^ stage) hi
  dsimp only [shiftWord, shiftCount, shiftZero, regBase] at h₁ h₂ h₃ hbounds
  have h5 := hs.target.five_le
  have hbehind : ∀ a, constantBase ≤ a → a < branchTable → Behind cfg a 1 := fun a h h' ↦ hs.behind h h'
  unfold shiftRows
  refine .copy hslot (fun _ ↦ hbehind _ (by decide) (by decide)) (fun _ ↦ hbehind _ ?_ ?_) ?_
  · dsimp only [constantBase, shiftWord]
    omega
  · dsimp only [shiftWord, branchTable]
    omega
  refine .copy (by omega) (fun _ ↦ hbehind _ (by decide) (by decide)) (fun _ ↦ hbehind _ ?_ ?_) ?_
  · dsimp only [constantBase]
    omega
  · dsimp only [branchTable]
    omega
  refine .patchSrc (k := 0) (by omega) one_ne_zero (by omega) (Nat.zero_lt_succ _)
    (hbehind _ ?_ ?_) ?_
  · dsimp only [constantBase, shiftCount]
    omega
  · dsimp only [shiftCount, branchTable]
    omega
  have hold : shiftPair + 1 ≠ shiftPair := by decide
  have hcount : ∀ p, shiftCount ≤ p → p < shiftPair →
      ((D.blit 1 shiftPair (shiftWord + i)).blit 1 (shiftPair + 1)
        (Context.shiftSelected right arithmetic (2 ^ stage) i)) p = D p := fun p _ hp ↦ by
    rw [blit_one, if_neg (by omega), blit_one, if_neg (by omega)]
  have hbit : Bits.splice 0 1 (((D.blit 1 shiftPair (shiftWord + i)).blit 1 (shiftPair + 1)
      (Context.shiftSelected right arithmetic (2 ^ stage) i)).field (shiftCount + stage) 1)
      shiftPair = shiftPair + (D (shiftCount + stage)).toNat := by
    rw [Bits.splice_of_zero (Bits.field_lt _ _ _) (by decide), Bits.field_one, Nat.pow_zero,
      Nat.one_mul, hcount]
    · omega
    · dsimp only [shiftCount, shiftPair]
      omega
  rw [List.modify_zero_cons, Instruction.patchSrc, hbit]
  have hlast : shiftStep right arithmetic d stage i D =
      ((D.blit 1 shiftPair (shiftWord + i)).blit 1 (shiftPair + 1)
        (Context.shiftSelected right arithmetic (2 ^ stage) i)).blit 1 (d + i)
        (shiftPair + (D (shiftCount + stage)).toNat) := by
    have hnew : Context.shiftSelected right arithmetic (2 ^ stage) i ≠ shiftPair := by
      dsimp only [shiftPair]
      omega
    funext p
    rw [blit_one, shiftStep, Function.update_apply]
    refine if_congr Iff.rfl ?_ ?_
    · cases D (shiftCount + stage)
      · rw [Bool.toNat_false, Nat.add_zero shiftPair, blit_one, if_neg hold.symm, blit_one,
          if_pos rfl, if_neg Bool.false_ne_true]
      · rw [Bool.toNat_true, blit_one, if_pos rfl, blit_one, if_neg hnew, if_pos rfl]
    · rw [blit_one, Function.update_apply, Function.update_apply, blit_one, blit_one, if_neg hnew]
  rw [hlast]
  refine .copy (by omega) (fun _ ↦ hbehind _ ?_ ?_) (fun _ ↦ hbehind _ ?_ ?_) performs_nil
  · dsimp only [constantBase]
    omega
  · dsimp only [branchTable]
    omega
  · exact (show constantBase ≤ shiftPair by decide).trans (Nat.le_add_right _ _)
  · have := Bool.toNat_le (D (shiftCount + stage))
    dsimp only [shiftPair, branchTable]
    omega

theorem emits_shiftBit (hs : ctx.Sound cfg) (hd : IsRegister d) (hstage : stage < 5) (hi : i < 32)
    (h : Context.shiftBit right arithmetic d stage ctx i = some ctx') :
    Emits cfg ctx (fun D D' ↦ D' = shiftStep right arithmetic d stage i D) ctx' := by
  unfold Context.shiftBit at h
  obtain ⟨ctx₁, hfit, h⟩ := Option.bind_eq_some_iff.mp h
  refine emits_fitSlots hs (by decide) hfit fun hs₁ hslot ↦ ?_
  have hrows : ctx₁.emitRows (shiftRows cfg right arithmetic d stage i ctx₁.program.image.slot) =
      some ctx' := by
    rw [← h]
    simp only [Context.emitRows, shiftRows, List.foldlM_cons, List.foldlM_nil, bind_pure,
      Context.sourceField_eq hs₁]
  have hlen : ctx₁.program.image.slot + (shiftRows cfg right arithmetic d stage i
      ctx₁.program.image.slot).length ≤ 255 := Nat.add_le_add_right hslot 4
  refine emits_emitRows hs₁ hlen hrows
    (performs_shiftRows hs₁ hs₁.laid.three_le hd hstage hi) fun F hF D p hp ↦ ?_
  have hne : ∀ a, Scratch a 1 → p ≠ a := fun a ha hpa ↦
    ha.not_kept (hpa ▸ le_rfl) (hpa ▸ Nat.lt_succ_self _) hp
  have hbounds := hd.bounds
  dsimp only [shiftStep]
  rw [Function.update_of_ne (hne _ _), Function.update_of_ne (hne _ (by decide)),
    Function.update_of_ne (hne _ (by decide))]
  dsimp only [Scratch, regBase, addTable] at *
  omega

/-! ## One stage -/

/-- What a shift may change. -/
def ShiftScratch (p : Nat) : Prop := shiftWord ≤ p ∧ p < shiftZero

/-- A stage after some bits. -/
structure Shifting (right arithmetic : Bool) (d stage n : Nat) (D₀ D : Bits) : Prop where
  done : ∀ i < n, D (d + i) = if D₀ (shiftCount + stage) then
    D₀ (Context.shiftSelected right arithmetic (2 ^ stage) i) else D₀ (shiftWord + i)
  rest : ∀ p, ¬(d ≤ p ∧ p < d + n) → ¬(shiftPair ≤ p ∧ p ≤ shiftPair + 1) → D p = D₀ p

theorem Shifting.step (hd : IsRegister d) (hstage : stage < 5) (hi : i < 32)
    (h : Shifting right arithmetic d stage i D₀ D) :
    Shifting right arithmetic d stage (i + 1) D₀ (shiftStep right arithmetic d stage i D) := by
  obtain ⟨hdone, hrest⟩ := h
  have hbounds := hd.bounds
  obtain ⟨h₁, h₂, h₃⟩ := shiftSelected_bounds right arithmetic (2 ^ stage) hi
  have hread : ∀ p, shiftWord ≤ p → ¬(shiftPair ≤ p ∧ p ≤ shiftPair + 1) → D p = D₀ p :=
    fun p hp ↦ hrest p (by
      dsimp only [regBase, shiftWord] at *
      omega)
  refine ⟨fun j hj ↦ ?_, fun p hp hp' ↦ ?_⟩
  · rcases Nat.lt_succ_iff_lt_or_eq.mp hj with hj | rfl
    · dsimp only [shiftStep, regBase, shiftPair] at *
      rw [Function.update_of_ne (by omega), Function.update_of_ne (by omega),
        Function.update_of_ne (by omega), hdone j hj]
    · have hselected := hread _ h₁ (by
        dsimp only [shiftPair, shiftCount, shiftZero] at *
        omega)
      have hold := hread (shiftWord + j) (Nat.le_add_right _ _) (by
        dsimp only [shiftPair, shiftWord]
        omega)
      have hcount := hread (shiftCount + stage) (by
        dsimp only [shiftCount, shiftWord]
        omega) (by
        dsimp only [shiftPair, shiftCount]
        omega)
      rw [shiftStep, Function.update_self, hselected, hold, hcount]
  · dsimp only [shiftStep]
    rw [Function.update_of_ne (by omega), Function.update_of_ne (by omega),
      Function.update_of_ne (by omega), hrest p (by omega) hp']

/-- A stage of a shift. -/
structure ShiftStage (right arithmetic : Bool) (d stage : Nat) (D D' : Bits) : Prop where
  result : word D' d = if D (shiftCount + stage) then
    shiftOf right arithmetic (2 ^ stage) (word D d) else word D d
  rest : ∀ p, ¬(d ≤ p ∧ p < d + 32) → ¬ ShiftScratch p → D' p = D p
  count : ∀ i < 5, D' (shiftCount + i) = D (shiftCount + i)

theorem emits_shiftStage (hs : ctx.Sound cfg) (hd : IsRegister d) (hstage : stage < 5)
    (h : Context.shiftStage right arithmetic d ctx stage = some ctx') :
    Emits cfg ctx (ShiftStage right arithmetic d stage) ctx' := by
  obtain ⟨ctx₁, h₁, h₂⟩ := Option.bind_eq_some_iff.mp h
  have hbounds := hd.bounds
  have e₁ := emits_word hs (by decide) (hd.behind hs) h₁
  have e₂ := emits_foldlM (P := Shifting right arithmetic d stage) e₁.sound h₂
    (fun i hi ctx ctx' hs h ↦ emits_shiftBit hs hd hstage hi h)
    (fun D ↦ ⟨fun i hi ↦ absurd hi (Nat.not_lt_zero i), fun _ _ _ ↦ rfl⟩)
    fun i hi D₀ D D' hP hD' ↦ hD' ▸ hP.step hd hstage hi
  refine (e₁.trans hs e₂).imp ?_
  rintro F hF D D' hD hD' ⟨D₁, hword, hdone, hrest⟩
  have hcount : ∀ i < 5, D₁ (shiftCount + i) = D (shiftCount + i) := fun i hi ↦
    hword.rest _ (by
      dsimp only [shiftWord, shiftCount]
      omega)
  have hz : D₁ shiftZero = false := by
    rw [hword.rest _ (by decide), hD _ (.inr (.inr (.inl rfl))), hF.tables.zero]
  refine ⟨Bits.toBitVec_eq fun i hi ↦ ?_, fun p hp hp' ↦ ?_, fun i hi ↦ ?_⟩
  · rw [hdone i hi, hcount stage hstage]
    split
    · rw [getLsbD_shiftOf hz hi, hword.word]
    · rw [← getLsbD_word D₁ shiftWord hi, hword.word]
  · dsimp only [ShiftScratch, shiftWord, shiftZero, shiftPair] at *
    rw [hrest p hp (by omega), hword.rest p (by omega)]
  · dsimp only [regBase, shiftCount, shiftPair] at *
    rw [hrest _ (by omega) (by omega), hcount i hi]

/-! ## All stages -/

/-- What a shift does. -/
structure Shifts (right arithmetic : Bool) (d c : Nat) (D D' : Bits) : Prop where
  result : word D' d = shiftOf right arithmetic ((word D c).toNat % 32) (word D d)
  rest : ∀ p, ¬(d ≤ p ∧ p < d + 32) → ¬ ShiftScratch p → D' p = D p

/-- A shift after some stages. -/
structure ShiftStages (right arithmetic : Bool) (d n : Nat) (D₀ D : Bits) : Prop where
  result : ∀ count : Nat, (∀ i < 5, D₀ (shiftCount + i) = count.testBit i) →
    word D d = shiftOf right arithmetic (count % 2 ^ n) (word D₀ d)
  rest : ∀ p, ¬(d ≤ p ∧ p < d + 32) → ¬ ShiftScratch p → D p = D₀ p
  count : ∀ i < 5, D (shiftCount + i) = D₀ (shiftCount + i)

theorem ShiftStages.step (hn : n < 5) (h : ShiftStages right arithmetic d n D₀ D)
    (hR : ShiftStage right arithmetic d n D D') : ShiftStages right arithmetic d (n + 1) D₀ D' := by
  refine ⟨fun count hcount ↦ ?_, fun p hp hp' ↦ (hR.rest p hp hp').trans (h.rest p hp hp'),
    fun i hi ↦ (hR.count i hi).trans (h.count i hi)⟩
  rw [hR.result, h.count n hn, hcount n hn, h.result count hcount,
    Digits.shift_succ shiftOf_add]

theorem emits_shift32 (hs : ctx.Sound cfg) (hd : IsRegister d) (hc : IsRegister c)
    (h : ctx.shift32 right arithmetic d c = some ctx') :
    Emits cfg ctx (Shifts right arithmetic d c) ctx' := by
  obtain ⟨ctx₁, h₁, h₂⟩ := Option.bind_eq_some_iff.mp h
  have hbehind := hc.behind hs
  have hbounds := hd.bounds
  have e₁ := emits_copy hs h₁ (by decide) ⟨hbehind.1, by
    have := hbehind.2
    omega⟩
  have e₂ := emits_foldlM (P := ShiftStages right arithmetic d) e₁.sound h₂
    (fun i hi ctx ctx' hs h ↦ emits_shiftStage hs hd hi h)
    (fun D ↦ ⟨fun count _ ↦ by rw [Nat.pow_zero, Nat.mod_one, shiftOf_zero],
      fun _ _ _ ↦ rfl, fun _ _ ↦ rfl⟩) fun i hi D₀ D D' hP hR ↦ hP.step hi hR
  refine (e₁.trans hs e₂).imp ?_
  rintro F - D D' - - ⟨D₁, rfl, hresult, hrest, -⟩
  have hword : word (D.blit 5 shiftCount c) d = word D d := word_congr fun i hi ↦
    Bits.blit_of_notMem _ (by
      dsimp only [regBase, shiftCount] at *
      omega)
  refine ⟨?_, fun p hp hp' ↦ ?_⟩
  · have hcount : ∀ i < 5, D.blit 5 shiftCount c (shiftCount + i) = (word D c).toNat.testBit i :=
      fun i hi ↦ by
        rw [Bits.blit_add _ hi, ← getLsbD_word D c (by omega)]
        rfl
    rw [hresult _ hcount, hword]
    rfl
  · rw [hrest p hp hp', Bits.blit_of_notMem]
    dsimp only [ShiftScratch, shiftWord, shiftCount, shiftZero] at *
    omega

end CopySpace.Link
