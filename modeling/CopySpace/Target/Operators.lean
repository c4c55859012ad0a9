import CopySpace.Link.Multiply
import CopySpace.Target.Represents

/-!
# Operators of the target machine

The operators that work on registers do what the operations of the target machine say.
-/

namespace CopySpace.Target

open Link Emit BitMachine

variable {cfg : Config} {ctx ctx' ctx₁ ctx₂ : Context} {F : Linked} {D D' : Bits} {base n : Nat}
  {s s' : State} {d r : Register} {v : Word} {R : Bits → Bits → Prop} {o : Operation}

/-! ## Words -/

theorem Sets.of_sums {subtract : Bool} {x y : Nat} (h : Sums subtract (registerAt d) x y D D') :
    Sets d (rippleResult subtract (Emit.word D x) (Emit.word D y)) D D' := by
  refine ⟨h.result, fun p hp hd ↦ h.rest p hd ?_⟩
  dsimp only [Visible, temporary, carry, regBase, cmpEq, cmpLes, branchTable] at *
  omega

theorem emits_bits32 {d l r : Nat} {operation : BitOperation} (hs : ctx.Sound cfg)
    (h : ctx.bits32 operation d l r = some ctx') (hd : Scratch d 32) :
    Emits cfg ctx (fun D D' ↦ Places d (operation.apply (word D l) (word D r)) D D') ctx' := by
  obtain ⟨program, hr, rfl⟩ := Context.onProgram_eq_some h
  have hsucceeds : (Call.bits32 operation d l r (Context.bitTable operation)).Succeeds cfg
      ctx.capacities.codeBegin ctx.program.codeLimit ctx.program program :=
    Call.succeeds hs.target hs.laid.toFor trivial hr
  have htable : andTable ≤ Context.bitTable operation ∧
      Context.bitTable operation + 4 ≤ temporary := by cases operation <;> decide
  have hrest : ∀ (m : Bits) p, ¬(andTable ≤ p ∧ p < temporary) →
      (Call.bits32 operation d l r (Context.bitTable operation)).tables m p = m p := fun m p hp ↦
    Bits.putField_of_notMem _ (by omega)
  refine (emits_call hs hsucceeds (fun m p hp ↦ hrest m p ?_) (fun m hm ↦ ?_)
    (fun m s hm ↦ ?_) (fun F hF D hD i hi ↦ ?_) fun F p hw ↦ ?_).imp ?_
  · dsimp only [addTable, andTable, carry, temporary] at *
    omega
  · refine ⟨fun i hi ↦ (hrest m _ ?_).trans (hm.eq i hi),
      fun i hi ↦ (hrest m _ ?_).trans (hm.lt i hi),
      fun op i hi ↦ ?_, (hrest m _ (by decide)).trans hm.zero⟩
    · dsimp only [eqTable, temporary]
      omega
    · dsimp only [ltTable, temporary]
      omega
    · have hbit := hm.bit op i hi
      change m.putField (Context.bitTable operation) 4 operation.truth _ = _
      by_cases hop : op = operation
      · subst hop
        rw [Bits.putField_of_mem _ (by omega), Nat.add_sub_cancel_left]
      · rw [Bits.putField_of_notMem _ ?_, hbit]
        revert hop
        cases op <;> cases operation <;>
          dsimp only [Context.bitTable, andTable, orTable, xorTable] <;> simp <;> omega
  · refine hm.congr fun p hp hp' ↦ hrest m p ?_
    omega
  · have hi : i < 4 := hi
    have hbit := hF.tables.bit operation i hi
    refine Eq.trans (hD _ (.inr (.inl ⟨?_, ?_⟩))) hbit
    · dsimp only [Call.table, addTable, andTable] at *
      omega
    · dsimp only [Call.table]
      omega
  · obtain ⟨w, hw, h₁, h₂⟩ := hw
    obtain rfl := List.mem_singleton.mp hw
    exact hd.not_kept h₁ h₂
  · rintro F - D D' - - rfl
    refine places_of_bits (fun i hi ↦ ?_) fun p hp ↦ Bits.putField_of_notMem _ hp
    change D.putField d 32 _ _ = _
    rw [Bits.putField_of_mem _ (by omega), Nat.add_sub_cancel_left]
    rfl

theorem Implements.of_places {f : (Register → Word) → Word}
    (h : Emits cfg ctx (fun D D' ↦ Places (registerAt d) (f (registersIn D)) D D') ctx')
    (hrun : ∀ n s, o.run n s = some (s.set d (f s.register))) : Implements cfg ctx o ctx' :=
  .of_sets (h.imp fun _ _ _ _ _ _ hp ↦ .of_places hp) hrun

/-- A constant that is entered changes nothing. -/
theorem emits_afterConstant {a v : Nat} (hs : ctx.Sound cfg) (hv : v < 2 ^ 32)
    (h : ctx.constant v = some (a, ctx₁))
    (h' : ctx₁.Sound cfg → IsConstant ctx₁ a v → Emits cfg ctx₁ R ctx') : Emits cfg ctx R ctx' := by
  obtain ⟨e, ha, -, -⟩ := emits_constant hs hv h
  refine (e.trans hs (h' e.sound ha)).imp ?_
  rintro F - D D' - - ⟨D₁, rfl, hR⟩
  exact hR

theorem word_constant {a v : Nat} (ha : IsConstant ctx a v) (hs : ctx.Sound cfg)
    (h : Emits cfg ctx R ctx') (hF : F.Final cfg ctx') (hD : F.Runs D) :
    word D a = BitVec.ofNat 32 v := ha.word hs (hF.mono hs h.extension) hD

/-! ## Copies -/

theorem implements_nop (hs : ctx.Sound cfg) : Implements cfg ctx .nop ctx := by
  refine .of_emits (.refl hs) (f := id) (fun _ _ ↦ rfl) ?_
  rintro base n - D D' s hs rfl
  exact hs

theorem implements_move (hs : ctx.Sound cfg)
    (h : ctx.emit 32 (registerAt d) (registerAt r) = some ctx') :
    Implements cfg ctx (.unary .move d r) ctx' :=
  .of_places (f := fun g ↦ g r) (emits_word hs (isRegister_registerAt d).scratch
    ((isRegister_registerAt r).behind hs) h) fun _ _ ↦ rfl

theorem implements_constant {a value : Nat} (hs : ctx.Sound cfg) (hv : value < 2 ^ 32)
    (hc : ctx.constant value = some (a, ctx₁)) (h : ctx₁.emit 32 (registerAt d) a = some ctx') :
    Implements cfg ctx (.constant d (BitVec.ofNat 32 value)) ctx' := by
  refine .of_places (f := fun _ ↦ BitVec.ofNat 32 value)
    (emits_afterConstant hs hv hc fun hs₁ ha ↦ ?_) fun _ _ ↦ rfl
  have he := emits_word hs₁ (isRegister_registerAt d).scratch (ha.behind hs₁ le_rfl) h
  refine he.imp fun F hF D D' hD _ hp ↦ ?_
  rwa [word_constant ha hs₁ he hF hD] at hp

/-! ## Extension -/

theorem scratch_sub {a i k : Nat} (h : Scratch a 32) (hi : i + k ≤ 32) : Scratch (a + i) k := by
  unfold Scratch at *
  omega

theorem behind_sub {a i k : Nat} (h : Behind cfg a 32) (hi : i + k ≤ 32) :
    Behind cfg (a + i) k := by
  unfold Behind at *
  omega

/-- The low bits of a word are copied. -/
theorem emits_low {a b w : Nat} (hs : ctx.Sound cfg) (ha : Scratch a 32) (hb : Behind cfg b 32)
    (hw : w ≤ 32) (h : ctx.emit w a b = some ctx') :
    Emits cfg ctx (fun D D' ↦ D' = D.blit w a b) ctx' :=
  emits_copy hs h (scratch_sub (i := 0) ha (by omega)) (behind_sub (i := 0) hb (by omega))

theorem places_zeroExtend {a b z w : Nat} {D₁ : Bits} (hw : w ≤ 32) (hz : z + 32 ≤ a)
    (h0 : ∀ i < 32, D (z + i) = false) (h₁ : D₁ = D.blit w a b)
    (h₂ : D' = D₁.blit (32 - w) (a + w) z) :
    Places a (((word D b).setWidth w).setWidth 32) D D' := by
  subst h₁ h₂
  refine places_of_bits (fun i hi ↦ ?_) fun p hp ↦ ?_
  · rw [BitVec.getLsbD_setWidth, BitVec.getLsbD_setWidth]
    by_cases hiw : i < w
    · rw [Bits.blit_of_notMem _ (by omega), Bits.blit_add _ hiw, getLsbD_word _ _ hi]
      simp [hi, hiw]
    · rw [Bits.blit_of_mem _ (by omega), Bits.blit_of_notMem _ (by omega),
        show z + (a + i - (a + w)) = z + (i - w) by omega, h0 _ (by omega)]
      simp [hiw]
  · rw [Bits.blit_of_notMem _ (by omega), Bits.blit_of_notMem _ (by omega)]

theorem implements_zeroExtend {w : Nat} (hs : ctx.Sound cfg) (hw : w < 32)
    (h : ctx.extend32 w false (registerAt d) (registerAt r) = some ctx') :
    Implements cfg ctx (.unary (.zeroExtend w) d r) ctx' := by
  obtain ⟨ctx₁, h₁, h⟩ := Option.bind_eq_some_iff.mp h
  obtain ⟨⟨z, ctx₂⟩, h₂, h₃⟩ := Option.bind_eq_some_iff.mp h
  have hd := isRegister_registerAt d
  have e₁ := emits_low hs hd.scratch ((isRegister_registerAt r).behind hs) hw.le h₁
  obtain ⟨e₂, hz, -, -⟩ := emits_constant e₁.sound (by decide) h₂
  have e₃ := emits_copy e₂.sound h₃ (scratch_sub hd.scratch (by omega))
    (hz.behind e₂.sound (by omega))
  refine .of_places (f := fun g ↦ ((g r).setWidth w).setWidth 32)
    (((e₁.trans hs e₂).trans hs e₃).imp ?_) fun _ _ ↦ rfl
  rintro F hF D D' hD - ⟨D₂, ⟨D₁, h₁, rfl⟩, h₂⟩
  have hzero : ∀ i < 32, D (z + i) = false := fun i hi ↦
    (hz.bit e₂.sound (hF.mono e₂.sound e₃.extension) hD hi).trans (Nat.zero_testBit i)
  exact places_zeroExtend hw.le ((hz.bounds e₂.sound).2.trans hd.bounds.1) hzero h₁ h₂

/-- The loop of a sign extension. -/
theorem emits_signs {a w k : Nat} (hs : ctx.Sound cfg) (ha : Scratch a 32) (hb : Behind cfg a 32)
    (hw : 0 < w) (hk : w + k ≤ 32)
    (h : (List.range k).foldlM (fun ctx i ↦ ctx.emit 1 (a + (w + i)) (a + w - 1)) ctx =
      some ctx') :
    Emits cfg ctx (fun D D' ↦ ∀ p, D' p =
      if a + w ≤ p ∧ p < a + w + k then D (a + w - 1) else D p) ctx' := by
  refine emits_foldlM (R := fun i D D' ↦ D' = Function.update D (a + (w + i)) (D (a + w - 1)))
    (P := fun i D D' ↦ ∀ p, D' p = if a + w ≤ p ∧ p < a + w + i then D (a + w - 1) else D p)
    hs h (fun i hi ctx ctx' hs h ↦ ?_) (fun D p ↦ ?_) ?_
  · have hsign : Behind cfg (a + w - 1) 1 := by
      rw [show a + w - 1 = a + (w - 1) by omega]
      exact behind_sub hb (by omega)
    exact emits_bit hs (scratch_sub ha (by omega)) hsign h
  · rw [if_neg (by omega)]
  · rintro i hi D₀ D D' hD rfl p
    by_cases hp : p = a + (w + i)
    · subst hp
      rw [Function.update_self, hD, if_neg (by omega), if_pos (by omega)]
    · rw [Function.update_of_ne hp, hD]
      split <;> split <;> first | rfl | omega

theorem places_signExtend {a b w : Nat} {D₁ : Bits} (h0 : 0 < w) (hw : w ≤ 32)
    (h₁ : D₁ = D.blit w a b) (h₂ : ∀ p, D' p =
      if a + w ≤ p ∧ p < a + w + (32 - w) then D₁ (a + w - 1) else D₁ p) :
    Places a (((word D b).setWidth w).signExtend 32) D D' := by
  subst h₁
  refine places_of_bits (fun i hi ↦ ?_) fun p hp ↦ ?_
  · rw [h₂, BitVec.getLsbD_signExtend, BitVec.msb_eq_getLsbD_last, BitVec.getLsbD_setWidth,
      BitVec.getLsbD_setWidth]
    by_cases hiw : i < w
    · rw [if_neg (by omega), Bits.blit_add _ hiw, getLsbD_word _ _ hi]
      simp [hi, hiw]
    · rw [if_pos (by omega), show a + w - 1 = a + (w - 1) by omega, Bits.blit_add _ (by omega)]
      simp [hi, hiw, h0, getLsbD_word D b (show w - 1 < 32 by omega)]
  · rw [h₂, if_neg (by omega), Bits.blit_of_notMem _ (by omega)]

theorem implements_signExtend {w : Nat} (hs : ctx.Sound cfg) (h0 : 0 < w) (hw : w < 32)
    (h : ctx.extend32 w true (registerAt d) (registerAt r) = some ctx') :
    Implements cfg ctx (.unary (.signExtend w) d r) ctx' := by
  obtain ⟨ctx₁, h₁, h⟩ := Option.bind_eq_some_iff.mp h
  have hd := isRegister_registerAt d
  have e₁ := emits_low hs hd.scratch ((isRegister_registerAt r).behind hs) hw.le h₁
  rw [if_pos rfl, List.range'_eq_map_range, List.foldlM_map] at h
  have e₂ := emits_signs e₁.sound hd.scratch (hd.behind e₁.sound) h0 (by omega) h
  refine .of_places (f := fun g ↦ ((g r).setWidth w).signExtend 32)
    ((e₁.trans hs e₂).imp ?_) fun _ _ ↦ rfl
  rintro F - D D' - - ⟨D₁, h₁, h₂⟩
  exact places_signExtend h0 hw.le h₁ h₂

/-! ## Arithmetic -/

theorem implements_compare (hs : ctx.Sound cfg)
    (h : ctx.compare32 (registerAt d) (registerAt r) = some ctx') :
    Implements cfg ctx (.compare d r) ctx' := by
  have hd := isRegister_registerAt d
  have hr := isRegister_registerAt r
  have hseparate : ∀ r, Separate (registerAt r) 32 cmpEq 6 := fun r ↦ by
    have hbounds := (isRegister_registerAt r).bounds
    dsimp only [Separate, regBase, cmpEq] at hbounds ⊢
    omega
  refine .of_emits (emits_compare32 hs (hd.behind hs) (hr.behind hs) (hseparate d) (hseparate r) h)
    (fun _ _ ↦ rfl) ?_
  intro base n hbase D D' s hs hc
  exact hs.compare hbase hc

theorem implements_add (hs : ctx.Sound cfg)
    (h : ctx.add32 (registerAt d) (registerAt d) (registerAt r) = some ctx') :
    Implements cfg ctx (.binary .add d r) ctx' :=
  .of_sets (f := fun g ↦ g d + g r) ((emits_add32 hs h (isRegister_registerAt d).scratch).imp
    fun _ _ _ _ _ _ hsum ↦ .of_sums hsum) fun _ _ ↦ rfl

theorem implements_sub (hs : ctx.Sound cfg)
    (h : ctx.sub32 (registerAt d) (registerAt d) (registerAt r) = some ctx') :
    Implements cfg ctx (.binary .sub d r) ctx' :=
  .of_sets (f := fun g ↦ g d - g r) ((emits_sub32 hs h (isRegister_registerAt d).scratch).imp
    fun _ _ _ _ _ _ hsum ↦ .of_sums hsum) fun _ _ ↦ rfl

theorem implements_negate {z : Nat} (hs : ctx.Sound cfg) (hc : ctx.constant 0 = some (z, ctx₁))
    (h : ctx₁.sub32 (registerAt d) z (registerAt r) = some ctx') :
    Implements cfg ctx (.unary .negate d r) ctx' := by
  refine .of_sets (f := fun g ↦ -g r) (emits_afterConstant hs (by decide) hc fun hs₁ hz ↦ ?_)
    fun _ _ ↦ rfl
  have he := emits_sub32 hs₁ h (isRegister_registerAt d).scratch
  refine he.imp fun F hF D D' hD _ hsum ↦ ?_
  have hset := Sets.of_sums hsum
  rw [word_constant hz hs₁ he hF hD, rippleResult, if_pos rfl, BitVec.zero_sub] at hset
  exact hset

theorem implements_increment {a value : Nat} (hs : ctx.Sound cfg) (hv : value < 2 ^ 32)
    (hc : ctx.constant value = some (a, ctx₁))
    (h : ctx₁.add32 (registerAt d) (registerAt d) a = some ctx') :
    Implements cfg ctx (.binaryConstant .add d (BitVec.ofNat 32 value)) ctx' := by
  refine .of_sets (f := fun g ↦ g d + BitVec.ofNat 32 value)
    (emits_afterConstant hs hv hc fun hs₁ ha ↦ ?_) fun _ _ ↦ rfl
  have he := emits_add32 hs₁ h (isRegister_registerAt d).scratch
  refine he.imp fun F hF D D' hD _ hsum ↦ ?_
  have hset := Sets.of_sums hsum
  rwa [word_constant ha hs₁ he hF hD] at hset

theorem implements_decrement {a value : Nat} (hs : ctx.Sound cfg) (hv : value < 2 ^ 32)
    (hc : ctx.constant value = some (a, ctx₁))
    (h : ctx₁.sub32 (registerAt d) (registerAt d) a = some ctx') :
    Implements cfg ctx (.binaryConstant .sub d (BitVec.ofNat 32 value)) ctx' := by
  refine .of_sets (f := fun g ↦ g d - BitVec.ofNat 32 value)
    (emits_afterConstant hs hv hc fun hs₁ ha ↦ ?_) fun _ _ ↦ rfl
  have he := emits_sub32 hs₁ h (isRegister_registerAt d).scratch
  refine he.imp fun F hF D D' hD _ hsum ↦ ?_
  have hset := Sets.of_sums hsum
  rwa [word_constant ha hs₁ he hF hD] at hset

/-! ## Bits -/

/-- The operation of a table. -/
def binaryOf : BitOperation → Binary
  | .and => .and
  | .or => .or
  | .xor => .xor

theorem implements_bits {operation : BitOperation} (hs : ctx.Sound cfg)
    (h : ctx.bits32 operation (registerAt d) (registerAt d) (registerAt r) = some ctx') :
    Implements cfg ctx (.binary (binaryOf operation) d r) ctx' := by
  refine .of_places (f := fun g ↦ operation.apply (g d) (g r))
    (emits_bits32 hs h (isRegister_registerAt d).scratch) fun _ s ↦ ?_
  cases operation <;> rfl

theorem implements_complement {a : Nat} (hs : ctx.Sound cfg)
    (hc : ctx.constant (2 ^ 32 - 1) = some (a, ctx₁))
    (h : ctx₁.bits32 .xor (registerAt d) (registerAt r) a = some ctx') :
    Implements cfg ctx (.unary .complement d r) ctx' := by
  refine .of_places (f := fun g ↦ ~~~g r) (emits_afterConstant hs (by decide) hc fun hs₁ ha ↦ ?_)
    fun _ _ ↦ rfl
  have he := emits_bits32 hs₁ h (isRegister_registerAt d).scratch
  refine he.imp fun F hF D D' hD _ hp ↦ ?_
  have hones : BitVec.ofNat 32 (2 ^ 32 - 1) = BitVec.allOnes 32 := rfl
  rw [word_constant ha hs₁ he hF hD, hones] at hp
  have hxor : BitOperation.xor.apply (word D (registerAt r)) (BitVec.allOnes 32) =
      ~~~registersIn D r := BitVec.xor_allOnes
  rwa [hxor] at hp

/-! ## Products, quotients and shifts -/

theorem implements_multiply (hs : ctx.Sound cfg)
    (h : ctx.multiply32 (registerAt d) (registerAt r) = some ctx') :
    Implements cfg ctx (.binary .multiply d r) ctx' := by
  refine .of_sets (f := fun g ↦ g d * g r) ((emits_multiply32 hs (isRegister_registerAt d)
    (isRegister_registerAt r) h).imp fun _ _ _ _ _ _ hm ↦ ⟨hm.result, fun p hp hd ↦
      hm.rest p hd ?_⟩) fun _ _ ↦ rfl
  dsimp only [Visible, MultiplyScratch, temporary, carry, mulLeft, mulStop, regBase, cmpEq, cmpLes,
    branchTable] at *
  omega

/-- The operator of a division. -/
def divisionOperator (signed remainder : Bool) : Binary :=
  if remainder then .remainder signed else .quotient signed

theorem implements_divide {signed remainder : Bool} (hs : ctx.Sound cfg)
    (h : ctx.divide32 (registerAt d) (registerAt r) signed remainder = some ctx') :
    Implements cfg ctx (.binary (divisionOperator signed remainder) d r) ctx' := by
  refine .of_sets (f := fun g ↦ divisionOf signed remainder (g d) (g r))
    ((emits_divide32 hs (isRegister_registerAt d) (isRegister_registerAt r) h).imp
      fun _ _ _ _ _ _ hm ↦ ⟨hm.result, fun p hp hd ↦ hm.rest p hd ?_⟩) fun _ s ↦ ?_
  · dsimp only [Visible, DivisionScratch, temporary, carry, divNum, divSign, cmpSign, regBase,
      cmpEq,
      cmpLes, branchTable] at *
    omega
  · cases remainder <;> rfl

/-- The operator of a shift. -/
def shiftOperator (right arithmetic : Bool) : Binary :=
  if right then .shiftRight arithmetic else .shiftLeft

theorem implements_shift {right arithmetic : Bool} (hs : ctx.Sound cfg)
    (h : ctx.shift32 right arithmetic (registerAt d) (registerAt r) = some ctx') :
    Implements cfg ctx (.binary (shiftOperator right arithmetic) d r) ctx' := by
  refine .of_sets (f := fun g ↦ shiftOf right arithmetic ((g r).toNat % 32) (g d))
    ((emits_shift32 hs (isRegister_registerAt d) (isRegister_registerAt r) h).imp
      fun _ _ _ _ _ _ hm ↦ ⟨hm.result, fun p hp hd ↦ hm.rest p hd ?_⟩) fun _ s ↦ ?_
  · dsimp only [Visible, ShiftScratch, shiftWord, shiftZero, regBase, cmpEq, cmpLes,
      branchTable] at *
    omega
  · cases right <;> rfl

end CopySpace.Target
