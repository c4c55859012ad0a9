import CopySpace.Target.Operations

/-!
# Dispatch

Every statement that `instruction` accepts in a leaf stands for an operation of the target machine,
which the emitted rows implement.
-/

namespace CopySpace.Target

open Link Emit BitMachine

variable {cfg : Config} {ctx ctx' ctx₁ ctx₂ : Context} {a b value : Nat} {d r p : Register}
  {o : Operation} {s : Text}

/-! ## Operands -/

theorem regDigits_eq_some {n digits : Nat} (h : regDigits n digits s = some a) : IsRegister a := by
  induction s generalizing n digits with
  | nil =>
      rw [regDigits] at h
      split at h
      · cases h
      · next hn =>
          obtain rfl := Option.some.inj h
          exact ⟨n + 2, by omega, rfl⟩
  | cons c s ih =>
      rw [regDigits] at h
      split at h
      · cases h
      · exact ih h

theorem isRegister_of_reg (h : reg s = some a) : IsRegister a := by
  unfold reg at h
  split at h
  · obtain rfl := Option.some.inj h
    exact ⟨0, by decide, rfl⟩
  split at h
  · obtain rfl := Option.some.inj h
    exact ⟨1, by decide, rfl⟩
  split at h
  · exact regDigits_eq_some h
  · cases h

/-- A name of a register. -/
theorem registerOf_of_reg (h : reg s = some a) : ∃ r, registerOf s = some r ∧ a = registerAt r := by
  obtain ⟨i, hi, rfl⟩ := isRegister_of_reg h
  refine ⟨Fin.ofNat 16 i, ?_, ?_⟩
  · rw [registerOf, h, Option.map_some]
    exact congrArg (fun j ↦ some (Fin.ofNat 16 j)) (by omega)
  · unfold registerAt
    rw [Fin.val_ofNat, Nat.mod_eq_of_lt hi]

theorem integerLoop_lt {radix n m : Nat} (hradix : radix ≤ 16) (hn : n < 2 ^ 32)
    (h : integerLoop radix n s = some m) : m < 2 ^ 32 := by
  induction s generalizing n with
  | nil => exact Option.some.inj h ▸ hn
  | cons c s ih =>
      rw [integerLoop] at h
      split at h
      · cases h
      next digit hdigit =>
      split at h
      · cases h
      next hsmall =>
      obtain ⟨hlt, hle⟩ := not_or.mp hsmall
      have hmul := Nat.mul_le_of_le_div radix n _ (Nat.not_lt.mp hle)
      refine ih ?_ h
      dsimp only [Link.uint32Max] at hmul
      omega

/-- A number of an assembly text has 32 bits. -/
theorem integer_lt {n : Nat} (h : integer s = some n) : n < 2 ^ 32 := by
  unfold integer at h
  obtain ⟨⟨negative, digits⟩, -, h⟩ := Option.bind_eq_some_iff.mp h
  dsimp only at h
  -- the four bases differ in nothing else
  split at h <;> dsimp only at h
  all_goals
    split at h
    · cases h
    obtain ⟨m, hm, h⟩ := Option.bind_eq_some_iff.mp h
    have hlt := integerLoop_lt (by decide) (by decide) hm
    split at h
    · cases h
    · obtain rfl := Option.some.inj h
      split
      · exact Nat.mod_lt _ (by decide)
      · exact hlt

/-! ## Operators -/

theorem quiet_extend32 {width : Nat} {signedExtension : Bool}
    (h : ctx.extend32 width signedExtension a b = some ctx') : Quiet ctx ctx' := by
  obtain ⟨ctx₁, h₁, h⟩ := Option.bind_eq_some_iff.mp h
  split at h
  · exact (quiet_emit h₁).trans (quiet_foldlM quiet_emit h)
  · obtain ⟨⟨z, ctx₂⟩, h₂, h₃⟩ := Option.bind_eq_some_iff.mp h
    exact (quiet_emit h₁).trans <| (quiet_constant h₂).trans (quiet_emit h₃)

theorem implements_registers {operator : String} (hs : ctx.Sound cfg)
    (h : ctx.registers operator (registerAt d) (registerAt r) = .ok ctx') :
    ∃ o, registersOf operator d r = some o ∧ Implements cfg ctx o ctx' ∧ Quiet ctx ctx' := by
  unfold Context.registers at h
  dsimp only at h
  split at h
  · have h := orFail_eq_ok h
    exact ⟨_, rfl, implements_move hs h, quiet_emit h⟩
  · have h := orFail_eq_ok h
    exact ⟨_, rfl, implements_zeroExtend hs (by decide) h, quiet_extend32 h⟩
  · have h := orFail_eq_ok h
    exact ⟨_, rfl, implements_zeroExtend hs (by decide) h, quiet_extend32 h⟩
  · have h := orFail_eq_ok h
    exact ⟨_, rfl, implements_signExtend hs (by decide) (by decide) h, quiet_extend32 h⟩
  · have h := orFail_eq_ok h
    exact ⟨_, rfl, implements_signExtend hs (by decide) (by decide) h, quiet_extend32 h⟩
  · have h := orFail_eq_ok h
    exact ⟨_, rfl, implements_compare hs h, quiet_compare32 h⟩
  · have h := orFail_eq_ok h
    exact ⟨_, rfl, implements_multiply hs h, quiet_multiply32 h⟩
  · have h := orFail_eq_ok h
    exact ⟨_, rfl, implements_divide hs h, quiet_divide32 h⟩
  · have h := orFail_eq_ok h
    exact ⟨_, rfl, implements_divide hs h, quiet_divide32 h⟩
  · have h := orFail_eq_ok h
    exact ⟨_, rfl, implements_divide hs h, quiet_divide32 h⟩
  · have h := orFail_eq_ok h
    exact ⟨_, rfl, implements_divide hs h, quiet_divide32 h⟩
  · obtain ⟨⟨z, ctx₁⟩, h₁, h₂⟩ := bind_eq_ok h
    have h₁ := orFail_eq_ok h₁
    have h₂ := orFail_eq_ok h₂
    exact ⟨_, rfl, implements_negate hs h₁ h₂, (quiet_constant h₁).trans (quiet_onProgram h₂)⟩
  · obtain ⟨⟨z, ctx₁⟩, h₁, h₂⟩ := bind_eq_ok h
    have h₁ := orFail_eq_ok h₁
    have h₂ := orFail_eq_ok h₂
    exact ⟨_, rfl, implements_complement hs h₁ h₂, (quiet_constant h₁).trans (quiet_onProgram h₂)⟩
  · have h := orFail_eq_ok h
    exact ⟨_, rfl, implements_add hs h, quiet_onProgram h⟩
  · have h := orFail_eq_ok h
    exact ⟨_, rfl, implements_sub hs h, quiet_onProgram h⟩
  · have h := orFail_eq_ok h
    exact ⟨_, rfl, implements_bits hs h, quiet_onProgram h⟩
  · have h := orFail_eq_ok h
    exact ⟨_, rfl, implements_bits hs h, quiet_onProgram h⟩
  · have h := orFail_eq_ok h
    exact ⟨_, rfl, implements_bits hs h, quiet_onProgram h⟩
  · have h := orFail_eq_ok h
    exact ⟨_, rfl, implements_shift hs h, quiet_shift32 h⟩
  · have h := orFail_eq_ok h
    exact ⟨_, rfl, implements_shift hs h, quiet_shift32 h⟩
  · have h := orFail_eq_ok h
    exact ⟨_, rfl, implements_shift hs h, quiet_shift32 h⟩
  · cases h

theorem implements_immediate {operator : String} (h : InLeaf cfg ctx)
    (hi : ctx.immediate operator (registerAt d) s = .ok ctx') :
    ∃ o, immediateOf operator d s = some o ∧ Implements cfg ctx o ctx' ∧ Quiet ctx ctx' := by
  unfold Context.immediate at hi
  unfold immediateOf
  split at hi
  · rw [h.programMode, if_pos (.inl Bool.false_ne_true)] at hi
    cases hi
  next n hn =>
  rw [hn, Option.map_some]
  refine ⟨_, rfl, ?_⟩
  dsimp only at hi ⊢
  have hlt := integer_lt hn
  -- the value of a narrow operator is cut
  have hvalue : (if operator = "copy.ldi.b" then n % 256
      else if operator = "copy.ldi.s" then n % 65536 else n) < 2 ^ 32 := by
    split
    · omega
    split <;> omega
  generalize (if operator = "copy.ldi.b" then n % 256
      else if operator = "copy.ldi.s" then n % 65536 else n) = value at hi hvalue ⊢
  obtain ⟨⟨a, ctx₁⟩, h₁, h₂⟩ := bind_eq_ok hi
  have h₁ := orFail_eq_ok h₁
  have h₂ := orFail_eq_ok h₂
  have hs := h.sound
  by_cases hinc : operator = "copy.inc"
  · rw [if_pos hinc] at h₂ ⊢
    exact ⟨implements_increment hs hvalue h₁ h₂, (quiet_constant h₁).trans (quiet_onProgram h₂)⟩
  · rw [if_neg hinc] at h₂ ⊢
    by_cases hdec : operator = "copy.dec"
    · rw [if_pos hdec] at h₂ ⊢
      exact ⟨implements_decrement hs hvalue h₁ h₂, (quiet_constant h₁).trans (quiet_onProgram h₂)⟩
    · rw [if_neg hdec] at h₂ ⊢
      exact ⟨implements_constant hs hvalue h₁ h₂, (quiet_constant h₁).trans (quiet_emit h₂)⟩

/-! ## Addresses -/

/-- The operand of an access: a cell and a constant, which are its address. -/
structure IsOperand (cfg : Config) (ctx : Context) (b offset : Nat) (address : Address)
    (ctx' : Context) : Prop where
  emits : Emits cfg ctx (fun D D' ↦ D' = D) ctx'
  quiet : Quiet ctx ctx'
  behind : Behind cfg b 32
  offset_lt : offset < 2 ^ 32
  address : AddressIn cfg ctx' b (BitVec.ofNat 32 offset) address

theorem isOperand_memoryOperand {offset : Nat} (h : InLeaf cfg ctx)
    (hm : ctx.memoryOperand s = .ok (b, offset, ctx')) :
    ∃ address, addressOf s = some address ∧ IsOperand cfg ctx b offset address ctx' := by
  have hs := h.sound
  unfold Context.memoryOperand at hm
  split at hm
  · next before inner hbefore =>
      dsimp only at hm
      split at hm
      · cases hm
      next inner' after hinner =>
      split at hm
      · cases hm
      next hafter =>
      split at hm
      · next displacement cell hdisplacement hcell =>
          obtain ⟨rfl, h₂⟩ := Prod.mk.inj (Except.ok.inj hm)
          obtain ⟨rfl, rfl⟩ := Prod.mk.inj h₂
          obtain ⟨p, hp, rfl⟩ := registerOf_of_reg hcell
          have haddress : addressOf s =
              some (.relative p (BitVec.ofNat 32 displacement)) := by
            simp only [addressOf, hbefore, hinner, if_neg hafter, hdisplacement, hp]
          refine ⟨_, haddress, .refl hs, .refl _, (isRegister_registerAt p).behind hs, ?_, ?_⟩
          · split at hdisplacement
            · exact Option.some.inj hdisplacement ▸ by decide
            · exact integer_lt hdisplacement
          · intro F _ base n D s _ hrep
            rw [hrep.word]
            rfl
      · cases hm
  · next hnone =>
      split at hm
      · rw [h.programMode, if_pos Bool.false_ne_true] at hm
        cases hm
      next absolute habsolute =>
      have haddress : addressOf s = some (.absolute (BitVec.ofNat 32 absolute)) := by
        simp only [addressOf, hnone, habsolute, Option.map_some]
      refine ⟨_, haddress, ?_⟩
      have hlt := integer_lt habsolute
      cases hc : ctx.constant absolute with
      | none =>
          rw [hc] at hm
          cases hm
      | some r =>
          rw [hc] at hm
          obtain ⟨rfl, h₂⟩ := Prod.mk.inj (Except.ok.inj hm)
          obtain ⟨rfl, rfl⟩ := Prod.mk.inj h₂
          obtain ⟨e, ha, -, -⟩ := emits_constant hs hlt hc
          refine ⟨e, quiet_constant hc, ha.behind e.sound le_rfl, by decide, ?_⟩
          intro F hF base n D s hD _
          rw [ha.word e.sound hF hD, BitVec.add_zero]
          rfl

theorem AddressIn.mono {offset : Word} {address : Address} (h : AddressIn cfg ctx b offset address)
    (hs : ctx.Sound cfg) (hx : Extends cfg ctx ctx') : AddressIn cfg ctx' b offset address :=
  fun F hF ↦ h F (hF.mono hs hx)

/-- An operation does what it does when nothing happens before. -/
theorem Implements.after (hs : ctx.Sound cfg) (he : Emits cfg ctx (fun D D' ↦ D' = D) ctx₁)
    (h : Implements cfg ctx₁ o ctx') : Implements cfg ctx o ctx' := by
  have hbytes : ctx₁.memoryBytes = ctx.memoryBytes := by
    rw [he.sound.memoryBytes, hs.memoryBytes, he.extension.memoryAddressBits]
  refine ⟨h.sound, he.extension.trans hs h.extension, fun F hF base hbase D s hD hrep s' hs' ↦ ?_,
    fun F hF base hbase D s hD hrep hnone ↦ ?_⟩
  all_goals
    obtain ⟨D₁, rfl, hD₁, l₁⟩ := he.leads F (hF.mono he.sound h.extension) D hD
    rw [← hbytes] at *
  · obtain ⟨D', hrep', hD', l'⟩ := h.completes F hF base hbase D₁ s hD₁ hrep s' hs'
    exact ⟨D', hrep', hD', l₁.trans l'⟩
  · obtain ⟨k, hk, D', hD', l'⟩ := h.faults F hF base hbase D₁ s hD₁ hrep hnone
    exact ⟨k, hk, D', hD', l₁.trans l'⟩

/-! ## Statements -/

/-- What an operation leaves alone: it gives the memory a place exactly when it goes there. -/
structure Framed (ctx : Context) (o : Operation) (ctx' : Context) : Prop
    extends Frame ctx ctx' where
  quiet : o.accesses = false → Quiet ctx ctx'
  base : o.accesses = true → ctx'.dataBegin ≠ 0

theorem Framed.of_quiet (h : Quiet ctx ctx') (ho : o.accesses = false) : Framed ctx o ctx' :=
  ⟨.of_quiet h, fun _ ↦ h, fun haccesses ↦ absurd (ho.symm.trans haccesses) Bool.false_ne_true⟩

theorem Framed.of_accesses (h : Frame ctx ctx') (h0 : ctx'.dataBegin ≠ 0)
    (ho : o.accesses = true) : Framed ctx o ctx' :=
  ⟨h, fun hquiet ↦ absurd (hquiet.symm.trans ho) Bool.false_ne_true, fun _ ↦ h0⟩

theorem implements_memory {operator left right : Text} (h : InLeaf cfg ctx)
    (hm : ctx.memory operator left right = .ok ctx') :
    ∃ o, memoryOf operator left right = some o ∧ Implements cfg ctx o ctx' ∧
      Framed ctx o ctx' := by
  unfold Context.memory at hm
  dsimp only at hm
  split at hm
  · cases hm
  next value hvalue =>
  obtain ⟨⟨b, offset, ctx₁⟩, h₁, h₂⟩ := bind_eq_ok hm
  -- the last letter of the operator is its size in both
  obtain ⟨bits, rfl, h₂⟩ : ∃ bits, bits = 8 * (widthOf operator).bytes ∧
      ctx₁.memoryAccess (decide (operator[5]? = some 's')) bits value b offset = .ok ctx' := by
    refine ⟨_, ?_, h₂⟩
    unfold widthOf
    split <;> first | rfl | (split <;> first | rfl | simp_all)
  unfold memoryOf
  by_cases hstore : operator[5]? = some 's'
  · rw [decide_eq_true hstore] at h₁ h₂ hvalue
    rw [if_pos rfl] at h₁ hvalue
    rw [if_pos hstore]
    obtain ⟨r, hr, rfl⟩ := registerOf_of_reg hvalue
    obtain ⟨address, haddress, ho⟩ := isOperand_memoryOperand h h₁
    rw [hr, haddress]
    have hacc := (h.emits ho.emits ho.quiet).accesses ho.behind ho.offset_lt
      (.inl (isRegister_registerAt r)) h₂
    exact ⟨_, rfl, .after h.sound ho.emits (implements_store hacc
      (ho.address.mono ho.emits.sound hacc.extension)),
      .of_accesses (.trans (.of_quiet ho.quiet) hacc.frame) hacc.placed rfl⟩
  · rw [decide_eq_false hstore] at h₁ h₂ hvalue
    rw [if_neg Bool.false_ne_true] at h₁ hvalue
    rw [if_neg hstore]
    obtain ⟨d, hd, rfl⟩ := registerOf_of_reg hvalue
    obtain ⟨address, haddress, ho⟩ := isOperand_memoryOperand h h₁
    rw [hd, haddress]
    have hacc := (h.emits ho.emits ho.quiet).accesses ho.behind ho.offset_lt
      (.inl (isRegister_registerAt d)) h₂
    exact ⟨_, rfl, .after h.sound ho.emits (implements_load ho.emits.sound hacc
      (ho.address.mono ho.emits.sound hacc.extension)),
      .of_accesses (.trans (.of_quiet ho.quiet) hacc.frame) hacc.placed rfl⟩

theorem implements_stack {push : Bool} {cursor operand : Text} (h : InLeaf cfg ctx)
    (hm : ctx.stack push cursor operand = .ok ctx') :
    ∃ o, stackOf push cursor operand = some o ∧ Implements cfg ctx o ctx' ∧
      Framed ctx o ctx' := by
  unfold Context.stack at hm
  unfold stackOf
  split at hm
  · next pointer value hpointer hvalue =>
      obtain ⟨p, hp, rfl⟩ := registerOf_of_reg hpointer
      obtain ⟨r, hr, rfl⟩ := registerOf_of_reg hvalue
      rw [hp, hr]
      refine ⟨_, rfl, ?_⟩
      split at hm
      · cases hm
      next four ctx₁ hfour =>
      cases push
      · obtain ⟨ctx₂, h₂, h₃⟩ := bind_eq_ok hm
        obtain ⟨ctx₃, h₃, h₄⟩ := Option.bind_eq_some_iff.mp (orFail_eq_ok h₃)
        obtain ⟨himplements, hframe, h0⟩ := implements_pop h hfour h₂ h₃ h₄
        exact ⟨himplements, .of_accesses hframe h0 rfl⟩
      · obtain ⟨ctx₃, h₃, h₄⟩ := bind_eq_ok hm
        obtain ⟨ctx₂, h₂, h₃⟩ := Option.bind_eq_some_iff.mp (orFail_eq_ok h₃)
        obtain ⟨himplements, hframe, h0⟩ := implements_push h hfour h₂ h₃ h₄
        exact ⟨himplements, .of_accesses hframe h0 rfl⟩
  · cases hm

theorem implements_instruction (h : InLeaf cfg ctx) (hi : ctx.instruction s = .ok ctx') :
    ∃ o, operationOf s = some o ∧ Implements cfg ctx o ctx' ∧ Framed ctx o ctx' := by
  unfold Context.instruction at hi
  dsimp only at hi
  by_cases hnop : String.ofList (mnemonic s).1 = "copy.nop"
  · rw [if_pos hnop] at hi
    split at hi
    · cases hi
    next hempty =>
    cases hi
    have hoperation : operationOf s = some .nop := by
      simp only [operationOf, if_pos hnop, if_pos (not_not.mp hempty)]
    exact ⟨_, hoperation, implements_nop h.sound, .of_quiet (.refl _) rfl⟩
  rw [if_neg hnop] at hi
  split at hi
  · cases hi
  next left right hoperands =>
  unfold operationOf
  dsimp only
  rw [if_neg hnop, hoperands]
  dsimp only
  by_cases hpush : String.ofList (mnemonic s).1 = "copy.push"
  · rw [if_pos hpush] at hi ⊢
    exact implements_stack h hi
  rw [if_neg hpush] at hi ⊢
  by_cases hpop : String.ofList (mnemonic s).1 = "copy.pop"
  · rw [if_pos hpop] at hi ⊢
    exact implements_stack h hi
  rw [if_neg hpop] at hi ⊢
  by_cases hmemory : String.ofList (mnemonic s).1 ∈ Context.memoryOperators
  · rw [if_pos hmemory] at hi
    rw [if_pos (List.contains_iff_mem.mpr hmemory)]
    exact implements_memory h hi
  rw [if_neg hmemory] at hi
  rw [if_neg (mt List.contains_iff_mem.mp hmemory)]
  split at hi
  · cases hi
  next destination hdestination =>
  obtain ⟨d, hd, rfl⟩ := registerOf_of_reg hdestination
  rw [hd]
  dsimp only
  by_cases himmediate : String.ofList (mnemonic s).1 ∈ Context.immediateOperators
  · rw [if_pos himmediate] at hi
    rw [if_pos (List.contains_iff_mem.mpr himmediate)]
    obtain ⟨o, ho, himplements, hq⟩ := implements_immediate h hi
    exact ⟨o, ho, himplements, .of_quiet hq (accesses_immediateOf ho)⟩
  rw [if_neg himmediate] at hi
  rw [if_neg (mt List.contains_iff_mem.mp himmediate)]
  split at hi
  · cases hi
  next source hsource =>
  obtain ⟨r, hr, rfl⟩ := registerOf_of_reg hsource
  rw [hr]
  obtain ⟨o, ho, himplements, hq⟩ := implements_registers h.sound hi
  exact ⟨o, ho, himplements, .of_quiet hq (accesses_registersOf ho)⟩

end CopySpace.Target
