import CopySpace.Target.Memory

/-!
# Accesses

The parts of `memory_access` together: a load or a store at a valid address changes the registers or
the memory as the target machine says, and another address leads to the layer that stops the run.
-/

namespace CopySpace.Target

open Link Emit BitMachine

variable {cfg : Config} {ctx ctx' ctx₁ ctx₂ : Context} {F : Linked} {D D' : Bits}
  {base a b value offset : Nat} {s s' : State} {d r : Register} {v : Word} {w : Width} {k : Key}
  {store : Bool}

/-! ## The parts -/

/-- A cell that an access uses. -/
def MemoryScratch (p : Nat) : Prop :=
  temporary ≤ p ∧ p ≤ carry ∨ p = cmpSign ∨ memAddress ≤ p ∧ p < memBitAddress + 32

theorem Visible.not_memoryScratch {p : Nat} (h : Visible p) : ¬ MemoryScratch p := by
  dsimp only [Visible, MemoryScratch, temporary, carry, cmpSign, memAddress, memBitAddress, regBase,
    cmpEq, cmpLes, branchTable] at *
  omega

/-- The address of an access has been computed and checked. -/
structure Prepared (limit b : Nat) (offset : Word) (D D' : Bits) : Prop where
  address : word D' memAddress = word D b + offset
  valid : D' memValid = (word D b + offset).ule (BitVec.ofNat 32 limit)
  rest : ∀ p, ¬ MemoryScratch p → D' p = D p

theorem Prepared.of_steps {limit : Nat} {offset : Word} {D₁ : Bits} (h₁ : Addresses b offset D D₁)
    (h₂ : Checks limit D₁ D') : Prepared limit b offset D D' := by
  have haddress : word D' memAddress = word D₁ memAddress := word_congr fun i hi ↦ h₂.rest _ (by
    dsimp only [memAddress, memFlags]
    omega) (by
    dsimp only [memAddress, cmpSign]
    omega)
  refine ⟨haddress.trans h₁.word, by rw [h₂.valid, h₁.word], fun p hp ↦ ?_⟩
  dsimp only [MemoryScratch, temporary, carry, cmpSign, memAddress, memBitAddress] at hp
  exact (h₂.rest p (by dsimp only [memFlags, memValid]; omega)
    (by dsimp only [cmpSign]; omega)).trans
    (h₁.rest p (by dsimp only [memAddress]; omega) (by dsimp only [temporary, carry]; omega))

theorem emits_prepare {width : Nat} (hs : ctx.Sound cfg) (hb : Behind cfg b 32)
    (hoffset : offset < 2 ^ 32) (hmemory : ctx.memoryBytes < 2 ^ 32)
    (h₁ : ctx.memoryAddress b offset = some ctx₁) (h₂ : ctx₁.memoryCheck width = some ctx₂) :
    Emits cfg ctx (Prepared (ctx.memoryBytes - width / 8) b (BitVec.ofNat 32 offset)) ctx₂ ∧
      Quiet ctx ctx₂ := by
  obtain ⟨e₁, hq₁⟩ := emits_memoryAddress hs hb hoffset h₁
  have hbytes : ctx₁.memoryBytes = ctx.memoryBytes := by
    rw [e₁.sound.memoryBytes, hs.memoryBytes, e₁.extension.memoryAddressBits]
  obtain ⟨e₂, hq₂⟩ := emits_memoryCheck e₁.sound (hbytes ▸ hmemory) h₂
  rw [hbytes] at e₂
  refine ⟨(e₁.trans hs e₂).imp ?_, hq₁.trans hq₂⟩
  rintro F - D D' - - ⟨D₁, h₁, h₂⟩
  exact .of_steps h₁ h₂

/-- The base of the memory is in the cell that becomes the address. -/
theorem emits_bitAddress (hs : ctx.Sound cfg) (h0 : ctx.dataBegin ≠ 0)
    (h : ctx.putConstant memBitAddress ctx.program.image.addressBits ctx.dataBegin = some ctx') :
    Emits cfg ctx (fun D D' ↦ D' = D) ctx' ∧ Quiet ctx ctx' ∧ ctx'.dataBegin = ctx.dataBegin ∧
      ctx'.memoryAddressBits = ctx.memoryAddressBits ∧
      ctx'.program.image.data.field memBitAddress cfg.addressSize = ctx.dataBegin := by
  have hquiet := quiet_putConstant h
  obtain ⟨-, rfl⟩ := Context.putConstant_eq_some h
  obtain ⟨hlimit, hend, -⟩ := hs.memory h0
  have haddress := hs.laid.toFor.image.addressBits
  have hle := hs.address_le
  have hcode := ctx.codeBegin_ge
  have hpow : 0 < 2 ^ ctx.memoryAddressBits := Nat.two_pow_pos _
  have hlt : ctx.dataBegin < 2 ^ cfg.addressSize := by
    rw [← hs.target.space]
    have hspace := hs.laid.toFor.bytes_le
    have hbytes := hs.memoryBytes
    omega
  have hrest : ∀ (m : Bits) p, ¬(memBitAddress ≤ p ∧ p < memBitAddress + 32) →
      m.putField memBitAddress ctx.program.image.addressBits ctx.dataBegin p = m p := fun m p hp ↦
    Bits.putField_of_notMem _ (by omega)
  have hself : (ctx.program.image.data.putField memBitAddress ctx.program.image.addressBits
      ctx.dataBegin).field memBitAddress cfg.addressSize = ctx.dataBegin := by
    rw [haddress, Bits.field_putField_self, Nat.mod_eq_of_lt hlt]
  have hcall : branchTable ≤ ctx.capacities.callTable := Nat.le_add_right _ _
  refine ⟨@emits_onData cfg ctx _ ctx.constants (step_onData hs (fun m p hp ↦ hrest m p ?_)
    (fun m p _ hp ↦ hrest m p (by omega)) (fun m p hp ↦ hrest m p ?_) (List.prefix_refl _)
    hs.constants_le (fun i v hi ↦ ?_) (fun _ _ ↦ hself) fun m p hp ↦ hrest m p ?_),
    hquiet, rfl, rfl,
    hself⟩
  · dsimp only [memBitAddress, branchTable] at *
    omega
  · dsimp only [IsCell, regBase, addTable, shiftZero, eqTable, memBitAddress, branchTable] at *
    omega
  · have hbounds := IsConstant.bounds (a := constantBase + 32 * i) ⟨i, rfl, hi⟩ hs
    rw [Bits.field_putField_of_disjoint _ (.inl (by
      dsimp only [regBase, memBitAddress] at *
      omega)), hs.constants i v hi]
  · dsimp only [memBitAddress, branchTable] at *
    omega

theorem emits_lowBits (hs : ctx.Sound cfg) (hbits : ctx.memoryAddressBits + 3 ≤ 32)
    (h : ctx.emit ctx.memoryAddressBits (memBitAddress + 3) memAddress = some ctx') :
    Emits cfg ctx (fun D D' ↦ D' = D.blit ctx.memoryAddressBits (memBitAddress + 3) memAddress)
      ctx' := by
  have hx : ctx'.memoryAddressBits = ctx.memoryAddressBits := by
    obtain ⟨q, -, rfl⟩ := Context.onProgram_eq_some h
    rfl
  refine emits_emit hs h (hs.behind (by decide) ?_) (hs.behind (by decide) ?_)
    fun F hF p hp hp' hkept ↦ ?_
  · dsimp only [memBitAddress, branchTable]
    omega
  · dsimp only [memAddress, branchTable]
    omega
  · unfold Linked.Kept at hkept
    rw [hF.memoryAddressBits, hx] at hkept
    dsimp only [constantBase, regBase, addTable, temporary, shiftZero, eqTable, zeroLayer,
      memBitAddress] at hkept hp hp'
    omega

theorem emits_memoryExtend {width : Nat} (hs : ctx.Sound cfg) (hvalue : Scratch value 32)
    (hwidth : width ≤ 32) (h : ctx.memoryExtend store width value = some ctx') :
    Emits cfg ctx (fun D D' ↦ ∀ p, D' p =
      if store = false ∧ value + width ≤ p ∧ p < value + 32 then false else D p) ctx' ∧
      Quiet ctx ctx' := by
  unfold Context.memoryExtend at h
  split at h
  · next hnarrow =>
      obtain ⟨⟨z, ctx₁⟩, h₁, h₂⟩ := Option.bind_eq_some_iff.mp h
      obtain ⟨e₁, hz, -, -⟩ := emits_constant hs (by decide) h₁
      have e₂ := emits_copy e₁.sound h₂ (scratch_sub hvalue (by omega))
        (hz.behind e₁.sound (by omega))
      refine ⟨(e₁.trans hs e₂).imp ?_, (quiet_constant h₁).trans (quiet_emit h₂)⟩
      rintro F hF D D' hD - ⟨D₁, rfl, rfl⟩ p
      by_cases hp : value + width ≤ p ∧ p < value + 32
      · obtain ⟨i, rfl⟩ := Nat.exists_eq_add_of_le hp.1
        have hi : i < 32 - width := by omega
        rw [if_pos ⟨Bool.eq_false_iff.mpr hnarrow.1, hp⟩, Bits.blit_add _ hi,
          hz.bit e₁.sound (hF.mono e₁.sound e₂.extension) hD (by omega), Nat.zero_testBit]
      · rw [if_neg (by tauto), Bits.blit_of_notMem _ (by omega)]
  · next hwide =>
      cases h
      refine ⟨(Emits.refl hs).imp ?_, .refl _⟩
      rintro F - D D' - - rfl p
      rw [if_neg]
      rintro ⟨rfl, hp⟩
      refine hwide ⟨by decide, ?_⟩
      omega

/-! ## The whole -/

/-- What an access at a valid address does to the data. -/
structure Accessed (store : Bool) (w : Width) (value base a : Nat) (D D' : Bits) : Prop where
  loaded : store = false → ∀ i < 32, D' (value + i) =
    if i < 8 * w.bytes then D (base + 8 * a + i) else false
  stored : store = true → ∀ i < 8 * w.bytes, D' (base + 8 * a + i) = D (value + i)
  rest : ∀ p, ¬ MemoryScratch p → (store = false → ¬(value ≤ p ∧ p < value + 32)) →
    (store = true → ¬(base + 8 * a ≤ p ∧ p < base + 8 * a + 8 * w.bytes)) → D' p = D p

theorem Accessed.of_steps {D₁ D₂ D₃ : Bits} {bits : Nat} (hbits : bits + 3 ≤ 32)
    (hvalue : ∀ i < 32, ¬ MemoryScratch (value + i)) (hbase : branchTable ≤ base)
    (hend : value + 32 ≤ branchTable)
    (h₁ : ∀ p, ¬ MemoryScratch p → D₁ p = D p)
    (h₂ : D₂ = D₁.blit bits (memBitAddress + 3) memAddress)
    (h₃ : ∀ p, D₃ p = if store = false ∧ value + 8 * w.bytes ≤ p ∧ p < value + 32 then false
      else D₂ p) (h₄ : D' = accessed store (8 * w.bytes) value (base + 8 * a) D₃) :
    Accessed store w value base a D D' := by
  have hw : 8 * w.bytes ≤ 32 := by cases w <;> decide
  have hrest : ∀ p, ¬ MemoryScratch p → D₂ p = D p := fun p hp ↦ by
    rw [h₂, Bits.blit_of_notMem _ (by
      dsimp only [MemoryScratch, memAddress, memBitAddress] at *
      omega), h₁ p hp]
  have hhigh : ∀ p, branchTable ≤ p → ¬ MemoryScratch p := fun p hp ↦
    Visible.not_memoryScratch (.inr (.inr hp))
  subst h₄
  unfold accessed
  refine ⟨?_, ?_, fun p hp hload hstore ↦ ?_⟩
  · rintro rfl i hi
    rw [if_neg Bool.false_ne_true]
    by_cases hlow : i < 8 * w.bytes
    · rw [if_pos hlow, Bits.blit_add _ hlow, h₃, if_neg (by omega), hrest _ (hhigh _ (by omega))]
    · rw [if_neg hlow, Bits.blit_of_notMem _ (by omega), h₃, if_pos ⟨rfl, by omega, by omega⟩]
  · rintro rfl i hi
    rw [if_pos rfl, Bits.blit_add _ hi, h₃, if_neg (by simp), hrest _ (hvalue i (by omega))]
  · have hp₃ : D₃ p = D p := by
      rw [h₃, if_neg, hrest p hp]
      rintro ⟨rfl, hle, hlt⟩
      exact hload rfl ⟨by omega, hlt⟩
    cases store
    · have hne := hload rfl
      rw [if_neg Bool.false_ne_true, Bits.blit_of_notMem _ (by omega), hp₃]
    · rw [if_pos rfl, Bits.blit_of_notMem _ (hstore rfl), hp₃]

/-- The memory is behind the code, and inside the space. -/
structure Roomed (cfg : Config) (ctx : Context) : Prop where
  branchTable_le : branchTable ≤ ctx.dataBegin
  layerBits_le : cfg.layerBits ≤ ctx.dataBegin
  end_le : ctx.dataBegin + 8 * ctx.memoryBytes ≤ cfg.spaceSize
  bits_le : ctx.memoryAddressBits + 3 ≤ cfg.addressSize

theorem roomed_of_sound (hs : ctx.Sound cfg) (h0 : ctx.dataBegin ≠ 0) : Roomed cfg ctx := by
  obtain ⟨hlimit, hend, -⟩ := hs.memory h0
  have hspace := hs.laid.toFor.bytes_le
  have hcode := ctx.codeBegin_ge
  have hle := hs.laid.codeEnd_le
  have hlo := hs.laid.lo_le
  have hcodeEnd := hs.laid.codeEnd
  have hlayer := hs.laid.toFor.layer_le
  have hbits : 2 ^ (ctx.memoryAddressBits + 3) ≤ 2 ^ cfg.addressSize := by
    rw [← hs.target.space, Nat.pow_add 2 ctx.memoryAddressBits, ← hs.memoryBytes]
    omega
  exact ⟨by omega, by omega, by omega, (Nat.pow_le_pow_iff_right (by decide)).mp hbits⟩

theorem Roomed.memoryBytes_lt (h : Roomed cfg ctx) (hs : ctx.Sound cfg) :
    ctx.memoryBytes < 2 ^ 32 := by
  have hle := hs.address_le
  have hbits := h.bits_le
  rw [hs.memoryBytes]
  exact Nat.pow_lt_pow_right (by decide) (by omega)

theorem bind_eq_ok {ε α β : Type} {x : Except ε α} {f : α → Except ε β} {c : β}
    (h : x >>= f = .ok c) : ∃ y, x = .ok y ∧ f y = .ok c := by
  cases x with
  | error e => cases h
  | ok y => exact ⟨y, rfl, h⟩

theorem map_eq_ok {ε α β : Type} {x : Except ε α} {f : α → β} {c : β} (h : x.map f = .ok c) :
    ∃ y, x = .ok y ∧ f y = c := by
  cases x with
  | error e => cases h
  | ok y => exact ⟨y, rfl, Except.ok.inj h⟩

theorem mapError_eq_ok {ε ε' α : Type} {x : Except ε α} {f : ε → ε'} {a : α}
    (h : x.mapError f = .ok a) : x = .ok a := by
  cases x with
  | error e => cases h
  | ok y => exact congrArg Except.ok (Except.ok.inj h)

theorem memoryAccess_eq_ok {width : Nat}
    (h : ctx.memoryAccess store width value b offset = .ok ctx') :
    ∃ ctx₁ ctx₂ ctx₃ fault ctx₄ ctx₅ ctx₆ ctx₇, ctx.placeMemory = .ok ctx₁ ∧
      ctx₁.memoryAddress b offset = some ctx₂ ∧ ctx₂.memoryCheck width = some ctx₃ ∧
      ctx₃.memoryFault = some fault ∧ ctx₃.conditionalJump fault memValid true 0 = .ok ctx₄ ∧
      Context.putConstant memBitAddress ctx₄.program.image.addressBits ctx₄.dataBegin
        { ctx₄ with compared := ctx₂.compared } = some ctx₅ ∧
      ctx₅.emit ctx₅.memoryAddressBits (memBitAddress + 3) memAddress = some ctx₆ ∧
      ctx₆.memoryExtend store width value = some ctx₇ ∧
      ctx₇.memoryRow store width value = some ctx' := by
  unfold Context.memoryAccess at h
  obtain ⟨ctx₁, h₁, h⟩ := bind_eq_ok h
  obtain ⟨ctx₂, h₂, h⟩ := bind_eq_ok h
  obtain ⟨ctx₃, h₃, h⟩ := bind_eq_ok h
  obtain ⟨ctx₄, h₄, h⟩ := bind_eq_ok h
  obtain ⟨ctx₅, h₅, h⟩ := bind_eq_ok h
  obtain ⟨ctx₆, h₆, h⟩ := bind_eq_ok h
  obtain ⟨ctx₇, h₇, h⟩ := bind_eq_ok h
  obtain ⟨fault, hfault, hjump⟩ := Option.bind_eq_some_iff.mp (orFail_eq_ok h₄)
  exact ⟨ctx₁, ctx₂, ctx₃, fault, ctx₄, ctx₅, ctx₆, ctx₇, h₁, orFail_eq_ok h₂, orFail_eq_ok h₃,
    hfault, toOption_eq_some hjump, orFail_eq_ok h₅, orFail_eq_ok h₆, orFail_eq_ok h₇,
    orFail_eq_ok h⟩

/-- A position of the memory can change. -/
theorem not_kept_of_le {p : Nat} (h : F.codeLimit ≤ p) (hlow : branchTable ≤ p) : ¬ F.Kept p := by
  dsimp only [Linked.Kept, constantBase, regBase, addTable, temporary, shiftZero, eqTable,
    zeroLayer,
    memBitAddress, branchTable] at *
  omega

/-- The address is in the cell that becomes the operand of the row. -/
theorem field_of_lowBits {bits : Nat} (hr : Roomed cfg ctx) (hs : ctx.Sound cfg)
    (hF : F.Final cfg ctx) (h0 : ctx.dataBegin ≠ 0) (hbits : ctx.memoryAddressBits = bits)
    (hdata : ctx.program.image.data.field memBitAddress cfg.addressSize = ctx.dataBegin)
    (hD : F.Runs D) (ha : (word D memAddress).toNat = a) (hlt : a < ctx.memoryBytes)
    (hD' : D' = D.blit bits (memBitAddress + 3) memAddress) :
    D'.field memBitAddress cfg.addressSize = ctx.dataBegin + 8 * a := by
  subst hbits hD'
  obtain ⟨-, -, hmod⟩ := hs.memory h0
  have hle := hs.address_le
  have hbits := hr.bits_le
  have hend := hr.end_le
  rw [hs.target.space] at hend
  rw [hs.memoryBytes] at hmod hlt hend
  have hpow : 0 < 2 ^ ctx.memoryAddressBits := Nat.two_pow_pos _
  have hdata := (hF.memory h0).2 hdata
  refine field_memBitAddress hbits hlt (by omega) hmod (fun i hi ↦ ?_) fun i hi houter ↦ ?_
  · rw [Bits.blit_add _ hi, ← ha, ← getLsbD_word D _ (show i < 32 by omega)]
    exact BitVec.testBit_toNat _
  · have hkept : F.Kept (memBitAddress + i) := by
      refine .inr (.inr (.inr (.inr (.inr ⟨by omega, by omega, ?_⟩))))
      rw [hF.memoryAddressBits]
      omega
    rw [Bits.blit_of_notMem _ (by omega), hD _ hkept, ← hdata, Bits.testBit_field,
      decide_eq_true hi, Bool.true_and]

/-- What comes after the check of the address. -/
theorem step_copyBits {ctx₃ : Context} (hs : ctx.Sound cfg) (h0 : ctx.dataBegin ≠ 0)
    (hvalue : Scratch value 32) (hapart : ∀ i < 32, ¬ MemoryScratch (value + i))
    (hend : value + 32 ≤ branchTable)
    (h₁ : ctx.putConstant memBitAddress ctx.program.image.addressBits ctx.dataBegin = some ctx₁)
    (h₂ : ctx₁.emit ctx₁.memoryAddressBits (memBitAddress + 3) memAddress = some ctx₂)
    (h₃ : ctx₂.memoryExtend store (8 * w.bytes) value = some ctx₃)
    (h₄ : ctx₃.memoryRow store (8 * w.bytes) value = some ctx') :
    ctx'.Sound cfg ∧ Extends cfg ctx ctx' ∧ Quiet ctx ctx' ∧
      ∀ F : Linked, F.Final cfg ctx' → ∀ D, F.Runs D → ∀ a, (word D memAddress).toNat = a →
        a + w.bytes ≤ ctx.memoryBytes → ∃ D', F.Runs D' ∧
          (∀ D₀ : Bits, (∀ p, ¬ MemoryScratch p → D p = D₀ p) →
            Accessed store w value ctx.dataBegin a D₀ D') ∧
          Leads cfg F.data ctx.spot D ctx'.spot D' := by
  have hr := roomed_of_sound hs h0
  have hle := hs.address_le
  have hbits := hr.bits_le
  have hspace := hr.end_le
  have hw : 8 * w.bytes ≤ 32 ∧ 0 < w.bytes := by cases w <;> decide
  obtain ⟨e₁, q₁, hbase₁, hbits₁, hdata₁⟩ := emits_bitAddress hs h0 h₁
  have e₂ := emits_lowBits e₁.sound (by omega) h₂
  obtain ⟨e₃, q₃⟩ := emits_memoryExtend e₂.sound hvalue hw.1 h₃
  obtain ⟨hs₄, x₄, q₄, hrow⟩ := step_memoryRow e₃.sound h₄
  have h0₁ : ctx₁.dataBegin ≠ 0 := by rwa [hbase₁]
  have hbase₃ : ctx₃.dataBegin = ctx.dataBegin := by
    rw [← hbase₁, ← ((e₂.extension.trans e₁.sound e₃.extension).memory h0₁).dataBegin]
  have hx₃ := e₃.extension.trans e₂.sound x₄
  have hx₂ := e₂.extension.trans e₁.sound hx₃
  refine ⟨hs₄, e₁.extension.trans hs hx₂, q₁.trans <| (quiet_emit h₂).trans <| q₃.trans q₄,
    fun F hF D hD a ha hlt ↦ ?_⟩
  have hF₁ := hF.mono e₁.sound hx₂
  obtain ⟨D₁, rfl, -, l₁⟩ := e₁.leads F hF₁ D hD
  obtain ⟨D₂, h₂, hD₂, l₂⟩ := e₂.leads F (hF.mono e₂.sound hx₃) D₁ hD
  obtain ⟨D₃, h₃, hD₃, l₃⟩ := e₃.leads F (hF.mono e₃.sound x₄) D₂ hD₂
  rw [hbits₁] at h₂
  have hr₁ := roomed_of_sound e₁.sound h0₁
  have hbytes : ctx₁.memoryBytes = ctx.memoryBytes := by
    rw [e₁.sound.memoryBytes, hs.memoryBytes, hbits₁]
  have hfield₂ := field_of_lowBits hr₁ e₁.sound hF₁ h0₁ hbits₁ (by rw [hdata₁, hbase₁]) hD ha
    (by omega) h₂
  rw [hbase₁] at hfield₂
  have hfield₃ : D₃.field memBitAddress cfg.addressSize = ctx.dataBegin + 8 * a := by
    rw [← hfield₂]
    refine Bits.field_congr fun i hi ↦ ?_
    rw [h₃, if_neg]
    rintro ⟨-, h₅, h₆⟩
    obtain ⟨j, hj⟩ := Nat.exists_eq_add_of_le (show value ≤ memBitAddress + i by omega)
    refine hapart j (by omega) ?_
    rw [← hj]
    dsimp only [MemoryScratch, memAddress, memBitAddress]
    omega
  have hbehind : Behind cfg (ctx.dataBegin + 8 * a) (8 * w.bytes) :=
    ⟨hr.layerBits_le.trans (Nat.le_add_right _ _), by omega⟩
  have hleads := hrow F hF D₃ hD₃ _ hfield₃ (by omega) hbehind
    (behind_sub (i := 0) (hvalue.behind hs) (by omega))
  refine ⟨_, fun p hp ↦ ?_, fun D₀ hD₀ ↦ .of_steps (by omega) hapart hr.branchTable_le hend hD₀
    h₂ h₃
    rfl, ((l₁.trans l₂).trans l₃).trans hleads⟩
  have hlimit := (hF₁.memory h0₁).1
  rw [← hD₃ p hp]
  unfold accessed
  cases store
  · exact Bits.blit_of_notMem _ fun hmem ↦ hvalue.not_kept hmem.1 (by omega) hp
  · refine Bits.blit_of_notMem _ fun hmem ↦ not_kept_of_le ?_ ?_ hp
    · omega
    · have := hr.branchTable_le
      omega

/-- What is emitted for an access: the address is that of a cell and a constant. -/
structure Accesses (cfg : Config) (ctx : Context) (store : Bool) (w : Width) (value b : Nat)
    (offset : Word) (ctx' : Context) : Prop where
  sound : ctx'.Sound cfg
  extension : Extends cfg ctx ctx'
  frame : Frame ctx ctx'
  placed : ctx'.dataBegin ≠ 0
  completes : ∀ F : Linked, F.Final cfg ctx' → ∀ D, F.Runs D → ∀ a,
    access ctx.memoryBytes w (word D b + offset) = some a → ∃ D', F.Runs D' ∧
      Accessed store w value ctx'.dataBegin a D D' ∧ Leads cfg F.data ctx.spot D ctx'.spot D'
  faults : ∀ F : Linked, F.Final cfg ctx' → ∀ D, F.Runs D →
    access ctx.memoryBytes w (word D b + offset) = none →
      ∃ k, Awaited ctx' k ∧ ∃ D', F.Runs D' ∧
        Leads cfg F.data ctx.spot D ⟨F.target (some k), 3⟩ D'

theorem access_eq_some {n : Nat} {x : Word} : access n w x = some a ↔
    x.toNat = a ∧ a ≤ n - w.bytes := by
  unfold access
  split
  · next hle =>
      refine ⟨fun h ↦ ?_, fun h ↦ congrArg some h.1⟩
      obtain rfl := Option.some.inj h
      exact ⟨rfl, hle⟩
  · next hle =>
      refine ⟨fun h ↦ (by cases h), ?_⟩
      rintro ⟨rfl, h⟩
      exact absurd h hle

theorem mentions_conditionalJump {flag line : Nat} {inverted : Bool} (hs : ctx.Sound cfg)
    (h : ctx.conditionalJump k flag inverted line = .ok ctx') :
    ∃ j ∈ ctx'.jumps, j.label = some k := by
  obtain ⟨-, ctx₁, ctx₂, -, -, -, rfl⟩ := Context.conditionalJump_eq_ok hs h
  exact ⟨_, List.mem_append_right _ (List.mem_singleton_self _), rfl⟩

theorem accesses_memoryAccess (hs : ctx.Sound cfg)
    (hleaf : ctx.dataBegin ≠ 0 ∨ ctx.memoryAddressBits = 13)
    (hfault : ∀ k, ctx.memoryFault = some k → Pending ctx k) (hb : Behind cfg b 32)
    (hoffset : offset < 2 ^ 32) (hvalue : Scratch value 32)
    (hapart : ∀ i < 32, ¬ MemoryScratch (value + i)) (hend : value + 32 ≤ branchTable)
    (h : ctx.memoryAccess store (8 * w.bytes) value b offset = .ok ctx') :
    Accesses cfg ctx store w value b (BitVec.ofNat 32 offset) ctx' := by
  obtain ⟨ctx₁, ctx₂, ctx₃, fault, ctx₄, ctx₅, ctx₆, ctx₇, h₁, h₂, h₃, hk, h₄, h₅, h₆, h₇, h₈⟩ :=
    memoryAccess_eq_ok h
  obtain ⟨e₁, h0, f₁⟩ := emits_placeMemory hs hleaf h₁
  have hroom := roomed_of_sound e₁.sound h0
  have hbytes₁ : ctx₁.memoryBytes = ctx.memoryBytes := by
    rw [e₁.sound.memoryBytes, hs.memoryBytes, e₁.extension.memoryAddressBits]
  obtain ⟨e₃, q₃⟩ := emits_prepare e₁.sound hb hoffset (hroom.memoryBytes_lt e₁.sound) h₂ h₃
  rw [hbytes₁, Nat.mul_div_cancel_left _ (show 0 < 8 by decide)] at e₃
  have hbranch := emits_conditionalJump e₃.sound h₄
    (e₃.sound.behind (a := memValid) (n := 1) (by decide) (by decide))
  have q₄ := quiet_conditionalJump h₄
  have e₅ := emits_compared hbranch.sound ctx₂.compared
  have hx := e₃.extension.trans e₁.sound <| hbranch.extension.trans e₃.sound e₅.extension
  have hbase : ctx₄.dataBegin = ctx₁.dataBegin := (hx.memory h0).dataBegin
  have hbytes₄ : ctx₄.memoryBytes = ctx.memoryBytes := by
    rw [hbranch.sound.memoryBytes, hs.memoryBytes, ← e₁.extension.memoryAddressBits]
    exact congrArg _ hx.memoryAddressBits
  obtain ⟨hs', x', q', htail⟩ := step_copyBits e₅.sound (by rwa [hbase]) hvalue hapart hend
    h₅ h₆ h₇ h₈
  have hx₃ := hbranch.extension.trans e₃.sound (e₅.extension.trans hbranch.sound x')
  have hx₁ := e₃.extension.trans e₁.sound hx₃
  have hbase' : ctx'.dataBegin = ctx₁.dataBegin := (hx₁.memory h0).dataBegin
  have hcompared : Quiet ctx₄ { ctx₄ with compared := ctx₂.compared } := .of_eq rfl rfl rfl
  have hquiet : Quiet ctx₄ ctx' := hcompared.trans q'
  refine ⟨hs', e₁.extension.trans hs hx₁, f₁.trans (.of_quiet (q₃.trans (q₄.trans hquiet))),
    by rwa [hbase'], fun F hF D hD a ha ↦ ?_, fun F hF D hD hnone ↦ ?_⟩
  all_goals
    obtain ⟨D₁, rfl, -, l₁⟩ := e₁.leads F (hF.mono e₁.sound hx₁) D hD
    obtain ⟨D₃, hprepared, hD₃, l₃⟩ := e₃.leads F (hF.mono e₃.sound hx₃) D₁ hD
    have hF₄ := hF.mono hbranch.sound (e₅.extension.trans hbranch.sound x')
    have hlimit : (BitVec.ofNat 32 (ctx.memoryBytes - w.bytes)).toNat = ctx.memoryBytes - w.bytes :=
      Nat.mod_eq_of_lt ((Nat.sub_le _ _).trans_lt
        (hbytes₁ ▸ hroom.memoryBytes_lt e₁.sound))
  · obtain ⟨haddress, hle⟩ := access_eq_some.mp ha
    have hvalid : D₃ memValid = true := by
      rw [hprepared.valid, BitVec.ule, hlimit, haddress, decide_eq_true hle]
    have hw : w.bytes ≤ ctx.memoryBytes := by
      have hpow := Nat.pow_le_pow_right (show 0 < 2 by decide) hs.memory_ge
      rw [← hs.memoryBytes] at hpow
      have hw : w.bytes ≤ 2 ^ 13 := by cases w <;> decide
      omega
    obtain ⟨D', hD', haccessed, l'⟩ := htail F hF D₃ hD₃ a (by rw [hprepared.address, haddress])
      (by rw [hbytes₄]; omega)
    refine ⟨D', hD', ?_, ((l₁.trans l₃).trans (hbranch.stays F hF₄ D₃ hD₃ hvalid)).trans l'⟩
    rw [hbase', ← hbase]
    exact haccessed D₁ hprepared.rest
  · have hvalid : D₃ memValid ≠ true := by
      rw [hprepared.valid, BitVec.ule, hlimit, Ne, decide_eq_true_iff]
      intro hle
      rw [access_eq_some.mpr ⟨rfl, hle⟩] at hnone
      cases hnone
    have hpending : Pending ctx₃ fault := q₃.pending _ (f₁.fault hfault fault (by
      rw [← q₃.fault, hk]))
    obtain ⟨j, hj, hlabel⟩ := mentions_conditionalJump e₃.sound h₄
    exact ⟨fault, ⟨hquiet.pending _ (q₄.pending _ hpending), j, x'.jumps.subset hj, hlabel⟩,
      D₃, hD₃, (l₁.trans l₃).trans (hbranch.jumps F hF₄ D₃ hD₃ hvalid)⟩

end CopySpace.Target
