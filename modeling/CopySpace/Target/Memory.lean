import CopySpace.Target.Operators

/-!
# Memory of the target machine

An access computes its address in a cell, compares it with the last valid one, and copies the bits
by a row that is given the address before.  It goes to the layer that stops a run when the address
is not valid.
-/

namespace CopySpace.Target

open Link Emit BitMachine

variable {cfg : Config} {ctx ctx' ctx₁ ctx₂ : Context} {F : Linked} {D D' : Bits} {base n : Nat}
  {s s' : State} {d r : Register} {v : Word} {R : Bits → Bits → Prop} {o : Operation} {k : Key}

/-! ## Bytes of a word -/

theorem getLsbD_loadBytes (m : Nat → BitVec 8) {k a i : Nat} (hk : k ≤ 4) :
    (loadBytes m k a).getLsbD i =
      if i < 8 * k then (m (a + i / 8)).getLsbD (i % 8) else false := by
  induction k generalizing a i with
  | zero => simp [loadBytes]
  | succ k ih =>
      rw [loadBytes, BitVec.getLsbD_or, BitVec.getLsbD_setWidth, BitVec.getLsbD_shiftLeft]
      by_cases hi : i < 8
      · rw [Nat.div_eq_of_lt hi, Nat.mod_eq_of_lt hi, if_pos (by omega)]
        simp [hi, show i < 32 by omega]
      · rw [ih (by omega), show a + 1 + (i - 8) / 8 = a + i / 8 by omega,
          show (i - 8) % 8 = i % 8 by omega, BitVec.getLsbD_of_ge _ i (by omega)]
        by_cases hlast : i < 8 * (k + 1)
        · rw [if_pos hlast, if_pos (by omega)]
          simp [hi, show i < 32 by omega]
        · rw [if_neg hlast, if_neg (by omega)]
          simp

/-- The memory in some data. -/
def memoryIn (base : Nat) (D : Bits) (a : Nat) : BitVec 8 := byteAt D (base + 8 * a)

/-- A word whose low bits are copied from the memory, and whose other bits are zero. -/
theorem word_eq_loadBytes {value a : Nat} {w : Width}
    (h : ∀ i < 32, D' (value + i) = if i < 8 * w.bytes then D (base + 8 * a + i) else false) :
    word D' value = loadBytes (memoryIn base D) w.bytes a := by
  have hw : w.bytes ≤ 4 := by cases w <;> decide
  refine Bits.toBitVec_eq fun i hi ↦ ?_
  rw [h i hi, getLsbD_loadBytes _ hw]
  split
  · rw [memoryIn, getLsbD_byteAt _ _ (Nat.mod_lt _ (by decide))]
    exact congrArg D (by omega)
  · rfl

/-- A byte of the memory after bits have been copied to it. -/
theorem byteAt_eq_storeBytes {value a b : Nat} {w : Width}
    (h : ∀ p, base + 8 * b ≤ p → p < base + 8 * b + 8 → D' p =
      if base + 8 * a ≤ p ∧ p < base + 8 * a + 8 * w.bytes then D (value + (p - (base + 8 * a)))
      else D p) :
    memoryIn base D' b = storeBytes (memoryIn base D) w.bytes a (word D value) b := by
  have hw : w.bytes ≤ 4 := by cases w <;> decide
  refine BitVec.eq_of_getLsbD_eq fun i hi ↦ ?_
  rw [memoryIn, getLsbD_byteAt _ _ hi, h _ (by omega) (by omega), storeBytes]
  by_cases hb : a ≤ b ∧ b < a + w.bytes
  · rw [if_pos hb, if_pos (by omega), BitVec.getLsbD_extractLsb', getLsbD_word _ _ (by omega)]
    simp only [hi, decide_true, Bool.true_and]
    exact congrArg D (by omega)
  · rw [if_neg hb, if_neg (by omega), memoryIn, getLsbD_byteAt _ _ hi]

/-! ## The place of the memory -/

/-- The memory is at the end of the image. -/
theorem emits_place {b : Nat} (fault : Option Key) (hs : ctx.Sound cfg) (h0 : ctx.dataBegin = 0)
    (hend : ctx.program.codeEnd ≤ b)
    (hb : b + 8 * ctx.memoryBytes ≤ ctx.program.image.bytes * 8)
    (hmod : b % (8 * ctx.memoryBytes) = 0) :
    Emits cfg ctx (fun D D' ↦ D' = D) { ctx with
      dataBegin := b, memoryFault := fault, program := { ctx.program with codeLimit := b } } := by
  have hlaid := hs.laid
  have hfor := hlaid.toFor
  have hle : b ≤ ctx.program.image.bytes * 8 := (Nat.le_add_right _ _).trans hb
  have hbegin : ctx.capacities.codeBegin + cfg.layerBits ≤ b := by
    have hlo := hlaid.lo_le
    have hcode := hlaid.codeEnd
    omega
  refine ⟨⟨hs.target, hs.address_le, ⟨⟨hfor.image, hfor.codeBegin, rfl, hfor.layer_le, hbegin, hle,
    hfor.bytes_le⟩, hlaid.layer, hlaid.codeEnd, hend, hlaid.three_le, hlaid.slot_le, hlaid.channels,
    hlaid.empty, hlaid.links⟩, hs.tables, hs.constants_le, hs.constants, hs.jumps_le, hs.jumps,
    hs.jumpTables,
    hs.jumpLayers, hs.jumpsApart, hs.calls, hs.internals, hs.memoryBytes, hs.memory_ge,
    fun _ ↦ ⟨rfl, hb, hmod⟩⟩, ⟨rfl, rfl, rfl, rfl, rfl, le_rfl, .inl ⟨rfl, rfl, le_rfl⟩,
    fun _ _ _ ↦ rfl, fun _ _ ↦ rfl, fun _ _ ↦ rfl, List.prefix_refl _, List.prefix_refl _,
    fun _ hj ↦ .inl hj, fun _ hk ↦ ⟨hk, rfl, rfl⟩, fun _ hk _ ↦ .inl hk, fun _ ha ↦ ha,
    fun hm ↦ absurd h0 hm, fun _ _ _ ↦ rfl⟩, fun _ _ D hD ↦ ⟨D, rfl, hD, .refl _ _⟩⟩

/-- Labels stay as they are, and the label of the layer that stops a run waits for its
definition. -/
structure Frame (ctx ctx' : Context) : Prop where
  pending : ∀ k, Pending ctx k → Pending ctx' k
  outer : ∀ k, Outer k → ctx'.labels.label k = ctx.labels.label k
  data : ∀ k, (ctx'.labels.label k).data = (ctx.labels.label k).data
  fault : (∀ k, ctx.memoryFault = some k → Pending ctx k) →
    ∀ k, ctx'.memoryFault = some k → Pending ctx' k
  placed : (ctx.dataBegin ≠ 0 → ctx.memoryFault ≠ none) →
    ctx'.dataBegin ≠ 0 → ctx'.memoryFault ≠ none
  moved : ctx'.memoryFault = ctx.memoryFault ∧ ctx'.dataBegin = ctx.dataBegin ∨
    ctx.dataBegin = 0 ∧ ctx'.dataBegin ≠ 0 ∧ ∀ k, ctx'.memoryFault = some k → ¬ Pending ctx k

theorem Frame.of_quiet (h : Quiet ctx ctx') : Frame ctx ctx' :=
  ⟨h.pending, h.outer, h.data, fun hf k hk ↦ h.pending k (hf k (h.fault ▸ hk)),
    fun hp h0 ↦ h.fault ▸ hp (h.base ▸ h0), .inl ⟨h.fault, h.base⟩⟩

theorem Frame.trans (h : Frame ctx ctx₁) (h' : Frame ctx₁ ctx') : Frame ctx ctx' := by
  refine ⟨fun k hk ↦ h'.pending k (h.pending k hk), fun k hk ↦ (h'.outer k hk).trans (h.outer k hk),
    fun k ↦ (h'.data k).trans (h.data k), fun hf ↦ h'.fault (h.fault hf),
    fun hp ↦ h'.placed (h.placed hp), ?_⟩
  obtain ⟨hfault, hbase⟩ | ⟨h0, hplaced, hfresh⟩ := h.moved
  · obtain ⟨hfault', hbase'⟩ | ⟨h0, hplaced, hfresh⟩ := h'.moved
    · exact .inl ⟨hfault'.trans hfault, hbase'.trans hbase⟩
    · exact .inr ⟨hbase ▸ h0, hplaced, fun k hk hpending ↦ hfresh k hk (h.pending k hpending)⟩
  · obtain ⟨hfault', hbase'⟩ | ⟨h0', -, -⟩ := h'.moved
    · exact .inr ⟨h0, by rwa [hbase'], fun k hk ↦ hfresh k (hfault' ▸ hk)⟩
    · exact absurd h0' hplaced

theorem emits_placeMemory (hs : ctx.Sound cfg)
    (hleaf : ctx.dataBegin ≠ 0 ∨ ctx.memoryAddressBits = 13) (h : ctx.placeMemory = .ok ctx') :
    Emits cfg ctx (fun D D' ↦ D' = D) ctx' ∧ ctx'.dataBegin ≠ 0 ∧ Frame ctx ctx' := by
  unfold Context.placeMemory at h
  split at h
  · next h0 =>
      cases h
      exact ⟨.refl hs, h0, .of_quiet (.refl _)⟩
  next h0 =>
  obtain h0 := not_not.mp h0
  dsimp only at h
  split at h
  · cases h
  next hbits =>
  split at h
  · cases h
  next hend =>
  have hbytes : ctx.memoryBytes = 8192 := by
    rw [hs.memoryBytes, hleaf.resolve_left (not_not.mpr h0)]
    rfl
  split at h
  · cases h
  next k ctx₁ hk =>
  obtain rfl := Except.ok.inj h
  obtain ⟨r, hr, hpair⟩ := Option.map_eq_some_iff.mp hk
  obtain ⟨rfl, rfl⟩ := Prod.mk.inj hpair
  have hlabel : ctx.internalLabel = some (r.1, { ctx with labels := r.2 }) := by
    rw [Context.internalLabel,
      show Link.internalLabel ctx.capacities.label ctx.labels = some r from hr]
    rfl
  obtain ⟨e₁, hpending, -, hother⟩ := emits_internalLabel hs hlabel
  have e₂ := emits_place (b := ctx.program.image.bytes * 8 - 65536) (some r.1) e₁.sound h0
    (Nat.not_lt.mp hend)
    (by dsimp only; rw [hbytes]; omega) (by dsimp only; rw [hbytes]; omega)
  obtain ⟨hquiet, hfresh⟩ := quiet_internalLabel hlabel
  refine ⟨(e₁.trans hs e₂).imp ?_, ?_, fun k' hk' ↦ ?_, hquiet.outer, hquiet.data,
    fun _ k' hk' ↦ ?_, fun _ _ hnone ↦ ?_, .inr ⟨h0, ?_, fun k' hk' hk ↦ ?_⟩⟩
  · rintro F - D D' - - ⟨D₁, rfl, rfl⟩
    rfl
  · dsimp only
    omega
  · obtain ⟨hp, -⟩ := hother k' hk'
    exact ⟨hp.internal, hp.undefined, hp.data⟩
  · obtain rfl := Option.some.inj hk'
    exact ⟨hpending.internal, hpending.undefined, hpending.data⟩
  · cases hnone
  · dsimp only
    omega
  · obtain rfl := Option.some.inj hk'
    exact hk.ne hfresh rfl

/-! ## The address -/

/-- The cell of the address is given its value. -/
structure Addresses (b : Nat) (offset : Word) (D D' : Bits) : Prop where
  word : word D' memAddress = word D b + offset
  rest : ∀ p, ¬(memAddress ≤ p ∧ p < memAddress + 32) → ¬(temporary ≤ p ∧ p ≤ carry) → D' p = D p

theorem emits_memoryAddress {b offset : Nat} (hs : ctx.Sound cfg) (hb : Behind cfg b 32)
    (hoffset : offset < 2 ^ 32) (h : ctx.memoryAddress b offset = some ctx') :
    Emits cfg ctx (Addresses b (BitVec.ofNat 32 offset)) ctx' ∧ Quiet ctx ctx' := by
  obtain ⟨ctx₁, h₁, hrest⟩ := Option.bind_eq_some_iff.mp h
  have e₁ := emits_word hs (by decide) hb h₁
  by_cases h0 : offset = 0
  · rw [if_pos h0] at hrest
    cases hrest
    refine ⟨e₁.imp ?_, quiet_emit h₁⟩
    rintro F - D D' - - hp
    exact ⟨by rw [hp.word, h0, BitVec.add_zero], fun p hp' _ ↦ hp.rest p hp'⟩
  · rw [if_neg h0] at hrest
    obtain ⟨⟨a, ctx₂⟩, h₂, h₃⟩ := Option.bind_eq_some_iff.mp hrest
    obtain ⟨e₂, ha, -, -⟩ := emits_constant e₁.sound hoffset h₂
    have e₃ := emits_add32 e₂.sound h₃ (by decide)
    refine ⟨((e₁.trans hs e₂).trans hs e₃).imp ?_,
      (quiet_emit h₁).trans <| (quiet_constant h₂).trans (quiet_onProgram h₃)⟩
    rintro F hF D D' hD hD' ⟨D₂, ⟨D₁, h₁, rfl⟩, h₃⟩
    have hconstant : word D₂ a = word D a := word_congr fun i hi ↦ h₁.rest _ (by
      have hbounds := ha.bounds e₂.sound
      dsimp only [regBase, memAddress] at hbounds ⊢
      omega)
    refine ⟨h₃.result.trans ?_, fun p hp hp' ↦ (h₃.rest p hp hp').trans (h₁.rest p hp)⟩
    rw [h₁.word, hconstant, word_constant ha e₂.sound e₃ hF hD]
    rfl

/-- The address has been compared with the last valid one. -/
structure Checks (limit : Nat) (D D' : Bits) : Prop where
  valid : D' memValid = (word D memAddress).ule (BitVec.ofNat 32 limit)
  rest : ∀ p, ¬(memFlags ≤ p ∧ p ≤ memValid) → p ≠ cmpSign → D' p = D p

/-- The flags of the last comparison are put back. -/
theorem Checks.of_steps {limit a : Nat} {D₁ D₂ D₃ : Bits} (ha : a + 32 ≤ regBase)
    (hlimit : word D a = BitVec.ofNat 32 limit) (h₁ : D₁ = D.blit 5 memFlags cmpEq)
    (h₂ : Compares memAddress a D₁ D₂) (h₃ : D₃ = Function.update D₂ memValid (D₂ cmpLeu))
    (h₄ : D' = D₃.blit 5 cmpEq memFlags) : Checks limit D D' := by
  have hother : ∀ b, (∀ i < 32, ¬(memFlags ≤ b + i ∧ b + i < memFlags + 5)) →
      word D₁ b = word D b :=
    fun b hb ↦ word_congr fun i hi ↦ by
      rw [h₁]
      exact Bits.blit_of_notMem _ (hb i hi)
  have haddress : word D₁ memAddress = word D memAddress := hother _ fun i hi ↦ by
    dsimp only [memAddress, memFlags]
    omega
  have hconstant : word D₁ a = BitVec.ofNat 32 limit := (hother _ fun i hi ↦ by
    dsimp only [regBase, memFlags] at ha ⊢
    omega).trans hlimit
  subst h₃ h₄
  refine ⟨?_, fun p hp hsign ↦ ?_⟩
  · rw [Bits.blit_of_notMem _ (by decide), Function.update_self, h₂.flags.leu, haddress, hconstant]
  · by_cases hflag : cmpEq ≤ p ∧ p < cmpEq + 5
    · obtain ⟨i, rfl⟩ := Nat.exists_eq_add_of_le hflag.1
      have hi : i < 5 := by omega
      rw [Bits.blit_add _ hi, Function.update_of_ne (by
          dsimp only [memFlags, memValid]
          omega), h₂.rest _ (by
          dsimp only [memFlags, cmpEq, cmpSign]
          omega), h₁, Bits.blit_add _ hi]
    · have hne : p ≠ memValid := by
        rintro rfl
        exact hp ⟨by decide, le_rfl⟩
      rw [Bits.blit_of_notMem _ hflag, Function.update_of_ne hne, h₂.rest p (by
          dsimp only [cmpEq, cmpSign] at *
          omega), h₁, Bits.blit_of_notMem _ (by
          dsimp only [memFlags, memValid] at *
          omega)]

theorem emits_memoryCheck {width : Nat} (hs : ctx.Sound cfg) (hmemory : ctx.memoryBytes < 2 ^ 32)
    (h : ctx.memoryCheck width = some ctx') :
    Emits cfg ctx (Checks (ctx.memoryBytes - width / 8)) ctx' ∧ Quiet ctx ctx' := by
  simp only [Context.memoryCheck, Option.bind_eq_bind, Option.bind_eq_some_iff, Prod.exists] at h
  obtain ⟨a, ctx₁, h₁, ctx₂, h₂, ctx₃, h₃, ctx₄, h₄, h₅⟩ := h
  obtain ⟨e₁, ha, -, -⟩ := emits_constant hs ((Nat.sub_le _ _).trans_lt hmemory) h₁
  have hbounds := ha.bounds e₁.sound
  have e₂ := emits_copy e₁.sound h₂ (by decide)
    (e₁.sound.behind (a := cmpEq) (n := 5) (by decide) (by decide))
  have e₃ := emits_compare32 e₂.sound (e₂.sound.behind (by decide) (by decide))
    (ha.behind e₁.sound le_rfl) (by decide) (by
      dsimp only [Separate, regBase, cmpEq] at hbounds ⊢
      omega) h₃
  have e₄ := emits_bit e₃.sound (by decide)
    (e₃.sound.behind (a := cmpLeu) (n := 1) (by decide) (by decide)) h₄
  have e₅ := emits_copy e₄.sound h₅ (by decide)
    (e₄.sound.behind (a := memFlags) (n := 5) (by decide) (by decide))
  refine ⟨((((e₁.trans hs e₂).trans hs e₃).trans hs e₄).trans hs e₅).imp ?_,
    (quiet_constant h₁).trans <| (quiet_emit h₂).trans <| (quiet_compare32 h₃).trans <|
      (quiet_emit h₄).trans (quiet_emit h₅)⟩
  rintro F hF D D' hD - ⟨D₃, ⟨D₂, ⟨D₁, ⟨D₀, rfl, h₁⟩, h₂⟩, h₃⟩, h₄⟩
  have hx := e₂.extension.trans e₁.sound <| e₃.extension.trans e₂.sound <|
    e₄.extension.trans e₃.sound e₅.extension
  exact .of_steps hbounds.2 (ha.word e₁.sound (hF.mono e₁.sound hx) hD) h₁ h₂ h₃ h₄

/-! ## The row -/

/-- The rows of an access: the first one gives the other its address. -/
def accessRows (cfg : Config) (store : Bool) (width value base i : Nat) : List Instruction :=
  [⟨cfg.addressSize, if store then cfg.dstBit (i + 1) 0 else cfg.srcBit (i + 1) 0, memBitAddress⟩,
    if store then ⟨width, base, value⟩ else ⟨width, value, base⟩]

theorem splice_whole {w v x : Nat} (hv : v < 2 ^ w) (hx : x < 2 ^ w) : Bits.splice 0 w v x = v := by
  have htop := Bits.splice_top (show 0 < 2 ^ 0 by decide) hx hv
  rwa [Nat.pow_zero, Nat.one_mul, Nat.one_mul, Nat.zero_add, Nat.zero_add] at htop

/-- What an access does once its address is known. -/
def accessed (store : Bool) (width value p : Nat) (D : Bits) : Bits :=
  if store then D.blit width p value else D.blit width value p

theorem performs_accessRows {store : Bool} {width value i p : Nat} (hi : 3 ≤ i)
    (h0 : cfg.addressSize ≠ 0) (hbase : base < 2 ^ cfg.addressSize)
    (hcell : Behind cfg memBitAddress cfg.addressSize)
    (hp : D.field memBitAddress cfg.addressSize = p) (hdata : Behind cfg p width)
    (hvalue : Behind cfg value width) :
    Performs cfg i (accessRows cfg store width value base i) D
      (accessed store width value p D) := by
  have hsplice :
      Bits.splice 0 cfg.addressSize (D.field memBitAddress cfg.addressSize) base = p := by
    rw [splice_whole (Bits.field_lt D _ _) hbase, hp]
  cases store
  · refine Performs.patchSrc (k := 0) hi h0
      (show 0 + cfg.addressSize ≤ cfg.addressSize by omega) Nat.one_pos hcell ?_
    change Performs cfg (i + 1) [⟨width, value, Bits.splice 0 cfg.addressSize _ base⟩] D _
    rw [hsplice]
    exact .copy (by omega) (fun _ ↦ hvalue) (fun _ ↦ hdata) performs_nil
  · refine Performs.patchDst (k := 0) hi h0
      (show 0 + cfg.addressSize ≤ cfg.addressSize by omega) Nat.one_pos hcell ?_
    change Performs cfg (i + 1) [⟨width, Bits.splice 0 cfg.addressSize _ base, value⟩] D _
    rw [hsplice]
    exact .copy (by omega) (fun _ ↦ hdata) (fun _ ↦ hvalue) performs_nil

theorem memoryRow_eq_some {store : Bool} {width value : Nat} (hs : ctx.Sound cfg)
    (h : ctx.memoryRow store width value = some ctx') : ∃ ctx₁, ctx.fitSlots 253 = some ctx₁ ∧
      ctx₁.emitRows (accessRows cfg store width value ctx.dataBegin ctx₁.program.image.slot) =
        some ctx' := by
  obtain ⟨ctx₁, h₁, h⟩ := Option.bind_eq_some_iff.mp h
  obtain ⟨ctx₂, h₂, h⟩ := Option.bind_eq_some_iff.mp h
  obtain ⟨hroom, -⟩ := emits_room_of_fitSlots hs (by decide) h₁
  obtain ⟨q, hq⟩ := Context.fitSlots_program h₁
  have hdata : ctx₂.dataBegin = ctx.dataBegin := by
    obtain ⟨q', -, hq'⟩ := Context.onProgram_eq_some h₂
    rw [hq', hq]
  have hfor := hroom.sound.laid.toFor.image
  have hfield : (ctx₁.program.image.slot + 1) * ctx₁.program.image.instructionBits +
      ctx₁.program.image.countBits + (if store then 0 else ctx₁.program.image.addressBits) =
      if store then cfg.dstBit (ctx₁.program.image.slot + 1) 0
      else cfg.srcBit (ctx₁.program.image.slot + 1) 0 := by
    rw [hfor.instructionBits, hfor.countBits, hfor.addressBits]
    cases store
    · exact Nat.add_assoc _ _ _
    · exact Nat.add_assoc _ _ _
  rw [hfield, hfor.addressBits] at h₂
  rw [hdata] at h
  refine ⟨ctx₁, h₁, Context.emitRows_pair h₂ ?_⟩
  cases store <;> exact h

theorem step_memoryRow {store : Bool} {width value : Nat} (hs : ctx.Sound cfg)
    (h : ctx.memoryRow store width value = some ctx') :
    ctx'.Sound cfg ∧ Extends cfg ctx ctx' ∧ Quiet ctx ctx' ∧
      ∀ F : Linked, F.Final cfg ctx' → ∀ D, F.Runs D → ∀ p,
        D.field memBitAddress cfg.addressSize = p → ctx.dataBegin < cfg.spaceSize →
        Behind cfg p width → Behind cfg value width →
        Leads cfg F.data ctx.spot D ctx'.spot (accessed store width value p D) := by
  obtain ⟨ctx₁, h₁, h₂⟩ := memoryRow_eq_some hs h
  obtain ⟨hroom, hslot⟩ := emits_room_of_fitSlots hs (by decide) h₁
  have hs₁ := hroom.sound
  have hlen : ctx₁.program.image.slot + (accessRows cfg store width value ctx.dataBegin
      ctx₁.program.image.slot).length ≤ 255 := Nat.add_le_add_right hslot 2
  obtain ⟨hv, rfl⟩ := Context.emitRows_eq_some hs₁ hlen h₂
  obtain ⟨hs₂, hx₂⟩ := step_append (f := id) hs₁ hlen (fun _ _ _ ↦ rfl)
    (.of_eq ctx₁.codeBegin_ge fun _ _ ↦ rfl)
  refine ⟨hs₂, hroom.extension.trans hs hx₂, (quiet_fitSlots h₁).trans (.of_eq rfl rfl rfl),
    fun F hF D hD p hfield hbase hp hvalue ↦ ?_⟩
  obtain ⟨D₁, rfl, -, hl⟩ := hroom.leads F (hF.mono hs₁ hx₂) D hD
  have hfive := hs.target.five_le
  have hle := hs.address_le
  refine hl.trans (leads_append hs₁ hv hlen (performs_accessRows hs₁.laid.three_le (by omega)
    (hs.target.space ▸ hbase) (hs.behind (by decide) ?_) hfield hp hvalue) hF)
  dsimp only [memBitAddress, branchTable]
  omega

/-! ## The bits of the address -/

/-- The low bits of the base are those of the offset in the memory. -/
theorem field_memBitAddress {a bits : Nat} (hbits : bits + 3 ≤ cfg.addressSize) (ha : a < 2 ^ bits)
    (hbase : base < 2 ^ cfg.addressSize) (hmod : base % (8 * 2 ^ bits) = 0)
    (hlow : ∀ i < bits, D (memBitAddress + 3 + i) = a.testBit i)
    (hrest : ∀ i < cfg.addressSize, i < 3 ∨ bits + 3 ≤ i →
      D (memBitAddress + i) = base.testBit i) :
    D.field memBitAddress cfg.addressSize = base + 8 * a := by
  have hpow : 2 ^ (bits + 3) = 8 * 2 ^ bits := (Nat.pow_add 2 bits 3).trans (Nat.mul_comm _ _)
  obtain ⟨q, rfl⟩ : ∃ q, base = 2 ^ (bits + 3) * q := by
    rw [hpow]
    exact Nat.dvd_of_mod_eq_zero hmod
  have hlt : 8 * a < 2 ^ (bits + 3) := by omega
  have hsum : 2 ^ (bits + 3) * q + 8 * a < 2 ^ cfg.addressSize := by
    obtain ⟨e, he⟩ := Nat.exists_eq_add_of_le hbits
    rw [he, Nat.pow_add 2 (bits + 3)] at hbase ⊢
    have hq : q < 2 ^ e := Nat.lt_of_mul_lt_mul_left hbase
    calc 2 ^ (bits + 3) * q + 8 * a < 2 ^ (bits + 3) * q + 2 ^ (bits + 3) := by omega
      _ = 2 ^ (bits + 3) * (q + 1) := (Nat.mul_succ _ _).symm
      _ ≤ 2 ^ (bits + 3) * 2 ^ e := Nat.mul_le_mul_left _ hq
  refine Nat.eq_of_testBit_eq fun i ↦ ?_
  by_cases hi : i < cfg.addressSize
  · rw [Bits.testBit_field, decide_eq_true hi, Bool.true_and]
    rw [Nat.testBit_two_pow_mul_add _ hlt]
    have h8 : ∀ j, (8 * a).testBit j = (decide (3 ≤ j) && a.testBit (j - 3)) := fun j ↦ by
      rw [show 8 * a = 2 ^ 3 * a from rfl, Nat.testBit_two_pow_mul]
    by_cases hmid : i < bits + 3
    · rw [if_pos hmid, h8]
      by_cases h3 : 3 ≤ i
      · have hbit := hlow (i - 3) (by omega)
        rw [show memBitAddress + 3 + (i - 3) = memBitAddress + i by omega] at hbit
        rw [hbit, decide_eq_true h3, Bool.true_and]
      · rw [hrest i hi (.inl (by omega)), Nat.testBit_two_pow_mul, decide_eq_false h3,
          decide_eq_false (by omega)]
        rfl
    · rw [if_neg hmid, hrest i hi (.inr (by omega)), Nat.testBit_two_pow_mul,
        decide_eq_true (by omega), Bool.true_and]
  · have hle := Nat.pow_le_pow_right (show 0 < 2 by decide) (Nat.not_lt.mp hi)
    rw [Nat.testBit_lt_two_pow ((Bits.field_lt D _ _).trans_le hle),
      Nat.testBit_lt_two_pow (hsum.trans_le hle)]

end CopySpace.Target
