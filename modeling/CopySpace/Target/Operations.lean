import CopySpace.Target.Access
import CopySpace.Target.Assembly

/-!
# Operations of the target machine

Loads, stores and the stack, and then every operation: what `instruction` emits for a statement
implements the operation that the statement stands for.
-/

namespace CopySpace.Target

open Link Emit BitMachine

variable {cfg : Config} {ctx ctx' ctx₁ ctx₂ : Context} {F : Linked} {D D' : Bits}
  {base n a b value offset : Nat} {s s' : State} {d r p : Register} {v : Word} {w : Width}
  {k : Key} {address : Address} {R : Bits → Bits → Prop} {o : Operation}

/-! ## Loads and stores -/

theorem loadBytes_congr {m m' : Nat → BitVec 8} {j : Nat} (h : ∀ i < j, m (a + i) = m' (a + i)) :
    loadBytes m j a = loadBytes m' j a := by
  induction j generalizing a with
  | zero => rfl
  | succ j ih =>
      rw [loadBytes, loadBytes, ih fun i hi ↦ ?_]
      · have hfirst := h 0 (Nat.succ_pos j)
        rw [Nat.add_zero] at hfirst
        rw [hfirst]
      · rw [Nat.add_assoc, Nat.add_comm 1]
        exact h (i + 1) (Nat.succ_lt_succ hi)

/-- A load leaves the bytes of the memory in its cell, and nothing else that is visible changes. -/
theorem Represents.load (h : Represents base n s D) (h0 : base ≠ 0)
    (hacc : Accessed false w value base a D D') (ha : a + w.bytes ≤ n) :
    Emit.word D' value = loadBytes s.memory w.bytes a ∧
      ∀ q, Visible q → ¬(value ≤ q ∧ q < value + 32) → D' q = D q := by
  refine ⟨?_, fun q hq hv ↦ hacc.rest q hq.not_memoryScratch (fun _ ↦ hv) (fun hs ↦ by cases hs)⟩
  rw [word_eq_loadBytes (hacc.loaded rfl)]
  exact loadBytes_congr fun i hi ↦ h.memory h0 _ (by omega)

/-- A store changes the bytes of the memory. -/
theorem Represents.store (h : Represents base n s D) (hbase : branchTable ≤ base)
    (hacc : Accessed true w value base a D D') (hv : Emit.word D value = v) :
    Represents base n { s with memory := storeBytes s.memory w.bytes a v } D' := by
  have hlow : ∀ q, Visible q → q < branchTable → D' q = D q := fun q hq hlt ↦
    hacc.rest q hq.not_memoryScratch (fun hs ↦ by cases hs) fun _ ↦ by omega
  have hflag : ∀ q, cmpEq ≤ q → q ≤ cmpLes → D' q = D q := fun q hq hq' ↦
    hlow q (.inr (.inl ⟨hq, hq'⟩)) (hq'.trans_lt (by decide))
  refine ⟨?_, (hflag _ (by decide) (by decide)).trans h.eq,
    (hflag _ (by decide) (by decide)).trans h.ltu, (hflag _ (by decide) (by decide)).trans h.lts,
    (hflag _ (by decide) (by decide)).trans h.leu, (hflag _ (by decide) (by decide)).trans h.les,
    fun h0 c hc ↦ ?_⟩
  · rw [← h.registers]
    funext r
    have hbounds := (isRegister_registerAt r).bounds
    exact word_congr fun i hi ↦ hlow _ (visible_registerAt r hi) (by
      dsimp only [regBase, branchTable] at *
      omega)
  · change memoryIn base D' c = _
    have hbyte :
        memoryIn base D' c = storeBytes (memoryIn base D) w.bytes a (Emit.word D value) c := by
      refine byteAt_eq_storeBytes fun q hq hq' ↦ ?_
      split
      · next hmem =>
          obtain ⟨i, rfl⟩ := Nat.exists_eq_add_of_le hmem.1
          rw [hacc.stored rfl i (by omega), Nat.add_sub_cancel_left]
      · next hmem =>
          exact hacc.rest q (Visible.not_memoryScratch (.inr (.inr (by omega))))
            (fun hs ↦ by cases hs) fun _ ↦ hmem
    have hmemory : memoryIn base D c = s.memory c := h.memory h0 c hc
    rw [hbyte, hv]
    dsimp only [storeBytes]
    rw [hmemory]

theorem access_end_le {x : Word} (hs : ctx.Sound cfg) (h : access ctx.memoryBytes w x = some a) :
    a + w.bytes ≤ ctx.memoryBytes := by
  obtain ⟨-, hle⟩ := access_eq_some.mp h
  have hpow := Nat.pow_le_pow_right (show 0 < 2 by decide) hs.memory_ge
  rw [← hs.memoryBytes] at hpow
  have hw : w.bytes ≤ 2 ^ 13 := by cases w <;> decide
  omega

/-- The cell and the constant of an access are the address of an operation. -/
def AddressIn (cfg : Config) (ctx : Context) (b : Nat) (offset : Word) (address : Address) : Prop :=
  ∀ F : Linked, F.Final cfg ctx → ∀ base n D s, F.Runs D → Represents base n s D →
    word D b + offset = address.value s

theorem implements_load (hs : ctx.Sound cfg)
    (h : Accesses cfg ctx false w (registerAt d) b v ctx') (ha : AddressIn cfg ctx' b v address) :
    Implements cfg ctx (.load w d address) ctx' := by
  refine ⟨h.sound, h.extension, fun F hF base hbase D s hD hrep s' hs' ↦ ?_,
    fun F hF base hbase D s hD hrep hnone ↦ ?_⟩
  · obtain ⟨x, hx, rfl⟩ := Option.map_eq_some_iff.mp hs'
    obtain ⟨c, hc, rfl⟩ := Option.map_eq_some_iff.mp hx
    rw [← ha F hF base _ D s hD hrep] at hc
    obtain ⟨D', hD', hacc, hl⟩ := h.completes F hF D hD c hc
    obtain rfl := hbase.1 h.placed
    obtain ⟨hword, hrest⟩ := hrep.load h.placed hacc (access_end_le hs hc)
    exact ⟨D', hrep.set hbase.2 ⟨hword, hrest⟩, hD', hl⟩
  · rw [Operation.run, Option.map_eq_none_iff, State.load, Option.map_eq_none_iff,
      ← ha F hF base _ D s hD hrep] at hnone
    exact h.faults F hF D hD hnone

theorem implements_store (h : Accesses cfg ctx true w (registerAt r) b v ctx')
    (ha : AddressIn cfg ctx' b v address) : Implements cfg ctx (.store w address r) ctx' := by
  refine ⟨h.sound, h.extension, fun F hF base hbase D s hD hrep s' hs' ↦ ?_,
    fun F hF base hbase D s hD hrep hnone ↦ ?_⟩
  · obtain ⟨c, hc, rfl⟩ := Option.map_eq_some_iff.mp hs'
    rw [← ha F hF base _ D s hD hrep] at hc
    obtain ⟨D', hD', hacc, hl⟩ := h.completes F hF D hD c hc
    obtain rfl := hbase.1 h.placed
    exact ⟨D', hrep.store (hbase.2 h.placed) hacc (hrep.word r), hD', hl⟩
  · rw [Operation.run, State.store, Option.map_eq_none_iff, ← ha F hF base _ D s hD hrep] at hnone
    exact h.faults F hF D hD hnone

/-! ## Contexts of a leaf -/

/-- What holds of the context between the statements of a leaf. -/
structure InLeaf (cfg : Config) (ctx : Context) : Prop where
  sound : ctx.Sound cfg
  memoryAddressBits : ctx.memoryAddressBits = 13
  programMode : ctx.programMode = false
  fault : ∀ k, ctx.memoryFault = some k → Pending ctx k

theorem InLeaf.mono (h : InLeaf cfg ctx) (hs : ctx'.Sound cfg) (hx : Extends cfg ctx ctx')
    (hf : Frame ctx ctx') : InLeaf cfg ctx' :=
  ⟨hs, hx.memoryAddressBits.trans h.memoryAddressBits, hx.programMode.trans h.programMode,
    hf.fault h.fault⟩

theorem InLeaf.emits (h : InLeaf cfg ctx) (he : Emits cfg ctx R ctx') (hq : Quiet ctx ctx') :
    InLeaf cfg ctx' := h.mono he.sound he.extension (.of_quiet hq)

theorem Awaited.mono (h : Awaited ctx k) (hpending : ∀ k, Pending ctx k → Pending ctx' k)
    (hx : Extends cfg ctx ctx') : Awaited ctx' k := by
  obtain ⟨hk, j, hj, hlabel⟩ := h
  exact ⟨hpending k hk, j, hx.jumps.subset hj, hlabel⟩

theorem InLeaf.accesses {store : Bool} (h : InLeaf cfg ctx) (hb : Behind cfg b 32)
    (hoffset : offset < 2 ^ 32) (hvalue : IsRegister value ∨ value = stackValue)
    (hacc : ctx.memoryAccess store (8 * w.bytes) value b offset = .ok ctx') :
    Accesses cfg ctx store w value b (BitVec.ofNat 32 offset) ctx' := by
  have hbounds : regBase ≤ value ∧ value + 32 ≤ regBase + 512 ∨ value = stackValue :=
    hvalue.imp_left IsRegister.bounds
  refine accesses_memoryAccess h.sound (.inr h.memoryAddressBits) h.fault hb hoffset ?_
    (fun i hi ↦ ?_) ?_ hacc
  · dsimp only [Scratch, regBase, addTable, temporary, shiftZero, eqTable, memBitAddress, zeroLayer,
      stackValue] at *
    omega
  · dsimp only [MemoryScratch, regBase, temporary, carry, cmpSign, memAddress, memBitAddress,
      stackValue] at *
    omega
  · dsimp only [regBase, stackValue, branchTable] at *
    omega

/-! ## The stack -/

/-- The value is put aside and the pointer is moved. -/
theorem emits_pushed {four : Nat} (hs : ctx.Sound cfg) (h4 : IsConstant ctx four 4)
    (h₁ : ctx.emit 32 stackValue (registerAt r) = some ctx₁)
    (h₂ : ctx₁.sub32 (registerAt p) (registerAt p) four = some ctx₂) :
    Emits cfg ctx (fun D D' ↦ Sets p (registersIn D p - 4#32) D D' ∧
      Emit.word D' stackValue = registersIn D r) ctx₂ := by
  have hp := isRegister_registerAt p
  have hbounds := hp.bounds
  have e₁ := emits_word hs (by decide) ((isRegister_registerAt r).behind hs) h₁
  have e₂ := emits_sub32 e₁.sound h₂ hp.scratch
  refine (e₁.trans hs e₂).imp ?_
  rintro F hF D D' hD - ⟨D₁, h₁, h₂⟩
  have hpointer : Emit.word D₁ (registerAt p) = registersIn D p := h₁.other (by
    dsimp only [Separate, regBase, stackValue] at *
    omega)
  have hfour : Emit.word D₁ four = 4#32 := by
    rw [h₁.other, h4.word hs (hF.mono hs (e₁.extension.trans hs e₂.extension)) hD]
    have hconstant := h4.bounds hs
    dsimp only [Separate, regBase, stackValue] at *
    omega
  have hset := Sets.of_sums h₂
  refine ⟨⟨?_, fun q hq hout ↦ (hset.rest q hq hout).trans (h₁.rest q ?_)⟩, ?_⟩
  · rw [hset.word, hpointer, hfour, rippleResult, if_pos rfl]
  · dsimp only [Visible, regBase, cmpEq, cmpLes, branchTable, stackValue] at *
    omega
  · refine Eq.trans (word_congr fun i hi ↦ h₂.rest _ ?_ ?_) h₁.word
    · dsimp only [regBase, stackValue] at *
      omega
    · dsimp only [temporary, carry, stackValue]
      omega

theorem implements_push {four : Nat} {ctx₃ : Context} (hleaf : InLeaf cfg ctx)
    (h₁ : ctx.constant 4 = some (four, ctx₁))
    (h₂ : ctx₁.emit 32 stackValue (registerAt r) = some ctx₂)
    (h₃ : ctx₂.sub32 (registerAt p) (registerAt p) four = some ctx₃)
    (h₄ : ctx₃.memoryAccess true 32 stackValue (registerAt p) 0 = .ok ctx') :
    Implements cfg ctx (.push p r) ctx' ∧ Frame ctx ctx' ∧ ctx'.dataBegin ≠ 0 := by
  have hs := hleaf.sound
  obtain ⟨e₁, h4, -, -⟩ := emits_constant hs (by decide) h₁
  have e₂ := e₁.trans hs (emits_pushed e₁.sound h4 h₂ h₃)
  have q₂ := (quiet_constant h₁).trans ((quiet_emit h₂).trans (quiet_onProgram h₃))
  have hacc := (hleaf.emits e₂ q₂).accesses (w := .long) ((isRegister_registerAt p).behind e₂.sound)
    (by decide) (.inr rfl) h₄
  have hbytes : ctx₃.memoryBytes = ctx.memoryBytes := by
    rw [e₂.sound.memoryBytes, hs.memoryBytes, e₂.extension.memoryAddressBits]
  refine ⟨⟨hacc.sound, e₂.extension.trans hs hacc.extension,
    fun F hF base hbase D s hD hrep s' hs' ↦ ?_, fun F hF base hbase D s hD hrep hnone ↦ ?_⟩,
    Frame.trans (.of_quiet q₂) hacc.frame, hacc.placed⟩
  all_goals
    obtain ⟨D₁, ⟨D₀, rfl, hset, hvalue⟩, hD₁, l₁⟩ := e₂.leads F
      (hF.mono e₂.sound hacc.extension) D hD
    have hrep₁ := hrep.set hbase.2 hset
    have haddress : Emit.word D₁ (registerAt p) + BitVec.ofNat 32 0 = s.register p - 4#32 := by
      rw [hset.word, hrep.registers, BitVec.add_zero]
    rw [hrep.registers] at hrep₁ hvalue
  · obtain ⟨c, hc, rfl⟩ := Option.map_eq_some_iff.mp hs'
    obtain ⟨D', hD', haccessed, l'⟩ := hacc.completes F hF D₁ hD₁ c (by rw [haddress, hbytes, hc])
    obtain rfl := hbase.1 hacc.placed
    exact ⟨D', hrep₁.store (hbase.2 hacc.placed) haccessed hvalue, hD', l₁.trans l'⟩
  · obtain ⟨k, hk, D', hD', l'⟩ := hacc.faults F hF D₁ hD₁ (by
      rw [haddress, hbytes]
      exact Option.map_eq_none_iff.mp hnone)
    exact ⟨k, hk, D', hD', l₁.trans l'⟩

/-- The pointer is moved and the value is taken. -/
theorem emits_popped {four : Nat} (hs : ctx.Sound cfg) (h4 : IsConstant ctx four 4)
    (h₁ : ctx.add32 (registerAt p) (registerAt p) four = some ctx₁)
    (h₂ : ctx₁.emit 32 (registerAt d) stackValue = some ctx₂) :
    Emits cfg ctx (fun D D' ↦ ∃ D₁, Sets p (registersIn D p + 4#32) D D₁ ∧
      Sets d (Emit.word D stackValue) D₁ D') ctx₂ := by
  have hp := isRegister_registerAt p
  have hbounds := hp.bounds
  have e₁ := emits_add32 hs h₁ hp.scratch
  have e₂ := emits_word e₁.sound (isRegister_registerAt d).scratch
    (e₁.sound.behind (a := stackValue) (by decide) (by decide)) h₂
  refine (e₁.trans hs e₂).imp ?_
  rintro F hF D D' hD - ⟨D₁, h₁, h₂⟩
  have hset := Sets.of_sums h₁
  have hvalue : Emit.word D₁ stackValue = Emit.word D stackValue :=
    word_congr fun i hi ↦ h₁.rest _ (by
      dsimp only [regBase, stackValue] at *
      omega) (by
      dsimp only [temporary, carry, stackValue]
      omega)
  rw [h4.word hs (hF.mono hs (e₁.extension.trans hs e₂.extension)) hD] at hset
  exact ⟨D₁, hset, hvalue ▸ .of_places h₂⟩

theorem implements_pop {four : Nat} {ctx₃ : Context} (hleaf : InLeaf cfg ctx)
    (h₁ : ctx.constant 4 = some (four, ctx₁))
    (h₂ : ctx₁.memoryAccess false 32 stackValue (registerAt p) 0 = .ok ctx₂)
    (h₃ : ctx₂.add32 (registerAt p) (registerAt p) four = some ctx₃)
    (h₄ : ctx₃.emit 32 (registerAt d) stackValue = some ctx') :
    Implements cfg ctx (.pop p d) ctx' ∧ Frame ctx ctx' ∧ ctx'.dataBegin ≠ 0 := by
  have hs := hleaf.sound
  obtain ⟨e₁, h4, -, -⟩ := emits_constant hs (by decide) h₁
  have q₁ := quiet_constant h₁
  have hacc := (hleaf.emits e₁ q₁).accesses (w := .long) ((isRegister_registerAt p).behind hs)
    (by decide) (.inr rfl) h₂
  have e₂ := emits_popped hacc.sound (h4.mono hacc.extension) h₃ h₄
  have q₂ := (quiet_onProgram h₃).trans (quiet_emit h₄)
  have hbytes : ctx₁.memoryBytes = ctx.memoryBytes := by
    rw [e₁.sound.memoryBytes, hs.memoryBytes, e₁.extension.memoryAddressBits]
  have hx := hacc.extension.trans e₁.sound e₂.extension
  refine ⟨⟨e₂.sound, e₁.extension.trans hs hx, fun F hF base hbase D s hD hrep s' hs' ↦ ?_,
    fun F hF base hbase D s hD hrep hnone ↦ ?_⟩,
    Frame.trans (.of_quiet q₁) (hacc.frame.trans (.of_quiet q₂)), q₂.base ▸ hacc.placed⟩
  all_goals
    obtain ⟨D₁, rfl, hD₁, l₁⟩ := e₁.leads F (hF.mono e₁.sound hx) D hD
    have haddress : Emit.word D₁ (registerAt p) + BitVec.ofNat 32 0 = s.register p := by
      rw [hrep.word, BitVec.add_zero]
    have hF₂ := hF.mono hacc.sound e₂.extension
  · obtain ⟨x, hx', rfl⟩ := Option.map_eq_some_iff.mp hs'
    obtain ⟨c, hc, rfl⟩ := Option.map_eq_some_iff.mp hx'
    obtain ⟨D₂, hD₂, haccessed, l₂⟩ := hacc.completes F hF₂ D₁ hD₁ c (by rw [haddress, hbytes, hc])
    obtain rfl := (hbase.mono e₂.extension).1 hacc.placed
    obtain ⟨hword, hrest⟩ := hrep.load hacc.placed haccessed (access_end_le hs hc)
    have hrep₂ := hrep.congr hbase.2 fun q hq ↦ hrest q hq (by
      dsimp only [Visible, regBase, cmpEq, cmpLes, branchTable, stackValue] at *
      omega)
    obtain ⟨D', ⟨D₃, hpointer, hvalue⟩, hD', l'⟩ := e₂.leads F hF D₂ hD₂
    rw [hrep₂.registers] at hpointer
    rw [hword] at hvalue
    exact ⟨D', (hrep₂.set hbase.2 hpointer).set hbase.2 hvalue, hD', (l₁.trans l₂).trans l'⟩
  · obtain ⟨k, hk, D', hD', l'⟩ := hacc.faults F hF₂ D₁ hD₁ (by
      rw [haddress, hbytes]
      exact Option.map_eq_none_iff.mp (Option.map_eq_none_iff.mp hnone))
    exact ⟨k, hk.mono q₂.pending e₂.extension, D', hD', l₁.trans l'⟩

end CopySpace.Target
