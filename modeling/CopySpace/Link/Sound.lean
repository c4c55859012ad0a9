import CopySpace.Emit.Laid
import CopySpace.Link.Instruction
import CopySpace.Space.Spot

/-!
# The program while it is linked

What the linker has emitted so far it never changes: a context `Extends` an earlier one.  At the
end the jumps are given their targets and the image is `Linked`; it is then `Final` for every
context on the way.  A run of the image changes some data, but not those that are `Kept`.
-/

namespace CopySpace.Link

open Emit BitMachine

variable {cfg : Config} {ctx ctx' ctx'' : Context} {m m' : Bits}

/-! ## Tables -/

/-- The tables that are there from the beginning, and the bit that is shifted in. -/
structure Tables (m : Bits) : Prop where
  eq : ∀ i < 8, m (eqTable + i) = (144 : Nat).testBit i
  lt : ∀ i < 8, m (ltTable + i) = (212 : Nat).testBit i
  bit : ∀ operation : BitOperation, ∀ i < 4,
    m (Context.bitTable operation + i) = operation.truth.testBit i
  zero : m shiftZero = false

/-- A position of these tables. -/
def InTables (p : Nat) : Prop :=
  andTable ≤ p ∧ p < temporary ∨ p = shiftZero ∨ eqTable ≤ p ∧ p < eqTable + 16

theorem Tables.congr (h : Tables m) (hm : ∀ p, InTables p → m' p = m p) : Tables m' where
  eq i hi := (hm _ (.inr (.inr (by dsimp only [eqTable]; omega)))).trans (h.eq i hi)
  lt i hi := (hm _ (.inr (.inr (by dsimp only [eqTable, ltTable]; omega)))).trans (h.lt i hi)
  bit operation i hi := (hm _ (.inl (by
    cases operation <;> dsimp only [Context.bitTable, andTable, orTable, xorTable, temporary] <;>
      omega))).trans (h.bit operation i hi)
  zero := (hm _ (.inr (.inl rfl))).trans h.zero

/-- The table of an addition or a subtraction. -/
def arithmeticTable (subtract : Bool) : Nat := if subtract then subTable else addTable

/-- An addition or a subtraction has been emitted, so that its table is there. -/
def HasArithmetic (subtract : Bool) (m : Bits) : Prop :=
  ∀ i < 16, m (arithmeticTable subtract + i) = (arithmeticTruth subtract (i / 2)).testBit (i % 2)

theorem HasArithmetic.congr {subtract : Bool} (h : HasArithmetic subtract m)
    (hm : ∀ p, addTable ≤ p → p < andTable → m' p = m p) : HasArithmetic subtract m' := by
  have htable : addTable ≤ arithmeticTable subtract ∧ arithmeticTable subtract + 16 ≤ andTable := by
    cases subtract <;> decide
  exact fun i hi ↦ (hm _ (by omega) (by omega)).trans (h i hi)

/-! ## Contexts -/

namespace Context

/-- The place where the linker goes on. -/
def spot (ctx : Context) : Spot := ⟨ctx.program.image.layer, ctx.program.image.slot⟩

/-- The position of the next row. -/
def position (cfg : Config) (ctx : Context) : Nat :=
  ctx.program.image.layer + ctx.program.image.slot * cfg.instructionSize

/-- The address of a layer that has been begun. -/
def HasLayer (cfg : Config) (ctx : Context) (a : Nat) : Prop :=
  (∃ k, a = ctx.capacities.codeBegin + k * cfg.layerBits) ∧ a ≤ ctx.program.image.layer

/-- What holds of a context after any calls. -/
structure Sound (cfg : Config) (ctx : Context) : Prop where
  target : Target cfg
  address_le : cfg.addressSize ≤ 31
  laid : Laid cfg ctx.capacities.codeBegin ctx.program
  tables : Tables ctx.program.image.data
  constants_le : ctx.constants.length ≤ constantCapacity
  constants : ∀ i v, ctx.constants[i]? = some v →
    ctx.program.image.data.field (constantBase + 32 * i) 32 = v
  jumps_le : ctx.jumps.length ≤ ctx.capacities.jump
  jumps : ∀ j ∈ ctx.jumps, j.table = 0 → j.layer + cfg.layerBits ≤ ctx.program.image.layer
  jumpTables : ∀ i j, ctx.jumps[i]? = some j → j.table = 0 ∨ j.table = branchTable + 64 * i
  jumpLayers : ∀ j ∈ ctx.jumps, ctx.HasLayer cfg j.layer ∧
    (j.table ≠ 0 → ctx.HasLayer cfg j.fallthrough)
  jumpsApart : ctx.jumps.Pairwise fun j j' ↦ j.table = 0 → j.layer + cfg.layerBits ≤ j'.layer
  calls : ∀ i < ctx.capacities.call, ctx.callCount ≤ i →
    ctx.program.image.data.field (ctx.capacities.callTable + 32 * i) 32 = 0
  internals : ∀ i, ctx.labels.internals ≤ i → (ctx.labels.label (.internal i)).defined = false ∧
    (ctx.labels.label (.internal i)).data = 0
  memoryBytes : ctx.memoryBytes = 2 ^ ctx.memoryAddressBits
  memory_ge : 13 ≤ ctx.memoryAddressBits
  memory : ctx.dataBegin ≠ 0 → ctx.program.codeLimit = ctx.dataBegin ∧
    ctx.dataBegin + 8 * ctx.memoryBytes ≤ ctx.program.image.bytes * 8 ∧
    ctx.dataBegin % (8 * ctx.memoryBytes) = 0

end Context

/-- A cell that the linker leaves as it is: a register, or one where operators work. -/
def IsCell (p : Nat) : Prop :=
  regBase ≤ p ∧ p < addTable ∨ shiftZero < p ∧ p < eqTable ∨
    eqTable + 16 ≤ p ∧ p < memBitAddress ∨ memBitAddress + 32 ≤ p ∧ p < branchTable

/-- The memory of the second context is that of the first, if this has one. -/
structure KeepsMemory (cfg : Config) (ctx ctx' : Context) : Prop where
  dataBegin : ctx'.dataBegin = ctx.dataBegin
  fault : ctx'.memoryFault = ctx.memoryFault
  bitAddress : ctx.program.image.data.field memBitAddress cfg.addressSize = ctx.dataBegin →
    ctx'.program.image.data.field memBitAddress cfg.addressSize = ctx.dataBegin

/-- Whatever is in the first context is still in the second one. -/
structure Extends (cfg : Config) (ctx ctx' : Context) : Prop where
  capacities : ctx'.capacities = ctx.capacities
  memoryAddressBits : ctx'.memoryAddressBits = ctx.memoryAddressBits
  programMode : ctx'.programMode = ctx.programMode
  assembly : ctx'.assembly = ctx.assembly
  bytes : ctx'.program.image.bytes = ctx.program.image.bytes
  layer : ctx.program.image.layer ≤ ctx'.program.image.layer
  position : ctx'.program.image.layer = ctx.program.image.layer ∧
      ctx'.program.codeEnd = ctx.program.codeEnd ∧
      ctx.program.image.slot ≤ ctx'.program.image.slot ∨
    ctx.program.codeEnd ≤ ctx'.program.image.layer ∧ ctx.program.codeEnd ≤ ctx'.program.codeEnd
  code : ∀ p, ctx.capacities.codeBegin ≤ p → p < ctx.position cfg →
    ctx'.program.image.data p = ctx.program.image.data p
  cells : ∀ p, IsCell p → ctx'.program.image.data p = ctx.program.image.data p
  beyond : ∀ p, ctx'.program.codeEnd ≤ p → ctx'.program.image.data p = ctx.program.image.data p
  constants : ctx.constants <+: ctx'.constants
  jumps : ctx.jumps <+: ctx'.jumps
  later : ∀ j ∈ ctx'.jumps, j ∈ ctx.jumps ∨ ctx.program.image.layer ≤ j.layer
  labels : ∀ k, (ctx.labels.label k).defined = true → (ctx'.labels.label k).defined = true ∧
    (ctx'.labels.label k).address = (ctx.labels.label k).address ∧
    (ctx'.labels.label k).data = (ctx.labels.label k).data
  layers : ∀ k, (ctx'.labels.label k).defined = true → (ctx'.labels.label k).data = 0 →
    (ctx.labels.label k).defined = true ∨ ctx'.HasLayer cfg (ctx'.labels.label k).address
  arithmetic : ∀ subtract, HasArithmetic subtract ctx.program.image.data →
    HasArithmetic subtract ctx'.program.image.data
  memory : ctx.dataBegin ≠ 0 → KeepsMemory cfg ctx ctx'
  calls : ∀ i < ctx.capacities.call,
    ctx.program.image.data.field (ctx.capacities.callTable + 32 * i) 32 ≠ 0 →
    ctx'.program.image.data.field (ctx.capacities.callTable + 32 * i) 32 =
      ctx.program.image.data.field (ctx.capacities.callTable + 32 * i) 32

theorem Extends.refl (ctx : Context) : Extends cfg ctx ctx where
  capacities := rfl
  memoryAddressBits := rfl
  programMode := rfl
  assembly := rfl
  bytes := rfl
  layer := le_rfl
  position := .inl ⟨rfl, rfl, Nat.le_refl _⟩
  code _ _ _ := rfl
  cells _ _ := rfl
  beyond _ _ := rfl
  constants := List.prefix_refl _
  jumps := List.prefix_refl _
  later _ h := .inl h
  labels _ h := ⟨h, rfl, rfl⟩
  layers _ h _ := .inl h
  arithmetic _ h := h
  memory _ := ⟨rfl, rfl, id⟩
  calls _ _ _ := rfl

theorem Context.position_le (hs : ctx.Sound cfg) : ctx.position cfg ≤ ctx.program.codeEnd := by
  have hL := hs.target.layerBits_eq
  have hslot := Nat.mul_le_mul_right cfg.instructionSize hs.laid.slot_le
  have hend := hs.laid.codeEnd
  unfold position
  omega

theorem Extends.position_le (hs : ctx.Sound cfg) (h : Extends cfg ctx ctx') :
    ctx.position cfg ≤ ctx'.position cfg := by
  have hle := Context.position_le hs
  obtain ⟨hlayer, -, hslot⟩ | ⟨hlayer, -⟩ := h.position
  · have := Nat.mul_le_mul_right cfg.instructionSize hslot
    unfold Context.position
    omega
  · exact hle.trans (hlayer.trans (Nat.le_add_right _ _))

theorem Extends.codeEnd_le (h : Extends cfg ctx ctx') :
    ctx.program.codeEnd ≤ ctx'.program.codeEnd := by
  obtain ⟨-, hend, -⟩ | ⟨-, hend⟩ := h.position <;> omega

theorem Context.HasLayer.mono (h : Extends cfg ctx ctx') {a : Nat} (ha : ctx.HasLayer cfg a) :
    ctx'.HasLayer cfg a := by
  obtain ⟨⟨k, rfl⟩, hle⟩ := ha
  exact ⟨⟨k, by rw [h.capacities]⟩, hle.trans h.layer⟩

theorem Extends.trans (hs : ctx.Sound cfg) (h : Extends cfg ctx ctx')
    (h' : Extends cfg ctx' ctx'') : Extends cfg ctx ctx'' where
  capacities := h'.capacities.trans h.capacities
  memoryAddressBits := h'.memoryAddressBits.trans h.memoryAddressBits
  programMode := h'.programMode.trans h.programMode
  assembly := h'.assembly.trans h.assembly
  bytes := h'.bytes.trans h.bytes
  layer := h.layer.trans h'.layer
  position := by
    have hend := hs.laid.codeEnd
    obtain ⟨h₁, h₂, h₃⟩ | ⟨h₁, h₂⟩ := h.position <;>
      obtain ⟨h₄, h₅, h₆⟩ | ⟨h₄, h₅⟩ := h'.position <;> omega
  code p hp hp' := (h'.code p (h.capacities ▸ hp) (hp'.trans_le (h.position_le hs))).trans
    (h.code p hp hp')
  cells p hp := (h'.cells p hp).trans (h.cells p hp)
  beyond p hp := (h'.beyond p hp).trans (h.beyond p (h'.codeEnd_le.trans hp))
  constants := h.constants.trans h'.constants
  jumps := h.jumps.trans h'.jumps
  later j hj := by
    obtain hj | hj := h'.later j hj
    · exact h.later j hj
    · exact .inr (h.layer.trans hj)
  labels k hk := by
    obtain ⟨h₁, h₂, h₃⟩ := h.labels k hk
    obtain ⟨h₄, h₅, h₆⟩ := h'.labels k h₁
    exact ⟨h₄, h₅.trans h₂, h₆.trans h₃⟩
  layers k hk hdata := by
    obtain hk' | hlayer := h'.layers k hk hdata
    · obtain ⟨-, haddress, hdata'⟩ := h'.labels k hk'
      obtain hk | hlayer := h.layers k hk' (hdata'.symm.trans hdata)
      · exact .inl hk
      · exact .inr (haddress ▸ hlayer.mono h')
    · exact .inr hlayer
  arithmetic subtract ha := h'.arithmetic subtract (h.arithmetic subtract ha)
  memory hm := by
    obtain ⟨h₁, h₂, h₃⟩ := h.memory hm
    obtain ⟨h₄, h₅, h₆⟩ := h'.memory (by rwa [h₁])
    rw [h₁] at h₄ h₆
    exact ⟨h₄, h₅.trans h₂, fun hb ↦ h₆ (h₃ hb)⟩
  calls i hi h0 := by
    have hcalls := h'.calls i
    rw [h.capacities, h.calls i hi h0] at hcalls
    exact hcalls hi h0

/-! ## The image -/

/-- A finished image: where its jumps lead (without a label, to the report), and where its layers
end. -/
structure Linked where
  data : Bits
  target : Option Key → Nat
  codeLimit : Nat
  memoryAddressBits : Nat

variable {F : Linked}

/-- What a run of the image does not change. -/
def Linked.Kept (F : Linked) (p : Nat) : Prop :=
  constantBase ≤ p ∧ p < regBase ∨ addTable ≤ p ∧ p < temporary ∨ p = shiftZero ∨
    eqTable ≤ p ∧ p < eqTable + 16 ∨ zeroLayer ≤ p ∧ p < F.codeLimit ∨
    (memBitAddress ≤ p ∧ p < memBitAddress + 32 ∧
      ¬(memBitAddress + 3 ≤ p ∧ p < memBitAddress + 3 + F.memoryAddressBits))

/-- The data of a run of the image. -/
def Linked.Runs (F : Linked) (D : Bits) : Prop := ∀ p, F.Kept p → D p = F.data p

/-- A layer of the image that can be loaded. -/
def Linked.Landing (cfg : Config) (F : Linked) (a : Nat) : Prop :=
  branchTable ≤ a ∧ a + cfg.layerBits ≤ F.codeLimit ∧ Loadable cfg F.data a

/-- A jump has been given its target. -/
structure Linked.Resolved (cfg : Config) (F : Linked) (j : Jump) : Prop where
  landing : F.Landing cfg (F.target j.label)
  link : j.table = 0 → F.data.rowAt cfg (j.layer + 255 * cfg.instructionSize) =
    ⟨cfg.layerBits, 0, F.target j.label⟩
  table : j.table ≠ 0 →
    F.data.field j.table 32 = (if j.inverted then F.target j.label else j.fallthrough) ∧
    F.data.field (j.table + 32) 32 = if j.inverted then j.fallthrough else F.target j.label

/-- The image is finished, and it contains what is in the context. -/
structure Linked.Final (cfg : Config) (F : Linked) (ctx : Context) : Prop where
  limit : ctx.program.codeEnd ≤ F.codeLimit
  limit_le : F.codeLimit ≤ cfg.spaceSize
  memoryAddressBits : F.memoryAddressBits = ctx.memoryAddressBits
  code : ∀ p, ctx.capacities.codeBegin ≤ p → p < ctx.position cfg →
    (∀ j ∈ ctx.jumps, j.table = 0 → ¬(j.layer + 255 * cfg.instructionSize ≤ p ∧
      p < j.layer + cfg.layerBits)) → F.data p = ctx.program.image.data p
  links : ∀ k, ctx.capacities.codeBegin + k * cfg.layerBits ≤ ctx.program.image.layer →
    ∃ next, F.data.rowAt cfg (ctx.capacities.codeBegin + k * cfg.layerBits +
      255 * cfg.instructionSize) = ⟨cfg.layerBits, 0, next⟩
  tables : Tables F.data
  arithmetic : ∀ subtract, HasArithmetic subtract ctx.program.image.data →
    HasArithmetic subtract F.data
  constants : ∀ i v, ctx.constants[i]? = some v → F.data.field (constantBase + 32 * i) 32 = v
  jumps : ∀ j ∈ ctx.jumps, F.Resolved cfg j
  labels : ∀ k, (ctx.labels.label k).defined = true → (ctx.labels.label k).data = 0 →
    F.target (some k) = (ctx.labels.label k).address
  memory : ctx.dataBegin ≠ 0 → F.codeLimit = ctx.dataBegin ∧
    (ctx.program.image.data.field memBitAddress cfg.addressSize = ctx.dataBegin →
      F.data.field memBitAddress cfg.addressSize = ctx.dataBegin)
  calls : ∀ i < ctx.capacities.call,
    ctx.program.image.data.field (ctx.capacities.callTable + 32 * i) 32 ≠ 0 →
    F.data.field (ctx.capacities.callTable + 32 * i) 32 =
      ctx.program.image.data.field (ctx.capacities.callTable + 32 * i) 32

/-- The image contains what was in the context earlier. -/
theorem Linked.Final.mono (hs : ctx.Sound cfg) (h : Extends cfg ctx ctx') (hf : F.Final cfg ctx') :
    F.Final cfg ctx where
  limit := h.codeEnd_le.trans hf.limit
  limit_le := hf.limit_le
  memoryAddressBits := hf.memoryAddressBits.trans h.memoryAddressBits
  code p hp hp' hj := by
    have hslot := Nat.mul_le_mul_right cfg.instructionSize hs.laid.slot_le
    refine (hf.code p (by rwa [h.capacities]) (hp'.trans_le (h.position_le hs)) fun j hm ht ↦ ?_).trans
      (h.code p hp hp')
    obtain hm | hle := h.later j hm
    · exact hj j hm ht
    · -- the link of a later jump is behind
      unfold Context.position at hp'
      omega
  links k hk := by
    have hlayer := h.layer
    have hlink := hf.links k (by rw [h.capacities]; exact hk.trans hlayer)
    rwa [h.capacities] at hlink
  tables := hf.tables
  arithmetic subtract ha := hf.arithmetic subtract (h.arithmetic subtract ha)
  constants i v hv := hf.constants i v (by
    obtain ⟨rest, hrest⟩ := h.constants
    rw [← hrest, List.getElem?_append_left (List.getElem?_eq_some_iff.mp hv).1, hv])
  jumps j hj := hf.jumps j (h.jumps.subset hj)
  labels k hk hdata := by
    obtain ⟨h₁, h₂, h₃⟩ := h.labels k hk
    rw [hf.labels k h₁ (h₃.trans hdata), h₂]
  memory hm := by
    obtain ⟨h₁, h₂, h₃⟩ := h.memory hm
    obtain ⟨h₄, h₅⟩ := hf.memory (by rwa [h₁])
    rw [h₁] at h₄ h₅
    exact ⟨h₄, fun hb ↦ h₅ (h₃ hb)⟩
  calls i hi h0 := by
    have hcalls := hf.calls i
    rw [h.capacities, h.calls i hi h0] at hcalls
    exact hcalls hi h0

end CopySpace.Link
