import CopySpace.Space.Halt
import CopySpace.CopyC.Layers

/-!
# Executing what has been emitted

`At` relates the compiler to the emulator: the emulator has executed the rows of the current layer
up to the slot that the compiler had reached.  Appended rows keep the emulator in the same tick,
making room for them may take it to the next one.
-/

namespace CopySpace.CopyC

open BitMachine Emission

variable {φ : Type} {cfg : Config} {dev : Device φ} {I D D' : Bits} {e e' e₁ : Emission}
  {count slot target next : Nat} {rows : List Instruction} {inp out : φ} {x : BitMachine φ}

/-- The rows that had been emitted by then stand in the finished image. -/
def Kept (I : Bits) (e : Emission) : Prop :=
  ∀ p, ccCodeBase ≤ p → p < e.position → I p = e.image p

theorem Kept.of_extends (h : Kept I e') (hx : e.Extends e') : Kept I e := fun p h₁ h₂ ↦
  (h p h₁ (h₂.trans_le hx.position_le)).trans (hx.kept p h₁ h₂)

/-- The code is in the space. -/
def CodeLoaded (I D : Bits) : Prop := ∀ p, ccCodeBase ≤ p → p < ccCodeEnd → D p = I p

/-- The emulator is in the middle of a tick: it has executed the layer of the finished image `I` up
to the slot that the compiler had reached, and `D` stands behind the processor. -/
structure At (cfg : Config) (dev : Device φ) (I : Bits) (e : Emission) (D : Bits) (inp out : φ)
    (x : BitMachine φ) : Prop where
  inp : (BitMachine.channels cfg dev x).inp = inp
  out : (BitMachine.channels cfg dev x).out = out
  begun : ∃ m, Exec cfg 0 e.slot (BitMachine.channels cfg dev x).bits m ∧
    (∀ b, e.slot * 71 ≤ b → b < ccLayerBits → m b = I (e.ccCurrent + b)) ∧
      ∀ p, ccLayerBits ≤ p → m p = D p
  active : (I.rowAt cfg (e.ccCurrent + 255 * 71)).n ≠ 0 → active cfg x.bits

/-- Appended rows are executed in the same tick. -/
theorem At.append (hc : Sizes cfg) (h : At cfg dev I e D inp out x) (he : e.Fresh)
    (hfits : ∀ row ∈ rows, row.Fits cfg) (hslot : e.slot + rows.length ≤ 255)
    (hkept : Kept I (e.append cfg rows)) (hp : Performs cfg e.slot rows D D') :
    At cfg dev I (e.append cfg rows) D' inp out x := by
  obtain ⟨m, hexec, hlayer, hdata⟩ := h.begun
  have hI := hc.instructionSize
  have hcode : ccCodeBase ≤ e.position := by
    rw [position, ccCurrent, he.origin]
    exact (Nat.le_add_left _ _).trans (Nat.le_add_right _ _)
  have hposition : (e.append cfg rows).position = e.position + rows.length * 71 := by
    simp only [position, Emission.append, ccCurrent, Nat.add_mul, Nat.add_assoc]
  -- the rows of the layer in the finished image
  obtain ⟨rest, hrest⟩ : ∃ rest, rest = (List.range (256 - e.slot - rows.length)).map fun i ↦
    I.rowAt cfg (e.position + rows.length * cfg.instructionSize + i * cfg.instructionSize) :=
      ⟨_, rfl⟩
  have hlength : rest.length = 256 - e.slot - rows.length := by
    rw [hrest, List.length_map, List.length_range]
  have hput : RowsAt cfg (e.append cfg rows).image e.position rows := rowsAt_putRows hfits
  have hrows : RowsAt cfg I e.position rows := hput.congr fun b hb ↦ by
    rw [hI] at hb
    exact hkept _ (by omega) (by omega)
  have hrestAt : RowsAt cfg I (e.position + rows.length * cfg.instructionSize) rest :=
    hrest ▸ rowsAt_range
  have hall : RowsAt cfg m (e.slot * cfg.instructionSize) (rows ++ rest) := by
    refine (rowsAt_append.mpr ⟨hrows, hrestAt⟩).congr fun b hb ↦ ?_
    rw [List.length_append, hlength, hI] at hb
    rw [hI, hlayer _ (by omega) (by unfold ccLayerBits; omega), position, Nat.add_assoc]
  obtain ⟨m', hexec', hholds⟩ := hp rest m ⟨by rw [List.length_append, hlength, hc.slots]; omega,
    hall, fun p hp ↦ hdata p (hc.layerBits ▸ hp)⟩
  refine ⟨h.inp, h.out, ⟨m', hexec.trans hexec', fun b hb hb' ↦ ?_, fun p hp ↦
    hholds.data p (hc.layerBits ▸ hp)⟩, h.active⟩
  change (e.slot + rows.length) * 71 ≤ b at hb
  change _ = I (e.ccCurrent + b)
  have hbits := hholds.rows.bits_eq hrestAt (b := b - (e.slot + rows.length) * 71)
    (by rw [hlength, hI]; unfold ccLayerBits at hb'; omega)
  rwa [hI, Nat.add_sub_cancel' hb, position, Nat.add_assoc e.ccCurrent, ← Nat.add_mul,
    Nat.add_assoc, Nat.add_sub_cancel' hb] at hbits

/-- A layer that has been loaded can be executed from its first row on. -/
theorem At.of_loaded (hc : Sizes cfg) (he : e.Fresh) (h3 : e.slot = 3) (hkept : Kept I e)
    (hcode : CodeLoaded I D) (h : Loaded cfg e.ccCurrent D x.bits) :
    At cfg dev I e D x.inp x.out x := by
  have hlayer : ∀ b < ccLayerBits, x.bits b = I (e.ccCurrent + b) := fun b hb ↦ by
    refine (h.layer b (hc.layerBits ▸ hb)).trans (hcode _ ?_ ?_)
    · rw [ccCurrent, he.origin]
      omega
    · have := he.layer_lt
      unfold ccCurrent ccCodeEnd
      rw [he.origin]
      unfold ccLayerMax at this ⊢
      unfold ccLayerBits at hb ⊢
      omega
  have hposition : e.position = e.ccCurrent + 3 * 71 := by rw [position, h3]
  have hcurrent : ccCodeBase ≤ e.ccCurrent := by
    rw [ccCurrent, he.origin]
    exact Nat.le_add_left _ _
  have hempty : ∀ i < 3, x.bits.row cfg i = ⟨0, 0, 0⟩ := fun i hi ↦ by
    refine rowAt_eq_zero fun b hb ↦ ?_
    rw [hc.instructionSize] at hb ⊢
    have hp : e.ccCurrent + (i * 71 + b) < e.position := by omega
    rw [hlayer _ (by unfold ccLayerBits; omega), hkept _ (by omega) hp]
    exact he.head h3 _ (Nat.le_add_right _ _) hp
  obtain ⟨hchannels, hstart⟩ := exec_start dev hempty x.inp x.out
  refine ⟨congrArg BitMachine.inp hchannels, congrArg BitMachine.out hchannels, ⟨x.bits, ?_,
    fun b _ hb ↦ hlayer b hb, fun p hp ↦ h.data p (hc.layerBits ▸ hp)⟩, fun hlink ↦ ?_⟩
  · rw [h3]
    exact hchannels ▸ hstart
  · refine ⟨255, by rw [hc.slots]; decide, ?_⟩
    have hrow : x.bits.row cfg 255 = I.rowAt cfg (e.ccCurrent + 255 * 71) := by
      refine rowAt_congr fun b hb ↦ ?_
      rw [hc.instructionSize] at hb ⊢
      rw [hlayer _ (by unfold ccLayerBits; omega), Nat.add_assoc]
    rwa [hrow]

/-- The row that loads a layer. -/
def linkRow (target : Nat) : Instruction := ⟨ccLayerBits, 0, target⟩

/-- Slots that stay empty. -/
def blankRows (n : Nat) : List Instruction := List.replicate n ⟨0, 0, 0⟩

/-- The rest of a layer: rows, empty slots, and the row that loads the layer at `target`. -/
def restRows (slot target : Nat) (rows : List Instruction) : List Instruction :=
  rows ++ (blankRows (255 - (slot + rows.length)) ++ [linkRow target])

theorem length_restRows (h : slot + rows.length ≤ 255) :
    (restRows slot target rows).length = 256 - slot := by
  simp only [restRows, blankRows, List.length_append, List.length_replicate,
    List.length_singleton]
  omega

/-- The layer is closed behind the rows, which may change the address of the next one. -/
theorem At.leave (hc : Sizes cfg) (h : At cfg dev I e D inp out x) (he : e.Fresh)
    (hfits : ∀ row ∈ rows, row.Fits cfg) (hslot : e.slot + rows.length ≤ 255)
    (htarget : target < 2 ^ 24) (hlayer : e.layer + 1 < ccLayerMax)
    (hkept : Kept I ((e.append cfg rows).close cfg target))
    (hexec : Executes cfg e.slot (restRows e.slot target rows) D 255 [linkRow next] D')
    (hnext : Behind cfg next ccLayerBits) :
    ∃ x', step cfg dev x = (.done, x') ∧ x'.inp = inp ∧ x'.out = out ∧
      Loaded cfg next D' x'.bits := by
  obtain ⟨m, hstart, hm, hdata⟩ := h.begun
  have hI := hc.instructionSize
  have hposition : e.position = e.ccCurrent + e.slot * 71 := rfl
  have hcurrent : ccCodeBase ≤ e.ccCurrent := by
    rw [ccCurrent, he.origin]
    exact Nat.le_add_left _ _
  have hend : ((e.append cfg rows).close cfg target).position =
      e.ccCurrent + 256 * 71 + 3 * 71 := by
    simp only [position, close, ccCurrent, Emission.append, ccLayerBits]
    omega
  have hbound : e.ccCurrent + 256 * 71 ≤ ccCodeEnd := by
    unfold ccCurrent ccCodeEnd
    rw [he.origin]
    unfold ccLayerMax at hlayer ⊢
    unfold ccLayerBits
    omega
  -- the rest of the layer in the finished image
  have hlink : I.rowAt cfg (e.ccCurrent + 255 * 71) = ⟨ccLayerBits, 0, target⟩ := by
    have hfits : Instruction.Fits cfg ⟨ccLayerBits, 0, target⟩ :=
      ⟨by rw [hc.nSize]; exact (by decide : ccLayerBits < 2 ^ 23), Nat.two_pow_pos _,
        by rwa [hc.addressSize]⟩
    have hput : ((e.append cfg rows).close cfg target).image.rowAt cfg (e.ccCurrent + 255 * 71) =
      ⟨ccLayerBits, 0, target⟩ := rowAt_putRow hfits
    refine .trans (rowAt_congr fun b hb ↦ ?_) hput
    rw [hI] at hb
    exact hkept _ (by omega) (by omega)
  have hrest : ∀ p, e.position ≤ p → p < e.ccCurrent + 255 * 71 →
      I p = e.image.putRows cfg e.position rows p := fun p h₁ h₂ ↦
    (hkept p (by omega) (by omega)).trans (Bits.putRow_of_notMem (by
      change ¬(e.ccCurrent + 255 * 71 ≤ p ∧ _)
      omega))
  have hrows : RowsAt cfg I e.position (restRows e.slot target rows) := by
    have hput : RowsAt cfg (e.image.putRows cfg e.position rows) e.position rows :=
      rowsAt_putRows hfits
    refine rowsAt_append.mpr ⟨hput.congr fun b hb ↦ hrest _ (by omega) ?_,
      rowsAt_append.mpr ⟨rowsAt_zero fun b hb ↦ ?_, ?_, trivial⟩⟩
    · rw [hI] at hb
      omega
    · rw [hI] at hb ⊢
      rw [hrest _ (by omega) (by omega), Bits.putRows_of_notMem (by rw [hI]; omega)]
      exact he.blank _ (by omega) (by omega)
    · refine (congrArg (I.rowAt cfg) ?_).trans hlink
      rw [blankRows, List.length_replicate, hI]
      omega
  have hlength := @length_restRows e.slot target rows hslot
  have hall : RowsAt cfg m (e.slot * cfg.instructionSize) _ := hrows.congr fun b hb ↦ by
    rw [hlength, hI] at hb
    rw [hI, hm _ (by omega) (by unfold ccLayerBits; omega), hposition, Nat.add_assoc]
  obtain ⟨m', hexec', hholds⟩ := hexec m ⟨by rw [hlength, hc.slots]; omega, hall,
    fun p hp ↦ hdata p (hc.layerBits ▸ hp)⟩
  have h255 : 255 = cfg.processorN - 1 := by rw [hc.slots]
  rw [h255] at hexec' hholds
  rw [linkRow, ← hc.layerBits] at hholds
  rw [← hc.layerBits] at hnext
  obtain ⟨m'', hstep, hloaded⟩ := step_of_exec (by rw [hc.slots]; decide)
    (h.active (by rw [hlink]; exact (by decide : ccLayerBits ≠ 0))) rfl (hstart.trans hexec') hholds hnext
  exact ⟨_, hstep, h.inp, h.out, hloaded⟩

/-! ## Closing a layer -/

/-- The rows are executed, and the layer is left for `target`. -/
theorem executes_restRows (hi : 3 ≤ slot) (hslot : slot + rows.length ≤ 255)
    (hp : Performs cfg slot rows D D') :
    Executes cfg slot (restRows slot target rows) D 255 [linkRow target] D' := by
  have hall := (hp.append (performs_empty (by omega) (255 - (slot + rows.length))))
    [linkRow target]
  rwa [List.length_append, List.length_replicate, ← Nat.add_assoc, Nat.add_sub_cancel' hslot,
    List.append_assoc] at hall

/-- The row of `cc-dynamic` changes the last slot. -/
theorem executes_link (hc : Sizes cfg) {a : Nat} (hi : 3 ≤ slot) (hslot : slot < 255)
    (ha : Behind cfg a 24) :
    Executes cfg slot (⟨24, 18152, a⟩ :: (blankRows (255 - (slot + 1)) ++ [linkRow 0])) D
      255 [linkRow (D.field a 24)] D := by
  have hrow : 18152 = cfg.srcBit (slot + 1 + (255 - (slot + 1))) 0 := by
    rw [hc.srcBit, Nat.add_sub_cancel' hslot]
  have hlength : (blankRows (255 - (slot + 1))).length = 255 - (slot + 1) :=
    List.length_replicate
  have hmodify : (blankRows (255 - (slot + 1)) ++ [linkRow 0]).modify (255 - (slot + 1))
      (.patchSrc 0 24 (D.field a 24)) =
        blankRows (255 - (slot + 1)) ++ [linkRow (D.field a 24)] := by
    refine (modify_append_right hlength (k := 0)).trans ?_
    rw [List.modify_zero_cons, Instruction.patchSrc, linkRow,
      Bits.splice_of_zero (D.field_lt a 24) rfl, Nat.zero_add, Nat.pow_zero, Nat.one_mul]
    rfl
  have hpatch : Executes cfg slot
      (⟨24, 18152, a⟩ :: (blankRows (255 - (slot + 1)) ++ [linkRow 0])) D (slot + 1)
        (blankRows (255 - (slot + 1)) ++ [linkRow (D.field a 24)]) D := by
    rw [← hmodify, hrow]
    refine executes_patch_src hi (by decide) (by rw [hc.addressSize]) ?_ ha
    rw [List.length_append, hlength]
    exact Nat.lt_succ_self _
  have hempty : Performs cfg (slot + 1) (blankRows (255 - (slot + 1))) D D :=
    performs_empty (by omega) _
  have hempty := hempty [linkRow (D.field a 24)]
  rw [hlength, Nat.add_sub_cancel' hslot] at hempty
  exact hpatch.trans hempty

/-- The rows of `cc-dynamic` behind others: the layer is left for the address that is read. -/
theorem executes_dynamic (hc : Sizes cfg) {src : Nat} (hi : 3 ≤ slot)
    (hslot : slot + rows.length + (1 + ccFrameExtra src) ≤ 255) (hs : ccFrame src → StackOk D')
    (hsrc : Behind cfg (resolve D' src) 24) (hp : Performs cfg slot rows D D') :
    Executes cfg slot (restRows slot 0 (rows ++ srcRows (slot + rows.length) 24 18152 src)) D
      255 [linkRow (D'.field (resolve D' src) 24)] D' := by
  rw [restRows, List.length_append, length_srcRows, List.append_assoc]
  refine (hp _).trans ?_
  by_cases hf : ccFrame src
  · have hrow : (slot + rows.length + 1) * 71 + 61 = cfg.srcBit (slot + rows.length + 1 + 0) 14 := by
      rw [hc.srcBit]
    rw [ccFrameExtra_of_frame hf] at hslot ⊢
    rw [srcRows_of_frame hf, hrow]
    refine (executes_patch_src (by omega) (by decide) (by rw [hc.addressSize]) (Nat.succ_pos _)
      hc.behind_sp).trans ?_
    rw [List.append_eq, List.cons_append, List.modify_zero_cons, Instruction.patchSrc,
      splice_frameAddress (hs hf) hf, show slot + (rows.length + (1 + 1)) =
        slot + rows.length + 1 + 1 by omega]
    exact executes_link hc (by omega) (by omega) hsrc
  · rw [ccFrameExtra_of_not_frame hf] at hslot ⊢
    rw [resolve_of_not_frame hf] at hsrc ⊢
    rw [srcRows_of_not_frame hf, show slot + (rows.length + (1 + 0)) =
      slot + rows.length + 1 by omega]
    exact executes_link hc (by omega) (by omega) hsrc

/-! ## Words -/

theorem append_nil_close : (e.append cfg []).close cfg target = e.close cfg target := by
  rw [append_nil]

/-- The compiler closes the layer, and the emulator goes on to the next one. -/
theorem At.close (hc : Sizes cfg) (h : At cfg dev I e D inp out x) (he : e.Fresh)
    (hcode : CodeLoaded I D) (hlayer : e.layer + 1 < ccLayerMax)
    (hkept : Kept I (e.close cfg (e.ccCurrent + ccLayerBits))) :
    ∃ x', Ticks cfg dev x x' ∧
      At cfg dev I (e.close cfg (e.ccCurrent + ccLayerBits)) D inp out x' := by
  have hend : e.ccCurrent + ccLayerBits + ccLayerBits ≤ 2 ^ 24 := by
    unfold ccCurrent
    rw [he.origin]
    unfold ccLayerMax at hlayer
    unfold ccLayerBits ccCodeBase
    omega
  have hslot : e.slot + ([] : List Instruction).length ≤ 255 := he.slot_le
  obtain ⟨x', hstep, rfl, rfl, hloaded⟩ := h.leave hc he (List.forall_mem_nil _) hslot
    (show e.ccCurrent + ccLayerBits < 2 ^ 24 by unfold ccLayerBits at hend ⊢; omega) hlayer
    (append_nil_close ▸ hkept) (executes_restRows he.slot_ge hslot performs_nil)
    (hc.behind (Nat.le_add_left _ _) hend)
  have hcurrent : (e.close cfg (e.ccCurrent + ccLayerBits)).ccCurrent =
      e.ccCurrent + ccLayerBits := by
    change (e.layer + 1) * ccLayerBits + e.origin = e.layer * ccLayerBits + e.origin + ccLayerBits
    rw [Nat.succ_mul, Nat.add_right_comm]
  rw [← hcurrent] at hloaded
  have hticks : Ticks cfg dev x x' := Relation.ReflTransGen.single hstep
  exact ⟨x', hticks, At.of_loaded hc (he.close hc hlayer).1 rfl hkept hcode hloaded⟩

/-- The emulator follows `cc-room`. -/
theorem At.room (hc : Sizes cfg) (h : At cfg dev I e D inp out x) (he : e.Fresh)
    (hcode : CodeLoaded I D) (hroom : e.ccRoom count = some e₁) (hkept : Kept I e₁) :
    ∃ x', Ticks cfg dev x x' ∧ At cfg dev I e₁ D inp out x' := by
  rcases (ccRoom_eq_some hc he.evaluated).mp hroom with ⟨-, rfl⟩ | ⟨-, hlayer, rfl⟩
  · exact ⟨x, Relation.ReflTransGen.refl, h⟩
  · exact h.close hc he hcode hlayer hkept

/-- Rows with room made for them are executed. -/
theorem At.adds (hc : Sizes cfg) (h : At cfg dev I e D inp out x) (he : e.Fresh)
    (hcode : CodeLoaded I D) {rows : Nat → List Instruction} (ha : Adds cfg e e' count rows)
    (hlength : ∀ slot, (rows slot).length = count)
    (hfits : ∀ slot, slot + count ≤ 255 → ∀ row ∈ rows slot, row.Fits cfg)
    (hp : ∀ slot, 3 ≤ slot → Performs cfg slot (rows slot) D D') (hkept : Kept I e') :
    ∃ x', Ticks cfg dev x x' ∧ At cfg dev I e' D' inp out x' := by
  obtain ⟨e₁, hroom, hslot, rfl⟩ := ha
  obtain ⟨he₁, -⟩ := he.ccRoom hc hroom
  have hslot' : e₁.slot + (rows e₁.slot).length ≤ 255 := by rwa [hlength]
  obtain ⟨x', hticks, hat⟩ :=
    h.room hc he hcode hroom (hkept.of_extends (he₁.append hc hslot').2)
  exact ⟨x', hticks, hat.append hc he₁ (hfits _ hslot) hslot' hkept (hp _ he₁.slot_ge)⟩

/-- Rows with room made for them are executed, and the layer is left. -/
theorem At.addsLeave (hc : Sizes cfg) (h : At cfg dev I e D inp out x) (he : e.Fresh)
    (hcode : CodeLoaded I D) {rows : Nat → List Instruction} (ha : Adds cfg e e₁ count rows)
    (hjump : e₁.ccJump target = some e') (htarget : target < 2 ^ 24)
    (hlength : ∀ slot, (rows slot).length = count)
    (hfits : ∀ slot, slot + count ≤ 255 → ∀ row ∈ rows slot, row.Fits cfg)
    (hexec : ∀ slot, 3 ≤ slot → slot + count ≤ 255 →
      Executes cfg slot (restRows slot target (rows slot)) D 255 [linkRow next] D')
    (hnext : Behind cfg next ccLayerBits) (hkept : Kept I e') :
    ∃ x', Ticks cfg dev x x' ∧ x'.inp = inp ∧ x'.out = out ∧ Loaded cfg next D' x'.bits := by
  obtain ⟨e₂, hroom, hslot, rfl⟩ := ha
  obtain ⟨he₂, -⟩ := he.ccRoom hc hroom
  have hslot' : e₂.slot + (rows e₂.slot).length ≤ 255 := by rwa [hlength]
  obtain ⟨he₁, hx₁⟩ := he₂.append hc hslot'
  obtain ⟨hlayer, rfl⟩ := (ccJump_eq_some hc he₁.evaluated).mp hjump
  obtain ⟨x₁, hticks, hat⟩ := h.room hc he hcode hroom
    ((hkept.of_extends (he₁.close hc hlayer).2).of_extends hx₁)
  obtain ⟨x', hstep, hrest⟩ := hat.leave hc he₂ (hfits _ hslot) hslot' htarget hlayer hkept
    (hexec _ he₂.slot_ge hslot) hnext
  exact ⟨x', Relation.ReflTransGen.tail hticks hstep, hrest⟩

end CopySpace.CopyC
