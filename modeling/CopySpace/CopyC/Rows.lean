import Mathlib.Data.Nat.Digits.Defs
import CopySpace.CopyC.Emission
import CopySpace.Space.Row

/-!
# The rows of the emission words

A cell of the current frame has the address `cc-data-base` and its offset in the frame.  The row
that reads or writes it is emitted with the address of the cell in the lowest frame, and a row
before it replaces the ten bits of the address by those of `cc-sp`.  `resolve` is the address that
comes out of this, `lutEntry` the address that comes out of the rows of a look-up.
-/

namespace CopySpace.CopyC

open BitMachine

/-- The emulator that the compiler emits for: 256 slots and a space of `2 ^ 24` bits. -/
structure Sizes (cfg : Config) : Prop where
  slots : cfg.processorN = 256
  space : cfg.spaceSize = 2 ^ 24
  addressSize : cfg.addressSize = 24
  nSize : cfg.nSize = 23
  instructionSize : cfg.instructionSize = 71
  layerBits : cfg.layerBits = ccLayerBits

theorem sizes {cfg : Config} (hN : cfg.processorN = 256) (hS : cfg.spaceSize = 2 ^ 24) :
    Sizes cfg := by
  have ha : cfg.addressSize = 24 := by
    rw [Config.addressSize, hS]
    exact ceilLog2U32_eq (by decide) le_rfl fun j hj ↦ Nat.pow_lt_pow_right (by decide) hj
  have hn : cfg.nSize = 23 := by rw [Config.nSize, ha]
  have hI : cfg.instructionSize = 71 := by rw [Config.instructionSize, ha, hn]
  exact ⟨hN, hS, ha, hn, hI, by rw [Config.layerBits, hN, hI]; rfl⟩

theorem Sizes.good {cfg : Config} (hc : Sizes cfg) : cfg.Good := by
  refine ⟨by rw [hc.slots]; decide, by rw [hc.addressSize]; decide, ?_⟩
  rw [hc.slots, hc.instructionSize, hc.space]
  decide

/-! ## Addresses at run time -/

/-- `cc-sp` is the address of a frame. -/
def StackOk (D : Bits) : Prop :=
  D.field ccSp 32 % ccFrameBits = 0 ∧ ccStackBase ≤ D.field ccSp 32 ∧ D.field ccSp 32 ≤ ccStackLast

instance (D : Bits) : Decidable (StackOk D) := by unfold StackOk; infer_instance

/-- Where a cell is at run time. -/
def resolve (D : Bits) (address : Nat) : Nat :=
  if ccFrame address then D.field ccSp 32 + (address - ccDataBase) else address

theorem resolve_of_frame {D : Bits} {address : Nat} (h : ccFrame address) :
    resolve D address = D.field ccSp 32 + (address - ccDataBase) := if_pos h

theorem resolve_of_not_frame {D : Bits} {address : Nat} (h : ¬ ccFrame address) :
    resolve D address = address := if_neg h

/-- Where the entry of a table is: the inputs replace the bits of the address from `stride` on. -/
def lutEntry (base stride : Nat) : List Nat → Nat
  | [] => base
  | bit :: bits => lutEntry (Bits.splice stride 1 bit base) (stride + 1) bits

theorem lutEntry_of_zero {base stride : Nat} {bits : List Nat} (hbits : ∀ bit ∈ bits, bit < 2)
    (hbase : base / 2 ^ stride % 2 ^ bits.length = 0) :
    lutEntry base stride bits = base + 2 ^ stride * Nat.ofDigits 2 bits := by
  induction bits generalizing stride base with
  | nil => simp [lutEntry]
  | cons bit bits ih =>
      obtain ⟨hbit, hbits⟩ := List.forall_mem_cons.mp hbits
      rw [List.length_cons, Nat.pow_succ', Nat.mod_mul] at hbase
      have hlow : base / 2 ^ stride % 2 ^ 1 = 0 := by omega
      have hsplice : Bits.splice stride 1 bit base = base + 2 ^ stride * bit :=
        Bits.splice_of_zero hbit hlow
      -- the input leaves the bits above it alone
      have hdiv : (base + 2 ^ stride * bit) / 2 ^ (stride + 1) = base / 2 ^ stride / 2 := by
        rw [Nat.pow_succ, ← Nat.div_div_eq_div_mul, Nat.add_mul_div_left _ _ (Nat.two_pow_pos _)]
        omega
      rw [lutEntry, hsplice, ih hbits (by rw [hdiv]; omega), Nat.ofDigits_cons, Nat.pow_succ,
        Nat.mul_add, Nat.add_assoc, Nat.mul_assoc]

/-- In a table that is aligned to its size the inputs are the number of the entry. -/
theorem lutEntry_of_aligned {base stride : Nat} {bits : List Nat} (hbits : ∀ bit ∈ bits, bit < 2)
    (hbase : base % 2 ^ (stride + bits.length) = 0) :
    lutEntry base stride bits = base + 2 ^ stride * Nat.ofDigits 2 bits := by
  refine lutEntry_of_zero hbits ?_
  rw [Nat.pow_add, Nat.mod_mul] at hbase
  exact (Nat.mul_eq_zero.mp (Nat.eq_zero_of_add_eq_zero_left hbase)).resolve_left
    (Nat.two_pow_pos stride).ne'

/-- `cc-sp` in the address of a cell of the lowest frame is the address of the cell. -/
theorem splice_frameAddress {D : Bits} {address : Nat} (hs : StackOk D) (hf : ccFrame address) :
    Bits.splice 14 10 (D.field (ccSp + 14) 10) (ccFrameAddress address) = resolve D address := by
  obtain ⟨hmod, hlow, hhigh⟩ := hs
  have hsp : D.field ccSp 32 =
      D.field ccSp 14 + 2 ^ 14 * (D.field (ccSp + 14) 10 + 2 ^ 10 * D.field (ccSp + 14 + 10) 8) := by
    rw [← Bits.field_add, ← Bits.field_add]
  have h₁ := D.field_lt ccSp 14
  have h₂ := D.field_lt (ccSp + 14) 10
  rw [ccFrameAddress, if_pos hf, resolve_of_frame hf]
  unfold ccFrame ccDataBase ccFrameBits at hf
  unfold ccFrameBits at hmod
  unfold ccStackLast at hhigh
  rw [show address - ccDataBase + ccStackBase = address - ccDataBase + 2 ^ 14 * 512 from rfl,
    Bits.splice_top (by unfold ccDataBase; omega) (by decide) h₂]
  omega

/-! ## The rows -/

/-- The rows of `cc-op`, standing from the slot on. -/
def opRows (slot n dst src : Nat) : List Instruction :=
  let target := slot + ccFrameExtra dst + ccFrameExtra src
  (if ccFrame dst then [⟨10, target * 71 + 37, ccSp + 14⟩] else []) ++
    ((if ccFrame src then [⟨10, target * 71 + 61, ccSp + 14⟩] else []) ++
      [⟨n, ccFrameAddress dst, ccFrameAddress src⟩])

/-- The rows of `cc-op` whose source is the address of an entry. -/
def dstRows (slot n dst src : Nat) : List Instruction :=
  (if ccFrame dst then [⟨10, (slot + 1) * 71 + 37, ccSp + 14⟩] else []) ++
    [⟨n, ccFrameAddress dst, src⟩]

/-- The rows of `cc-op` whose destination is a later row. -/
def srcRows (slot n dst src : Nat) : List Instruction :=
  (if ccFrame src then [⟨10, (slot + 1) * 71 + 61, ccSp + 14⟩] else []) ++
    [⟨n, dst, ccFrameAddress src⟩]

/-- The number of slots of these operands. -/
def selectCount (inputs : List Nat) : Nat := (inputs.map fun a ↦ 1 + ccFrameExtra a).sum

/-- The rows of a look-up: each input is put into the address of the entry, and the last row reads
the entry. -/
def lutRows (slot stride width dst base : Nat) : List Nat → List Instruction
  | [] => dstRows slot width dst base
  | a :: inputs =>
      let target := slot + selectCount (a :: inputs) + ccFrameExtra dst
      srcRows slot 1 (target * 71 + 47 + stride) a ++
        lutRows (slot + (1 + ccFrameExtra a)) (stride + 1) width dst base inputs

section Lengths

variable {slot stride n dst src base address : Nat} {inputs : List Nat}

theorem ccFrameExtra_of_frame (h : ccFrame address) : ccFrameExtra address = 1 := if_pos h

theorem ccFrameExtra_of_not_frame (h : ¬ ccFrame address) : ccFrameExtra address = 0 := if_neg h

theorem ccFrameExtra_le (address : Nat) : ccFrameExtra address ≤ 1 := by
  unfold ccFrameExtra
  split <;> omega

theorem dstRows_of_frame (h : ccFrame dst) : dstRows slot n dst src =
    [⟨10, (slot + 1) * 71 + 37, ccSp + 14⟩, ⟨n, ccFrameAddress dst, src⟩] := by
  rw [dstRows, if_pos h]
  rfl

theorem dstRows_of_not_frame (h : ¬ ccFrame dst) : dstRows slot n dst src = [⟨n, dst, src⟩] := by
  rw [dstRows, if_neg h, ccFrameAddress, if_neg h]
  rfl

theorem srcRows_of_frame (h : ccFrame src) : srcRows slot n dst src =
    [⟨10, (slot + 1) * 71 + 61, ccSp + 14⟩, ⟨n, dst, ccFrameAddress src⟩] := by
  rw [srcRows, if_pos h]
  rfl

theorem srcRows_of_not_frame (h : ¬ ccFrame src) : srcRows slot n dst src = [⟨n, dst, src⟩] := by
  rw [srcRows, if_neg h, ccFrameAddress, if_neg h]
  rfl

theorem opRows_of_frame (hd : ccFrame dst) (hs : ccFrame src) : opRows slot n dst src =
    [⟨10, (slot + 2) * 71 + 37, ccSp + 14⟩, ⟨10, (slot + 2) * 71 + 61, ccSp + 14⟩,
      ⟨n, ccFrameAddress dst, ccFrameAddress src⟩] := by
  rw [opRows, if_pos hd, if_pos hs, ccFrameExtra_of_frame hd, ccFrameExtra_of_frame hs]
  rfl

theorem opRows_of_not_frame_dst (h : ¬ ccFrame dst) :
    opRows slot n dst src = srcRows slot n dst src := by
  rw [opRows, srcRows, ccFrameExtra_of_not_frame h, if_neg h, ccFrameAddress, if_neg h]
  by_cases hs : ccFrame src
  · rw [ccFrameExtra_of_frame hs]
    rfl
  · rw [if_neg hs, if_neg hs]
    rfl

theorem opRows_of_not_frame_src (h : ¬ ccFrame src) :
    opRows slot n dst src = dstRows slot n dst src := by
  have ha : ccFrameAddress src = src := if_neg h
  rw [opRows, dstRows, ccFrameExtra_of_not_frame h, if_neg h, ha]
  by_cases hd : ccFrame dst
  · rw [ccFrameExtra_of_frame hd]
    rfl
  · rw [if_neg hd, if_neg hd]
    rfl

theorem length_dstRows : (dstRows slot n dst src).length = 1 + ccFrameExtra dst := by
  by_cases h : ccFrame dst
  · rw [dstRows_of_frame h, ccFrameExtra_of_frame h]
    rfl
  · rw [dstRows_of_not_frame h, ccFrameExtra_of_not_frame h]
    rfl

theorem length_srcRows : (srcRows slot n dst src).length = 1 + ccFrameExtra src := by
  by_cases h : ccFrame src
  · rw [srcRows_of_frame h, ccFrameExtra_of_frame h]
    rfl
  · rw [srcRows_of_not_frame h, ccFrameExtra_of_not_frame h]
    rfl

theorem length_opRows :
    (opRows slot n dst src).length = 1 + ccFrameExtra dst + ccFrameExtra src := by
  by_cases hs : ccFrame src
  · by_cases hd : ccFrame dst
    · rw [opRows_of_frame hd hs, ccFrameExtra_of_frame hd, ccFrameExtra_of_frame hs]
      rfl
    · rw [opRows_of_not_frame_dst hd, length_srcRows, ccFrameExtra_of_not_frame hd]
  · rw [opRows_of_not_frame_src hs, length_dstRows, ccFrameExtra_of_not_frame hs, Nat.add_zero]

theorem selectCount_cons : selectCount (address :: inputs) =
    1 + ccFrameExtra address + selectCount inputs := rfl

theorem length_lutRows : (lutRows slot stride n dst base inputs).length =
    selectCount inputs + (1 + ccFrameExtra dst) := by
  induction inputs generalizing slot stride with
  | nil => exact length_dstRows.trans (Nat.zero_add _).symm
  | cons a inputs ih =>
      rw [lutRows, List.length_append, length_srcRows, ih, selectCount_cons]
      omega

end Lengths

/-! ## What the rows do -/

/-- An operand of `n` bits: a part of the frame, or fixed and behind the processor. -/
def Operand (address n : Nat) : Prop :=
  if ccFrame address then address + n ≤ ccDataBase + ccFrameBits
  else ccLayerBits ≤ address ∧ address < 2 ^ 24 ∧ address + n ≤ 2 ^ 24

instance (address n : Nat) : Decidable (Operand address n) := by unfold Operand; infer_instance

section Performs

variable {cfg : Config} {D D' : Bits} {slot stride n dst src base address k off : Nat}
  {inputs : List Nat} {rest : List Instruction}

theorem Sizes.dstBit (hc : Sizes cfg) (i off : Nat) : cfg.dstBit i off = i * 71 + (23 + off) := by
  rw [Config.dstBit, hc.instructionSize, hc.nSize]

theorem Sizes.srcBit (hc : Sizes cfg) (i off : Nat) : cfg.srcBit i off = i * 71 + (47 + off) := by
  rw [Config.srcBit, hc.instructionSize, hc.nSize, hc.addressSize]

theorem Sizes.behind (hc : Sizes cfg) (h : ccLayerBits ≤ address) (h' : address + n ≤ 2 ^ 24) :
    Behind cfg address n := ⟨hc.layerBits ▸ h, hc.space ▸ h'⟩

theorem Sizes.behind_sp (hc : Sizes cfg) : Behind cfg (ccSp + 14) 10 :=
  hc.behind (by decide) (by decide)

/-- An operand lies behind the processor at run time. -/
theorem Sizes.behind_resolve (hc : Sizes cfg) (h : Operand address n)
    (hs : ccFrame address → StackOk D) : Behind cfg (resolve D address) n := by
  unfold Operand at h
  by_cases hf : ccFrame address
  · obtain ⟨-, hlow, hhigh⟩ := hs hf
    rw [if_pos hf] at h
    rw [resolve_of_frame hf]
    unfold ccStackBase at hlow
    unfold ccStackLast at hhigh
    unfold ccFrame ccDataBase at hf
    unfold ccDataBase ccFrameBits at h
    exact hc.behind (by unfold ccLayerBits; omega) (by unfold ccDataBase; omega)
  · rw [if_neg hf] at h
    rw [resolve_of_not_frame hf]
    exact hc.behind h.1 h.2.2

theorem performs_dstRows (hc : Sizes cfg) (hi : 3 ≤ slot) (hs : ccFrame dst → StackOk D)
    (hd : Behind cfg (resolve D dst) n) (hsrc : Behind cfg src n) :
    Performs cfg slot (dstRows slot n dst src) D (D.blit n (resolve D dst) src) := by
  by_cases hf : ccFrame dst
  · have hrow : (slot + 1) * 71 + 37 = cfg.dstBit (slot + 1 + 0) 14 := by rw [hc.dstBit]
    rw [dstRows_of_frame hf, hrow]
    refine .patchDst hi (by decide) (by rw [hc.addressSize]) Nat.zero_lt_one hc.behind_sp ?_
    rw [List.modify_zero_cons, Instruction.patchDst, splice_frameAddress (hs hf) hf]
    exact .copy (by omega) (fun _ ↦ hd) (fun _ ↦ hsrc) performs_nil
  · rw [resolve_of_not_frame hf] at hd ⊢
    rw [dstRows_of_not_frame hf]
    exact .copy hi (fun _ ↦ hd) (fun _ ↦ hsrc) performs_nil

theorem performs_opRows (hc : Sizes cfg) (hi : 3 ≤ slot)
    (hd : ccFrame dst → StackOk D) (hs : ccFrame src → StackOk D)
    (hdst : Behind cfg (resolve D dst) n) (hsrc : Behind cfg (resolve D src) n) :
    Performs cfg slot (opRows slot n dst src) D (D.blit n (resolve D dst) (resolve D src)) := by
  have h24 : 14 + 10 ≤ cfg.addressSize := by rw [hc.addressSize]
  by_cases hfs : ccFrame src
  · by_cases hfd : ccFrame dst
    · have hrow₁ : (slot + 2) * 71 + 37 = cfg.dstBit (slot + 1 + 1) 14 := by rw [hc.dstBit]
      have hrow₂ : (slot + 2) * 71 + 61 = cfg.srcBit (slot + 1 + 1 + 0) 14 := by rw [hc.srcBit]
      rw [opRows_of_frame hfd hfs, hrow₁, hrow₂]
      refine .patchDst hi (by decide) h24 (Nat.lt_succ_self 1) hc.behind_sp ?_
      rw [List.modify_succ_cons, List.modify_zero_cons, Instruction.patchDst,
        splice_frameAddress (hd hfd) hfd]
      refine .patchSrc (by omega) (by decide) h24 Nat.zero_lt_one hc.behind_sp ?_
      rw [List.modify_zero_cons, Instruction.patchSrc, splice_frameAddress (hs hfs) hfs]
      exact .copy (by omega) (fun _ ↦ hdst) (fun _ ↦ hsrc) performs_nil
    · have hrow : (slot + 1) * 71 + 61 = cfg.srcBit (slot + 1 + 0) 14 := by rw [hc.srcBit]
      rw [opRows_of_not_frame_dst hfd, srcRows_of_frame hfs, hrow]
      refine .patchSrc hi (by decide) h24 Nat.zero_lt_one hc.behind_sp ?_
      rw [List.modify_zero_cons, Instruction.patchSrc, splice_frameAddress (hs hfs) hfs]
      rw [resolve_of_not_frame hfd] at hdst ⊢
      exact .copy (by omega) (fun _ ↦ hdst) (fun _ ↦ hsrc) performs_nil
  · rw [opRows_of_not_frame_src hfs]
    rw [resolve_of_not_frame hfs] at hsrc ⊢
    exact performs_dstRows hc hi hd hdst hsrc

/-- An input is put into the address of a later row. -/
theorem performs_select (hc : Sizes cfg) (hi : 3 ≤ slot) (ha : ccFrame address → StackOk D)
    (hb : Behind cfg (resolve D address) 1) (hoff : off + 1 ≤ 24) (hk : k < rest.length)
    (h : Performs cfg (slot + (1 + ccFrameExtra address))
      (rest.modify k (.patchSrc off 1 (D.field (resolve D address) 1))) D D') :
    Performs cfg slot
      (srcRows slot 1 ((slot + (1 + ccFrameExtra address) + k) * 71 + 47 + off) address ++ rest)
      D D' := by
  by_cases hf : ccFrame address
  · have hrow : (slot + 1) * 71 + 61 = cfg.srcBit (slot + 1 + 0) 14 := by rw [hc.srcBit]
    have hrow' : (slot + (1 + 1) + k) * 71 + 47 + off = cfg.srcBit (slot + 1 + 1 + k) off := by
      rw [hc.srcBit]
      omega
    rw [ccFrameExtra_of_frame hf] at h ⊢
    rw [srcRows_of_frame hf, hrow, hrow']
    refine .patchSrc hi (by decide) (by rw [hc.addressSize]) (Nat.succ_pos _) hc.behind_sp ?_
    rw [List.append_eq, List.cons_append, List.modify_zero_cons, Instruction.patchSrc,
      splice_frameAddress (ha hf) hf]
    exact .patchSrc (by omega) Nat.one_ne_zero (by rwa [hc.addressSize]) hk hb h
  · have hrow : (slot + (1 + 0) + k) * 71 + 47 + off = cfg.srcBit (slot + 1 + k) off := by
      rw [hc.srcBit]
      omega
    rw [ccFrameExtra_of_not_frame hf] at h ⊢
    rw [resolve_of_not_frame hf] at hb h
    rw [srcRows_of_not_frame hf, hrow]
    exact .patchSrc hi (by decide) (by rwa [hc.addressSize]) hk hb h

theorem modify_append_right {f : Instruction → Instruction} {rows rows' : List Instruction}
    {l : Nat} (h : rows.length = l) :
    (rows ++ rows').modify (l + k) f = rows ++ rows'.modify k f := by
  induction rows generalizing l with
  | nil =>
      subst h
      rw [List.length_nil, Nat.zero_add, List.nil_append, List.nil_append]
  | cons row rows ih =>
      subst h
      rw [List.length_cons, Nat.add_right_comm, List.cons_append, List.modify_succ_cons, ih rfl,
        List.cons_append]

/-- The last row of a look-up is the one that reads the table. -/
theorem modify_lutRows {width v : Nat} :
    (lutRows slot stride width dst base inputs).modify (selectCount inputs + ccFrameExtra dst)
        (.patchSrc off 1 v) =
      lutRows slot stride width dst (Bits.splice off 1 v base) inputs := by
  induction inputs generalizing slot stride with
  | nil =>
      rw [lutRows, lutRows, selectCount, List.map_nil, List.sum_nil, Nat.zero_add]
      by_cases h : ccFrame dst
      · rw [dstRows_of_frame h, dstRows_of_frame h, ccFrameExtra_of_frame h]
        rfl
      · rw [dstRows_of_not_frame h, dstRows_of_not_frame h, ccFrameExtra_of_not_frame h]
        rfl
  | cons a inputs ih =>
      rw [lutRows, lutRows, selectCount_cons, Nat.add_assoc (1 + _), ← ih]
      exact modify_append_right length_srcRows

/-- A look-up reads the entry that its inputs select. -/
theorem performs_lutRows (hc : Sizes cfg) {width : Nat} (hi : 3 ≤ slot)
    (hd : ccFrame dst → StackOk D) (hdst : Behind cfg (resolve D dst) width)
    (hstride : stride + inputs.length ≤ 24)
    (hs : ∀ a ∈ inputs, ccFrame a → StackOk D)
    (hin : ∀ a ∈ inputs, Behind cfg (resolve D a) 1)
    (hentry : Behind cfg
      (lutEntry base stride (inputs.map fun a ↦ D.field (resolve D a) 1)) width) :
    Performs cfg slot (lutRows slot stride width dst base inputs) D
      (D.blit width (resolve D dst)
        (lutEntry base stride (inputs.map fun a ↦ D.field (resolve D a) 1))) := by
  induction inputs generalizing slot stride base with
  | nil => exact performs_dstRows hc hi hd hdst hentry
  | cons a inputs ih =>
      obtain ⟨hsa, hs⟩ := List.forall_mem_cons.mp hs
      obtain ⟨ha, hin⟩ := List.forall_mem_cons.mp hin
      rw [List.length_cons] at hstride
      rw [List.map_cons, lutEntry] at hentry ⊢
      rw [lutRows, selectCount_cons, ← Nat.add_assoc, Nat.add_assoc (slot + _)]
      refine performs_select hc hi hsa ha (by omega) ?_ ?_
      · rw [length_lutRows]
        omega
      · rw [modify_lutRows]
        exact ih (by omega) (by omega) hs hin hentry

/-! ## The rows can be written -/

theorem ccFrameAddress_lt (h : Operand address n) : ccFrameAddress address < 2 ^ 24 := by
  unfold Operand at h
  unfold ccFrameAddress
  by_cases hf : ccFrame address
  · rw [if_pos hf]
    unfold ccFrame ccFrameBits at hf
    unfold ccStackBase
    omega
  · rw [if_neg hf] at h ⊢
    exact h.2.1

theorem Sizes.fits (hc : Sizes cfg) (hn : n < 2 ^ 23) (hdst : dst < 2 ^ 24) (hsrc : src < 2 ^ 24) :
    Instruction.Fits cfg ⟨n, dst, src⟩ :=
  ⟨by rwa [hc.nSize], by rwa [hc.addressSize], by rwa [hc.addressSize]⟩

/-- A row that puts `cc-sp` into a later row. -/
theorem Sizes.fits_sp (hc : Sizes cfg) (hslot : slot ≤ 255) (hoff : off ≤ 71) :
    Instruction.Fits cfg ⟨10, slot * 71 + off, ccSp + 14⟩ :=
  hc.fits (by decide) (by omega) (by decide)

theorem fits_dstRows (hc : Sizes cfg) (hslot : slot + (1 + ccFrameExtra dst) ≤ 255)
    (hn : n < 2 ^ 23) (hdst : Operand dst n) (hsrc : src < 2 ^ 24) :
    ∀ row ∈ dstRows slot n dst src, row.Fits cfg := by
  have hrow := hc.fits hn (ccFrameAddress_lt hdst) hsrc
  by_cases hf : ccFrame dst
  · rw [ccFrameExtra_of_frame hf] at hslot
    rw [dstRows_of_frame hf, List.forall_mem_cons, List.forall_mem_singleton]
    exact ⟨hc.fits_sp (by omega) (by decide), hrow⟩
  · rw [dstRows_of_not_frame hf, List.forall_mem_singleton]
    rwa [ccFrameAddress, if_neg hf] at hrow

theorem fits_srcRows (hc : Sizes cfg) (hslot : slot + (1 + ccFrameExtra src) ≤ 255)
    (hn : n < 2 ^ 23) (hdst : dst < 2 ^ 24) (hsrc : Operand src k) :
    ∀ row ∈ srcRows slot n dst src, row.Fits cfg := by
  have hrow := hc.fits hn hdst (ccFrameAddress_lt hsrc)
  by_cases hf : ccFrame src
  · rw [ccFrameExtra_of_frame hf] at hslot
    rw [srcRows_of_frame hf, List.forall_mem_cons, List.forall_mem_singleton]
    exact ⟨hc.fits_sp (by omega) (by decide), hrow⟩
  · rw [srcRows_of_not_frame hf, List.forall_mem_singleton]
    rwa [ccFrameAddress, if_neg hf] at hrow

theorem fits_opRows (hc : Sizes cfg) (hslot : slot + (1 + ccFrameExtra dst + ccFrameExtra src) ≤ 255)
    (hn : n < 2 ^ 23) (hdst : Operand dst n) (hsrc : Operand src n) :
    ∀ row ∈ opRows slot n dst src, row.Fits cfg := by
  have hrow := hc.fits hn (ccFrameAddress_lt hdst) (ccFrameAddress_lt hsrc)
  by_cases hfs : ccFrame src
  · by_cases hfd : ccFrame dst
    · rw [ccFrameExtra_of_frame hfd, ccFrameExtra_of_frame hfs] at hslot
      rw [opRows_of_frame hfd hfs, List.forall_mem_cons, List.forall_mem_cons,
        List.forall_mem_singleton]
      exact ⟨hc.fits_sp (by omega) (by decide), hc.fits_sp (by omega) (by decide), hrow⟩
    · have hlt := ccFrameAddress_lt hdst
      rw [ccFrameExtra_of_not_frame hfd] at hslot
      rw [ccFrameAddress, if_neg hfd] at hlt
      rw [opRows_of_not_frame_dst hfd]
      exact fits_srcRows hc hslot hn hlt hsrc
  · have hlt := ccFrameAddress_lt hsrc
    rw [ccFrameExtra_of_not_frame hfs] at hslot
    rw [ccFrameAddress, if_neg hfs] at hlt
    rw [opRows_of_not_frame_src hfs]
    exact fits_dstRows hc hslot hn hdst hlt

theorem fits_lutRows (hc : Sizes cfg) {width : Nat}
    (hslot : slot + (selectCount inputs + (1 + ccFrameExtra dst)) ≤ 255)
    (hstride : stride + inputs.length ≤ 24) (hn : width < 2 ^ 23) (hdst : Operand dst width)
    (hbase : base < 2 ^ 24) (hin : ∀ a ∈ inputs, Operand a 1) :
    ∀ row ∈ lutRows slot stride width dst base inputs, row.Fits cfg := by
  induction inputs generalizing slot stride with
  | nil =>
      refine fits_dstRows hc ?_ hn hdst hbase
      rwa [selectCount, List.map_nil, List.sum_nil, Nat.zero_add] at hslot
  | cons a inputs ih =>
      obtain ⟨ha, hin⟩ := List.forall_mem_cons.mp hin
      rw [selectCount_cons] at hslot
      rw [List.length_cons] at hstride
      rw [lutRows, List.forall_mem_append, selectCount_cons]
      exact ⟨fits_srcRows hc (by omega) (by decide) (by omega) ha,
        ih (by omega) (by omega) hin⟩

end Performs

end CopySpace.CopyC
