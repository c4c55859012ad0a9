import CopySpace.CopyC.Rows

/-!
# The layers that the words emit

A word makes room for its rows, which may close the layer and open the next one, and appends them:
`Adds`.  What has been emitted before is not touched again, and what has not been emitted yet is
blank: `Fresh` and `Extends`.
-/

namespace CopySpace.CopyC

open BitMachine

/-- The bits behind the last layer. -/
def ccCodeEnd : Nat := ccCodeBase + ccLayerMax * ccLayerBits

namespace Emission

variable {cfg : Config} {e e' e₁ e₂ : Emission}
  {n dst src base a b c address target count slot stride value : Nat} {inputs : List Nat}
  {rows rows' : List Instruction} {I : Bits}

/-! ## Appending rows -/

/-- Where the next row is going to stand. -/
def position (e : Emission) : Nat := e.ccCurrent + e.slot * 71

/-- Append rows to the layer. -/
def append (cfg : Config) (e : Emission) (rows : List Instruction) : Emission :=
  { e with image := e.image.putRows cfg e.position rows, slot := e.slot + rows.length }

/-- Close the layer with the row that loads the layer at `target`, and go on with the next. -/
def close (cfg : Config) (e : Emission) (target : Nat) : Emission :=
  { e with
    image := e.image.putRow cfg (e.ccCurrent + 255 * 71) ⟨ccLayerBits, 0, target⟩
    layer := e.layer + 1
    slot := 3 }

theorem append_append (hc : Sizes cfg) :
    (e.append cfg rows).append cfg rows' = e.append cfg (rows ++ rows') := by
  simp only [append, position, ccCurrent, Bits.putRows_append, List.length_append, Nat.add_mul,
    Nat.add_assoc, hc.instructionSize]

theorem ccRow_eq (hc : Sizes cfg) (hu : e.unevaluated = 0) (bit : Nat) :
    e.ccRow n dst src bit = { e with image := e.image.putRow cfg bit ⟨n, dst, src⟩ } := by
  rw [ccRow, if_neg (not_not.mpr hu)]
  simp only [ccRowAt, csPutBits, Bits.putRow, hc.nSize, hc.addressSize, Nat.add_assoc]

theorem ccRoom_of_le (h : e.slot + count ≤ 255) : e.ccRoom count = some e := by
  rw [ccRoom, if_neg (by omega)]

theorem ccRawOp_eq (hc : Sizes cfg) (hu : e.unevaluated = 0) (h : e.slot + 1 ≤ 255) :
    e.ccRawOp n dst src = some (e.append cfg [⟨n, dst, src⟩]) := by
  rw [ccRawOp, ccRoom_of_le h]
  simp only [Option.bind_eq_bind, Option.bind_some, ccRow_eq hc hu]
  rfl

theorem ccRawOp_append (hc : Sizes cfg) (hu : e.unevaluated = 0)
    (h : e.slot + rows.length + 1 ≤ 255) : (e.append cfg rows).ccRawOp n dst src =
      some (e.append cfg (rows ++ [⟨n, dst, src⟩])) := by
  have happend : (e.append cfg rows).unevaluated = 0 := hu
  rw [ccRawOp_eq hc happend h, append_append hc]

theorem ccOp_eq (hc : Sizes cfg) (hu : e.unevaluated = 0)
    (h : e.slot + (1 + ccFrameExtra dst + ccFrameExtra src) ≤ 255) :
    e.ccOp n dst src = some (e.append cfg (opRows e.slot n dst src)) := by
  rw [ccOp, if_neg (not_not.mpr hu), ccRoom_of_le h, opRows]
  by_cases hd : ccFrame dst <;> by_cases hs : ccFrame src
  · rw [ccFrameExtra_of_frame hd, ccFrameExtra_of_frame hs] at h ⊢
    simp only [Option.bind_eq_bind, Option.bind_some, if_pos hd, if_pos hs,
      ccRawOp_eq hc hu (show e.slot + 1 ≤ 255 by omega)]
    rw [ccRawOp_append hc hu (by rw [List.length_singleton]; omega), Option.bind_some]
    exact ccRawOp_append hc hu h
  · rw [ccFrameExtra_of_frame hd, ccFrameExtra_of_not_frame hs] at h ⊢
    simp only [Option.bind_eq_bind, Option.bind_some, if_pos hd, if_neg hs,
      ccRawOp_eq hc hu (show e.slot + 1 ≤ 255 by omega)]
    exact ccRawOp_append hc hu h
  · rw [ccFrameExtra_of_not_frame hd, ccFrameExtra_of_frame hs] at h ⊢
    simp only [Option.bind_eq_bind, Option.bind_some, if_neg hd, if_pos hs,
      ccRawOp_eq hc hu (show e.slot + 1 ≤ 255 by omega)]
    exact ccRawOp_append hc hu h
  · simp only [Option.bind_eq_bind, Option.bind_some, if_neg hd, if_neg hs]
    exact ccRawOp_eq hc hu (by omega)

theorem ccOp_append (hc : Sizes cfg) (hu : e.unevaluated = 0)
    (h : e.slot + rows.length + (1 + ccFrameExtra dst + ccFrameExtra src) ≤ 255) :
    (e.append cfg rows).ccOp n dst src =
      some (e.append cfg (rows ++ opRows (e.slot + rows.length) n dst src)) := by
  have happend : (e.append cfg rows).unevaluated = 0 := hu
  rw [ccOp_eq hc happend h, append_append hc]
  rfl

/-! ## Making room -/

theorem ccJump_eq_some (hc : Sizes cfg) (hu : e.unevaluated = 0) :
    e.ccJump target = some e' ↔ e.layer + 1 < ccLayerMax ∧ e' = e.close cfg target := by
  rw [ccJump, if_neg (not_not.mpr hu), ccEnd, ccRow_eq hc hu, ccNew]
  dsimp only
  split
  · exact ⟨nofun, fun h ↦ by omega⟩
  · exact ⟨fun h ↦ ⟨by omega, (Option.some.inj h).symm⟩, fun h ↦ congrArg some h.2.symm⟩

/-- There is room in the layer, or it is closed and the next one is opened. -/
theorem ccRoom_eq_some (hc : Sizes cfg) (hu : e.unevaluated = 0) :
    e.ccRoom count = some e' ↔ (e.slot + count ≤ 255 ∧ e' = e) ∨
      (255 < e.slot + count ∧ e.layer + 1 < ccLayerMax ∧
        e' = e.close cfg (e.ccCurrent + ccLayerBits)) := by
  rw [ccRoom]
  split
  · rw [ccJump_eq_some hc hu]
    exact ⟨fun h ↦ .inr ⟨by omega, h⟩, fun h ↦ h.resolve_left (by omega) |>.2⟩
  · exact ⟨fun h ↦ .inl ⟨by omega, (Option.some.inj h).symm⟩, fun h ↦
      congrArg some (h.resolve_right (by omega)).2.symm⟩

theorem slot_of_ccRoom (hc : Sizes cfg) (hu : e.unevaluated = 0) (hcount : count ≤ 252)
    (h : e.ccRoom count = some e') : e'.slot + count ≤ 255 ∧ e'.unevaluated = 0 := by
  rcases (ccRoom_eq_some hc hu).mp h with ⟨hle, rfl⟩ | ⟨-, -, rfl⟩
  · exact ⟨hle, hu⟩
  · refine ⟨?_, hu⟩
    change 3 + count ≤ 255
    omega

/-- Make room for that many rows, and append them. -/
def Adds (cfg : Config) (e e' : Emission) (count : Nat) (rows : Nat → List Instruction) : Prop :=
  ∃ e₁, e.ccRoom count = some e₁ ∧ e₁.slot + count ≤ 255 ∧ e' = e₁.append cfg (rows e₁.slot)

theorem ccOp_adds (hc : Sizes cfg) (hu : e.unevaluated = 0) (h : e.ccOp n dst src = some e') :
    Adds cfg e e' (1 + ccFrameExtra dst + ccFrameExtra src) (opRows · n dst src) := by
  have hd := ccFrameExtra_le dst
  have hs := ccFrameExtra_le src
  cases hroom : e.ccRoom (1 + ccFrameExtra dst + ccFrameExtra src) with
  | none =>
      rw [ccOp, if_neg (not_not.mpr hu), hroom] at h
      cases h
  | some e₁ =>
      obtain ⟨hslot, hu₁⟩ := slot_of_ccRoom hc hu (by omega) hroom
      refine ⟨e₁, hroom, hslot, ?_⟩
      -- the word itself finds the room that it has made
      have hop := ccOp_eq hc hu₁ hslot (n := n)
      rw [ccOp, if_neg (not_not.mpr hu₁), ccRoom_of_le hslot] at hop
      rw [ccOp, if_neg (not_not.mpr hu), hroom] at h
      exact Option.some.inj (h.symm.trans hop)

/-! ## Look-ups -/

theorem not_ccFrame_of_lt (h : address < ccDataBase) : ¬ ccFrame address := fun hf ↦
  absurd hf.1 (Nat.not_le.mpr h)

/-- The row of an input, behind other rows. -/
theorem ccOp_select (hc : Sizes cfg) (hu : e.unevaluated = 0) (hdst : dst < ccDataBase)
    (h : e.slot + rows.length + (1 + ccFrameExtra src) ≤ 255) :
    (e.append cfg rows).ccOp n dst src =
      some (e.append cfg (rows ++ srcRows (e.slot + rows.length) n dst src)) := by
  have hd := not_ccFrame_of_lt hdst
  rw [ccOp_append hc hu (by rw [ccFrameExtra_of_not_frame hd]; omega), opRows_of_not_frame_dst hd]

/-- The row that reads the table, behind other rows. -/
theorem ccOp_entry (hc : Sizes cfg) (hu : e.unevaluated = 0) (hbase : ¬ ccFrame base)
    (h : e.slot + rows.length + (1 + ccFrameExtra dst) ≤ 255) :
    (e.append cfg rows).ccOp n dst base =
      some (e.append cfg (rows ++ dstRows (e.slot + rows.length) n dst base)) := by
  rw [ccOp_append hc hu (by rw [ccFrameExtra_of_not_frame hbase]; omega),
    opRows_of_not_frame_src hbase]

theorem append_nil : e.append cfg [] = e := by
  rw [append, Bits.putRows, List.length_nil, Nat.add_zero]

/-- The inputs of a look-up, one after the other. -/
def ccSelect (target stride : Nat) : List Nat → Emission → Option Emission
  | [], e => some e
  | a :: inputs, e =>
      (e.ccOp 1 (target * 71 + 47 + stride) a).bind (ccSelect target (stride + 1) inputs)

theorem ccSelect_append (hc : Sizes cfg) (hu : e.unevaluated = 0) (hbase : ¬ ccFrame base)
    (hlength : e.slot + rows.length + (selectCount inputs + (1 + ccFrameExtra dst)) ≤ 255)
    (htarget : target = e.slot + rows.length + selectCount inputs + ccFrameExtra dst)
    (hstride : stride + inputs.length ≤ 24) :
    ((e.append cfg rows).ccSelect target stride inputs).bind (·.ccOp n dst base) =
      some (e.append cfg
        (rows ++ lutRows (e.slot + rows.length) stride n dst base inputs)) := by
  induction inputs generalizing rows stride with
  | nil => exact ccOp_entry hc hu hbase (by simpa only [selectCount, List.map_nil, List.sum_nil,
      Nat.zero_add] using hlength)
  | cons a inputs ih =>
      rw [selectCount_cons] at hlength htarget
      rw [List.length_cons] at hstride
      have hlen := @length_srcRows (e.slot + rows.length) 1 (target * 71 + 47 + stride) a
      rw [ccSelect, ccOp_select hc hu (by unfold ccDataBase; omega) (by omega), Option.bind_some,
        ih (by rw [List.length_append, hlen]; omega) (by rw [List.length_append, hlen]; omega)
          (by omega),
        lutRows, List.append_assoc, List.length_append, hlen, selectCount_cons, htarget]
      simp only [Nat.add_assoc]

theorem ccSelect_eq (hc : Sizes cfg) (hu : e.unevaluated = 0) (hbase : ¬ ccFrame base)
    (hlength : e.slot + (selectCount inputs + (1 + ccFrameExtra dst)) ≤ 255)
    (htarget : target = e.slot + selectCount inputs + ccFrameExtra dst)
    (hstride : stride + inputs.length ≤ 24) :
    (e.ccSelect target stride inputs).bind (·.ccOp n dst base) =
      some (e.append cfg (lutRows e.slot stride n dst base inputs)) := by
  subst htarget
  have hnil : e.slot + ([] : List Instruction).length = e.slot := rfl
  have happend := ccSelect_append hc hu hbase (by rwa [hnil]) (by rw [hnil]) hstride (n := n)
  rwa [append_nil, hnil, List.nil_append] at happend

/-- A look-up makes room and appends its rows. -/
theorem ccSelect_adds (hc : Sizes cfg) (hu : e.unevaluated = 0) (hbase : ¬ ccFrame base)
    (hcount : count = selectCount inputs + (1 + ccFrameExtra dst)) (hle : count ≤ 252)
    (hstride : stride + inputs.length ≤ 24)
    (h : (e.ccRoom count).bind (fun e ↦
      (e.ccSelect (e.slot + (count - 1)) stride inputs).bind (·.ccOp n dst base)) = some e') :
    Adds cfg e e' count (lutRows · stride n dst base inputs) := by
  obtain ⟨e₁, hroom, h⟩ := Option.bind_eq_some_iff.mp h
  obtain ⟨hslot, hu₁⟩ := slot_of_ccRoom hc hu hle hroom
  refine ⟨e₁, hroom, hslot, ?_⟩
  rw [ccSelect_eq hc hu₁ hbase (by omega) (by omega) hstride] at h
  exact (Option.some.inj h).symm

theorem ccLut1_adds (hc : Sizes cfg) (hu : e.unevaluated = 0) (hbase : ¬ ccFrame base)
    (h : e.ccLut1 dst base a = some e') :
    Adds cfg e e' (2 + ccFrameExtra a + ccFrameExtra dst) (lutRows · 0 1 dst base [a]) := by
  have ha := ccFrameExtra_le a
  have hd := ccFrameExtra_le dst
  refine ccSelect_adds hc hu hbase ?_ (by omega) (show 0 + 1 ≤ 24 by decide) ?_
  · rw [selectCount_cons, selectCount, List.map_nil, List.sum_nil]
    omega
  · refine .trans (Option.bind_congr fun e₁ _ ↦ ?_) h
    rw [ccSelect, show e₁.slot + (2 + ccFrameExtra a + ccFrameExtra dst - 1) =
      e₁.slot + 1 + ccFrameExtra a + ccFrameExtra dst by omega, Option.bind_assoc]
    rfl

theorem ccLut2_adds (hc : Sizes cfg) (hu : e.unevaluated = 0) (hbase : ¬ ccFrame base)
    (h : e.ccLut2 dst base a b = some e') :
    Adds cfg e e' (3 + ccFrameExtra a + ccFrameExtra b + ccFrameExtra dst)
      (lutRows · 0 1 dst base [a, b]) := by
  have ha := ccFrameExtra_le a
  have hb := ccFrameExtra_le b
  have hd := ccFrameExtra_le dst
  refine ccSelect_adds hc hu hbase ?_ (by omega) (show 0 + 2 ≤ 24 by decide) ?_
  · rw [selectCount_cons, selectCount_cons, selectCount, List.map_nil, List.sum_nil]
    omega
  · refine .trans (Option.bind_congr fun e₁ _ ↦ ?_) h
    rw [show e₁.slot + (3 + ccFrameExtra a + ccFrameExtra b + ccFrameExtra dst - 1) =
      e₁.slot + 2 + ccFrameExtra a + ccFrameExtra b + ccFrameExtra dst by omega, ccSelect,
      Option.bind_assoc]
    refine Option.bind_congr fun e₂ _ ↦ ?_
    rw [ccSelect, Option.bind_assoc]
    rfl

theorem ccLut3_adds (hc : Sizes cfg) (hu : e.unevaluated = 0) (hbase : ¬ ccFrame base)
    (hstride : stride + 3 ≤ 24) (h : e.ccLut3 n dst base a b c stride = some e') :
    Adds cfg e e' (4 + ccFrameExtra a + ccFrameExtra b + ccFrameExtra c + ccFrameExtra dst)
      (lutRows · stride n dst base [a, b, c]) := by
  have ha := ccFrameExtra_le a
  have hb := ccFrameExtra_le b
  have hc' := ccFrameExtra_le c
  have hd := ccFrameExtra_le dst
  refine ccSelect_adds hc hu hbase ?_ (by omega) hstride ?_
  · rw [selectCount_cons, selectCount_cons, selectCount_cons, selectCount, List.map_nil,
      List.sum_nil]
    omega
  · refine .trans (Option.bind_congr fun e₁ _ ↦ ?_) h
    rw [show e₁.slot + (4 + ccFrameExtra a + ccFrameExtra b + ccFrameExtra c + ccFrameExtra dst -
      1) = e₁.slot + 3 + ccFrameExtra a + ccFrameExtra b + ccFrameExtra c + ccFrameExtra dst by
        omega, ccSelect, Option.bind_assoc]
    refine Option.bind_congr fun e₂ _ ↦ ?_
    rw [ccSelect, Option.bind_assoc, show ∀ t, t * 71 + 47 + (stride + 1) = t * 71 + 48 + stride
      from fun t ↦ by omega]
    refine Option.bind_congr fun e₃ _ ↦ ?_
    rw [ccSelect, Option.bind_assoc, show ∀ t, t * 71 + 47 + (stride + 1 + 1) =
      t * 71 + 49 + stride from fun t ↦ by omega]
    rfl

/-! ## Jumps to addresses that are read -/

theorem ccRoom_trans (hc : Sizes cfg) (hu : e.unevaluated = 0) (h₁ : e.ccRoom 1 = some e₁)
    (hle : 1 ≤ count) (hcount : count ≤ 252) (h₂ : e₁.ccRoom count = some e₂) :
    e.ccRoom count = some e₂ := by
  rcases (ccRoom_eq_some hc hu).mp h₁ with ⟨-, rfl⟩ | ⟨hslot, hlayer, rfl⟩
  · exact h₂
  · have hroom : (e.close cfg (e.ccCurrent + ccLayerBits)).slot + count ≤ 255 := by
      change 3 + count ≤ 255
      omega
    rw [ccRoom_of_le hroom] at h₂
    exact (ccRoom_eq_some hc hu).mpr (.inr ⟨by omega, hlayer, (Option.some.inj h₂).symm⟩)

/-- The rows change the last slot of the layer, which is closed. -/
theorem ccDynamic_adds (hc : Sizes cfg) (hu : e.unevaluated = 0)
    (h : e.ccDynamic src = some e') :
    ∃ e₁, Adds cfg e e₁ (1 + ccFrameExtra src) (srcRows · 24 18152 src) ∧
      e₁.ccJump 0 = some e' := by
  have hs := ccFrameExtra_le src
  have hdst : ¬ ccFrame 18152 := by decide
  obtain ⟨e₁, hroom, h⟩ := Option.bind_eq_some_iff.mp h
  obtain ⟨e₂, hop, h⟩ := Option.bind_eq_some_iff.mp h
  obtain ⟨-, hu₁⟩ := slot_of_ccRoom hc hu (by decide) hroom
  obtain ⟨e₃, hroom', hslot, rfl⟩ := ccOp_adds hc hu₁ hop
  rw [ccFrameExtra_of_not_frame hdst, Nat.add_zero] at hroom' hslot
  refine ⟨_, ⟨e₃, ccRoom_trans hc hu hroom (by omega) (by omega) hroom', hslot, ?_⟩, h⟩
  exact congrArg _ (opRows_of_not_frame_dst hdst)

/-- The table of a branch, without its addresses. -/
def allocate (e : Emission) : Emission :=
  { e with
    image := (e.image.putField e.align.constants 32 0).putField (e.align.constants + 32) 32 0
    constants := e.align.constants + 64 }

/-- The rows of `cc-branch`: the condition selects an address, and the layer goes there. -/
def branchRows (condition table slot : Nat) : List Instruction :=
  lutRows slot 5 24 ccJaddr table [condition] ++
    srcRows (slot + 2 + ccFrameExtra condition) 24 18152 ccJaddr

theorem length_branchRows : (branchRows a target slot).length = 3 + ccFrameExtra a := by
  have hjaddr : ccFrameExtra ccJaddr = 0 := rfl
  rw [branchRows, List.length_append, length_lutRows, length_srcRows, selectCount_cons,
    selectCount, List.map_nil, List.sum_nil]
  omega

theorem ccBranch_adds (hc : Sizes cfg) (hu : e.unevaluated = 0)
    (hconstants : ccConstantBase ≤ e.constants) (h : e.ccBranch a = some (target, e')) :
    target = e.align.constants ∧ e.align.constants + 64 ≤ 180224 ∧
      ∃ e₁, Adds cfg e.allocate e₁ (3 + ccFrameExtra a) (branchRows a target) ∧
        e₁.ccJump 0 = some e' := by
  have ha := ccFrameExtra_le a
  obtain ⟨⟨table, e₁⟩, hconst, h⟩ := Option.bind_eq_some_iff.mp h
  obtain ⟨⟨_, e₂⟩, hconst', h⟩ := Option.bind_eq_some_iff.mp h
  dsimp only at hconst' h
  unfold ccConst at hconst hconst'
  split at hconst
  · cases hconst
  obtain ⟨rfl, rfl⟩ := Prod.mk.inj (Option.some.inj hconst)
  split at hconst'
  · cases hconst'
  rename_i hlimit
  change ¬ e.align.constants + 32 + 32 > 180224 at hlimit
  obtain ⟨-, rfl⟩ := Prod.mk.inj (Option.some.inj hconst')
  obtain ⟨e₃, hroom, h⟩ := Option.bind_eq_some_iff.mp h
  obtain ⟨e₄, hselect, h⟩ := Option.bind_eq_some_iff.mp h
  obtain ⟨e₅, hentry, h⟩ := Option.bind_eq_some_iff.mp h
  obtain ⟨e₆, hdynamic, h⟩ := Option.bind_eq_some_iff.mp h
  obtain ⟨rfl, rfl⟩ := Prod.mk.inj (Option.some.inj h)
  change e.allocate.ccRoom _ = _ at hroom
  have hua : e.allocate.unevaluated = 0 := hu
  obtain ⟨hslot, hu₃⟩ := slot_of_ccRoom hc hua (by omega) hroom
  have htable : ¬ ccFrame e.align.constants := fun hf ↦ by
    have hle : e.constants ≤ e.align.constants := by
      change e.constants ≤ (e.constants + 63) / 64 * 64
      omega
    have := hf.2
    unfold ccConstantBase at hconstants
    unfold ccDataBase ccFrameBits at this
    omega
  have hcount : selectCount [a] = 1 + ccFrameExtra a := Nat.add_zero _
  have hjaddr : ccFrameExtra ccJaddr = 0 := rfl
  have hlookup : e₅ = e₃.append cfg (lutRows e₃.slot 5 24 ccJaddr e.align.constants [a]) := by
    have hselect : (e₃.ccSelect (e₃.slot + 1 + ccFrameExtra a) 5 [a]).bind
        (·.ccOp 24 ccJaddr e.align.constants) = some e₅ := by
      rw [ccSelect, Option.bind_assoc]
      exact Option.bind_eq_some_iff.mpr ⟨e₄, hselect, hentry⟩
    rw [ccSelect_eq hc hu₃ htable (by omega) (by omega) (show 5 + 1 ≤ 24 by decide)] at hselect
    exact (Option.some.inj hselect).symm
  have hlength : (lutRows e₃.slot 5 24 ccJaddr e.align.constants [a]).length =
      2 + ccFrameExtra a := by
    rw [length_lutRows]
    omega
  have hslot₅ : e₅.slot = e₃.slot + (2 + ccFrameExtra a) := by rw [hlookup, append, hlength]
  obtain ⟨e₁, ⟨e₆, hroom', -, rfl⟩, hjump⟩ :=
    ccDynamic_adds hc (show e₅.unevaluated = 0 from hlookup ▸ hu₃) hdynamic
  rw [ccRoom_of_le (by omega)] at hroom'
  cases hroom'
  refine ⟨rfl, by omega, _, ⟨e₃, hroom, hslot, ?_⟩, hjump⟩
  dsimp only
  rw [hslot₅, hlookup, append_append hc, branchRows, Nat.add_assoc]

/-! ## What is not touched -/

/-- Rows are being emitted, and behind the last of them nothing has been emitted yet. -/
structure Fresh (e : Emission) : Prop where
  evaluated : e.unevaluated = 0
  origin : e.origin = ccCodeBase
  constants_ge : ccConstantBase ≤ e.constants
  slot_ge : 3 ≤ e.slot
  slot_le : e.slot ≤ 255
  layer_lt : e.layer < ccLayerMax
  blank : ∀ p, e.position ≤ p → p < ccCodeEnd → e.image p = false
  head : e.slot = 3 → ∀ p, e.ccCurrent ≤ p → p < e.position → e.image p = false

/-- What has been emitted is kept. -/
structure Extends (e e' : Emission) : Prop where
  position_le : e.position ≤ e'.position
  constants_le : e.constants ≤ e'.constants
  kept : ∀ p, ccCodeBase ≤ p → p < e.position → e'.image p = e.image p

theorem Extends.refl (e : Emission) : Extends e e := ⟨le_rfl, le_rfl, fun _ _ _ ↦ rfl⟩

theorem Extends.trans (h : Extends e e₁) (h' : Extends e₁ e₂) : Extends e e₂ :=
  ⟨h.position_le.trans h'.position_le, h.constants_le.trans h'.constants_le, fun p h₁ h₂ ↦
    (h'.kept p h₁ (h₂.trans_le h.position_le)).trans (h.kept p h₁ h₂)⟩

theorem Fresh.append (hc : Sizes cfg) (h : e.Fresh) (hslot : e.slot + rows.length ≤ 255) :
    (e.append cfg rows).Fresh ∧ e.Extends (e.append cfg rows) := by
  have hposition : (e.append cfg rows).position = e.position + rows.length * 71 := by
    simp only [position, Emission.append, ccCurrent, Nat.add_mul, Nat.add_assoc]
  have hout : ∀ p, ¬(e.position ≤ p ∧ p < e.position + rows.length * 71) →
      (e.append cfg rows).image p = e.image p := fun p hp ↦
    Bits.putRows_of_notMem (by rwa [hc.instructionSize])
  refine ⟨⟨h.evaluated, h.origin, h.constants_ge, h.slot_ge.trans (Nat.le_add_right _ _), hslot,
    h.layer_lt, fun p h₁ h₂ ↦ ?_, fun h3 p h₁ h₂ ↦ ?_⟩, ?_, le_rfl, fun p _ h₂ ↦ ?_⟩
  · rw [hposition] at h₁
    rw [hout p (by omega)]
    exact h.blank p (by omega) h₂
  · -- no row has been appended
    change e.slot + rows.length = 3 at h3
    have hge := h.slot_ge
    rw [hposition] at h₂
    rw [hout p (by omega)]
    exact h.head (by omega) p h₁ (by omega)
  · rw [hposition]
    omega
  · rw [hout p (by omega)]

theorem Fresh.close (hc : Sizes cfg) (h : e.Fresh) (hlayer : e.layer + 1 < ccLayerMax) :
    (e.close cfg target).Fresh ∧ e.Extends (e.close cfg target) := by
  have hcurrent : (e.close cfg target).ccCurrent = e.ccCurrent + 256 * 71 := by
    simp only [Emission.close, ccCurrent, ccLayerBits]
    omega
  have hposition : (e.close cfg target).position = e.ccCurrent + 256 * 71 + 3 * 71 := by
    rw [position, hcurrent]
    rfl
  have hposition' : e.position = e.ccCurrent + e.slot * 71 := rfl
  have hslot := h.slot_le
  have hout : ∀ p, ¬(e.ccCurrent + 255 * 71 ≤ p ∧ p < e.ccCurrent + 256 * 71) →
      (e.close cfg target).image p = e.image p := fun p hp ↦
    Bits.putRow_of_notMem (by rw [hc.instructionSize]; omega)
  have hend : e.ccCurrent + 256 * 71 + 3 * 71 ≤ ccCodeEnd := by
    unfold ccCurrent ccCodeEnd
    rw [h.origin]
    unfold ccLayerMax at hlayer ⊢
    unfold ccLayerBits
    omega
  refine ⟨⟨h.evaluated, h.origin, h.constants_ge, le_rfl, show 3 ≤ 255 by decide, hlayer,
    fun p h₁ h₂ ↦ ?_, fun _ p h₁ h₂ ↦ ?_⟩, ?_, le_rfl, fun p _ h₂ ↦ ?_⟩
  · rw [hposition] at h₁
    rw [hout p (by omega)]
    exact h.blank p (by omega) h₂
  · rw [hcurrent] at h₁
    rw [hposition] at h₂
    rw [hout p (by omega)]
    exact h.blank p (by omega) (by omega)
  · rw [hposition]
    omega
  · rw [hout p (by omega)]

/-- Writing below the code. -/
theorem Fresh.congr (h : e.Fresh) (hlayer : e'.layer = e.layer) (hslot : e'.slot = e.slot)
    (horigin : e'.origin = e.origin) (hu : e'.unevaluated = e.unevaluated)
    (hconstants : e.constants ≤ e'.constants)
    (himage : ∀ p, ccCodeBase ≤ p → e'.image p = e.image p) : e'.Fresh ∧ e.Extends e' := by
  have hcurrent : e'.ccCurrent = e.ccCurrent := by rw [ccCurrent, ccCurrent, hlayer, horigin]
  have hposition : e'.position = e.position := by rw [position, position, hcurrent, hslot]
  have hcode : ccCodeBase ≤ e.ccCurrent := by
    rw [ccCurrent, h.origin]
    exact Nat.le_add_left _ _
  refine ⟨⟨hu.trans h.evaluated, horigin.trans h.origin, h.constants_ge.trans hconstants,
    hslot ▸ h.slot_ge, hslot ▸ h.slot_le, hlayer ▸ h.layer_lt, fun p h₁ h₂ ↦ ?_,
    fun h3 p h₁ h₂ ↦ ?_⟩, hposition.ge, hconstants, fun p h₁ _ ↦ himage p h₁⟩
  · rw [hposition] at h₁
    rw [himage p ((hcode.trans (Nat.le_add_right _ _)).trans h₁)]
    exact h.blank p h₁ h₂
  · rw [hslot] at h3
    rw [hcurrent] at h₁
    rw [hposition] at h₂
    rw [himage p (hcode.trans h₁)]
    exact h.head h3 p h₁ h₂

theorem Fresh.ccJump (hc : Sizes cfg) (h : e.Fresh) (hr : e.ccJump target = some e') :
    e'.Fresh ∧ e.Extends e' := by
  obtain ⟨hlayer, rfl⟩ := (ccJump_eq_some hc h.evaluated).mp hr
  exact h.close hc hlayer

theorem Fresh.ccRoom (hc : Sizes cfg) (h : e.Fresh) (hr : e.ccRoom count = some e') :
    e'.Fresh ∧ e.Extends e' := by
  rcases (ccRoom_eq_some hc h.evaluated).mp hr with ⟨-, rfl⟩ | ⟨-, hlayer, rfl⟩
  · exact ⟨h, .refl _⟩
  · exact h.close hc hlayer

theorem Fresh.adds (hc : Sizes cfg) (h : e.Fresh) {rows : Nat → List Instruction}
    (ha : Adds cfg e e' count rows) (hlength : ∀ slot, (rows slot).length = count) :
    e'.Fresh ∧ e.Extends e' := by
  obtain ⟨e₁, hroom, hslot, rfl⟩ := ha
  obtain ⟨h₁, hx₁⟩ := h.ccRoom hc hroom
  obtain ⟨h₂, hx₂⟩ := h₁.append hc (show e₁.slot + (rows e₁.slot).length ≤ 255 by rwa [hlength])
  exact ⟨h₂, hx₁.trans hx₂⟩

theorem Fresh.allocate (h : e.Fresh) (hlimit : e.align.constants + 64 ≤ 180224) :
    e.allocate.Fresh ∧ e.Extends e.allocate := by
  refine h.congr rfl rfl rfl rfl ?_ fun p hp ↦ ?_
  · change e.constants ≤ (e.constants + 63) / 64 * 64 + 64
    omega
  · unfold ccCodeBase at hp
    exact (Bits.putField_of_notMem _ (by omega)).trans (Bits.putField_of_notMem _ (by omega))

theorem Fresh.ccPatch (h : e.Fresh) (htarget : target + 32 ≤ ccCodeBase) :
    (e.ccPatch target value).Fresh ∧ e.Extends (e.ccPatch target value) := by
  rw [Emission.ccPatch, if_neg (not_not.mpr h.evaluated)]
  exact h.congr rfl rfl rfl rfl le_rfl fun p hp ↦ Bits.putField_of_notMem _ (by omega)

/-- The constants that there are already are kept. -/
def Keeps (e e' : Emission) : Prop :=
  ∀ p, p < ccCodeBase → p < e.constants → e'.image p = e.image p

theorem Keeps.trans (h : Keeps e e₁) (h' : Keeps e₁ e₂) (hx : e.Extends e₁) : Keeps e e₂ :=
  fun p h₁ h₂ ↦ (h' p h₁ (h₂.trans_le hx.constants_le)).trans (h p h₁ h₂)

theorem Fresh.ccCurrent_ge (h : e.Fresh) : ccCodeBase ≤ e.ccCurrent := by
  rw [ccCurrent, h.origin]
  exact Nat.le_add_left _ _

theorem Fresh.keeps_append (h : e.Fresh) : Keeps e (e.append cfg rows) := fun p hp _ ↦ by
  have := h.ccCurrent_ge
  exact Bits.putRows_of_notMem (by unfold position; omega)

theorem Fresh.keeps_ccJump (hc : Sizes cfg) (h : e.Fresh) (hr : e.ccJump target = some e') :
    Keeps e e' := fun p hp _ ↦ by
  obtain ⟨-, rfl⟩ := (ccJump_eq_some hc h.evaluated).mp hr
  have := h.ccCurrent_ge
  exact Bits.putRow_of_notMem (by omega)

theorem Fresh.keeps_ccRoom (hc : Sizes cfg) (h : e.Fresh) (hr : e.ccRoom count = some e') :
    Keeps e e' := by
  unfold Emission.ccRoom at hr
  split at hr
  · exact h.keeps_ccJump hc hr
  · cases hr
    exact fun _ _ _ ↦ rfl

theorem Fresh.keeps_adds (hc : Sizes cfg) (h : e.Fresh) {rows : Nat → List Instruction}
    (ha : Adds cfg e e' count rows) : Keeps e e' := by
  obtain ⟨e₁, hroom, -, rfl⟩ := ha
  obtain ⟨h₁, hx₁⟩ := h.ccRoom hc hroom
  exact (h.keeps_ccRoom hc hroom).trans h₁.keeps_append hx₁

theorem keeps_allocate : Keeps e e.allocate := fun p _ hp ↦ by
  have hle : e.constants ≤ e.align.constants := by
    change e.constants ≤ (e.constants + 63) / 64 * 64
    omega
  exact (Bits.putField_of_notMem _ (by omega)).trans (Bits.putField_of_notMem _ (by omega))

end Emission

end CopySpace.CopyC
