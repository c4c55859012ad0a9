import CopySpace.Target.Body

/-!
# Jumps are given their targets

At the end the linker goes through its jumps.  One without a table gets a link, and one with a
table the two addresses of its entries.  No two of them are in the same place, so each has its
target in the end, and the rest of the image is as it was.
-/

namespace CopySpace.Target

open Link Emit BitMachine

variable {cfg : Config} {ctx ctx' ctx₁ : Context} {j j' : Jump} {jumps : List Jump}
  {m m' : Bits} {report line target : Nat}

/-! ## One jump -/

/-- Where the target of a jump is written. -/
def Place (cfg : Config) (j : Jump) (p : Nat) : Prop :=
  j.table = 0 ∧ j.layer + 255 * cfg.instructionSize ≤ p ∧ p < j.layer + 256 * cfg.instructionSize ∨
    j.table ≠ 0 ∧ j.table ≤ p ∧ p < j.table + 64

/-- The target of a jump has been written. -/
structure Patched (cfg : Config) (j : Jump) (target : Nat) (m : Bits) : Prop where
  link : j.table = 0 →
    m.rowAt cfg (j.layer + 255 * cfg.instructionSize) = ⟨cfg.layerBits, 0, target⟩
  table : j.table ≠ 0 →
    m.field j.table 32 = (if j.inverted then target else j.fallthrough) ∧
      m.field (j.table + 32) 32 = if j.inverted then j.fallthrough else target

theorem Patched.congr (h : Patched cfg j target m) (hm : ∀ p, Place cfg j p → m' p = m p) :
    Patched cfg j target m' where
  link ht := by
    rw [← h.link ht]
    exact rowAt_congr fun p hp ↦ hm _ (.inl ⟨ht, by omega, by omega⟩)
  table ht := by
    rw [← (h.table ht).1, ← (h.table ht).2]
    exact ⟨Bits.field_congr fun i hi ↦ hm _ (.inr ⟨ht, by omega, by omega⟩),
      Bits.field_congr fun i hi ↦ hm _ (.inr ⟨ht, by omega, by omega⟩)⟩

theorem jumpTarget_onData (f : Bits → Bits) (label : Option Key) :
    (ctx.onData f).jumpTarget report label = ctx.jumpTarget report label := by
  cases label <;> rfl

/-- A row that has been written. -/
theorem csCopyRow_eq_zero {image : CopyImage} (hfor : image.For cfg) {slot : Nat}
    (hslot : slot < 256)
    {n d s : Nat} (h : (csCopyRow image slot n d s).1 = 0) :
    Instruction.Valid cfg ⟨n, d, s⟩ ∧ csCopyRow image slot n d s = (0, { image with
      data := image.data.putRow cfg (image.layer + slot * cfg.instructionSize) ⟨n, d, s⟩ }) := by
  by_cases hv : rowValid image slot n d s
  · have hvalid : Instruction.Valid cfg ⟨n, d, s⟩ := (rowValid_iff hfor hslot).mp hv
    exact ⟨hvalid, csCopyRow_eq hfor hslot hvalid⟩
  · rw [csCopyRow, if_pos hv] at h
    cases h

/-- The link of a layer that has been written. -/
theorem csCopyRow_link {image : CopyImage} (hfor : image.For cfg) {layer : Nat}
    (h : (csCopyRow { image with layer := layer } 255 image.layerBits 0 target).1 = 0) :
    Instruction.Valid cfg ⟨cfg.layerBits, 0, target⟩ ∧
      (csCopyRow { image with layer := layer } 255 image.layerBits 0 target).2.data =
        image.data.putRow cfg (layer + 255 * cfg.instructionSize) ⟨cfg.layerBits, 0, target⟩ := by
  have hfor' : CopyImage.For cfg { image with layer := layer } :=
    ⟨hfor.addressBits, hfor.countBits, hfor.instructionBits, hfor.spaceBits, hfor.layerBits⟩
  have hlayer : ({ image with layer := layer } : CopyImage).layer = layer := rfl
  have hdata : ({ image with layer := layer } : CopyImage).data = image.data := rfl
  generalize ({ image with layer := layer } : CopyImage) = other at h hfor' hlayer hdata ⊢
  rw [hfor.layerBits] at h ⊢
  obtain ⟨hvalid, hrow⟩ := csCopyRow_eq_zero hfor' (by decide : 255 < 256) h
  rw [hrow, ← hlayer, ← hdata]
  exact ⟨hvalid, rfl⟩

theorem patchJump_eq_some (hfor : ctx.program.image.For cfg) {layer : Nat}
    (h : ctx.onProgram (csCopyProgramPatchJump ctx.program layer target) = some ctx') :
    Instruction.Valid cfg ⟨cfg.layerBits, 0, target⟩ ∧
      ctx' = ctx.onData fun m ↦ m.putRow cfg (layer + 255 * cfg.instructionSize)
        ⟨cfg.layerBits, 0, target⟩ := by
  obtain ⟨program, hpatch, rfl⟩ := Context.onProgram_eq_some h
  unfold csCopyProgramPatchJump at hpatch
  dsimp only at hpatch
  split at hpatch
  · cases hpatch
  obtain ⟨h0, rfl⟩ := Prod.mk.inj hpatch
  obtain ⟨hvalid, hdata⟩ := csCopyRow_link hfor h0
  refine ⟨hvalid, ?_⟩
  rw [hdata]
  rfl

/-- One round of the loop. -/
theorem resolveJump_eq_ok (hg : Target cfg) (hfor : ctx.program.image.For cfg)
    (ha : j.table ≠ 0 → j.fallthrough < 2 ^ 32)
    (ht : ∀ t, ctx.jumpTarget report j.label = some t → t < 2 ^ 32)
    (h : ctx.resolveJump report line j = .ok ctx') : ∃ target f,
      ctx.jumpTarget report j.label = some target ∧ ctx' = ctx.onData f ∧
        (∀ m p, ¬ Place cfg j p → f m p = m p) ∧ ∀ m, Patched cfg j target (f m) := by
  unfold Context.resolveJump at h
  split at h
  · cases h
  next target htarget =>
  have hlt := ht target htarget
  split at h
  · next htable =>
      have ha := ha htable
      split at h
      · cases h
      next ctx₁ hput =>
      obtain rfl := Except.ok.inj h
      obtain ⟨ctx₂, h₁, h₂⟩ := Option.bind_eq_some_iff.mp hput
      obtain ⟨-, rfl⟩ := Context.putConstant_eq_some h₁
      obtain ⟨-, rfl⟩ := Context.putConstant_eq_some h₂
      refine ⟨target, Bits.putField (j.table + 32) 32 _ ∘ Bits.putField j.table 32 _, htarget, rfl,
        fun m p hp ↦ ?_, fun m ↦ ⟨fun h0 ↦ absurd h0 htable, fun _ ↦ ⟨?_, ?_⟩⟩⟩
      · have hout : ¬(j.table ≤ p ∧ p < j.table + 64) := fun h ↦ hp (.inr ⟨htable, h⟩)
        exact (Bits.putField_of_notMem _ (by omega)).trans (Bits.putField_of_notMem _ (by omega))
      · rw [Function.comp_apply, Bits.field_putField_of_disjoint _ (.inl le_rfl),
          Bits.field_putField_self, Nat.mod_eq_of_lt (by split <;> omega)]
      · rw [Function.comp_apply, Bits.field_putField_self, Nat.mod_eq_of_lt (by split <;> omega)]
  · next htable =>
      obtain htable := not_not.mp htable
      split at h
      · cases h
      next ctx₁ hpatch =>
      obtain rfl := Except.ok.inj h
      obtain ⟨hvalid, rfl⟩ := patchJump_eq_some hfor hpatch
      refine ⟨target, _, htarget, rfl, fun m p hp ↦ ?_,
        fun m ↦ ⟨fun _ ↦ rowAt_putRow (hg.fits hvalid),
        fun h0 ↦ absurd htable h0⟩⟩
      refine Bits.putRow_of_notMem fun h ↦ hp (.inl ⟨htable, h.1, ?_⟩)
      omega

/-! ## All jumps -/

/-- The loop over the jumps. -/
theorem resolveJumps_eq_ok (hg : Target cfg) (hfor : ctx.program.image.For cfg)
    (hap : jumps.Pairwise fun j j' ↦ ∀ p, Place cfg j p → ¬ Place cfg j' p)
    (ha : ∀ j ∈ jumps, j.table ≠ 0 → j.fallthrough < 2 ^ 32)
    (ht : ∀ j ∈ jumps, ∀ t, ctx.jumpTarget report j.label = some t → t < 2 ^ 32)
    (h : jumps.foldlM (Context.resolveJump report line) ctx = .ok ctx') : ∃ f,
      ctx' = ctx.onData f ∧ (∀ m p, (∀ j ∈ jumps, ¬ Place cfg j p) → f m p = m p) ∧
        ∀ j ∈ jumps, ∃ target, ctx.jumpTarget report j.label = some target ∧
          ∀ m, Patched cfg j target (f m) := by
  induction jumps generalizing ctx with
  | nil =>
      cases h
      exact ⟨id, rfl, fun _ _ _ ↦ rfl, fun j hj ↦ by cases hj⟩
  | cons j jumps ih =>
      rw [List.foldlM_cons] at h
      obtain ⟨ctx₁, h₁, h₂⟩ := bind_eq_ok h
      obtain ⟨hj, hjumps⟩ := List.pairwise_cons.mp hap
      obtain ⟨target, f, htarget, rfl, hf, hpatched⟩ := resolveJump_eq_ok hg hfor
        (ha j List.mem_cons_self) (ht j List.mem_cons_self) h₁
      obtain ⟨g, rfl, hg', hpatched'⟩ := ih (hfor.onData f) hjumps
        (fun j hj ↦ ha j (List.mem_cons_of_mem _ hj))
        (fun j hj t ↦ by
          rw [jumpTarget_onData]
          exact ht j (List.mem_cons_of_mem _ hj) t) h₂
      refine ⟨g ∘ f, rfl, fun m p hp ↦ ?_, List.forall_mem_cons.mpr ⟨⟨target, htarget, fun m ↦ ?_⟩,
        fun j' hj' ↦ ?_⟩⟩
      · exact (hg' _ p fun j hj ↦ hp j (List.mem_cons_of_mem _ hj)).trans
          (hf m p (hp _ List.mem_cons_self))
      · exact (hpatched m).congr fun p hp ↦ hg' _ p fun j' hj' ↦ hj j' hj' p hp
      · obtain ⟨target', htarget', h'⟩ := hpatched' j' hj'
        rw [jumpTarget_onData] at htarget'
        exact ⟨target', htarget', fun m ↦ h' (f m)⟩

/-! ## The context afterwards -/

theorem callTable_le (ctx : Context) :
    branchTable + 64 * ctx.capacities.jump = ctx.capacities.callTable ∧
    ctx.capacities.callTable + 32 * ctx.capacities.call ≤ ctx.capacities.codeBegin := by
  refine ⟨rfl, ?_⟩
  unfold Capacities.codeBegin Capacities.symbolTable
  omega

/-- Targets are written into links and into the tables of the jumps. -/
theorem place_bounds (hs : ctx.Sound cfg) (hj : j ∈ ctx.jumps) {p : Nat} (hp : Place cfg j p) :
    j.table = 0 ∧ ctx.capacities.codeBegin ≤ p ∧ j.layer + 255 * cfg.instructionSize ≤ p ∧
        p < j.layer + cfg.layerBits ∨
      j.table ≠ 0 ∧ branchTable ≤ p ∧ p < ctx.capacities.callTable := by
  obtain ⟨hcall, -⟩ := callTable_le ctx
  obtain ⟨ht, hp⟩ | ⟨ht, hp⟩ := hp
  · obtain ⟨k, hk⟩ := (hs.jumpLayers j hj).1.1
    have hL := hs.target.layerBits_eq
    exact .inl ⟨ht, by omega, by omega, by omega⟩
  · obtain ⟨i, hi⟩ := List.mem_iff_getElem?.mp hj
    have htable := (hs.jumpTables i j hi).resolve_left ht
    have hlt := (List.getElem?_eq_some_iff.mp hi).1
    have hle := hs.jumps_le
    exact .inr ⟨ht, by omega, by omega⟩

/-- No two targets are written into the same place. -/
theorem places_apart (hs : ctx.Sound cfg) :
    ctx.jumps.Pairwise fun j j' ↦ ∀ p, Place cfg j p → ¬ Place cfg j' p := by
  refine List.pairwise_iff_getElem.mpr fun i i' hi hi' hlt p hp hp' ↦ ?_
  have hlayers := List.pairwise_iff_getElem.mp hs.jumpsApart i i' hi hi' hlt
  have hbounds := place_bounds hs (List.getElem_mem hi) hp
  have hbounds' := place_bounds hs (List.getElem_mem hi') hp'
  have htable := hs.jumpTables i _ (List.getElem?_eq_getElem hi)
  have htable' := hs.jumpTables i' _ (List.getElem?_eq_getElem hi')
  obtain ⟨-, hcode⟩ := callTable_le ctx
  obtain ⟨ht, hp⟩ | ⟨ht, hp⟩ := hp <;> obtain ⟨ht', hp'⟩ | ⟨ht', hp'⟩ := hp'
  · have := hlayers ht
    have hL := hs.target.layerBits_eq
    omega
  · omega
  · omega
  · omega

/-- In a layer only the link may be a target. -/
theorem place_of_layer (hs : ctx.Sound cfg) (hj : j ∈ ctx.jumps) {k p : Nat}
    (hp : p < cfg.layerBits)
    (h : Place cfg j (ctx.capacities.codeBegin + k * cfg.layerBits + p)) :
    j.table = 0 ∧ j.layer = ctx.capacities.codeBegin + k * cfg.layerBits ∧
      255 * cfg.instructionSize ≤ p := by
  obtain ⟨-, hcode⟩ := callTable_le ctx
  obtain ⟨ht, -, hle, hlt⟩ | ⟨-, -, hlt⟩ := place_bounds hs hj h
  · obtain ⟨i, hi⟩ := (hs.jumpLayers j hj).1.1
    have hik : i = k := by
      rcases Nat.lt_trichotomy i k with hik | hik | hik
      · have := Nat.mul_le_mul_right cfg.layerBits hik
        rw [Nat.succ_mul] at this
        omega
      · exact hik
      · have := Nat.mul_le_mul_right cfg.layerBits hik
        rw [Nat.succ_mul] at this
        omega
    subst hik
    exact ⟨ht, hi, by omega⟩
  · omega

section Resolved

variable {f : Bits → Bits}
  (hf : ∀ m p, (∀ j ∈ ctx.jumps, ¬ Place cfg j p) → f m p = m p)

include hf

theorem resolved_low (hs : ctx.Sound cfg) (m : Bits) {p : Nat} (hp : p < branchTable ∨
    ctx.capacities.callTable ≤ p ∧ p < ctx.capacities.codeBegin) : f m p = m p :=
  hf m p fun j hj hplace ↦ by
    obtain ⟨hcall, hcode⟩ := callTable_le ctx
    obtain ⟨-, h⟩ | ⟨-, h⟩ := place_bounds hs hj hplace <;> omega

theorem resolved_code (hs : ctx.Sound cfg) (m : Bits) {p : Nat} (hp : ctx.capacities.codeBegin ≤ p)
    (hj : ∀ j ∈ ctx.jumps, j.table = 0 → ¬(j.layer + 255 * cfg.instructionSize ≤ p ∧
      p < j.layer + cfg.layerBits)) : f m p = m p :=
  hf m p fun j hmem hplace ↦ by
    obtain ⟨-, hcode⟩ := callTable_le ctx
    obtain ⟨ht, -, h⟩ | ⟨-, h⟩ := place_bounds hs hmem hplace
    · exact hj j hmem ht h
    · omega

section Patched

variable (hpatched : ∀ j ∈ ctx.jumps, ∃ target, ∀ m, Patched cfg j target (f m))

include hpatched

/-- The program is still in order. -/
theorem laid_resolved (hs : ctx.Sound cfg) :
    Laid cfg ctx.capacities.codeBegin (ctx.onData f).program := by
  have hlaid := hs.laid
  have hfor := hlaid.toFor
  have hL := hs.target.layerBits_eq
  refine ⟨⟨hfor.image.onData f, hfor.codeBegin, hfor.codeLimit, hfor.layer_le, hfor.begin_le,
    hfor.limit_le, hfor.bytes_le⟩, hlaid.layer, hlaid.codeEnd, hlaid.codeEnd_le, hlaid.three_le,
    hlaid.slot_le, fun k hk p hp ↦ ?_, fun p hp hp' ↦ ?_, fun k hk ↦ ?_⟩
  · refine (hf _ _ fun j hj hplace ↦ ?_).trans (hlaid.channels k hk p hp)
    obtain ⟨-, -, hle⟩ := place_of_layer hs hj (by omega) hplace
    omega
  · refine (hf _ _ fun j hj hplace ↦ ?_).trans (hlaid.empty p hp hp')
    obtain ⟨i, hi⟩ := hlaid.layer
    have hplace : Place cfg j (ctx.capacities.codeBegin + i * cfg.layerBits + p) := hi ▸ hplace
    obtain ⟨ht, hlayer, -⟩ := place_of_layer hs hj hp' hplace
    have := hs.jumps j hj ht
    omega
  · by_cases hlink : ∃ j ∈ ctx.jumps, j.table = 0 ∧
        j.layer = ctx.capacities.codeBegin + k * cfg.layerBits
    · obtain ⟨j, hj, ht, hlayer⟩ := hlink
      obtain ⟨target, h⟩ := hpatched j hj
      exact ⟨target, hlayer ▸ (h _).link ht⟩
    · obtain ⟨next, hnext⟩ := hlaid.links k hk
      refine ⟨next, (rowAt_congr fun p hp ↦ hf _ _ fun j hj hplace ↦ hlink ?_).trans hnext⟩
      rw [Nat.add_assoc] at hplace
      obtain ⟨ht, hlayer, -⟩ := place_of_layer hs hj (by omega) hplace
      exact ⟨j, hj, ht, hlayer⟩

theorem sound_resolved (hs : ctx.Sound cfg) : (ctx.onData f).Sound cfg where
  target := hs.target
  address_le := hs.address_le
  laid := laid_resolved hf hpatched hs
  tables := hs.tables.congr fun p hp ↦ resolved_low hf hs _ (.inl (by
    dsimp only [InTables, andTable, temporary, shiftZero, eqTable, branchTable] at *
    omega))
  constants_le := hs.constants_le
  constants i v hv := by
    rw [← hs.constants i v hv]
    have hi := (List.getElem?_eq_some_iff.mp hv).1
    have hle := hs.constants_le
    refine Bits.field_congr fun b hb ↦ resolved_low hf hs _ (.inl ?_)
    dsimp only [Context.onData, constantBase, constantCapacity, regBase, branchTable] at *
    omega
  jumps_le := hs.jumps_le
  jumps := hs.jumps
  jumpTables := hs.jumpTables
  jumpLayers := hs.jumpLayers
  jumpsApart := hs.jumpsApart
  calls i hi hcount := by
    rw [← hs.calls i hi hcount]
    obtain ⟨-, hcode⟩ := callTable_le ctx
    refine Bits.field_congr fun b hb ↦ resolved_low hf hs _ (.inr ?_)
    dsimp only [Context.onData] at hi ⊢
    omega
  internals := hs.internals
  memoryBytes := hs.memoryBytes
  memory_ge := hs.memory_ge
  memory := hs.memory

end Patched

/-- What the image contains of the program with its targets it contains of the program without. -/
theorem final_of_resolved {F : Linked} (hs : ctx.Sound cfg) (hF : F.Final cfg (ctx.onData f)) :
    F.Final cfg ctx where
  limit := hF.limit
  limit_le := hF.limit_le
  memoryAddressBits := hF.memoryAddressBits
  code p hp hp' hj := (hF.code p hp hp' hj).trans (resolved_code hf hs _ hp hj)
  links := hF.links
  tables := hF.tables
  arithmetic subtract ha := hF.arithmetic subtract (ha.congr fun p _ hp ↦ resolved_low hf hs _
    (.inl (hp.trans (by decide))))
  constants := hF.constants
  jumps := hF.jumps
  labels := hF.labels
  memory hm := by
    obtain ⟨hlimit, hbit⟩ := hF.memory hm
    refine ⟨hlimit, fun hb ↦ hbit (Eq.trans ?_ hb)⟩
    have ha := hs.address_le
    refine Bits.field_congr fun b hb ↦ resolved_low hf hs _ (.inl ?_)
    dsimp only [memBitAddress, branchTable]
    omega
  calls i hi h0 := by
    have hcell : (ctx.onData f).program.image.data.field (ctx.capacities.callTable + 32 * i) 32 =
        ctx.program.image.data.field (ctx.capacities.callTable + 32 * i) 32 := by
      obtain ⟨-, hcode⟩ := callTable_le ctx
      exact Bits.field_congr fun b hb ↦ resolved_low hf hs _ (.inr ⟨by omega, by omega⟩)
    rw [← hcell] at h0 ⊢
    exact hF.calls i hi h0

end Resolved

end CopySpace.Target
