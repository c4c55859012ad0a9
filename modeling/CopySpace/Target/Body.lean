import CopySpace.Link.Events
import CopySpace.Target.Dispatch
import CopySpace.Target.Located

/-!
# The body of a leaf

Every statement that the linker accepts in a leaf stands for statements of the target machine, and
these are located where the linker has been.  The loop over the text puts the statements one behind
the other.
-/

namespace CopySpace.Target

open Link Emit BitMachine

variable {cfg : Config} {ctx ctx' ctx₁ ctx₂ : Context} {k : Key} {o : Operation} {c : Condition}
  {G : LeafImage} {l l' rest : List (Statement Key)} {assembly s entry : Text} {offset line : Nat}
  {st st' : LeafState}

/-! ## Images of a context -/

/-- The image is that of a program which contains what is in the context. -/
structure LeafImage.Of (cfg : Config) (G : LeafImage) (ctx : Context) : Prop where
  final : G.image.Final cfg ctx
  based : Based ctx G.base
  stops : ∀ k, Awaited ctx k → G.stop (G.image.target (some k))
  known : ∀ j ∈ ctx.jumps, ∀ k, j.label = some k → Outer k → G.known k

/-- It contains what was in the context earlier. -/
theorem LeafImage.Of.mono (hs : ctx.Sound cfg) (hx : Extends cfg ctx ctx')
    (hp : ∀ k, Pending ctx k → Pending ctx' k) (hG : G.Of cfg ctx') : G.Of cfg ctx where
  final := hG.final.mono hs hx
  based := hG.based.mono hx
  stops k hk := hG.stops k (hk.mono hp hx)
  known j hj := hG.known j (hx.jumps.subset hj)

/-! ## Traps and accesses -/

/-- How far a text has come with its traps and its accesses. -/
inductive Phase where
  | clear
  | placed
  | trapped
  | lost

/-- A trap before the first access makes a label for the layer that stops a run, and the first
access makes another one. -/
def Phase.after : Phase → Statement Key → Phase
  | clear, .trap => trapped
  | clear, .operation o => if o.accesses then placed else clear
  | trapped, .operation o => if o.accesses then lost else trapped
  | p, _ => p

/-- What is known of the context: in the end nothing defines a label that something awaits. -/
def Phase.Holds (ctx : Context) : Phase → Prop
  | clear => ctx.dataBegin = 0
  | placed => True
  | trapped => ctx.dataBegin = 0 ∧ ∃ k, Awaited ctx k ∧ ctx.memoryFault = some k
  | lost => ∃ k, Awaited ctx k ∧ ctx.memoryFault ≠ some k

namespace Phase

variable {p : Phase}

theorem Holds.same (hpending : ∀ k, Pending ctx k → Pending ctx' k) (hx : Extends cfg ctx ctx')
    (hfault : ctx'.memoryFault = ctx.memoryFault) (hbase : ctx'.dataBegin = ctx.dataBegin)
    (h : p.Holds ctx) : p.Holds ctx' := by
  cases p with
  | clear => exact hbase.trans h
  | placed => trivial
  | trapped =>
      obtain ⟨h0, k, hk, hkfault⟩ := h
      exact ⟨hbase.trans h0, k, hk.mono hpending hx, hfault.trans hkfault⟩
  | lost =>
      obtain ⟨k, hk, hkfault⟩ := h
      exact ⟨k, hk.mono hpending hx, hfault ▸ hkfault⟩

theorem Holds.quiet (hq : Quiet ctx ctx') (hx : Extends cfg ctx ctx') (h : p.Holds ctx) :
    p.Holds ctx' := h.same hq.pending hx hq.fault hq.base

theorem after_of_quiet (ho : o.accesses = false) : p.after (.operation o) = p := by
  cases p <;> simp [after, ho]

/-- The first access of a text in which there has been a trap loses the label of the trap. -/
theorem Holds.operation (hf : Framed ctx o ctx') (hx : Extends cfg ctx ctx') (h : p.Holds ctx) :
    (p.after (.operation o)).Holds ctx' := by
  cases haccesses : o.accesses with
  | false =>
      rw [after_of_quiet haccesses]
      exact h.quiet (hf.quiet haccesses) hx
  | true =>
      have h0 := hf.base haccesses
      cases p with
      | clear => simp [after, haccesses, Holds]
      | placed => trivial
      | trapped =>
          obtain ⟨hbase, k, hk, -⟩ := h
          obtain ⟨-, hsame⟩ | ⟨-, -, hfresh⟩ := hf.moved
          · exact absurd (hsame.trans hbase) h0
          · simp only [after, haccesses, if_true]
            exact ⟨k, hk.mono hf.pending hx, fun hkfault ↦ hfresh k hkfault hk.pending⟩
      | lost =>
          obtain ⟨k, hk, hkfault⟩ := h
          refine ⟨k, hk.mono hf.pending hx, ?_⟩
          obtain ⟨hsame, -⟩ | ⟨-, -, hfresh⟩ := hf.moved
          · exact hsame ▸ hkfault
          · exact fun hk' ↦ hfresh k hk' hk.pending

end Phase

/-! ## Defined labels -/

/-- Every label of the statements is defined here, and has not been before. -/
structure Labelled (ctx : Context) (l : List (Statement Key)) (ctx' : Context) : Prop where
  fresh : ∀ k ∈ labels l, (ctx.labels.label k).defined = false
  defined : ∀ k ∈ labels l, (ctx'.labels.label k).defined = true
  nodup : (labels l).Nodup

theorem Labelled.of_nil (h : labels l = []) : Labelled ctx l ctx' := by
  constructor <;> simp [h]

theorem Labelled.trans (h : Labelled ctx l ctx₁) (h' : Labelled ctx₁ l' ctx')
    (hx : Extends cfg ctx ctx₁) (hx' : Extends cfg ctx₁ ctx') :
    Labelled ctx (l ++ l') ctx' := by
  have happend : labels (l ++ l') = labels l ++ labels l' := List.filterMap_append
  constructor
  · intro k hk
    obtain hk | hk := List.mem_append.mp (happend ▸ hk)
    · exact h.fresh k hk
    · refine Bool.eq_false_iff.mpr fun hd ↦ ?_
      have hdefined := (hx.labels k hd).1
      rw [h'.fresh k hk] at hdefined
      cases hdefined
  · intro k hk
    obtain hk | hk := List.mem_append.mp (happend ▸ hk)
    · exact (hx'.labels k (h.defined k hk)).1
    · exact h'.defined k hk
  · rw [happend]
    refine List.nodup_append.mpr ⟨h.nodup, h'.nodup, fun k hk k' hk' he ↦ ?_⟩
    have hdefined := h.defined k hk
    rw [he, h'.fresh k' hk'] at hdefined
    cases hdefined

/-! ## Translations -/

/-- What stands between two contexts does the statements. -/
structure Translates (cfg : Config) (ctx : Context) (l : List (Statement Key))
    (ctx' : Context) : Prop where
  sound : ctx'.Sound cfg
  extension : Extends cfg ctx ctx'
  pending : ∀ k, Pending ctx k → Pending ctx' k
  outer : ∀ k, Outer k → (ctx'.labels.label k).defined = true →
    (ctx.labels.label k).defined = true ∨ .label k ∈ l
  data : ∀ k, (ctx'.labels.label k).data = (ctx.labels.label k).data
  fault : (∀ k, ctx.memoryFault = some k → Pending ctx k) →
    ∀ k, ctx'.memoryFault = some k → Pending ctx' k
  placed : (ctx.dataBegin ≠ 0 → ctx.memoryFault ≠ none) →
    ctx'.dataBegin ≠ 0 → ctx'.memoryFault ≠ none
  phase : ∀ p : Phase, p.Holds ctx → (l.foldl Phase.after p).Holds ctx'
  labelled : Labelled ctx l ctx'
  located : ctx.memoryBytes = leafMemory → ∀ G : LeafImage, G.Of cfg ctx' → ∀ rest,
    G.Located cfg rest ctx'.spot → G.Located cfg (l ++ rest) ctx.spot

namespace Translates

theorem memoryBytes (h : Translates cfg ctx l ctx') (hs : ctx.Sound cfg) :
    ctx'.memoryBytes = ctx.memoryBytes := by
  rw [h.sound.memoryBytes, hs.memoryBytes, h.extension.memoryAddressBits]

theorem refl (hs : ctx.Sound cfg) : Translates cfg ctx [] ctx :=
  ⟨hs, .refl ctx, fun _ h ↦ h, fun _ _ h ↦ .inl h, fun _ ↦ rfl, id, id, fun _ h ↦ h,
    .of_nil rfl, fun _ _ _ _ h ↦ h⟩

theorem trans (hs : ctx.Sound cfg) (h : Translates cfg ctx l ctx₁)
    (h' : Translates cfg ctx₁ l' ctx') : Translates cfg ctx (l ++ l') ctx' where
  sound := h'.sound
  extension := h.extension.trans hs h'.extension
  pending k hk := h'.pending k (h.pending k hk)
  outer k hk hd := by
    obtain hd | hmem := h'.outer k hk hd
    · exact (h.outer k hk hd).imp_right (List.mem_append_left l')
    · exact .inr (List.mem_append_right l hmem)
  data k := (h'.data k).trans (h.data k)
  fault hf := h'.fault (h.fault hf)
  placed hp := h'.placed (h.placed hp)
  phase p hp := by
    rw [List.foldl_append]
    exact h'.phase _ (h.phase p hp)
  labelled := h.labelled.trans h'.labelled h.extension h'.extension
  located hbytes G hG rest hrest := by
    rw [List.append_assoc]
    exact h.located hbytes G (hG.mono h.sound h'.extension h'.pending) _
      (h'.located ((h.memoryBytes hs).trans hbytes) G hG rest hrest)

/-- What changes no label of the text. -/
theorem of_frame (hs : ctx'.Sound cfg) (hx : Extends cfg ctx ctx') (hf : Frame ctx ctx')
    (hphase : ∀ p : Phase, p.Holds ctx → (l.foldl Phase.after p).Holds ctx') (hl : labels l = [])
    (h : ctx.memoryBytes = leafMemory → ∀ G : LeafImage, G.Of cfg ctx' → ∀ rest,
      G.Located cfg rest ctx'.spot → G.Located cfg (l ++ rest) ctx.spot) :
    Translates cfg ctx l ctx' where
  sound := hs
  extension := hx
  pending := hf.pending
  outer k hk hd := .inl (hf.outer k hk ▸ hd)
  data := hf.data
  fault := hf.fault
  placed := hf.placed
  phase := hphase
  labelled := .of_nil hl
  located := h

/-- What changes no label at all. -/
theorem of_quiet (hs : ctx'.Sound cfg) (hx : Extends cfg ctx ctx') (hq : Quiet ctx ctx')
    (hphase : ∀ p : Phase, l.foldl Phase.after p = p) (hl : labels l = [])
    (h : ctx.memoryBytes = leafMemory → ∀ G : LeafImage, G.Of cfg ctx' → ∀ rest,
      G.Located cfg rest ctx'.spot → G.Located cfg (l ++ rest) ctx.spot) :
    Translates cfg ctx l ctx' :=
  .of_frame hs hx (.of_quiet hq) (fun p hp ↦ (hphase p).symm ▸ hp.quiet hq hx) hl h

end Translates

/-! ## What is emitted for no statement -/

theorem passes_of_emits (h : Emits cfg ctx (fun D D' ↦ D' = D) ctx') (hG : G.Of cfg ctx') :
    G.Passes cfg ctx.spot ctx'.spot := by
  intro D hD
  obtain ⟨D', rfl, -, hl⟩ := h.leads G.image hG.final D hD
  exact hl

theorem translates_of_emits (h : Emits cfg ctx (fun D D' ↦ D' = D) ctx') (hq : Quiet ctx ctx') :
    Translates cfg ctx [] ctx' :=
  .of_quiet h.sound h.extension hq (fun _ ↦ rfl) rfl fun _ _ hG _ hrest ↦
    hrest.after (passes_of_emits h hG)

/-- The labels are entered into the table, and the linker goes on to another statement. -/
theorem emits_relabel (hs : ctx.Sound cfg) {t : LabelTable} (offset : Option Nat)
    (hlabel : t.label = ctx.labels.label) (hinternals : t.internals = ctx.labels.internals) :
    Emits cfg ctx (fun D D' ↦ D' = D) { ctx with labels := t, statementOffset := offset } ∧
      Quiet ctx { ctx with labels := t, statementOffset := offset } := by
  refine ⟨⟨⟨hs.target, hs.address_le, hs.laid, hs.tables, hs.constants_le, hs.constants,
    hs.jumps_le,
    hs.jumps, hs.jumpTables, hs.jumpLayers, hs.jumpsApart, hs.calls, ?_, hs.memoryBytes,
    hs.memory_ge, hs.memory⟩, ⟨rfl, rfl, rfl, rfl, rfl, le_rfl, .inl ⟨rfl, rfl, le_rfl⟩,
      fun _ _ _ ↦ rfl, fun _ _ ↦ rfl, fun _ _ ↦ rfl, List.prefix_refl _, List.prefix_refl _,
      fun _ hj ↦ .inl hj, ?_, ?_, fun _ ha ↦ ha, fun _ ↦ ⟨rfl, rfl, id⟩, fun _ _ _ ↦ rfl⟩,
      fun _ _ D hD ↦ ⟨D, rfl, hD, .refl _ _⟩⟩, ⟨fun k hk ↦ ?_, hinternals.ge, fun k _ ↦ ?_,
      fun k ↦ ?_, rfl, rfl⟩⟩
  · dsimp only
    rw [hlabel, hinternals]
    exact hs.internals
  · dsimp only
    rw [hlabel]
    exact fun k hk ↦ ⟨hk, rfl, rfl⟩
  · dsimp only
    rw [hlabel]
    exact fun k hk _ ↦ .inl hk
  · obtain ⟨hinternal, hundefined, hdata⟩ := hk
    exact ⟨by rwa [hinternals], by rwa [hlabel], by rwa [hlabel]⟩
  · exact congrFun hlabel k
  · exact congrArg Label.data (congrFun hlabel k)

theorem internals_enter {capacity : Nat} {t : LabelTable} {r : Key × LabelTable}
    (h : enter capacity k t = some r) :
    r.1 = k ∧ r.2.label = t.label ∧ r.2.internals = t.internals := by
  unfold enter at h
  split at h
  · cases h
    exact ⟨rfl, rfl, rfl⟩
  split at h
  · cases h
  · cases h
    exact ⟨rfl, rfl, rfl⟩

/-- A label is mentioned. -/
theorem translates_label {name : Text} (hs : ctx.Sound cfg) (hassembly : ctx.assembly = assembly)
    (hoffset : ctx.statementOffset = some offset) (h : ctx.label name = some (k, ctx')) :
    mentioned assembly offset name = some k ∧ Outer k ∧
      Emits cfg ctx (fun D D' ↦ D' = D) ctx' ∧ Quiet ctx ctx' := by
  obtain ⟨⟨k', t⟩, hr, hpair⟩ := Option.map_eq_some_iff.mp h
  obtain ⟨rfl, rfl⟩ := Prod.mk.inj hpair
  rw [label_eq, hassembly, hoffset] at hr
  obtain ⟨key, hkey, henter⟩ := Option.bind_eq_some_iff.mp hr
  obtain ⟨rfl, hlabel, hinternals⟩ := internals_enter henter
  exact ⟨hkey, labelKey_ne_internal hkey, emits_relabel hs ctx.statementOffset hlabel hinternals⟩

/-! ## Statements -/

theorem translates_operation (h : Implements cfg ctx o ctx') (hf : Framed ctx o ctx') :
    Translates cfg ctx [.operation o] ctx' := by
  refine .of_frame h.sound h.extension hf.toFrame (fun p hp ↦ hp.operation hf h.extension)
    rfl fun hbytes G hG rest hrest ↦ .operation ⟨?_, ?_⟩ hrest
  · rintro D s ⟨hD, hs⟩ s' hs'
    rw [← hbytes] at hs hs'
    obtain ⟨D', hrep, hD', hl⟩ := h.completes G.image hG.final G.base hG.based D s hD hs s' hs'
    exact ⟨D', ⟨hD', hbytes ▸ hrep⟩, hl⟩
  · rintro D s ⟨hD, hs⟩ hnone
    rw [← hbytes] at hs hnone
    obtain ⟨k, hk, D', hD', hl⟩ := h.faults G.image hG.final G.base hG.based D s hD hs hnone
    exact ⟨_, hG.stops k hk, D', hD', hl⟩

/-- The flag of a condition, and whether it must be clear. -/
def flagOf : Condition → Nat × Bool
  | .eq => (cmpEq, false)
  | .ne => (cmpEq, true)
  | .lt => (cmpLts, false)
  | .ge => (cmpLts, true)
  | .le => (cmpLes, false)
  | .gt => (cmpLes, true)
  | .ltu => (cmpLtu, false)
  | .geu => (cmpLtu, true)
  | .leu => (cmpLeu, false)
  | .gtu => (cmpLeu, true)

theorem lookup_map {α β γ : Type} [BEq α] (f : β → γ) (a : α) (l : List (α × β)) :
    (l.map fun p ↦ (p.1, f p.2)).lookup a = (l.lookup a).map f := by
  induction l with
  | nil => rfl
  | cons p l ih =>
      rw [List.map_cons, List.lookup_cons, List.lookup_cons, ih]
      cases a == p.1 <;> rfl

theorem lookup_conditions (name : Text) :
    Context.conditions.lookup name = (conditions.lookup name).map flagOf :=
  lookup_map flagOf name conditions

theorem Represents.holds {base n : Nat} {s : State} {D : Bits} (h : Represents base n s D)
    (c : Condition) : c.holds s.comparison = (D (flagOf c).1 != (flagOf c).2) := by
  cases c
  case eq | ne =>
    simp [flagOf, Condition.holds, h.eq]
  case lt | ge =>
    simp [flagOf, Condition.holds, h.lts]
  case le | gt =>
    simp [flagOf, Condition.holds, h.les]
  case ltu | geu =>
    simp [flagOf, Condition.holds, h.ltu]
  case leu | gtu =>
    simp [flagOf, Condition.holds, h.leu]

theorem flagOf_bounds (c : Condition) : cmpEq ≤ (flagOf c).1 ∧ (flagOf c).1 ≤ cmpLes := by
  cases c <;> decide

theorem translates_branch (h : InLeaf cfg ctx) (hassembly : ctx.assembly = assembly)
    (hoffset : ctx.statementOffset = some offset) (hb : ctx.branch s line = .ok ctx') :
    ∃ b, branchOf assembly offset s = some b ∧ Translates cfg ctx [b] ctx' := by
  unfold Context.branch at hb
  split at hb
  · cases hb
  dsimp only at hb
  split at hb
  · cases hb
  next flag inverted hflag =>
  split at hb
  · cases hb
  next k ctx₁ hk =>
  have hs := h.sound
  obtain ⟨hmentioned, houter, e₁, q₁⟩ := translates_label hs hassembly hoffset hk
  rw [lookup_conditions] at hflag
  obtain ⟨c, hc, hpair⟩ := Option.map_eq_some_iff.mp hflag
  obtain ⟨rfl, rfl⟩ : flag = (flagOf c).1 ∧ inverted = (flagOf c).2 := by
    rw [hpair]
    exact ⟨rfl, rfl⟩
  unfold branchOf
  dsimp only
  rw [hc, hmentioned]
  refine ⟨_, rfl, ?_⟩
  have hbounds := flagOf_bounds c
  have hbranch := emits_conditionalJump e₁.sound hb (e₁.sound.behind (n := 1)
    (by dsimp only [constantBase, cmpEq] at *; omega)
    (by dsimp only [branchTable, cmpLes] at *; omega))
  obtain ⟨j, hj, hlabel⟩ := mentions_conditionalJump e₁.sound hb
  refine .of_quiet hbranch.sound (e₁.extension.trans hs hbranch.extension)
    (q₁.trans (quiet_conditionalJump hb)) (fun p ↦ by cases p <;> rfl) rfl
    fun _ G hG rest hrest ↦ ?_
  refine .branch (hG.known j hj k hlabel houter) ⟨fun D s hD hholds ↦ ?_, fun D s hD hholds ↦ ?_⟩
    hrest
  all_goals
    obtain ⟨D', rfl, -, hl⟩ := e₁.leads G.image (hG.final.mono e₁.sound hbranch.extension) D hD.runs
    rw [hD.represents.holds] at hholds
  · exact hl.trans (hbranch.jumps G.image hG.final D' hD.runs (bne_iff_ne.mp hholds))
  · exact hl.trans (hbranch.stays G.image hG.final D' hD.runs (by simpa using hholds))

/-- The linker goes to a label, or to the report. -/
theorem jump_label {target : Option Key} (h : ctx.jump target line = some ctx') :
    ∃ j ∈ ctx'.jumps, j.label = target := by
  obtain ⟨-, ctx₁, -, rfl⟩ := Context.jump_eq_some h
  exact ⟨_, List.mem_append_right _ (List.mem_singleton_self _), rfl⟩

theorem passes_jump (hs : ctx.Sound cfg) {target : Option Key}
    (h : ctx.jump target line = some ctx') (hG : G.Of cfg ctx') :
    G.Passes cfg ctx.spot (G.target target) :=
  fun D hD ↦ (emits_jump hs h).2.2.2 G.image hG.final D hD

theorem translates_jumpTo {name : Text} (h : InLeaf cfg ctx) (hassembly : ctx.assembly = assembly)
    (hoffset : ctx.statementOffset = some offset) (hj : ctx.jumpTo name line = .ok ctx') :
    ∃ k, mentioned assembly offset name = some k ∧ Translates cfg ctx [.jump k] ctx' := by
  unfold Context.jumpTo at hj
  split at hj
  · cases hj
  next k ctx₁ hk =>
  have hjump := orFail_eq_ok hj
  obtain ⟨hmentioned, houter, e₁, q₁⟩ := translates_label h.sound hassembly hoffset hk
  obtain ⟨hs', hx, -⟩ := emits_jump e₁.sound hjump
  obtain ⟨j, hmem, hlabel⟩ := jump_label hjump
  refine ⟨k, hmentioned, .of_quiet hs' (e₁.extension.trans h.sound hx)
    (q₁.trans (quiet_jump hjump)) (fun p ↦ by cases p <;> rfl) rfl fun _ G hG rest hrest ↦ ?_⟩
  have hG₁ := hG.mono e₁.sound hx (quiet_jump hjump).pending
  exact .jump (hG.known j hmem k hlabel houter)
    ((passes_of_emits e₁ hG₁).trans (passes_jump e₁.sound hjump hG)) hrest

theorem translates_ret (hs : ctx.Sound cfg) (hj : ctx.jump none line = some ctx') :
    Translates cfg ctx [.ret] ctx' := by
  obtain ⟨hs', hx, -⟩ := emits_jump hs hj
  exact .of_quiet hs' hx (quiet_jump hj) (fun p ↦ by cases p <;> rfl) rfl
    fun _ G hG rest hrest ↦ .ret (passes_jump hs hj hG) hrest

/-- What holds of the context between the statements of a leaf. -/
structure InBody (cfg : Config) (assembly : Text) (ctx : Context) : Prop
    extends InLeaf cfg ctx where
  assembly : ctx.assembly = assembly
  code : ∀ k, (ctx.labels.label k).data = 0
  placed : ctx.dataBegin ≠ 0 → ctx.memoryFault ≠ none

theorem InBody.mono (h : InBody cfg assembly ctx) (ht : Translates cfg ctx l ctx') :
    InBody cfg assembly ctx' where
  sound := ht.sound
  memoryAddressBits := ht.extension.memoryAddressBits.trans h.memoryAddressBits
  programMode := ht.extension.programMode.trans h.programMode
  fault := ht.fault h.fault
  assembly := ht.extension.assembly.trans h.assembly
  code k := (ht.data k).trans (h.code k)
  placed := ht.placed h.placed

/-- The label of the layer that stops a run, which is made when there is none. -/
theorem translates_faultLabel (h : InBody cfg assembly ctx) (hk : ctx.faultLabel = some (k, ctx')) :
    Translates cfg ctx [] ctx' ∧ Pending ctx' k ∧ ctx'.memoryFault = some k := by
  unfold Context.faultLabel at hk
  split at hk
  · next k' hk' =>
      obtain ⟨rfl, rfl⟩ := Prod.mk.inj (Option.some.inj hk)
      exact ⟨.refl h.sound, h.fault k' hk', hk'⟩
  · next hnone =>
      obtain ⟨⟨k', ctx₁⟩, hlabel, hpair⟩ := Option.map_eq_some_iff.mp hk
      obtain ⟨rfl, rfl⟩ := Prod.mk.inj hpair
      obtain ⟨e₁, hpending, -, -⟩ := emits_internalLabel h.sound hlabel
      obtain ⟨q₁, hfresh⟩ := quiet_internalLabel hlabel
      have hs := e₁.sound
      have hpending' : Pending { ctx₁ with memoryFault := some k' } k' := hpending.congr rfl
      -- without such a label the memory has no place yet
      have h0 : ctx₁.dataBegin = 0 := by
        by_contra h0
        exact h.placed (q₁.base ▸ h0) hnone
      have e₂ : Emits cfg ctx₁ (fun D D' ↦ D' = D) { ctx₁ with memoryFault := some k' } :=
        ⟨⟨hs.target, hs.address_le, hs.laid, hs.tables, hs.constants_le, hs.constants, hs.jumps_le,
          hs.jumps, hs.jumpTables, hs.jumpLayers, hs.jumpsApart, hs.calls, hs.internals,
          hs.memoryBytes, hs.memory_ge, hs.memory⟩, ⟨rfl, rfl, rfl, rfl, rfl, le_rfl,
          .inl ⟨rfl, rfl, le_rfl⟩, fun _ _ _ ↦ rfl, fun _ _ ↦ rfl, fun _ _ ↦ rfl,
          List.prefix_refl _, List.prefix_refl _, fun _ hj ↦ .inl hj, fun _ hk ↦ ⟨hk, rfl, rfl⟩,
          fun _ hk _ ↦ .inl hk, fun _ ha ↦ ha, fun hm ↦ absurd h0 hm, fun _ _ _ ↦ rfl⟩,
          fun _ _ D hD ↦ ⟨D, rfl, hD, .refl _ _⟩⟩
      have e : Emits cfg ctx (fun D D' ↦ D' = D) { ctx₁ with memoryFault := some k' } := by
        refine (e₁.trans h.sound e₂).imp ?_
        rintro F - D D' - - ⟨D₁, rfl, rfl⟩
        rfl
      refine ⟨⟨e.sound, e.extension, fun k hk ↦ (q₁.pending k hk).congr rfl, fun k hk hd ↦ .inl ?_,
        q₁.data, fun _ k hk ↦ Option.some.inj hk ▸ hpending', fun _ _ ↦ Option.some_ne_none k',
        fun p hp ↦ ?_, .of_nil rfl, fun _ _ hG _ hrest ↦ hrest.after (passes_of_emits e hG)⟩,
        hpending', rfl⟩
      · rw [← q₁.outer k hk]
        exact hd
      · cases p with
        | clear => exact q₁.base.trans hp
        | placed => trivial
        | trapped =>
            obtain ⟨-, k, -, hk⟩ := hp
            rw [hnone] at hk
            cases hk
        | lost =>
            -- what was awaited before is not the label that has just been made
            obtain ⟨k, hk, -⟩ := hp
            exact ⟨k, hk.mono (fun k hk ↦ (q₁.pending k hk).congr rfl) e.extension,
              fun he ↦ hk.pending.ne hfresh (Option.some.inj he).symm⟩

theorem translates_trap (h : InBody cfg assembly ctx) (ht : ctx.trap line = some ctx') :
    Translates cfg ctx [.trap] ctx' := by
  obtain ⟨⟨k, ctx₁⟩, hk, hjump⟩ := Option.bind_eq_some_iff.mp ht
  obtain ⟨ht₁, hpending, hfault⟩ := translates_faultLabel h hk
  have hjump : ctx₁.jump (some k) line = some ctx' := hjump
  obtain ⟨hs', hx, -⟩ := emits_jump ht₁.sound hjump
  have hq := quiet_jump hjump
  obtain ⟨j, hmem, hlabel⟩ := jump_label hjump
  have hk : Awaited ctx' k := ⟨hq.pending k hpending, j, hmem, hlabel⟩
  refine ht₁.trans h.sound (.of_frame hs' hx (.of_quiet hq) (fun p hp ↦ ?_) rfl
    fun _ G hG rest hrest ↦ .trap (hG.stops k hk) (passes_jump ht₁.sound hjump hG) hrest)
  have hp := hp.quiet hq hx
  cases p with
  | clear => exact ⟨hp, k, hk, hq.fault.trans hfault⟩
  | placed | trapped | lost => exact hp

/-! ## Labels -/

/-- A label that a statement is about to define. -/
theorem translates_enterLabel (h : InBody cfg assembly ctx)
    (hoffset : ctx.statementOffset = some offset) (he : ctx.enterLabel s = some (k, ctx')) :
    definedKey assembly offset s = some k ∧ Outer k ∧ Translates cfg ctx [] ctx' := by
  obtain ⟨⟨k', t⟩, hr, hpair⟩ := Option.map_eq_some_iff.mp he
  obtain ⟨rfl, rfl⟩ := Prod.mk.inj hpair
  rw [h.assembly, hoffset] at hr
  unfold statementLabel at hr
  split at hr
  · next value hvalue =>
      obtain ⟨rfl, hlabel, hinternals⟩ := internals_enter hr
      obtain ⟨e, q⟩ := emits_relabel h.sound ctx.statementOffset hlabel hinternals
      refine ⟨definedKey_of_numbered _ _ hvalue, ?_, translates_of_emits e q⟩
      rintro i ⟨⟩
  · next hother =>
      rw [label_eq] at hr
      obtain ⟨key, hkey, henter⟩ := Option.bind_eq_some_iff.mp hr
      obtain ⟨rfl, hlabel, hinternals⟩ := internals_enter henter
      obtain ⟨e, q⟩ := emits_relabel h.sound ctx.statementOffset hlabel hinternals
      exact ⟨(definedKey_of_not_numbered _ _ fun value hvalue ↦ hother value hvalue).trans hkey,
        labelKey_ne_internal hkey, translates_of_emits e q⟩

theorem translates_beginLayer (hs : ctx.Sound cfg) (hb : ctx.beginLayer = some ctx') :
    Translates cfg ctx [] ctx' ∧ ctx'.program.image.slot = 3 ∧ ctx'.labels = ctx.labels := by
  unfold Context.beginLayer at hb
  split at hb
  · exact ⟨translates_of_emits (emits_next hs hb) (quiet_next hb), spot_slot hs hb,
      labels_onProgram hb⟩
  · next hslot =>
      obtain rfl := Option.some.inj hb
      exact ⟨.refl hs, not_not.mp hslot, rfl⟩

/-- A label is defined at the beginning of a layer. -/
theorem translates_define (hs : ctx.Sound cfg) (hslot : ctx.program.image.slot = 3) (hk : Outer k)
    (hundefined : (ctx.labels.label k).defined = false) (hdata : (ctx.labels.label k).data = 0) :
    Translates cfg ctx [.label k] (ctx.defineHere k) := by
  obtain ⟨e, hdefined⟩ := emits_define hs (fun i hi ↦ absurd hi (hk i)) hundefined hdata
  have hpending : ∀ k', Pending ctx k' → Pending (ctx.defineHere k) k' := by
    intro k' hk'
    obtain ⟨i, -, rfl⟩ := hk'.internal
    have hother : (ctx.defineHere k).labels.label (.internal i) = ctx.labels.label (.internal i) :=
      label_defineHere_of_ne fun he ↦ hk i he.symm
    exact ⟨hk'.internal, by rw [hother, hk'.undefined], by rw [hother, hk'.data]⟩
  refine ⟨e.sound, e.extension, hpending, fun k' _ hd ↦ ?_, fun k' ↦ ?_,
    fun hf k' hk' ↦ hpending k' (hf k' hk'), id, fun p hp ↦ ?_, ⟨?_, ?_, ?_⟩,
    fun _ G hG rest hrest ↦ .label (passes_of_emits e hG) ?_ hrest⟩
  · by_cases he : k' = k
    · exact .inr (he ▸ List.mem_singleton_self _)
    · rw [label_defineHere_of_ne he] at hd
      exact .inl hd
  · by_cases he : k' = k
    · rw [he, label_defineHere]
    · rw [label_defineHere_of_ne he]
  · have hp := hp.same hpending e.extension rfl rfl
    cases p <;> exact hp
  · intro k' hk'
    obtain rfl := List.mem_singleton.mp hk'
    exact hundefined
  · intro k' hk'
    obtain rfl := List.mem_singleton.mp hk'
    rw [label_defineHere]
  · exact List.nodup_singleton k
  · rw [LeafImage.target, hdefined.target hG.final, spot_defineHere, Context.spot, hslot]

theorem translates_leafLabel (h : InBody cfg assembly st.ctx)
    (hoffset : st.ctx.statementOffset = some offset) (hr : leafLabel entry s st = .ok st') :
    ∃ k, definedKey assembly offset s = some k ∧ Translates cfg st.ctx [.label k] st'.ctx := by
  unfold leafLabel at hr
  split at hr
  · cases hr
  split at hr
  · cases hr
  next k ctx₁ henter =>
  split at hr
  · cases hr
  next htaken =>
  obtain ⟨ctx₂, hbegin, rfl⟩ := map_eq_ok hr
  have hbegin := orFail_eq_ok hbegin
  obtain ⟨hkey, houter, ht₁⟩ := translates_enterLabel h hoffset henter
  obtain ⟨ht₂, hslot, hlabels⟩ := translates_beginLayer ht₁.sound hbegin
  have ht₁₂ := ht₁.trans h.sound ht₂
  have hundefined : (ctx₂.labels.label k).defined = false := by
    rw [hlabels]
    exact (Bool.or_eq_false_iff.mp (Bool.eq_false_iff.mpr htaken)).1
  exact ⟨k, hkey, ht₁₂.trans h.sound
    (translates_define ht₂.sound hslot houter hundefined ((h.mono ht₁₂).code k))⟩

/-! ## The loop -/

theorem translates_leafOperation (h : InBody cfg assembly st.ctx)
    (hoffset : st.ctx.statementOffset = some offset) (hempty : s ≠ [])
    (hlabel : s.getLast? ≠ some ':') (hdirective : s.head? ≠ some '.')
    (hr : leafOperation s st = .ok st') :
    ∃ l, statementOf assembly offset s = some l ∧ Translates cfg st.ctx l st'.ctx := by
  unfold leafOperation at hr
  unfold statementOf
  rw [if_neg hempty, if_neg hlabel, if_neg hdirective]
  split at hr
  · cases hr
  by_cases htrap : s = "copy.trap".toList
  · rw [if_pos htrap] at hr ⊢
    obtain ⟨ctx', hctx, rfl⟩ := map_eq_ok hr
    exact ⟨_, rfl, translates_trap h (orFail_eq_ok hctx)⟩
  rw [if_neg htrap] at hr ⊢
  by_cases hret : s = "copy.ret".toList
  · rw [if_pos hret] at hr ⊢
    obtain ⟨ctx', hctx, rfl⟩ := map_eq_ok hr
    exact ⟨_, rfl, translates_ret h.sound (orFail_eq_ok hctx)⟩
  rw [if_neg hret] at hr ⊢
  by_cases hbranch : "copy.branch.".toList.isPrefixOf s
  · rw [if_pos hbranch] at hr ⊢
    obtain ⟨ctx', hctx, rfl⟩ := map_eq_ok hr
    obtain ⟨b, hb, ht⟩ := translates_branch h.toInLeaf h.assembly hoffset hctx
    exact ⟨[b], by rw [hb, Option.map_some], ht⟩
  rw [if_neg hbranch] at hr ⊢
  by_cases hjump : begins "copy.jmpa" s
  · rw [if_pos hjump] at hr ⊢
    obtain ⟨ctx', hctx, rfl⟩ := map_eq_ok hr
    obtain ⟨k, hk, ht⟩ := translates_jumpTo h.toInLeaf h.assembly hoffset hctx
    exact ⟨[.jump k], by rw [hk, Option.map_some], ht⟩
  rw [if_neg hjump] at hr ⊢
  obtain ⟨ctx', hctx, rfl⟩ := map_eq_ok hr
  obtain ⟨o, ho, himplements, hframe⟩ := implements_instruction h.toInLeaf hctx
  exact ⟨[.operation o], by rw [ho, Option.map_some], translates_operation himplements hframe⟩

theorem translates_leafBare (h : InBody cfg assembly st.ctx)
    (hoffset : st.ctx.statementOffset = some offset) (hr : leafBare entry s st = .ok st') :
    ∃ l, statementOf assembly offset s = some l ∧ Translates cfg st.ctx l st'.ctx := by
  unfold leafBare at hr
  by_cases hempty : s = []
  · rw [if_pos hempty] at hr
    cases hr
    exact ⟨[], by rw [statementOf, if_pos hempty], .refl h.sound⟩
  rw [if_neg hempty] at hr
  by_cases hlabel : s.getLast? = some ':'
  · rw [if_pos hlabel] at hr
    obtain ⟨k, hk, ht⟩ := translates_leafLabel h hoffset hr
    exact ⟨[.label k], by rw [statementOf, if_neg hempty, if_pos hlabel, hk, Option.map_some], ht⟩
  rw [if_neg hlabel] at hr
  by_cases hdirective : s.head? = some '.'
  · rw [if_pos hdirective] at hr
    split at hr
    · cases hr
      exact ⟨[], by rw [statementOf, if_neg hempty, if_neg hlabel, if_pos hdirective],
        .refl h.sound⟩
    · cases hr
  rw [if_neg hdirective] at hr
  exact translates_leafOperation h hoffset hempty hlabel hdirective hr

/-- One round of the loop. -/
theorem translates_leafStatement {span : StatementSpan} (h : InBody cfg assembly st.ctx)
    (hr : leafStatement entry st span = .ok st') :
    ∃ l, statementOf assembly span.offset (bare (span.text assembly)) = some l ∧
      Translates cfg st.ctx l st'.ctx := by
  unfold leafStatement at hr
  have hr := mapError_eq_ok hr
  rw [h.assembly] at hr
  obtain ⟨e, q⟩ := emits_relabel (t := st.ctx.labels) h.sound (some span.offset) rfl rfl
  have hat : Translates cfg st.ctx [] (st.at span).ctx := translates_of_emits e q
  obtain ⟨l, hl, ht⟩ := translates_leafBare (h.mono hat) rfl hr
  exact ⟨l, hl, hat.trans h.sound ht⟩

/-- The loop over the statements. -/
theorem translates_statements {spans : List StatementSpan} (h : InBody cfg assembly st.ctx)
    (hr : spans.foldlM (leafStatement entry) st = .ok st') :
    ∃ l, programFrom assembly spans = some l ∧ Translates cfg st.ctx l st'.ctx := by
  induction spans generalizing st with
  | nil =>
      cases hr
      exact ⟨[], rfl, .refl h.sound⟩
  | cons span spans ih =>
      rw [List.foldlM_cons] at hr
      obtain ⟨st₁, hfirst, hrest⟩ := bind_eq_ok hr
      obtain ⟨l, hl, ht⟩ := translates_leafStatement h hfirst
      obtain ⟨l', hl', ht'⟩ := ih (h.mono ht) hrest
      refine ⟨l ++ l', ?_, ht.trans h.sound ht'⟩
      rw [programFrom, hl, hl']
      rfl

end CopySpace.Target
