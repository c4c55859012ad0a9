import CopySpace.Space.Bitwise
import CopySpace.Lib.Lockstep

/-!
# `space_run`: segments of a run

`space_run` calls `space_step` until the processor is idle, a step fails, or the number of
ticks reaches a limit.  A run may be cut at the limit, and continued in the same process or,
from a dump of the space, in another one.

What makes this work is that the array `space` and the streams are the whole state
(`Machine.Resumes`): the decoded rows in `processor` are fetched anew before they are used.
This is a statement about running one program twice, and it is proved in lockstep, with no
assumption on the configuration.
-/

namespace CopySpace

/-! ## The loop -/

inductive SpaceStop where
  | idle
  | limit
  | error
deriving DecidableEq

structure SpaceResult where
  ticks : Nat
  reason : SpaceStop
deriving DecidableEq

/-- `UINT64_MAX`. -/
def uint64Max : Nat := 2 ^ 64 - 1

section Loop

variable {φ : Type} (cfg : Config) (dev : Device φ)

/-- The loop of `space_run`, after `ticks` ticks; `none` when `fuel` steps do not end it. -/
def spaceRunFrom (limit : Option Nat) : Nat → Nat → VM φ (Option SpaceResult)
  | 0, _ => pure none
  | fuel + 1, ticks =>
      if limit = some ticks then do
        let active ← spaceActive cfg
        pure (some ⟨ticks, if active then .limit else .idle⟩)
      else do
        let step ← spaceStep cfg dev
        match step with
        | .idle => pure (some ⟨ticks, .idle⟩)
        | .error => pure (some ⟨ticks, .error⟩)
        | .done => spaceRunFrom limit fuel (if ticks ≠ uint64Max then ticks + 1 else ticks)

def spaceRun (limit : Option Nat) (fuel : Nat) : VM φ (Option SpaceResult) := do
  let result ← spaceRunFrom cfg dev limit fuel 0
  spaceReadProcessor cfg
  pure result

/-- The run from `σ` ends, with this result and in this state. -/
def Runs (limit : Option Nat) (σ : Machine φ) (result : SpaceResult) (σ' : Machine φ) : Prop :=
  ∃ fuel, spaceRun cfg dev limit fuel σ = some (some result, σ')

end Loop

/-! ## The programs of `space.c` depend on the space alone -/

section Space

theorem dependsOn_getArgument (src n : Nat) :
    DependsOn Obj.space (getArgument Obj.space src n) := by
  have hbits : ∀ n, DependsOn Obj.space (getArgumentBits Obj.space src n) := by
    intro n
    induction n with
    | zero => exact .pure _
    | succ n ih => exact ih.bind fun _ ↦ (DependsOn.loadByte _ _).bind fun _ ↦ .pure _
  refine (DependsOn.sizeofObj _).bind fun _ ↦ .ite (hbits n) ?_
  refine .bind ?_ fun _ ↦ .ite ((DependsOn.loadByte _ _).bind fun _ ↦ .pure _) (.pure _)
  exact (DependsOn.loadByte _ _).bind fun _ ↦ (DependsOn.loadByte _ _).bind fun _ ↦
    (DependsOn.loadByte _ _).bind fun _ ↦ (DependsOn.loadByte _ _).bind fun _ ↦ .pure _

variable {ι : Type} [DecidableEq ι] (o : ι)

theorem dependsOn_bitSetPtr (bitpos : Nat) (v : Byte) : DependsOn o (bitSetPtr o bitpos v) :=
  (DependsOn.loadByte o _).bind fun _ ↦ DependsOn.storeByte o _ _

theorem dependsOn_writeFieldBits (a v w : Nat) : DependsOn o (writeFieldBits o a v w) :=
  .forUp (fun _ ↦ dependsOn_bitSetPtr o _ _) w

theorem dependsOn_bitcpyOverlapFallback (n s d : Nat) :
    DependsOn o (bitcpyOverlapFallback n o s o d) := by
  have hmove : ∀ i, DependsOn o (do
      let v ← bitGetPtr o (s + i)
      bitSetPtr o (d + i) v) := fun i ↦
    ((DependsOn.loadByte o _).bind fun _ ↦ .pure _).bind fun _ ↦ dependsOn_bitSetPtr o _ _
  exact .ite (.forUp hmove n) (.forDown hmove n)

theorem dependsOn_bitcpyAligned (n s d : Nat) : DependsOn o (bitcpyAligned n o s o d) :=
  (Same.doIf (DependsOn.memmove o _ _ _)).bind fun _ ↦ .doIf <|
    (DependsOn.loadByte o _).bind fun _ ↦ (DependsOn.loadByte o _).bind fun _ ↦
      DependsOn.storeByte o _ _

theorem dependsOn_bitcpySameOffset (n s d m : Nat) :
    DependsOn o (bitcpySameOffset n o s o d m) := by
  refine .ite (.bind ?_ fun _ ↦ dependsOn_bitcpyAligned o _ _ _) (dependsOn_bitcpyAligned o _ _ _)
  exact (DependsOn.loadByte o _).bind fun _ ↦ (DependsOn.loadByte o _).bind fun _ ↦
    DependsOn.storeByte o _ _

theorem dependsOn_bitcpyBytes (m s d sb db n : Nat) :
    DependsOn o (bitcpyBytes o o m s d sb db n) := by
  induction n using Nat.strong_induction_on generalizing s d sb db with
  | _ n ih =>
    unfold bitcpyBytes
    split
    · refine .bind ?_ fun _ ↦ (DependsOn.storeByte o _ _).bind fun _ ↦ ih (n - 8) (by omega) _ _ _ _
      exact (DependsOn.loadByte o _).bind fun _ ↦
        .ite ((DependsOn.loadByte o _).bind fun _ ↦ .pure _) (.pure _)
    · exact .pure _

theorem dependsOn_bitcpy (n s d : Nat) : DependsOn o (bitcpy n o s o d) := by
  have hshift : DependsOn o (bitcpyShifted n o s o d) :=
    (Same.doIf (dependsOn_bitcpyOverlapFallback o _ _ _)).bind fun _ ↦
      (dependsOn_bitcpyBytes o _ _ _ _ _ _).bind fun _ ↦
        .doIf (dependsOn_bitcpyOverlapFallback o _ _ _)
  exact .ite (.pure _) <| .ite (.pure _) <| .ite (dependsOn_bitcpyOverlapFallback o _ _ _) <|
    .ite (dependsOn_bitcpyOverlapFallback o _ _ _) <| .ite (dependsOn_bitcpyAligned o _ _ _) <|
    .ite (dependsOn_bitcpySameOffset o _ _ _ _) hshift

end Space

/-! ## Resuming -/

/-- Two machines from which a run goes on in the same way: the same space, the same input
stream, output streams related by `O`, and the same decoded rows where `P` says. -/
structure Machine.Resumes {φ : Type} (O : φ → φ → Prop) (P : Nat → Prop) (σ τ : Machine φ) :
    Prop where
  space : σ.heap.obj .space = τ.heap.obj .space
  inp : σ.inp = τ.inp
  out : O σ.out τ.out
  processor : ∀ i, P i → σ.processor i = τ.processor i

/-- Writing to related streams gives the same answer and related streams. -/
def Device.RespectsOut {φ : Type} (dev : Device φ) (O : φ → φ → Prop) : Prop :=
  ∀ f g bs, O f g → (dev.fwrite f bs).1 = (dev.fwrite g bs).1 ∧
    (dev.fwrite f bs).2.1 = (dev.fwrite g bs).2.1 ∧
    O (dev.fwrite f bs).2.2 (dev.fwrite g bs).2.2

section Resume

open Machine

variable {φ α : Type} {O : φ → φ → Prop} {P : Nat → Prop} {cfg : Config} {dev : Device φ}

theorem same_heap {x : CM Obj α} (hx : DependsOn .space x) :
    Same (Resumes O P) (VM.heap x) (Resumes O P) := by
  intro σ τ hr
  have h := hx σ.heap τ.heap hr.space
  unfold VM.heap
  generalize x σ.heap = u at h ⊢
  generalize x τ.heap = v at h ⊢
  cases h with
  | none => exact .none
  | some hab => exact .some ⟨hab.1, hab.2, hr.inp, hr.out, hr.processor⟩

theorem same_addressed (a n : Nat) : Same (Resumes O P) (VM.addressed a n) (Resumes O P) :=
  fun _ _ hr ↦ .some ⟨rfl, hr.space, hr.inp, hr.out, hr.processor⟩

theorem same_observe (e : SpaceEvent) : Same (Resumes O P) (VM.observe e) (Resumes O P) :=
  fun _ _ hr ↦ .some ⟨rfl, hr.space, hr.inp, hr.out, hr.processor⟩

theorem same_processor {i : Nat} (hi : P i) :
    Same (Resumes O P) (VM.processor i) (Resumes O P) :=
  fun _ _ hr ↦ .some ⟨hr.processor i hi, hr⟩

theorem same_fetchField (i a : Nat) : Same (Resumes O P) (fetchField cfg i a) (Resumes O P) :=
  (same_addressed _ _).bind fun _ ↦ same_heap (dependsOn_getArgument _ _)

/-- After a row has been fetched, both machines hold it. -/
theorem same_fetchInstruction (i : Nat) :
    Same (Resumes O P) (fetchInstruction cfg i) (Resumes O fun j ↦ P j ∨ j = i) := by
  refine (same_fetchField i 0).bind fun n ↦ (same_fetchField i 1).bind fun d ↦
    (same_fetchField i 2).bind fun s ↦ fun σ τ hr ↦
    .some ⟨rfl, hr.space, hr.inp, hr.out, fun j hj ↦ ?_⟩
  by_cases hji : j = i
  · simp [hji]
  · simpa [hji] using hr.processor j (hj.resolve_right hji)

theorem same_spaceReadProcessor :
    Same (Resumes O P) (spaceReadProcessor cfg) (Resumes O (· < cfg.processorN)) := by
  unfold spaceReadProcessor
  generalize cfg.processorN = n
  induction n with
  | zero =>
      exact (Same.pure ()).imp fun _ _ hr ↦
        ⟨hr.space, hr.inp, hr.out, fun j hj ↦ absurd hj (Nat.not_lt_zero j)⟩
  | succ n ih =>
      refine ih.bind fun _ ↦ (same_fetchInstruction n).imp fun _ _ hr ↦
        ⟨hr.space, hr.inp, hr.out, fun j hj ↦ hr.processor j ?_⟩
      rcases Nat.lt_succ_iff_lt_or_eq.mp hj with h | h
      · exact .inl h
      · exact .inr h

theorem same_computationFrom (k i : Nat) :
    Same (Resumes O P) (computationFrom cfg k i) (Resumes O P) := by
  induction k generalizing i with
  | zero => exact .pure _
  | succ k ih =>
      unfold computationFrom
      refine .ite (ih _) ((same_fetchInstruction i).bind fun _ ↦
        (same_processor (.inr rfl)).bind fun row ↦ ?_)
      have hdrop : ∀ {β : Type} {x : VM φ β}, Same (Resumes O P) x (Resumes O P) →
          Same (Resumes O fun j ↦ P j ∨ j = i) x (Resumes O P) := fun hx ↦
        hx.pre fun _ _ hr ↦ ⟨hr.space, hr.inp, hr.out, fun j hj ↦ hr.processor j (.inl hj)⟩
      refine hdrop (.ite (ih _) ((same_observe _).bind fun _ ↦ .ite (.pure _) ?_))
      exact (same_addressed _ _).bind fun _ ↦ (same_addressed _ _).bind fun _ ↦
        (same_heap (dependsOn_bitcpy Obj.space _ _ _)).bind fun _ ↦ ih _

variable (hO : dev.RespectsOut O)

include hO

theorem same_transfer (output : Bool) (a n : Nat) :
    Same (Resumes O P) (transfer dev output a n) (Resumes O P) := by
  cases output with
  | false =>
      have hget : Same (Resumes O P) (stream false) (Resumes O P) :=
        fun _ _ hr ↦ .some ⟨hr.inp, hr⟩
      have hset : ∀ f, Same (Resumes O P) (setStream false f) (Resumes O P) :=
        fun _ _ _ hr ↦ .some ⟨rfl, hr.space, rfl, hr.out, hr.processor⟩
      exact hget.bind fun f ↦ (same_addressed _ _).bind fun _ ↦
        (same_heap (DependsOn.storeBytes _ _ _)).bind fun _ ↦ (hset _).bind fun _ ↦ .pure _
  | true =>
      -- the streams differ, so the two runs continue with different values
      refine Lockstep.bind (S := fun f g s t ↦ O f g ∧ Resumes O P s t)
        (fun _ _ hr ↦ .some ⟨hr.out, hr⟩) fun f g ↦ ?_
      refine Lockstep.bind (S := fun _ _ s t ↦ O f g ∧ Resumes O P s t)
        (fun _ _ hr ↦ .some ⟨hr.1, hr.2.space, hr.2.inp, hr.2.out, hr.2.processor⟩) fun _ _ ↦ ?_
      refine Lockstep.bind (S := fun bs cs s t ↦ bs = cs ∧ O f g ∧ Resumes O P s t)
        (fun σ τ ⟨hfg, hr⟩ ↦ ?_) fun bs cs ↦ ?_
      · have hload : Same (Resumes O P) (VM.heap (loadBytes Obj.space (a / 8) (n / 8)))
            fun s t ↦ O f g ∧ Resumes O P s t :=
          (same_heap (DependsOn.loadBytes _ _ _)).imp fun _ _ hab ↦ ⟨hfg, hab⟩
        exact hload σ τ hr
      · rintro σ τ ⟨rfl, hfg, hr⟩
        obtain ⟨h₁, h₂, h₃⟩ := hO f g bs hfg
        exact .some ⟨by rw [h₁, h₂], hr.space, hr.inp, h₃, hr.processor⟩

theorem same_channel {slot : Nat} (hs : P slot) (output : Bool) :
    Same (Resumes O P) (channel cfg dev slot output) (Resumes O P) := by
  refine (same_processor hs).bind fun row ↦ .ite (.pure _) (.bind ?_ fun r ↦
    (same_addressed _ _).bind fun _ ↦
      (same_heap (dependsOn_writeFieldBits _ _ _ _)).bind fun _ ↦ same_observe _)
  exact .ite (.pure _) ((same_transfer hO _ _ _).bind fun _ ↦ .pure _)

omit hO in
theorem anyActive_congr {σ τ : Machine φ} {n : Nat}
    (h : ∀ i < n, σ.processor i = τ.processor i) : anyActive σ n = anyActive τ n := by
  induction n with
  | zero => rfl
  | succ n ih => simp only [anyActive, h n n.lt_succ_self, ih fun i hi ↦ h i (by omega)]

omit hO in
theorem Machine.Resumes.mono {Q : Nat → Prop} {σ τ : Machine φ} (hr : Resumes O P σ τ)
    (hQ : ∀ i, Q i → P i) : Resumes O Q σ τ :=
  ⟨hr.space, hr.inp, hr.out, fun i hi ↦ hr.processor i (hQ i hi)⟩

omit hO in
theorem same_spaceActive :
    Same (Resumes O fun _ ↦ False) (spaceActive cfg) (Resumes O fun _ ↦ False) := by
  refine same_spaceReadProcessor.bind fun _ ↦ fun σ τ hr ↦
    .some ⟨anyActive_congr fun i hi ↦ hr.processor i hi, hr.mono fun _ ↦ False.elim⟩

theorem same_spaceStep :
    Same (Resumes O fun _ ↦ False) (spaceStep cfg dev) (Resumes O fun _ ↦ False) := by
  refine same_spaceActive.bind fun active ↦ .ite (.pure _) (.bind ?_ fun _ ↦
    (same_computationFrom _ _).bind fun _ ↦ .pure _)
  refine (same_fetchInstruction 2).bind fun _ ↦ (same_fetchInstruction 1).bind fun _ ↦ ?_
  refine .bind (same_channel hO (.inl (.inr rfl)) true) fun _ ↦
    (same_channel hO (.inr rfl) false).imp fun _ _ hr ↦ hr.mono fun _ ↦ False.elim

end Resume

/-! ## Activity checks change nothing but the cache -/

/-- The space and the streams are unchanged. -/
def Machine.Kept {φ : Type} (σ σ' : Machine φ) : Prop :=
  σ.heap.obj .space = σ'.heap.obj .space ∧ σ.inp = σ'.inp ∧ σ.out = σ'.out

instance {φ : Type} : Std.Refl (@Machine.Kept φ) := ⟨fun _ ↦ ⟨rfl, rfl, rfl⟩⟩

instance {φ : Type} : IsTrans (Machine φ) Machine.Kept :=
  ⟨fun _ _ _ h₁ h₂ ↦ ⟨h₁.1.trans h₂.1, h₁.2.1.trans h₂.2.1, h₁.2.2.trans h₂.2.2⟩⟩

instance {o : Obj} : Std.Refl (SameObj o) := ⟨fun _ ↦ rfl⟩

instance {o : Obj} : IsTrans (Heap Obj) (SameObj o) := ⟨fun _ _ _ ↦ Eq.trans⟩

theorem moves_getArgument (src n : Nat) :
    Moves (SameObj .space) (getArgument Obj.space src n) := by
  have hload : ∀ i, Moves (SameObj .space) (loadByte Obj.space i) := by
    intro i h b h' e
    unfold loadByte at e
    split at e
    · cases e; rfl
    · cases e
  have hbits : ∀ n, Moves (SameObj .space) (getArgumentBits Obj.space src n) := by
    intro n
    induction n with
    | zero => exact .pure _
    | succ n ih => exact ih.bind fun _ ↦ (hload _).bind fun _ ↦ .pure _
  refine .bind (.modify (f := id) fun _ ↦ rfl) fun _ ↦ .ite (hbits n) (.bind ?_ fun _ ↦
    .ite ((hload _).bind fun _ ↦ .pure _) (.pure _))
  exact (hload _).bind fun _ ↦ (hload _).bind fun _ ↦ (hload _).bind fun _ ↦
    (hload _).bind fun _ ↦ .pure _

section Kept

variable {φ : Type} {cfg : Config}

theorem kept_addressed (a n : Nat) : Moves Machine.Kept (VM.addressed a n : VM φ Unit) := by
  rintro σ _ σ' h
  cases h
  exact ⟨rfl, rfl, rfl⟩

theorem kept_setProcessor (i : Nat) (row : Instruction) :
    Moves Machine.Kept (VM.setProcessor i row : VM φ Unit) := by
  rintro σ _ σ' h
  cases h
  exact ⟨rfl, rfl, rfl⟩

theorem kept_fetchField (i a : Nat) : Moves Machine.Kept (fetchField cfg i a : VM φ Nat) := by
  refine (kept_addressed _ _).bind fun _ ↦ ?_
  intro σ v σ' h
  simp only [VM.heap, Option.map_eq_some_iff, Prod.mk.injEq] at h
  obtain ⟨r, hr, -, rfl⟩ := h
  exact ⟨moves_getArgument _ _ _ _ _ hr, rfl, rfl⟩

theorem kept_spaceReadProcessor : Moves Machine.Kept (spaceReadProcessor cfg : VM φ Unit) :=
  .forUp (fun i ↦ (kept_fetchField i 0).bind fun _ ↦ (kept_fetchField i 1).bind fun _ ↦
    (kept_fetchField i 2).bind fun _ ↦ kept_setProcessor i _) _

theorem kept_spaceActive : Moves Machine.Kept (spaceActive cfg : VM φ Bool) :=
  kept_spaceReadProcessor.bind fun _ ↦ .modify (f := id) fun _ ↦ ⟨rfl, rfl, rfl⟩

theorem Machine.Kept.resumes {σ σ' : Machine φ} (h : σ.Kept σ') :
    Machine.Resumes Eq (fun _ ↦ False) σ σ' := ⟨h.1, h.2.1, h.2.2, fun _ ↦ False.elim⟩

end Kept

/-! ## Cutting a run -/

section Cut

open Machine

variable {φ : Type} {cfg : Config} {dev : Device φ}

theorem Device.respectsOut_eq (dev : Device φ) : dev.RespectsOut Eq := by
  rintro f _ bs rfl
  exact ⟨rfl, rfl, rfl⟩

/-- What the loop does next. -/
theorem spaceRunFrom_succ_eq_some {limit : Option Nat} {fuel ticks : Nat} {σ σ' : Machine φ}
    {r : Option SpaceResult} :
    spaceRunFrom cfg dev limit (fuel + 1) ticks σ = some (r, σ') ↔
      (limit = some ticks ∧ ∃ active, spaceActive cfg σ = some (active, σ') ∧
        r = some ⟨ticks, if active then .limit else .idle⟩) ∨
      (limit ≠ some ticks ∧ spaceStep cfg dev σ = some (.idle, σ') ∧ r = some ⟨ticks, .idle⟩) ∨
      (limit ≠ some ticks ∧ spaceStep cfg dev σ = some (.error, σ') ∧ r = some ⟨ticks, .error⟩) ∨
      (limit ≠ some ticks ∧ ∃ σ₁, spaceStep cfg dev σ = some (.done, σ₁) ∧
        spaceRunFrom cfg dev limit fuel (if ticks ≠ uint64Max then ticks + 1 else ticks) σ₁ =
          some (r, σ')) := by
  rw [spaceRunFrom]
  by_cases hl : limit = some ticks
  · rw [if_pos hl]
    simp only [bind_eq_some, pure_eq_some, Prod.mk.injEq]
    constructor
    · rintro ⟨active, _, ha, rfl, rfl⟩
      exact .inl ⟨hl, active, ha, rfl⟩
    · rintro (⟨-, active, ha, rfl⟩ | h | h | h)
      · exact ⟨active, σ', ha, rfl, rfl⟩
      all_goals exact absurd hl h.1
  · rw [if_neg hl, bind_eq_some]
    constructor
    · rintro ⟨step, σ₁, hs, h⟩
      cases step with
      | idle =>
          obtain ⟨rfl, rfl⟩ := Prod.mk.inj (pure_eq_some.mp h)
          exact .inr (.inl ⟨hl, hs, rfl⟩)
      | error =>
          obtain ⟨rfl, rfl⟩ := Prod.mk.inj (pure_eq_some.mp h)
          exact .inr (.inr (.inl ⟨hl, hs, rfl⟩))
      | done => exact .inr (.inr (.inr ⟨hl, σ₁, hs, h⟩))
    · rintro (h | ⟨-, hs, rfl⟩ | ⟨-, hs, rfl⟩ | ⟨-, σ₁, hs, h⟩)
      · exact absurd h.1 hl
      · exact ⟨.idle, σ', hs, rfl⟩
      · exact ⟨.error, σ', hs, rfl⟩
      · exact ⟨.done, σ₁, hs, h⟩

theorem spaceRunFrom_zero_ne {limit : Option Nat} {ticks : Nat} {σ σ' : Machine φ}
    {r : SpaceResult} : spaceRunFrom cfg dev limit 0 ticks σ ≠ some (some r, σ') := by
  intro h
  have hpair : (none, σ) = (some r, σ') := Option.some.inj h
  cases hpair

/-- A run that has ended is not changed by more fuel. -/
theorem spaceRunFrom_add {limit : Option Nat} {fuel ticks : Nat} {σ σ' : Machine φ}
    {r : SpaceResult} (h : spaceRunFrom cfg dev limit fuel ticks σ = some (some r, σ')) (k : Nat) :
    spaceRunFrom cfg dev limit (fuel + k) ticks σ = some (some r, σ') := by
  induction fuel generalizing ticks σ with
  | zero => exact absurd h spaceRunFrom_zero_ne
  | succ fuel ih =>
      rw [Nat.succ_add, spaceRunFrom_succ_eq_some]
      rcases spaceRunFrom_succ_eq_some.mp h with h | h | h | ⟨hl, σ₁, hs, h⟩
      · exact .inl h
      · exact .inr (.inl h)
      · exact .inr (.inr (.inl h))
      · exact .inr (.inr (.inr ⟨hl, σ₁, hs, ih h⟩))

/-- The loop does not see more of the machine than what a resumed run has. -/
theorem same_spaceRunFrom {O : φ → φ → Prop} (hO : dev.RespectsOut O) (limit : Option Nat)
    (fuel ticks : Nat) : Same (Resumes O fun _ ↦ False)
      (spaceRunFrom cfg dev limit fuel ticks) (Resumes O fun _ ↦ False) := by
  induction fuel generalizing ticks with
  | zero => exact .pure _
  | succ fuel ih =>
      unfold spaceRunFrom
      refine .ite (same_spaceActive.bind fun _ ↦ .pure _) ((same_spaceStep hO).bind fun step ↦ ?_)
      cases step with
      | idle => exact .pure _
      | error => exact .pure _
      | done => exact ih _

/-- Two runs that differ in the count of ticks only, from machines that resume each other. -/
theorem lockstep_shift (cfg : Config) {O : φ → φ → Prop} (hO : dev.RespectsOut O) {a b : Nat}
    (hab : a + b < uint64Max) (fuel : Nat) {ticks : Nat} (ht : ticks ≤ b) :
    Lockstep (Resumes O fun _ ↦ False) (spaceRunFrom cfg dev (some (a + b)) fuel (a + ticks))
      (spaceRunFrom cfg dev (some b) fuel ticks)
      fun r q s t ↦ r = q.map (fun q ↦ ⟨a + q.ticks, q.reason⟩) ∧
        Resumes O (fun _ ↦ False) s t := by
  induction fuel generalizing ticks with
  | zero => exact .pure fun _ _ hr ↦ ⟨rfl, hr⟩
  | succ fuel ih =>
      unfold spaceRunFrom
      by_cases hb : b = ticks
      · rw [if_pos (by rw [hb]), if_pos (by rw [hb])]
        refine .bind same_spaceActive fun x y ↦ ?_
        rintro s t ⟨rfl, hr⟩
        exact .some ⟨rfl, hr⟩
      · rw [if_neg (show ¬ some (a + b) = some (a + ticks) by simpa using hb),
          if_neg (show ¬ some b = some ticks by simpa using hb)]
        refine .bind (same_spaceStep hO) fun x y ↦ ?_
        rintro s t ⟨rfl, hr⟩
        cases x with
        | idle => exact .some ⟨rfl, hr⟩
        | error => exact .some ⟨rfl, hr⟩
        | done =>
            dsimp only
            rw [if_pos (by omega), if_pos (by omega), Nat.add_assoc]
            exact ih (by omega) s t hr

/-- The run up to the limit `a` and the run to `a + b` are the same as long as the limit `a`
has not been reached; when it is, the second goes on from there. -/
theorem exists_cut {a b : Nat} (hab : a + b < uint64Max) {fuel ticks : Nat} (ht : ticks ≤ a)
    {σ σ₁ : Machine φ} {t : Nat}
    (h : spaceRunFrom cfg dev (some a) fuel ticks σ = some (some ⟨t, .limit⟩, σ₁)) :
    t = a ∧ ∀ k, Lockstep (fun s t ↦ s = σ ∧ t = σ₁)
      (spaceRunFrom cfg dev (some (a + b)) (a - ticks + k) ticks)
      (spaceRunFrom cfg dev (some (a + b)) k a)
      fun r q s t ↦ r = q ∧ Resumes Eq (fun _ ↦ False) s t := by
  induction fuel generalizing ticks σ with
  | zero => exact absurd h spaceRunFrom_zero_ne
  | succ fuel ih =>
      rcases spaceRunFrom_succ_eq_some.mp h with
        ⟨ha, active, hact, hr⟩ | ⟨_, _, hr⟩ | ⟨_, _, hr⟩ | ⟨hl, σ₂, hs, h⟩
      · obtain rfl : a = ticks := Option.some.inj ha
        obtain rfl : t = a := congrArg SpaceResult.ticks (Option.some.inj hr)
        refine ⟨rfl, fun k ↦ ?_⟩
        rintro _ _ ⟨rfl, rfl⟩
        rw [Nat.sub_self, Nat.zero_add]
        exact same_spaceRunFrom dev.respectsOut_eq _ _ _ _ _ (kept_spaceActive _ _ _ hact).resumes
      · cases hr
      · cases hr
      · have hne : a ≠ ticks := fun hc ↦ hl (congrArg some hc)
        rw [if_pos (by omega)] at h
        obtain ⟨rfl, hk⟩ := ih (by omega) h
        refine ⟨rfl, fun k ↦ ?_⟩
        rintro _ _ ⟨rfl, rfl⟩
        rw [show t - ticks + k = (t - (ticks + 1) + k) + 1 by omega, spaceRunFrom,
          if_neg (show ¬ some (t + b) = some ticks by simp; omega)]
        simp only [Bind.bind, StateT.bind, hs, Option.bind_some]
        rw [if_pos (by omega)]
        exact hk k _ _ ⟨rfl, rfl⟩

/-- A step is idle exactly when the processor is inactive. -/
theorem spaceStep_eq_idle {σ σ' : Machine φ} :
    spaceStep cfg dev σ = some (.idle, σ') ↔ spaceActive cfg σ = some (false, σ') := by
  unfold spaceStep
  rw [bind_eq_some]
  constructor
  · rintro ⟨active, σ₁, hact, h⟩
    cases active with
    | false =>
        obtain ⟨-, rfl⟩ := Prod.mk.inj (pure_eq_some.mp (by simpa using h))
        exact hact
    | true =>
        -- the step went on, so it did not return idle
        rw [if_neg (by decide)] at h
        obtain ⟨_, _, _, h⟩ := bind_eq_some.mp h
        obtain ⟨r, _, _, h⟩ := bind_eq_some.mp h
        have := congrArg Prod.fst (pure_eq_some.mp h)
        dsimp only at this
        split at this <;> cases this
  · exact fun hact ↦ ⟨false, σ', hact, rfl⟩

/-- A run that stops idle has just seen an inactive processor. -/
theorem exists_inactive {limit : Option Nat} {fuel ticks : Nat} {σ σ₁ : Machine φ} {t : Nat}
    (h : spaceRunFrom cfg dev limit fuel ticks σ = some (some ⟨t, .idle⟩, σ₁)) :
    ∃ σ₀, spaceActive cfg σ₀ = some (false, σ₁) := by
  induction fuel generalizing ticks σ with
  | zero => exact absurd h spaceRunFrom_zero_ne
  | succ fuel ih =>
      rcases spaceRunFrom_succ_eq_some.mp h with
        ⟨_, active, hact, hr⟩ | ⟨_, hs, _⟩ | ⟨_, _, hr⟩ | ⟨_, σ₂, _, h⟩
      · cases active with
        | false => exact ⟨σ, hact⟩
        | true => cases hr
      · exact ⟨σ, spaceStep_eq_idle.mp hs⟩
      · cases hr
      · exact ih h

/-- From an inactive processor a run of any length ends at once. -/
theorem spaceRunFrom_inactive {limit : Option Nat} {fuel ticks : Nat} {τ τ' : Machine φ}
    (h : spaceActive cfg τ = some (false, τ')) :
    spaceRunFrom cfg dev limit (fuel + 1) ticks τ = some (some ⟨ticks, .idle⟩, τ') := by
  rw [spaceRunFrom_succ_eq_some]
  by_cases hl : limit = some ticks
  · exact .inl ⟨hl, false, h, rfl⟩
  · exact .inr (.inl ⟨hl, spaceStep_eq_idle.mpr h, rfl⟩)

/-- A run is its loop, and a last reading of the rows. -/
theorem runs_iff {limit : Option Nat} {σ σ' : Machine φ} {r : SpaceResult} :
    Runs cfg dev limit σ r σ' ↔ ∃ fuel σ₁,
      spaceRunFrom cfg dev limit fuel 0 σ = some (some r, σ₁) ∧
        spaceReadProcessor cfg σ₁ = some ((), σ') := by
  unfold Runs spaceRun
  simp only [bind_eq_some, pure_eq_some, Prod.mk.injEq]
  constructor
  · rintro ⟨fuel, _, σ₁, h, _, _, h', rfl, rfl⟩
    exact ⟨fuel, σ₁, h, h'⟩
  · rintro ⟨fuel, σ₁, h, h'⟩
    exact ⟨fuel, some r, σ₁, h, (), σ', h', rfl, rfl⟩

theorem Machine.Resumes.of_eq {O : φ → φ → Prop} {σ₁ σ₂ σ₃ : Machine φ}
    (h₁ : Resumes Eq (fun _ ↦ False) σ₁ σ₂) (h₂ : Resumes O (fun _ ↦ False) σ₂ σ₃) :
    Resumes O (fun _ ↦ False) σ₁ σ₃ :=
  ⟨h₁.space.trans h₂.space, h₁.inp.trans h₂.inp, h₁.out ▸ h₂.out, fun _ ↦ False.elim⟩

/-- After a segment that stopped at its limit, the next segment and the whole run stop
together: in the same way, with ticks that add up, and in states that resume each other. -/
theorem Runs.segment {O : φ → φ → Prop} (hO : dev.RespectsOut O) {a b t : Nat}
    (hab : a + b < uint64Max) {σ σ₁ τ : Machine φ}
    (h : Runs cfg dev (some a) σ ⟨t, .limit⟩ σ₁) (hτ : Resumes O (fun _ ↦ False) σ₁ τ) :
    t = a ∧
    (∀ r₂ σ₂, Runs cfg dev (some b) τ r₂ σ₂ → ∃ σ',
      Runs cfg dev (some (a + b)) σ ⟨a + r₂.ticks, r₂.reason⟩ σ' ∧
        Resumes O (fun _ ↦ False) σ' σ₂) ∧
    ∀ r σ', Runs cfg dev (some (a + b)) σ r σ' → ∃ r₂ σ₂,
      Runs cfg dev (some b) τ r₂ σ₂ ∧ r = ⟨a + r₂.ticks, r₂.reason⟩ ∧
        Resumes O (fun _ ↦ False) σ' σ₂ := by
  obtain ⟨fuel, σ₀, h, hread⟩ := runs_iff.mp h
  obtain ⟨rfl, hcut⟩ := exists_cut hab (Nat.zero_le a) h
  have hστ : Resumes O (fun _ ↦ False) σ₀ τ :=
    ((kept_spaceReadProcessor _ _ _ hread).resumes).of_eq hτ
  have hend : Same (Resumes O fun _ ↦ False) (spaceReadProcessor cfg)
      (Resumes O fun _ ↦ False) :=
    same_spaceReadProcessor.imp fun _ _ hr ↦ hr.mono fun _ ↦ False.elim
  have hshift : ∀ k, _ := fun k ↦
    lockstep_shift cfg hO hab k (Nat.zero_le b)
  refine ⟨rfl, fun r₂ σ₂ h₂ ↦ ?_, fun r σ' hw ↦ ?_⟩
  · obtain ⟨k, σ₂', h₂, hread₂⟩ := runs_iff.mp h₂
    obtain ⟨⟨q, s⟩, hs, rfl, hres⟩ := (hshift k).exists_left hστ h₂
    obtain ⟨⟨q, s'⟩, hs', rfl, hres'⟩ := (hcut k).exists_left ⟨rfl, rfl⟩ hs
    have hall := hres'.of_eq hres
    obtain ⟨⟨_, σ'⟩, hread', -, hfin⟩ := hend.exists_left hall hread₂
    exact ⟨σ', runs_iff.mpr ⟨_, s', hs', hread'⟩, hfin⟩
  · obtain ⟨k, s', hw, hread'⟩ := runs_iff.mp hw
    have hw' := spaceRunFrom_add hw (t - 0)
    rw [Nat.add_comm k] at hw'
    obtain ⟨⟨q, s⟩, hs, rfl, hres'⟩ := (hcut k).exists_right ⟨rfl, rfl⟩ hw'
    obtain ⟨⟨q, σ₂'⟩, h₂, hq, hres⟩ := (hshift k).exists_right hστ hs
    have hall := hres'.of_eq hres
    obtain ⟨⟨_, σ₂⟩, hread₂, -, hfin⟩ := hend.exists_right hall hread'
    cases q with
    | none => cases hq
    | some r₂ =>
        exact ⟨r₂, σ₂, runs_iff.mpr ⟨k, σ₂', h₂, hread₂⟩, Option.some.inj hq, hfin⟩

/-- After a segment that stopped idle, the next one stops at once and changes nothing. -/
theorem Runs.segment_idle {O : φ → φ → Prop} {limit : Option Nat} (limit' : Option Nat) {t : Nat}
    {σ σ₁ τ : Machine φ} (h : Runs cfg dev limit σ ⟨t, .idle⟩ σ₁)
    (hτ : Resumes O (fun _ ↦ False) σ₁ τ) :
    ∃ σ₂, Runs cfg dev limit' τ ⟨0, .idle⟩ σ₂ ∧ τ.Kept σ₂ := by
  obtain ⟨fuel, σ₀, h, hread⟩ := runs_iff.mp h
  obtain ⟨σ₀', hact⟩ := exists_inactive h
  have hστ : Resumes O (fun _ ↦ False) σ₀' τ :=
    ((kept_spaceActive _ _ _ hact).resumes).of_eq
      (((kept_spaceReadProcessor _ _ _ hread).resumes).of_eq hτ)
  obtain ⟨⟨_, τ₁⟩, hact', rfl, hres⟩ := same_spaceActive.exists_right hστ hact
  have hread' : Same (Resumes O fun _ ↦ False) (spaceReadProcessor cfg) _ :=
    same_spaceReadProcessor
  obtain ⟨⟨_, σ₂⟩, hr₂, -, -⟩ := hread'.exists_right hres hread
  exact ⟨σ₂, runs_iff.mpr ⟨1, τ₁, spaceRunFrom_inactive hact', hr₂⟩,
    IsTrans.trans _ _ _ (kept_spaceActive _ _ _ hact') (kept_spaceReadProcessor _ _ _ hr₂)⟩

/-- The result of a run and the state it ends in are determined. -/
theorem Runs.unique {limit : Option Nat} {σ σ₁ σ₂ : Machine φ} {r₁ r₂ : SpaceResult}
    (h₁ : Runs cfg dev limit σ r₁ σ₁) (h₂ : Runs cfg dev limit σ r₂ σ₂) :
    r₁ = r₂ ∧ σ₁ = σ₂ := by
  obtain ⟨k₁, s₁, h₁, e₁⟩ := runs_iff.mp h₁
  obtain ⟨k₂, s₂, h₂, e₂⟩ := runs_iff.mp h₂
  have h₁' := spaceRunFrom_add h₁ k₂
  have h₂' := spaceRunFrom_add h₂ k₁
  rw [Nat.add_comm, h₁'] at h₂'
  obtain ⟨hr, rfl⟩ := Prod.mk.inj (Option.some.inj h₂')
  refine ⟨Option.some.inj hr, ?_⟩
  rw [e₁] at e₂
  exact (Prod.mk.inj (Option.some.inj e₂)).2

end Cut

/-! ## Limited runs end -/

section Ends

variable {φ : Type} {cfg : Config} {dev : Device φ}

/-- A run with a limit stops, at the latest there. -/
theorem exists_runs (hg : cfg.Good) {σ : Machine φ} (hs : σ.Sized cfg) {a : Nat}
    (ha : a < uint64Max) : ∃ r σ', Runs cfg dev (some a) σ r σ' ∧ r.ticks ≤ a := by
  have hloop : ∀ k ticks (σ : Machine φ), σ.Sized cfg → ticks + k = a → ∃ r σ',
      spaceRunFrom cfg dev (some a) (k + 1) ticks σ = some (some r, σ') ∧ σ'.Sized cfg ∧
        r.ticks ≤ a := by
    intro k
    induction k with
    | zero =>
        intro ticks σ hs hk
        obtain ⟨active, σ', e, ins, _⟩ := does_spaceActive hg hs
        exact ⟨_, σ', spaceRunFrom_succ_eq_some.mpr (.inl ⟨by rw [← hk]; rfl, active, e, rfl⟩),
          ins.sized hs, by dsimp only; omega⟩
    | succ k ih =>
        intro ticks σ hs hk
        have hne : some a ≠ some ticks := by simp; omega
        obtain ⟨step, σ₁, e, ins, _⟩ := does_spaceStep dev hg hs
        cases step with
        | idle => exact ⟨_, σ₁, spaceRunFrom_succ_eq_some.mpr (.inr (.inl ⟨hne, e, rfl⟩)),
            ins.sized hs, by dsimp only; omega⟩
        | error => exact ⟨_, σ₁, spaceRunFrom_succ_eq_some.mpr (.inr (.inr (.inl ⟨hne, e, rfl⟩))),
            ins.sized hs, by dsimp only; omega⟩
        | done =>
            obtain ⟨r, σ', h, hs', hr⟩ := ih (ticks + 1) σ₁ (ins.sized hs) (by omega)
            refine ⟨r, σ', spaceRunFrom_succ_eq_some.mpr (.inr (.inr (.inr ⟨hne, σ₁, e, ?_⟩))),
              hs', hr⟩
            rwa [if_pos (by omega)]
  obtain ⟨r, σ₁, h, hs₁, hr⟩ := hloop a 0 σ hs (Nat.zero_add a)
  obtain ⟨_, σ', e, _⟩ := does_spaceReadProcessor hg hs₁
  exact ⟨r, σ', runs_iff.mpr ⟨_, σ₁, h, e⟩, hr⟩

variable (dev) in
/-- A run with the limit 0 only looks whether the processor is active. -/
theorem runs_zero (hg : cfg.Good) {σ : Machine φ} (hs : σ.Sized cfg) :
    ∃ σ', Runs cfg dev (some 0) σ
      ⟨0, if BitMachine.active cfg σ.view.bits then .limit else .idle⟩ σ' := by
  obtain ⟨active, σ₁, e, ins, hact, _⟩ := does_spaceActive hg hs
  obtain ⟨_, σ', e', _⟩ := does_spaceReadProcessor hg (ins.sized hs)
  refine ⟨σ', runs_iff.mpr ⟨1, σ₁, spaceRunFrom_succ_eq_some.mpr (.inl ⟨rfl, active, e, ?_⟩), e'⟩⟩
  by_cases ha : BitMachine.active cfg σ.view.bits
  · rw [if_pos ha, if_pos (hact.mpr ha)]
  · rw [if_neg ha, if_neg (mt hact.mp ha)]

end Ends

/-! ## Files -/

/-- A file: what is in it, and the position of the next read. -/
structure File where
  bytes : List Byte
  pos : Nat

/-- Reads are short only at the end of the file, and writes are appended. -/
def File.device : Device File where
  fread := fun f n ↦
    let bs := (f.bytes.drop f.pos).take n
    (bs, false, { f with pos := f.pos + bs.length })
  fwrite := fun f bs ↦ (bs.length, false, { f with bytes := f.bytes ++ bs })
  fread_le := fun _ _ ↦ List.length_take_le _ _
  fwrite_le := fun _ _ ↦ le_rfl

/-- `g` holds what has been written to `f` after `pre`. -/
def File.After (pre : List Byte) (f g : File) : Prop := f.bytes = pre ++ g.bytes

theorem File.respectsOut (pre : List Byte) : File.device.RespectsOut (File.After pre) := by
  intro f g bs h
  refine ⟨rfl, rfl, ?_⟩
  change f.bytes ++ bs = pre ++ (g.bytes ++ bs)
  rw [show f.bytes = pre ++ g.bytes from h, List.append_assoc]

/-- A new process is started from a dump of the space of `σ` with `space_init`: it reads on
in the same input and writes to a new file, and nothing is known about its other state. -/
def Machine.Restarted (σ τ : Machine File) : Prop :=
  ∃ τ₀ : Machine File, τ₀.heap.size .space = σ.heap.size .space ∧
    τ₀.heap.obj .image = σ.heap.obj .space ∧ τ₀.inp = σ.inp ∧ τ₀.out.bytes = [] ∧
    VM.heap (spaceInit (some .image) (σ.heap.size .space)) τ₀ = some (0, τ)

theorem Machine.Restarted.resumes {σ τ : Machine File} (h : σ.Restarted τ) :
    Machine.Resumes (File.After σ.out.bytes) (fun _ ↦ False) σ τ := by
  obtain ⟨τ₀, hsize, himage, hinp, hout, he⟩ := h
  have hs : τ₀.heap.size .image = σ.heap.size .space := by simp only [Heap.size, himage]
  obtain ⟨r, k, e, ev, -, hbit⟩ :=
    does_spaceInit (h := τ₀.heap) (o := .image) (n := σ.heap.size .space) (by omega) (by omega)
  have hk : τ = { τ₀ with heap := k } := by
    simp only [VM.heap, e, Option.map_some, Option.some.injEq, Prod.mk.injEq] at he
    exact he.2.symm
  subst hk
  refine ⟨Buffer.ext_bits ?_ fun p ↦ ?_, hinp.symm, ?_, fun _ ↦ False.elim⟩
  · exact hsize.symm.trans (congrFun ev.size_eq .space).symm
  · change σ.heap.bit .space p = k.bit .space p
    rw [hbit, if_pos rfl]
    by_cases hp : p < 8 * σ.heap.size .space
    · rw [if_pos hp]
      simp only [Heap.bit, himage]
    · rw [if_neg hp]
      exact Buffer.bits_of_size_le (Nat.le_of_not_lt hp)
  · change σ.out.bytes = σ.out.bytes ++ τ₀.out.bytes
    rw [hout, List.append_nil]

/-- A space of 64 bytes with four slots, of which slot 0 copies one bit onto itself. -/
def Machine.spinning : Machine File where
  heap := ⟨fun _ ↦ ⟨#[0x80#8] ++ Array.replicate 63 0, by decide⟩, []⟩
  processor := fun _ ↦ ⟨0, 0, 0⟩
  inp := ⟨[], 0⟩
  out := ⟨[], 0⟩
  positions := []
  events := []

end CopySpace
