import Mathlib.Logic.Relation
import CopySpace.Space.Run

/-!
# Runs that come to rest

`Halts` follows the machine step by step to the state in which it is idle, and says of all
states on the way that they satisfy a predicate.  `Halts.runs` and `Halts.of_runs` carry that
over to `space_run`, the second also to runs with a limit, which end in one of these states.
`Ticks` is for machines that are still running, and `Ticks.spaceTicks` carries it over to
`space_step`.
-/

namespace CopySpace

namespace BitMachine

variable {φ : Type}

/-- The machine takes `k` steps, through states that satisfy `P`, and is then at rest. -/
inductive Halts (cfg : Config) (dev : Device φ) (P : Bits → Prop) :
    Nat → BitMachine φ → BitMachine φ → Prop
  | idle {x : BitMachine φ} : P x.bits → step cfg dev x = (.idle, x) → Halts cfg dev P 0 x x
  | done {k : Nat} {x y z : BitMachine φ} : P x.bits → step cfg dev x = (.done, y) →
      Halts cfg dev P k y z → Halts cfg dev P (k + 1) x z

variable {cfg : Config} {dev : Device φ} {P : Bits → Prop} {k : Nat} {σ : Machine φ}
  {x y : BitMachine φ}

theorem Halts.loop (hg : cfg.Good) (h : Halts cfg dev P k x y) (hs : σ.Sized cfg)
    (hx : σ.view = x) {ticks : Nat} (hk : ticks + k < uint64Max) : ∃ σ',
      spaceRunFrom cfg dev none (k + 1) ticks σ = some (some ⟨ticks + k, .idle⟩, σ') ∧
        σ'.Sized cfg ∧ σ'.view = y := by
  induction h generalizing σ ticks with
  | @idle x _ hstep =>
      obtain ⟨r, σ', e, ins, hv⟩ := does_spaceStep dev hg hs
      rw [hx, hstep] at hv
      cases hv
      exact ⟨σ', spaceRunFrom_succ_eq_some.mpr (.inr (.inl ⟨nofun, e, rfl⟩)), ins.sized hs, rfl⟩
  | @done k x _ z _ hstep _ ih =>
      obtain ⟨r, σ₁, e, ins, hv⟩ := does_spaceStep dev hg hs
      rw [hx, hstep] at hv
      cases hv
      obtain ⟨σ', e', hs', hv'⟩ := ih (ins.sized hs) rfl (show ticks + 1 + k < uint64Max by omega)
      refine ⟨σ', spaceRunFrom_succ_eq_some.mpr (.inr (.inr (.inr ⟨nofun, σ₁, e, ?_⟩))), hs', hv'⟩
      rw [if_pos (by omega), e', show ticks + 1 + k = ticks + (k + 1) by omega]

/-- The run ends idle, after the same number of ticks. -/
theorem Halts.runs (hg : cfg.Good) (h : Halts cfg dev P k σ.view y) (hs : σ.Sized cfg)
    (hk : k < uint64Max) : ∃ σ', Runs cfg dev none σ ⟨k, .idle⟩ σ' ∧ σ'.view = y := by
  obtain ⟨σ₁, e, hs₁, hv⟩ := h.loop hg hs rfl (show 0 + k < uint64Max by omega)
  obtain ⟨_, σ', e', _, hv', _⟩ := does_spaceReadProcessor hg hs₁
  rw [Nat.zero_add] at e
  exact ⟨σ', runs_iff.mpr ⟨_, σ₁, e, e'⟩, hv'.trans hv⟩

/-- `space_step` takes the step of the bit machine. -/
theorem spaceStep_view (hg : cfg.Good) (hs : σ.Sized cfg) {r : SpaceStepResult} {σ' : Machine φ}
    (h : spaceStep cfg dev σ = some (r, σ')) :
    step cfg dev σ.view = (r, σ'.view) ∧ σ'.Sized cfg := by
  obtain ⟨r', σ₁, e, ins, hv⟩ := does_spaceStep dev hg hs
  cases e.symm.trans h
  exact ⟨hv.symm, ins.sized hs⟩

theorem spaceStep_of_step (hg : cfg.Good) (hs : σ.Sized cfg) {r : SpaceStepResult}
    (h : step cfg dev σ.view = (r, y)) :
    ∃ σ', spaceStep cfg dev σ = some (r, σ') ∧ σ'.Sized cfg ∧ σ'.view = y := by
  obtain ⟨r', σ', e, ins, hv⟩ := does_spaceStep dev hg hs
  rw [h] at hv
  cases hv
  exact ⟨σ', e, ins.sized hs, rfl⟩

/-- Looking at the rows changes nothing. -/
theorem spaceActive_view (hg : cfg.Good) (hs : σ.Sized cfg) {b : Bool} {σ' : Machine φ}
    (h : spaceActive cfg σ = some (b, σ')) : σ'.view = σ.view ∧ σ'.Sized cfg := by
  obtain ⟨b', σ₁, e, ins, -, hv, -⟩ := does_spaceActive hg hs
  cases e.symm.trans h
  exact ⟨hv, ins.sized hs⟩

/-- A run, with or without a limit, ends in one of the states on the way. -/
theorem Halts.of_loop (hg : cfg.Good) (h : Halts cfg dev P k x y) (hs : σ.Sized cfg)
    (hx : σ.view = x) {limit : Option Nat} {fuel ticks : Nat} {r : SpaceResult} {σ' : Machine φ}
    (hr : spaceRunFrom cfg dev limit fuel ticks σ = some (some r, σ')) :
    P σ'.view.bits ∧ σ'.Sized cfg := by
  induction h generalizing σ fuel ticks with
  | idle hP hstep =>
      cases fuel with
      | zero => exact absurd hr spaceRunFrom_zero_ne
      | succ fuel =>
          subst hx
          rcases spaceRunFrom_succ_eq_some.mp hr with
            ⟨-, b, e, -⟩ | ⟨-, e, -⟩ | ⟨-, e, -⟩ | ⟨-, σ₁, e, -⟩
          · obtain ⟨hv, hs'⟩ := spaceActive_view hg hs e
            exact ⟨by rwa [hv], hs'⟩
          all_goals
            obtain ⟨hv, hs'⟩ := spaceStep_view hg hs e
            obtain ⟨hs₁, hv⟩ := Prod.mk.inj (hstep.symm.trans hv)
            cases hs₁
          · exact ⟨by rwa [← hv], hs'⟩
  | done hP hstep _ ih =>
      cases fuel with
      | zero => exact absurd hr spaceRunFrom_zero_ne
      | succ fuel =>
          subst hx
          rcases spaceRunFrom_succ_eq_some.mp hr with
            ⟨-, b, e, -⟩ | ⟨-, e, -⟩ | ⟨-, e, -⟩ | ⟨-, σ₁, e, hr⟩
          · obtain ⟨hv, hs'⟩ := spaceActive_view hg hs e
            exact ⟨by rwa [hv], hs'⟩
          all_goals
            obtain ⟨hv, hs'⟩ := spaceStep_view hg hs e
            obtain ⟨hs₁, hv⟩ := Prod.mk.inj (hstep.symm.trans hv)
            cases hs₁
          · exact ih hs' hv.symm hr

theorem Halts.of_runs (hg : cfg.Good) (h : Halts cfg dev P k σ.view y) (hs : σ.Sized cfg)
    {limit : Option Nat} {r : SpaceResult} {σ' : Machine φ} (hr : Runs cfg dev limit σ r σ') :
    P σ'.view.bits := by
  obtain ⟨fuel, σ₁, e, e'⟩ := runs_iff.mp hr
  obtain ⟨hP, hs₁⟩ := h.of_loop hg hs rfl e
  obtain ⟨_, σ₂, e₂, _, hv, _⟩ := does_spaceReadProcessor hg hs₁
  cases e₂.symm.trans e'
  rwa [hv]

/-- One step after the other. -/
def Ticks (cfg : Config) (dev : Device φ) : BitMachine φ → BitMachine φ → Prop :=
  Relation.ReflTransGen fun x y ↦ step cfg dev x = (.done, y)

end BitMachine

/-- One call of `space_step` after the other, each of which has executed its instructions. -/
def SpaceTicks {φ : Type} (cfg : Config) (dev : Device φ) : Machine φ → Machine φ → Prop :=
  Relation.ReflTransGen fun σ σ' ↦ spaceStep cfg dev σ = some (.done, σ')

theorem BitMachine.Ticks.spaceTicks {φ : Type} {cfg : Config} {dev : Device φ} {σ : Machine φ}
    {y : BitMachine φ} (hg : cfg.Good) (hs : σ.Sized cfg) (h : Ticks cfg dev σ.view y) :
    ∃ σ', SpaceTicks cfg dev σ σ' ∧ σ'.Sized cfg ∧ σ'.view = y := by
  induction h with
  | refl => exact ⟨σ, Relation.ReflTransGen.refl, hs, rfl⟩
  | tail _ hstep ih =>
      obtain ⟨σ₁, hticks, hs₁, rfl⟩ := ih
      obtain ⟨σ₂, e, hs₂, hv⟩ := spaceStep_of_step hg hs₁ hstep
      exact ⟨σ₂, Relation.ReflTransGen.tail hticks e, hs₂, hv⟩

/-- The machine with these bits in its space, and empty streams. -/
def Machine.ofBits (cfg : Config) (m : Bits) : Machine File where
  heap := ⟨fun _ ↦ .ofBits cfg.vmSpaceBytes cfg.addressable m, []⟩
  processor := fun _ ↦ ⟨0, 0, 0⟩
  inp := ⟨[], 0⟩
  out := ⟨[], 0⟩
  positions := []
  events := []

theorem Machine.sized_ofBits (cfg : Config) (m : Bits) : (Machine.ofBits cfg m).Sized cfg := by
  simp [Machine.ofBits, Machine.Sized, Heap.size, Buffer.size, Buffer.ofBits]

theorem Machine.bit_ofBits {cfg : Config} {p : Nat} (m : Bits) (h : p < 8 * cfg.vmSpaceBytes) :
    (Machine.ofBits cfg m).heap.bit .space p = m p :=
  @Buffer.bits_ofBits _ _ cfg.addressable m h

end CopySpace
