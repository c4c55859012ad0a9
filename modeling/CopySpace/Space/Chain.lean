import CopySpace.Space.Halt
import CopySpace.Space.Layer

/-!
# Chains of layers

A program of several layers is a chain: every layer loads the next, and the last one loads
whatever comes after the program.  `Body` is what one layer does, with the proof that it does
it, `Chained` says that layers stand in the space in this way, and `Chained.halts` runs them:
their effects happen one after the other, no matter where one layer ends and the next begins.
-/

namespace CopySpace.BitMachine

/-- The rows of a layer and what they do.  They leave everything from `lo` up to `hi` alone. -/
structure Body (cfg : Config) (lo hi : Nat) where
  rows : List Instruction
  effect : Bits → Bits
  length_le : rows.length + 4 ≤ cfg.processorN
  performs : ∀ D, Performs cfg 3 rows D (effect D)
  frame : ∀ D p, lo ≤ p → p < hi → effect D p = D p

variable {φ : Type} {cfg : Config} {dev : Device φ} {lo hi : Nat} {D D' m : Bits}
  {a b target top : Nat} {body : Body cfg lo hi} {bodies bodies' : List (Body cfg lo hi)}

/-- What the layers do, one after the other. -/
def effects (bodies : List (Body cfg lo hi)) (D : Bits) : Bits :=
  bodies.foldl (fun D body ↦ body.effect D) D

theorem effects_append : effects (bodies ++ bodies') D = effects bodies' (effects bodies D) :=
  List.foldl_append

/-- The layers stand below `top`, the first of them at `a`; each loads the next, and the last
one loads `target`. -/
def Chained (D : Bits) (top : Nat) : Nat → List (Body cfg lo hi) → Nat → Prop
  | a, [], target => a = target
  | a, body :: bodies, target => lo ≤ a ∧ a + cfg.layerBits ≤ top ∧
      ∃ next, RowsAt cfg D a (layerRows cfg body.rows next) ∧ Behind cfg next cfg.layerBits ∧
        Chained D top next bodies target

theorem Chained.congr (h : Chained D top a bodies target)
    (hD : ∀ p, lo ≤ p → p < top → D' p = D p) : Chained D' top a bodies target := by
  induction bodies generalizing a with
  | nil => exact h
  | cons body bodies ih =>
      obtain ⟨hlo, htop, next, hrows, hnext, h⟩ := h
      refine ⟨hlo, htop, next, hrows.congr fun b hb ↦ hD _ (by omega) ?_, hnext, ih h⟩
      rw [length_layerRows body.length_le] at hb
      rw [Config.layerBits] at htop
      omega

theorem Chained.mono {top' : Nat} (h : Chained D top a bodies target) (ht : top ≤ top') :
    Chained D top' a bodies target := by
  induction bodies generalizing a with
  | nil => exact h
  | cons body bodies ih =>
      obtain ⟨hlo, htop, next, hrows, hnext, h⟩ := h
      exact ⟨hlo, htop.trans ht, next, hrows, hnext, ih h⟩

theorem Chained.append (h : Chained D top a bodies b) (h' : Chained D top b bodies' target) :
    Chained D top a (bodies ++ bodies') target := by
  induction bodies generalizing a with
  | nil =>
      cases h
      exact h'
  | cons body bodies ih =>
      obtain ⟨hlo, htop, next, hrows, hnext, h⟩ := h
      exact ⟨hlo, htop, next, hrows, hnext, ih h⟩

variable (dev) in
/-- The layers of a chain are executed one after the other.  When the last one has loaded an
empty layer, the machine is at rest. -/
theorem Chained.halts {T : Bits} (h : Chained D hi a bodies target) (hm : Loaded cfg a D m)
    (hT : ∀ p, lo ≤ p → p < hi → D p = T p) (hlo : cfg.layerBits ≤ lo) (h0 : cfg.layerBits ≠ 0)
    (hzero : ∀ p < cfg.layerBits, effects bodies D (target + p) = false) (inp out : φ) :
    ∃ m', Halts cfg dev (fun m ↦ ∀ p, lo ≤ p → p < hi → m p = T p) bodies.length
        ⟨m, inp, out⟩ ⟨m', inp, out⟩ ∧
      ∀ p, cfg.layerBits ≤ p → m' p = effects bodies D p := by
  have hP : ∀ p, lo ≤ p → p < hi → m p = T p := fun p h₁ h₂ ↦
    (hm.data p (hlo.trans h₁)).trans (hT p h₁ h₂)
  induction bodies generalizing a D m with
  | nil =>
      cases h
      refine ⟨m, .idle hP (step_idle (fun p hp ↦ ?_) inp out), hm.data⟩
      rw [hm.layer p hp]
      exact hzero p hp
  | cons body bodies ih =>
      obtain ⟨hla, hta, next, hrows, hnext, hchain⟩ := h
      have hlen : (layerRows cfg body.rows next).length = cfg.processorN :=
        length_layerRows body.length_le
      have hrows : RowsAt cfg m 0 (layerRows cfg body.rows next) := hrows.congr fun b hb ↦ by
        rw [hlen] at hb
        rw [Nat.zero_add]
        exact hm.layer b hb
      obtain ⟨m₁, hstep, hm₁⟩ := step_layer dev body.length_le hrows hm.data
        (body.performs D) h0 hnext inp out
      have hT' : ∀ p, lo ≤ p → p < hi → body.effect D p = T p := fun p h₁ h₂ ↦
        (body.frame D p h₁ h₂).trans (hT p h₁ h₂)
      obtain ⟨m', hhalts, hm'⟩ := ih (hchain.congr (body.frame D)) hm₁ hT' hzero fun p h₁ h₂ ↦
        (hm₁.data p (hlo.trans h₁)).trans (hT' p h₁ h₂)
      exact ⟨m', .done hP hstep hhalts, hm'⟩

end CopySpace.BitMachine
