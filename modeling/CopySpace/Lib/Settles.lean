import Mathlib.Order.Filter.AtTopBot.Basic

/-!
# Results that a bound no longer changes

A recursion that need not stop is given a number that bounds its calls, and has a result of its
own for running out.  It stops on an argument if from some bound on it always has the same result,
and not that one.
-/

namespace CopySpace

open Filter

variable {ε α β : Type} {stop : ε}

/-- From some bound on the result stays the same, and it is not that of running out. -/
def Settles (stop : ε) (f : Nat → Except ε α) : Prop :=
  ∃ result, result ≠ .error stop ∧ ∀ᶠ n in atTop, f n = result

namespace Settles

variable {f f' : Nat → Except ε α} {g : α → Nat → Except ε β}

theorem const {result : Except ε α} (h : result ≠ .error stop) : Settles stop fun _ ↦ result :=
  ⟨result, h, Eventually.of_forall fun _ ↦ rfl⟩

theorem pure (a : α) : Settles stop fun _ ↦ (Pure.pure a : Except ε α) :=
  const fun h ↦ nomatch h

/-- A case split that does not depend on the bound. -/
theorem ite {p : Prop} [Decidable p] (h : p → Settles stop f) (h' : ¬ p → Settles stop f') :
    Settles stop fun n ↦ if p then f n else f' n := by
  by_cases hp : p
  · simpa only [if_pos hp] using h hp
  · simpa only [if_neg hp] using h' hp

/-- A bound that is one greater settles the same. -/
theorem of_succ (h : Settles stop fun n ↦ f (n + 1)) : Settles stop f := by
  obtain ⟨result, hne, hf⟩ := h
  refine ⟨result, hne, ?_⟩
  filter_upwards [tendsto_sub_atTop_nat 1 |>.eventually hf, eventually_ge_atTop 1] with n hn hpos
  rw [← hn, Nat.sub_add_cancel hpos]

/-- What goes on with the result of something settled settles if it does for the results that
there may be. -/
theorem bind (hf : Settles stop f)
    (hg : ∀ a, (∃ n, f n = .ok a) → Settles stop (g a)) : Settles stop fun n ↦ f n >>= (g · n) := by
  obtain ⟨result, hne, hf⟩ := hf
  cases result with
  | error e =>
    refine ⟨.error e, fun h ↦ hne (congrArg _ (Except.error.inj h)), ?_⟩
    filter_upwards [hf] with n hn
    rw [hn]
    rfl
  | ok a =>
    obtain ⟨result, hne, hg⟩ := hg a hf.exists
    refine ⟨result, hne, ?_⟩
    filter_upwards [hf, hg] with n hn hgn
    rw [hn]
    exact hgn

end Settles

end CopySpace
