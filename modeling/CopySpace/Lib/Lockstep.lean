import CopySpace.Lib.Heap
import Mathlib.Order.Defs.Unbundled

/-!
# Relations between the states of runs

`Moves R x`: the program `x`, where it is defined, leads from a state to one related to it by
the preorder `R`; what a program leaves alone or only adds to is said in this way.

`Lockstep R x y S`: from two states related by `R` the programs `x` and `y` are either both
undefined, or both defined with results and states related by `S`.  `Same R x R'` is the case
of one program whose result does not depend on which of the related states it runs from.

Nothing here knows the programs: these are the rules for the combinators of
`CopySpace.Lib.Heap`.
-/

namespace CopySpace

variable {σ α β γ δ : Type}

/-! ## One run -/

/-- A sequence that is defined has a state in the middle. -/
theorem bind_eq_some {x : StateT σ Option α} {f : α → StateT σ Option β} {s : σ} {r : β × σ} :
    (x >>= f) s = some r ↔ ∃ a s', x s = some (a, s') ∧ f a s' = some r := by
  simp only [Bind.bind, StateT.bind, Option.bind_eq_some_iff]
  exact ⟨fun ⟨q, hx, hf⟩ ↦ ⟨q.1, q.2, hx, hf⟩, fun ⟨a, s', hx, hf⟩ ↦ ⟨(a, s'), hx, hf⟩⟩

theorem pure_eq_some {a : α} {s : σ} {r : α × σ} :
    (pure a : StateT σ Option α) s = some r ↔ (a, s) = r := by
  change some (a, s) = some r ↔ _
  exact Option.some_inj

/-- If each element of a list keeps two states related, so does the run over the list. -/
theorem foldlM_simulated {τ : Type} {R : σ → τ → Prop} {f : σ → α → Option σ} {g : τ → α → Option τ}
    {xs : List α}
    (hstep : ∀ x ∈ xs, ∀ s t s', R s t → f s x = some s' → ∃ t', g t x = some t' ∧ R s' t') :
    ∀ {s t s'}, R s t → xs.foldlM f s = some s' → ∃ t', xs.foldlM g t = some t' ∧ R s' t' := by
  induction xs with
  | nil =>
      rintro s t s' hr h
      obtain rfl := Option.some.inj h
      exact ⟨t, rfl, hr⟩
  | cons x xs ih =>
      rintro s t s' hr h
      rw [List.foldlM_cons] at h
      obtain ⟨s₁, h₁, h⟩ := Option.bind_eq_some_iff.mp h
      obtain ⟨t₁, ht₁, hr₁⟩ := hstep x List.mem_cons_self s t s₁ hr h₁
      rw [List.foldlM_cons, ht₁]
      exact ih (fun y hy ↦ hstep y (List.mem_cons_of_mem _ hy)) hr₁ h

def Moves (R : σ → σ → Prop) (x : StateT σ Option α) : Prop :=
  ∀ s a s', x s = some (a, s') → R s s'

namespace Moves

variable {R : σ → σ → Prop}

theorem modify {g : σ → α} {f : σ → σ} (hf : ∀ s, R s (f s)) :
    Moves R (fun s ↦ some (g s, f s)) := by
  rintro s _ s' h
  cases h
  exact hf s

theorem pure [Std.Refl R] (a : α) : Moves R (pure a) := modify fun s ↦ Std.Refl.refl s

theorem bind [IsTrans σ R] {x : StateT σ Option α} {f : α → StateT σ Option β} (hx : Moves R x)
    (hf : ∀ a, Moves R (f a)) : Moves R (x >>= f) := by
  intro s b s' h
  obtain ⟨a, t, hxs, hft⟩ := bind_eq_some.mp h
  exact IsTrans.trans _ _ _ (hx s a t hxs) (hf a t b s' hft)

theorem ite {c : Prop} [Decidable c] {x y : StateT σ Option α} (hx : Moves R x)
    (hy : Moves R y) : Moves R (if c then x else y) := by
  split
  · exact hx
  · exact hy

theorem forUp [Std.Refl R] [IsTrans σ R] {f : Nat → StateT σ Option Unit}
    (hf : ∀ i, Moves R (f i)) (n : Nat) : Moves R (forUp f n) := by
  induction n with
  | zero => exact pure ()
  | succ n ih => exact ih.bind fun _ ↦ hf n

end Moves

/-! ## Two runs -/

def Lockstep (R : σ → σ → Prop) (x : StateT σ Option α) (y : StateT σ Option β)
    (S : α → β → σ → σ → Prop) : Prop :=
  ∀ s t, R s t → Option.Rel (fun r q ↦ S r.1 q.1 r.2 q.2) (x s) (y t)

/-- One program from related states: the same result, and related states again. -/
def Same (R : σ → σ → Prop) (x : StateT σ Option α) (R' : σ → σ → Prop) : Prop :=
  Lockstep R x x fun a b s t ↦ a = b ∧ R' s t

namespace Lockstep

variable {R R' : σ → σ → Prop} {x : StateT σ Option α} {y : StateT σ Option β}
  {S : α → β → σ → σ → Prop}

theorem pure {a : α} {b : β} (h : ∀ s t, R s t → S a b s t) :
    Lockstep R (pure a) (pure b) S := fun s t hr ↦ .some (h s t hr)

theorem bind {f : α → StateT σ Option γ} {g : β → StateT σ Option δ}
    {T : γ → δ → σ → σ → Prop} (hx : Lockstep R x y S)
    (hf : ∀ a b, Lockstep (S a b) (f a) (g b) T) : Lockstep R (x >>= f) (y >>= g) T := by
  intro s t hr
  have h := hx s t hr
  simp only [Bind.bind, StateT.bind]
  cases h' : x s with
  | none =>
      rw [h'] at h
      cases hy : y t with
      | none => exact .none
      | some q => rw [hy] at h; exact absurd h Option.not_rel_none_some
  | some r =>
      rw [h'] at h
      cases hy : y t with
      | none => rw [hy] at h; exact absurd h Option.not_rel_some_none
      | some q =>
          rw [hy, Option.rel_some_some] at h
          exact hf r.1 q.1 r.2 q.2 h

theorem imp {T : α → β → σ → σ → Prop} (hx : Lockstep R x y S)
    (h : ∀ a b s t, S a b s t → T a b s t) : Lockstep R x y T := by
  intro s t hr
  have hs := hx s t hr
  generalize x s = u at hs ⊢
  generalize y t = v at hs ⊢
  cases hs with
  | none => exact .none
  | some hab => exact .some (h _ _ _ _ hab)

theorem pre {Q : σ → σ → Prop} (hx : Lockstep R x y S) (h : ∀ s t, Q s t → R s t) :
    Lockstep Q x y S := fun s t hq ↦ hx s t (h s t hq)

/-- Two defined runs in lockstep. -/
theorem some_some {s t : σ} {r : α × σ} {q : β × σ} (hx : Lockstep R x y S) (hr : R s t)
    (hs : x s = some r) (ht : y t = some q) : S r.1 q.1 r.2 q.2 := by
  have := hx s t hr
  rwa [hs, ht, Option.rel_some_some] at this

theorem exists_right {s t : σ} {r : α × σ} (hx : Lockstep R x y S) (hr : R s t)
    (hs : x s = some r) : ∃ q, y t = some q ∧ S r.1 q.1 r.2 q.2 := by
  have h := hx s t hr
  rw [hs] at h
  cases hy : y t with
  | none => rw [hy] at h; exact absurd h Option.not_rel_some_none
  | some q => rw [hy, Option.rel_some_some] at h; exact ⟨q, rfl, h⟩

theorem exists_left {s t : σ} {q : β × σ} (hx : Lockstep R x y S) (hr : R s t)
    (ht : y t = some q) : ∃ r, x s = some r ∧ S r.1 q.1 r.2 q.2 := by
  have h := hx s t hr
  rw [ht] at h
  cases hs : x s with
  | none => rw [hs] at h; exact absurd h Option.not_rel_none_some
  | some r => rw [hs, Option.rel_some_some] at h; exact ⟨r, rfl, h⟩

end Lockstep

namespace Same

variable {R R' R'' : σ → σ → Prop} {x : StateT σ Option α}

theorem pure (a : α) : Same R (pure a) R := Lockstep.pure fun _ _ hr ↦ ⟨rfl, hr⟩

theorem bind {f : α → StateT σ Option β} (hx : Same R x R') (hf : ∀ a, Same R' (f a) R'') :
    Same R (x >>= f) R'' :=
  Lockstep.bind hx fun a b s t ⟨hab, hr⟩ ↦ by subst hab; exact hf a s t hr

theorem imp (hx : Same R x R') (h : ∀ s t, R' s t → R'' s t) : Same R x R'' :=
  Lockstep.imp hx fun _ _ _ _ hab ↦ ⟨hab.1, h _ _ hab.2⟩

theorem ite {c : Prop} [Decidable c] {y : StateT σ Option α} (hx : Same R x R')
    (hy : Same R y R') : Same R (if c then x else y) R' := by
  split
  · exact hx
  · exact hy

theorem doIf {c : Prop} [Decidable c] {x : StateT σ Option Unit} (hx : Same R x R) :
    Same R (doIf c x) R := ite hx (pure ())

theorem forUp {f : Nat → StateT σ Option Unit} (hf : ∀ i, Same R (f i) R) (n : Nat) :
    Same R (forUp f n) R := by
  induction n with
  | zero => exact pure ()
  | succ n ih => exact bind ih fun _ ↦ hf n

theorem forDown {f : Nat → StateT σ Option Unit} (hf : ∀ i, Same R (f i) R) (n : Nat) :
    Same R (forDown f n) R := by
  induction n with
  | zero => exact pure ()
  | succ n ih => exact bind (hf n) fun _ ↦ ih

end Same

/-! ## Programs over one object -/

variable {ι : Type}

/-- The heaps hold the same object `o`. -/
def SameObj (o : ι) (h k : Heap ι) : Prop := h.obj o = k.obj o

/-- The program depends only on the object `o`, as far as its result and that object are
concerned. -/
abbrev DependsOn (o : ι) (x : CM ι α) : Prop := Same (SameObj o) x (SameObj o)

namespace DependsOn

variable (o : ι)

theorem sizeofObj : DependsOn o (sizeofObj o) := fun h k hhk ↦
  .some ⟨by simp only [Heap.size, show h.obj o = k.obj o from hhk], hhk⟩

theorem loadByte (i : Nat) : DependsOn o (loadByte o i) := by
  intro h k hhk
  have hs : h.size o = k.size o := by simp only [Heap.size, show h.obj o = k.obj o from hhk]
  unfold CopySpace.loadByte
  rw [hs]
  split
  · exact .some ⟨by rw [show h.obj o = k.obj o from hhk], hhk⟩
  · exact .none

theorem storeByte [DecidableEq ι] (i : Nat) (v : Byte) : DependsOn o (storeByte o i v) := by
  intro h k hhk
  have ho : h.obj o = k.obj o := hhk
  have hs : h.size o = k.size o := by simp only [Heap.size, ho]
  unfold CopySpace.storeByte
  rw [hs]
  split
  · exact .some ⟨rfl, by simp [SameObj, Heap.setByte, ho]⟩
  · exact .none

theorem loadBytes (j n : Nat) : DependsOn o (loadBytes o j n) := by
  induction n with
  | zero => exact .pure _
  | succ n ih => exact ih.bind fun _ ↦ (loadByte o _).bind fun _ ↦ .pure _

theorem storeBytes [DecidableEq ι] (i : Nat) (bs : List Byte) :
    DependsOn o (storeBytes o i bs) := by
  induction bs generalizing i with
  | nil => exact .pure _
  | cons b bs ih => exact (storeByte o i b).bind fun _ ↦ ih _

theorem memmove [DecidableEq ι] (i j n : Nat) : DependsOn o (memmove o i o j n) :=
  (loadBytes o j n).bind fun bs ↦ storeBytes o i bs

end DependsOn

end CopySpace
