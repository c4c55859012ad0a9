import CopySpace.Target.Leaf
import CopySpace.Target.Represents

/-!
# Programs of the target machine in an image

A program is located at a spot of an image when the image does there what the statements say, one
after the other.  An emulator that is at such a spot then follows every run of the target machine.
-/

namespace CopySpace.Target

open Link Emit BitMachine

/-- The finished image of a leaf: where its memory is, which layers stop a run, and which labels
have been defined in it. -/
structure LeafImage where
  image : Linked
  base : Nat
  stop : Nat → Prop
  known : Key → Prop

namespace LeafImage

variable (cfg : Config) (G : LeafImage)

/-- The spot of a label; that of the report for none. -/
def target (k : Option Key) : Spot := ⟨G.image.target k, 3⟩

/-- The data show the state of the target machine in a run of the image. -/
structure Shows (s : State) (D : Bits) : Prop where
  runs : G.image.Runs D
  represents : Represents G.base leafMemory s D

/-- Between the two spots the data stay as they are. -/
def Passes (a b : Spot) : Prop := ∀ D, G.image.Runs D → Leads cfg G.image.data a D b D

/-- Between the two spots an operation is done, unless the run stops. -/
structure Operates (o : Operation) (a b : Spot) : Prop where
  completes : ∀ D s, G.Shows s D → ∀ s', o.run leafMemory s = some s' →
    ∃ D', G.Shows s' D' ∧ Leads cfg G.image.data a D b D'
  faults : ∀ D s, G.Shows s D → o.run leafMemory s = none →
    ∃ stop, G.stop stop ∧ ∃ D', G.image.Runs D' ∧ Leads cfg G.image.data a D ⟨stop, 3⟩ D'

/-- A branch goes to its label when the condition holds, else to the second spot. -/
structure Chooses (c : Condition) (k : Key) (a b : Spot) : Prop where
  jumps : ∀ D s, G.Shows s D → c.holds s.comparison = true →
    Leads cfg G.image.data a D (G.target (some k)) D
  stays : ∀ D s, G.Shows s D → c.holds s.comparison = false → Leads cfg G.image.data a D b D

/-- The statements are done from the spot on. -/
inductive Located : List (Statement Key) → Spot → Prop
  | nil {a : Spot} (h : G.Passes cfg a (G.target none)) : Located [] a
  | label {a b : Spot} {k : Key} {rest : List (Statement Key)} (h : G.Passes cfg a b)
      (hb : b = G.target (some k)) (hrest : Located rest b) : Located (.label k :: rest) a
  | operation {a b : Spot} {o : Operation} {rest : List (Statement Key)}
      (h : G.Operates cfg o a b) (hrest : Located rest b) : Located (.operation o :: rest) a
  | branch {a b : Spot} {c : Condition} {k : Key} {rest : List (Statement Key)} (hk : G.known k)
      (h : G.Chooses cfg c k a b) (hrest : Located rest b) : Located (.branch c k :: rest) a
  | jump {a b : Spot} {k : Key} {rest : List (Statement Key)} (hk : G.known k)
      (h : G.Passes cfg a (G.target (some k))) (hrest : Located rest b) :
      Located (.jump k :: rest) a
  | ret {a b : Spot} {rest : List (Statement Key)} (h : G.Passes cfg a (G.target none))
      (hrest : Located rest b) : Located (.ret :: rest) a
  | trap {a b : Spot} {stop : Nat} {rest : List (Statement Key)} (hstop : G.stop stop)
      (h : G.Passes cfg a ⟨stop, 3⟩) (hrest : Located rest b) : Located (.trap :: rest) a

end LeafImage

variable {cfg : Config} {G : LeafImage} {a b : Spot} {o : Operation} {c : Condition} {k : Key}
  {rest program : List (Statement Key)} {s s' : State} {D : Bits}

namespace LeafImage

/-! ## What comes before -/

theorem Passes.trans {c : Spot} (h : G.Passes cfg a b) (h' : G.Passes cfg b c) : G.Passes cfg a c :=
  fun D hD ↦ (h D hD).trans (h' D hD)

theorem Passes.operates (h : G.Passes cfg a b) {c : Spot} (h' : G.Operates cfg o b c) :
    G.Operates cfg o a c where
  completes D s hD s' hs' := by
    obtain ⟨D', hD', hl⟩ := h'.completes D s hD s' hs'
    exact ⟨D', hD', (h D hD.runs).trans hl⟩
  faults D s hD hnone := by
    obtain ⟨stop, hstop, D', hD', hl⟩ := h'.faults D s hD hnone
    exact ⟨stop, hstop, D', hD', (h D hD.runs).trans hl⟩

theorem Passes.chooses (h : G.Passes cfg a b) {d : Spot} (h' : G.Chooses cfg c k b d) :
    G.Chooses cfg c k a d where
  jumps D s hD hc := (h D hD.runs).trans (h'.jumps D s hD hc)
  stays D s hD hc := (h D hD.runs).trans (h'.stays D s hD hc)

/-- The statements are also done from an earlier spot on. -/
theorem Located.after (h : G.Passes cfg a b) (hb : G.Located cfg rest b) :
    G.Located cfg rest a := by
  cases hb with
  | nil h' => exact .nil (h.trans h')
  | label h' hk hrest => exact .label (h.trans h') hk hrest
  | operation h' hrest => exact .operation (h.operates h') hrest
  | branch hk h' hrest => exact .branch hk (h.chooses h') hrest
  | jump hk h' hrest => exact .jump hk (h.trans h') hrest
  | ret h' hrest => exact .ret (h.trans h') hrest
  | trap hstop h' hrest => exact .trap hstop (h.trans h') hrest

/-- What comes after a label is located at its target. -/
theorem Located.locate (h : G.Located cfg program a) (hk : locate k program = some rest) :
    G.Located cfg rest (G.target (some k)) := by
  induction h with
  | nil => cases hk
  | label _ hb hrest ih =>
      rw [Target.locate] at hk
      split at hk
      · next he =>
          subst he hb
          exact Option.some.inj hk ▸ hrest
      · exact ih hk
  | operation _ _ ih => exact ih hk
  | branch _ _ _ ih => exact ih hk
  | jump _ _ _ ih => exact ih hk
  | ret _ _ ih => exact ih hk
  | trap _ _ _ ih => exact ih hk

/-- What a statement may go to is known. -/
theorem Located.known {s : Statement Key} (h : G.Located cfg program a) (hs : s ∈ program)
    (hk : s.goesTo = some k) : G.known k := by
  induction h with
  | nil => cases hs
  | branch hknown _ _ ih | jump hknown _ _ ih =>
      obtain rfl | hs := List.mem_cons.mp hs
      · exact Option.some.inj hk ▸ hknown
      · exact ih hs
  | label _ _ _ ih | operation _ _ ih | ret _ _ ih | trap _ _ _ ih =>
      obtain rfl | hs := List.mem_cons.mp hs
      · cases hk
      · exact ih hs

/-! ## Runs -/

section Run

variable {φ : Type} {dev : Device φ} {x : BitMachine φ}

/-- The machine comes to a spot without any input or output, and its data satisfy `P`. -/
def Arrives (cfg : Config) (dev : Device φ) (G : LeafImage) (x : BitMachine φ) (b : Spot)
    (P : Bits → Prop) : Prop :=
  ∃ D y, P D ∧ Ticks cfg dev x y ∧ y.inp = x.inp ∧ y.out = x.out ∧ At cfg dev G.image.data b D y

theorem arrives_of_leads {P : Bits → Prop} {D' : Bits} (h : Leads cfg G.image.data a D b D')
    (hx : At cfg dev G.image.data a D x) (hD' : P D') : Arrives cfg dev G x b P := by
  obtain ⟨y, hxy, hin, hout, hy⟩ := h φ dev x hx
  exact ⟨D', y, hD', hxy, hin, hout, hy⟩

/-- The machine comes to a spot where the rest of a run is located, and its data show the state. -/
def Follows (cfg : Config) (dev : Device φ) (G : LeafImage) (x : BitMachine φ)
    (config : Configuration Key) : Prop :=
  ∃ b, G.Located cfg config.1 b ∧ Arrives cfg dev G x b (G.Shows config.2)

/-- What a machine does when the target machine goes on in this way. -/
def Continues (cfg : Config) (dev : Device φ) (G : LeafImage) (x : BitMachine φ) :
    Progress Key → Prop
  | .onward rest s => Follows cfg dev G x (rest, s)
  | .returned s => Arrives cfg dev G x (G.target none) (G.Shows s)
  | .fault => ∃ stop, G.stop stop ∧ Arrives cfg dev G x ⟨stop, 3⟩ G.image.Runs
  | .stuck => False

/-- The program is located somewhere, and no label is missing. -/
structure Holds (cfg : Config) (G : LeafImage) (program : List (Statement Key)) : Prop where
  located : ∃ a, G.Located cfg program a
  known : ∀ k, G.known k → ∃ rest, locate k program = some rest

theorem Holds.goTo (h : G.Holds cfg program) (hk : G.known k) (hs : G.Shows s D)
    (hl : Leads cfg G.image.data a D (G.target (some k)) D) (hx : At cfg dev G.image.data a D x) :
    Continues cfg dev G x (goTo program k s) := by
  obtain ⟨b, hb⟩ := h.located
  obtain ⟨rest, hrest⟩ := h.known k hk
  unfold Target.goTo
  rw [hrest]
  exact ⟨_, hb.locate hrest, arrives_of_leads hl hx hs⟩

/-- One statement. -/
theorem Located.step (h : G.Holds cfg program) (hrest : G.Located cfg rest a) (hs : G.Shows s D)
    (hx : At cfg dev G.image.data a D x) :
    Continues cfg dev G x (step leafMemory program rest s) := by
  cases hrest with
  | nil hpass => exact arrives_of_leads (hpass D hs.runs) hx hs
  | label hpass hb hrest => exact ⟨_, hrest, arrives_of_leads (hpass D hs.runs) hx hs⟩
  | operation hop hrest =>
      rename_i o rest
      rw [Target.step]
      cases hrun : o.run leafMemory s with
      | none =>
          obtain ⟨stop, hstop, D', hD', hl⟩ := hop.faults D s hs hrun
          exact ⟨stop, hstop, arrives_of_leads hl hx hD'⟩
      | some s' =>
          obtain ⟨D', hD', hl⟩ := hop.completes D s hs s' hrun
          exact ⟨_, hrest, arrives_of_leads hl hx hD'⟩
  | branch hk hchoose hrest =>
      rw [Target.step]
      split
      · next hc => exact h.goTo hk hs (hchoose.jumps D s hs hc) hx
      · next hc =>
          exact ⟨_, hrest, arrives_of_leads (hchoose.stays D s hs (Bool.eq_false_iff.mpr hc)) hx hs⟩
  | jump hk hpass hrest => exact h.goTo hk hs (hpass D hs.runs) hx
  | ret hpass hrest => exact arrives_of_leads (hpass D hs.runs) hx hs
  | trap hstop hpass hrest => exact ⟨_, hstop, arrives_of_leads (hpass D hs.runs) hx hs.runs⟩

theorem Arrives.trans {y : BitMachine φ} {P : Bits → Prop} (hxy : Ticks cfg dev x y)
    (hin : y.inp = x.inp) (hout : y.out = x.out) (h : Arrives cfg dev G y b P) :
    Arrives cfg dev G x b P := by
  obtain ⟨D, z, hD, hyz, hin', hout', hz⟩ := h
  exact ⟨D, z, hD, hxy.trans hyz, hin'.trans hin, hout'.trans hout, hz⟩

theorem Continues.trans {y : BitMachine φ} {p : Progress Key} (hxy : Ticks cfg dev x y)
    (hin : y.inp = x.inp) (hout : y.out = x.out) (h : Continues cfg dev G y p) :
    Continues cfg dev G x p := by
  cases p with
  | onward rest s =>
      obtain ⟨b, hb, h⟩ := h
      exact ⟨b, hb, h.trans hxy hin hout⟩
  | returned s => exact Arrives.trans hxy hin hout h
  | fault =>
      obtain ⟨stop, hstop, h⟩ := h
      exact ⟨stop, hstop, h.trans hxy hin hout⟩
  | stuck => exact h.elim

/-- A run of the target machine is followed, however long it is. -/
theorem Holds.continues (h : G.Holds cfg program) {config config' : Configuration Key}
    (hr : Reaches leafMemory program config config') (hx : Follows cfg dev G x config) :
    Continues cfg dev G x (Target.step leafMemory program config'.1 config'.2) := by
  have hfollows : Follows cfg dev G x config' := by
    induction hr with
    | refl => exact hx
    | tail _ hstep ih =>
        obtain ⟨b, hb, D, y, hD, hxy, hin, hout, hy⟩ := ih
        have hcontinues := Located.step h hb hD hy
        rw [hstep] at hcontinues
        exact Continues.trans hxy hin hout hcontinues
  obtain ⟨b, hb, D, y, hD, hxy, hin, hout, hy⟩ := hfollows
  exact Continues.trans hxy hin hout (Located.step h hb hD hy)

end Run

end LeafImage

end CopySpace.Target
