import Mathlib.Data.Option.Basic
import Mathlib.Tactic.SplitIfs

/-!
# Nested groups of lines

A text may choose between parts of itself: a line opens a group, others begin its further branches,
and a last one closes it.  Groups are nested, and one branch of a group at most is selected, the
first one whose condition holds.  This is said of the tree of a text, and a walk over its lines with
a stack of flags does the same.
-/

namespace CopySpace.Nesting

universe u v w

variable {α : Type u} {γ : Type v} {σ : Type w}

/-! ## Lines and trees -/

inductive Line (α : Type u) (γ : Type v)
  | plain (a : α)
  | opening (c : γ)
  | another (c : γ)
  | otherwise
  | closing

mutual

/-- A properly nested text. -/
inductive Items (α : Type u) (γ : Type v)
  | nil
  | plain (a : α) (rest : Items α γ)
  | group (c : γ) (body : Items α γ) (branches : Branches α γ) (rest : Items α γ)

/-- What follows the first branch of a group. -/
inductive Branches (α : Type u) (γ : Type v)
  | closing
  | another (c : γ) (body : Items α γ) (branches : Branches α γ)
  | otherwise (body : Items α γ)

end

mutual

/-- The lines of a text. -/
def Items.lines : Items α γ → List (Line α γ)
  | .nil => []
  | .plain a rest => .plain a :: rest.lines
  | .group c body branches rest => .opening c :: (body.lines ++ (branches.lines ++ rest.lines))

/-- The lines up to the end of a group. -/
def Branches.lines : Branches α γ → List (Line α γ)
  | .closing => [.closing]
  | .another c body branches => .another c :: (body.lines ++ branches.lines)
  | .otherwise body => .otherwise :: (body.lines ++ [.closing])

end

/-! ## The tree of a text -/

/-- The part of a text from a line on: the items up to the end of the branch, and for every group
around them its further branches and what follows it. -/
abbrev Rest (α : Type u) (γ : Type v) := Items α γ × List (Branches α γ × Items α γ)

/-- A line in front of a part of the text, if it may stand there. -/
def Line.push : Line α γ → Rest α γ → Option (Rest α γ)
  | .plain a, (items, outer) => some (.plain a items, outer)
  | .opening c, (body, (branches, items) :: outer) => some (.group c body branches items, outer)
  | .another c, (body, (branches, items) :: outer) =>
      some (.nil, (.another c body branches, items) :: outer)
  | .otherwise, (body, (.closing, items) :: outer) => some (.nil, (.otherwise body, items) :: outer)
  | .closing, (items, outer) => some (.nil, (.closing, items) :: outer)
  | _, _ => none

def parse : List (Line α γ) → Option (Rest α γ)
  | [] => some (.nil, [])
  | l :: lines => (parse lines).bind l.push

/-- The tree of a text, if it is properly nested. -/
def tree (lines : List (Line α γ)) : Option (Items α γ) :=
  match parse lines with
  | some (items, []) => some items
  | _ => none

/-- The lines of a part of a text. -/
def Rest.lines (rest : Rest α γ) : List (Line α γ) :=
  rest.1.lines ++ rest.2.flatMap fun (branches, items) ↦ branches.lines ++ items.lines

theorem push_lines {l : Line α γ} {rest rest' : Rest α γ} (h : l.push rest = some rest') :
    rest'.lines = l :: rest.lines := by
  unfold Line.push at h
  split at h <;> cases h <;>
    simp [Rest.lines, Items.lines, Branches.lines]

theorem parse_lines {lines : List (Line α γ)} {rest : Rest α γ} (h : parse lines = some rest) :
    lines = rest.lines := by
  induction lines generalizing rest with
  | nil =>
    cases h
    rfl
  | cons l lines ih =>
    obtain ⟨rest', hrest, hpush⟩ := Option.bind_eq_some_iff.mp h
    rw [push_lines hpush, ih hrest]

mutual

theorem Items.parse : ∀ (items : Items α γ) {lines : List (Line α γ)}
    {outer : List (Branches α γ × Items α γ)}, Nesting.parse lines = some (.nil, outer) →
      Nesting.parse (items.lines ++ lines) = some (items, outer)
  | .nil, _, _, h => h
  | .plain a rest, _, _, h => by
    rw [Items.lines, List.cons_append, Nesting.parse, rest.parse h]
    rfl
  | .group c body branches rest, _, _, h => by
    rw [Items.lines, List.cons_append, List.append_assoc, List.append_assoc, Nesting.parse,
      body.parse (branches.parse (rest.parse h))]
    rfl

theorem Branches.parse : ∀ (branches : Branches α γ) {items : Items α γ}
    {lines : List (Line α γ)} {outer : List (Branches α γ × Items α γ)},
      Nesting.parse lines = some (items, outer) →
        Nesting.parse (branches.lines ++ lines) = some (.nil, (branches, items) :: outer)
  | .closing, _, _, _, h => by
    rw [Branches.lines, List.singleton_append, Nesting.parse, h]
    rfl
  | .another c body branches, _, _, _, h => by
    rw [Branches.lines, List.cons_append, List.append_assoc, Nesting.parse,
      body.parse (branches.parse h)]
    rfl
  | .otherwise body, items, lines, outer, h => by
    have hclosing : Nesting.parse (.closing :: lines) = some (.nil, (.closing, items) :: outer) := by
      rw [Nesting.parse, h]
      rfl
    rw [Branches.lines, List.cons_append, List.append_assoc, Nesting.parse, List.singleton_append,
      body.parse hclosing]
    rfl

end

/-- The tree is the one whose lines are those of the text. -/
theorem tree_eq_some {lines : List (Line α γ)} {items : Items α γ} :
    tree lines = some items ↔ lines = items.lines := by
  unfold tree
  constructor
  · intro h
    split at h
    case h_1 hparse =>
      cases h
      rw [parse_lines hparse, Rest.lines, List.flatMap_nil, List.append_nil]
    case h_2 => cases h
  · rintro rfl
    have h : Nesting.parse (items.lines ++ []) = some (items, []) := items.parse rfl
    rw [List.append_nil] at h
    rw [h]

/-! ## What is selected -/

/-- What a text means: what is done at each line of a group, what a line does where the given
number of groups is open and it is selected or not, and what a condition says. -/
structure Semantics (α : Type u) (γ : Type v) (σ : Type w) where
  mark : σ → Option σ
  plain : Nat → Bool → α → σ → Option σ
  holds : γ → σ → Option (σ × Bool)

/-- A condition is only asked for where it is wanted. -/
def Semantics.test (sem : Semantics α γ σ) (wanted : Bool) (c : γ) (s : σ) : Option (σ × Bool) :=
  if wanted then sem.holds c s else some (s, false)

section Run

variable (sem : Semantics α γ σ) (limit : Nat)

mutual

/-- The meaning of a text within `k` groups, which is selected or not. -/
def Items.run (k : Nat) (selected : Bool) : Items α γ → σ → Option σ
  | .nil, s => some s
  | .plain a rest, s => (sem.plain k selected a s).bind (Items.run k selected rest)
  | .group c body branches rest, s =>
      (sem.mark s).bind fun s ↦ if k = limit then none else
        (sem.test selected c s).bind fun (s, truth) ↦
          (Items.run (k + 1) (selected && truth) body s).bind fun s ↦
            (Branches.run (k + 1) (selected && !truth) branches s).bind (Items.run k selected rest)

/-- The meaning of further branches: one of them is wanted, or none is. -/
def Branches.run (k : Nat) (wanted : Bool) : Branches α γ → σ → Option σ
  | .closing, s => sem.mark s
  | .another c body branches, s =>
      (sem.mark s).bind fun s ↦ (sem.test wanted c s).bind fun (s, truth) ↦
        (Items.run k (wanted && truth) body s).bind (Branches.run k (wanted && !truth) branches)
  | .otherwise body, s =>
      (sem.mark s).bind fun s ↦ (Items.run k wanted body s).bind sem.mark

end

end Run

/-! ## The walk -/

/-- What is kept of an open group: whether the text around it is selected, whether one of its
branches has been taken, and whether the last one has begun. -/
structure Open where
  outer : Bool
  taken : Bool
  last : Bool

/-- The open groups, whether the line is selected, and what has been done. -/
abbrev Place (σ : Type w) := List Open × Bool × σ

section Walk

variable (sem : Semantics α γ σ) (limit base : Nat)

/-- What the walk does on a line. -/
def step : Line α γ → Place σ → Option (Place σ)
  | .plain a, (opens, selected, s) =>
      (sem.plain (base + opens.length) selected a s).map (opens, selected, ·)
  | .opening c, (opens, selected, s) =>
      (sem.mark s).bind fun s ↦ if base + opens.length = limit then none else
        (sem.test selected c s).map fun (s, truth) ↦
          (⟨selected, truth, false⟩ :: opens, selected && truth, s)
  | .another c, (o :: opens, _, s) =>
      (sem.mark s).bind fun s ↦ if o.last then none else
        (sem.test (o.outer && !o.taken) c s).map fun (s, truth) ↦
          (⟨o.outer, o.taken || truth, false⟩ :: opens, o.outer && !o.taken && truth, s)
  | .otherwise, (o :: opens, _, s) =>
      (sem.mark s).bind fun s ↦ if o.last then none else
        some (⟨o.outer, true, true⟩ :: opens, o.outer && !o.taken, s)
  | .closing, (o :: opens, _, s) => (sem.mark s).map (opens, o.outer, ·)
  | _, ([], _, _) => none

/-- The walk over a text; at its end every group must be closed. -/
def walk : List (Line α γ) → Place σ → Option σ
  | [], ([], _, s) => some s
  | [], (_ :: _, _, _) => none
  | l :: lines, place => (step sem limit base l place).bind (walk lines)

/-- Behind the last branch of a group nothing but its end may follow. -/
def Branches.fits (last : Bool) : Branches α γ → Bool
  | .closing => true
  | _ => !last

theorem Branches.fits_false : ∀ branches : Branches α γ, branches.fits false
  | .closing | .another .. | .otherwise _ => rfl

/-- What the rest of the groups around a place means. -/
def resume : List Open → List (Branches α γ × Items α γ) → σ → Option σ
  | [], [], s => some s
  | o :: opens, (branches, rest) :: outer, s =>
      if branches.fits o.last then
        (Branches.run sem limit (base + (opens.length + 1)) (o.outer && !o.taken) branches s).bind
          fun s ↦ (Items.run sem limit (base + opens.length) o.outer rest s).bind (resume opens outer)
      else none
  | _, _, _ => none

/-- What the rest of a text means at a place. -/
def follow (rest : Rest α γ) (place : Place σ) : Option σ :=
  (Items.run sem limit (base + place.1.length) place.2.1 rest.1 place.2.2).bind
    (resume sem limit base place.1 rest.2)

variable {sem limit base} {opens : List Open} {o : Open} {s : σ} {selected : Bool}
  {items rest : Items α γ} {branches : Branches α γ} {outer : List (Branches α γ × Items α γ)}

theorem resume_cons (h : branches.fits o.last) :
    resume sem limit base (o :: opens) ((branches, rest) :: outer) s =
      ((Branches.run sem limit (base + (opens.length + 1)) (o.outer && !o.taken) branches s).bind
        (Items.run sem limit (base + opens.length) o.outer rest)).bind
          (resume sem limit base opens outer) := by
  rw [resume, if_pos h, Option.bind_assoc]

theorem resume_unfit (h : ¬ branches.fits o.last) :
    resume sem limit base (o :: opens) ((branches, rest) :: outer) s = none := by
  rw [resume, if_neg h]

/-- What a line does, and what the text behind it means, is what the text means with it. -/
theorem step_follow (l : Line α γ) (place : Place σ) (rest : Rest α γ) :
    (step sem limit base l place).bind (follow sem limit base rest) =
      (l.push rest).bind (follow sem limit base · place) := by
  obtain ⟨opens, selected, s⟩ := place
  obtain ⟨items, outer⟩ := rest
  have hunclosed (o : Open) (opens : List Open) (selected : Bool) (t : σ) :
      follow sem limit base (items, []) (o :: opens, selected, t) = none :=
    Option.bind_fun_none _
  cases l with
  | plain a =>
    change ((sem.plain (base + opens.length) selected a s).map _).bind _ =
      ((sem.plain (base + opens.length) selected a s).bind _).bind _
    rw [Option.bind_map, Option.bind_assoc]
    rfl
  | opening c =>
    simp only [step, Option.bind_assoc]
    rcases outer with _ | ⟨⟨branches, rest⟩, outer⟩
    · refine Option.bind_eq_none_iff.mpr fun s _ ↦ ?_
      split_ifs
      · rfl
      · rw [Option.bind_map]
        exact Option.bind_eq_none_iff.mpr fun _ _ ↦ hunclosed ..
    · simp only [Line.push, Option.bind_some, follow, Items.run, Option.bind_assoc]
      refine congrArg _ (funext fun s ↦ ?_)
      split_ifs
      · rfl
      · rw [Option.bind_map, Option.bind_assoc]
        refine congrArg _ (funext fun (s, truth) ↦ ?_)
        rw [Option.bind_assoc]
        exact congrArg _ (funext fun s ↦ resume_cons branches.fits_false)
  | another c =>
    rcases opens with _ | ⟨o, opens⟩
    · rcases outer with _ | ⟨⟨branches, rest⟩, outer⟩ <;> rfl
    simp only [step, Option.bind_assoc]
    rcases outer with _ | ⟨⟨branches, rest⟩, outer⟩
    · refine Option.bind_eq_none_iff.mpr fun s _ ↦ ?_
      split_ifs
      · rfl
      · rw [Option.bind_map]
        exact Option.bind_eq_none_iff.mpr fun _ _ ↦ hunclosed ..
    · simp only [Line.push, Option.bind_some, follow, Items.run]
      cases hlast : o.last with
      | true =>
        rw [resume_unfit (by rw [hlast]; exact Bool.false_ne_true)]
        exact Option.bind_fun_none _
      | false =>
        rw [resume_cons (by rw [hlast]; rfl), Branches.run, Option.bind_assoc, Option.bind_assoc]
        refine congrArg _ (funext fun s ↦ ?_)
        rw [if_neg Bool.false_ne_true, Option.bind_map]
        simp only [Option.bind_assoc]
        refine congrArg _ (funext fun (s, truth) ↦ ?_)
        refine congrArg _ (funext fun s ↦ ?_)
        refine (resume_cons branches.fits_false).trans ?_
        rw [Option.bind_assoc, Bool.not_or, Bool.and_assoc]
  | otherwise =>
    rcases opens with _ | ⟨o, opens⟩
    · rcases outer with _ | ⟨⟨_ | _ | _, rest⟩, outer⟩ <;> rfl
    simp only [step, Option.bind_assoc]
    rcases outer with _ | ⟨⟨branches, rest⟩, outer⟩
    · refine Option.bind_eq_none_iff.mpr fun s _ ↦ ?_
      split_ifs
      · rfl
      · exact hunclosed ..
    · have hbranches : branches = .closing ∨ branches.fits true = false ∧
          Line.push .otherwise (items, (branches, rest) :: outer) = none := by
        cases branches with
        | closing => exact .inl rfl
        | another | otherwise => exact .inr ⟨rfl, rfl⟩
      rcases hbranches with rfl | ⟨hfits, hpush⟩
      · simp only [Line.push, Option.bind_some, follow, Items.run]
        cases hlast : o.last with
        | true =>
          rw [resume_unfit (by rw [hlast]; exact Bool.false_ne_true)]
          exact Option.bind_fun_none _
        | false =>
          rw [resume_cons (by rw [hlast]; rfl), Branches.run, Option.bind_assoc, Option.bind_assoc]
          refine congrArg _ (funext fun s ↦ ?_)
          rw [if_neg Bool.false_ne_true, Option.bind_some, Option.bind_assoc]
          refine congrArg _ (funext fun s ↦ ?_)
          refine (resume_cons rfl).trans ?_
          rw [Option.bind_assoc]
          rfl
      · rw [hpush]
        refine Option.bind_eq_none_iff.mpr fun s _ ↦ ?_
        split_ifs
        · rfl
        · change (Items.run _ _ _ _ _ _).bind _ = none
          refine Option.bind_eq_none_iff.mpr fun s _ ↦ resume_unfit ?_
          rw [hfits]
          exact Bool.false_ne_true
  | closing =>
    rcases opens with _ | ⟨o, opens⟩
    · rfl
    · simp only [step, Line.push, Option.bind_some, follow, Items.run]
      rw [resume_cons rfl, Option.bind_map, Branches.run, Option.bind_assoc]
      rfl

/-- The walk from a place does what the text from there on means. -/
theorem walk_eq (lines : List (Line α γ)) (place : Place σ) :
    walk sem limit base lines place =
      (parse lines).bind (follow sem limit base · place) := by
  induction lines generalizing place with
  | nil =>
    obtain ⟨_ | ⟨o, opens⟩, selected, s⟩ := place <;> rfl
  | cons l lines ih =>
    rw [walk, parse, funext ih, Option.bind_assoc, ← Option.bind_comm]
    refine congrArg _ (funext fun rest ↦ ?_)
    exact step_follow l place rest

/-- **The walk over a text does what its tree means.** -/
theorem walk_tree (lines : List (Line α γ)) (s : σ) :
    walk sem limit base lines ([], true, s) =
      (tree lines).bind fun items ↦ Items.run sem limit base true items s := by
  rw [walk_eq, tree]
  split
  case h_1 h =>
    rw [h]
    exact Option.bind_fun_some _
  case h_2 h =>
    refine Option.bind_eq_none_iff.mpr fun rest hrest ↦ ?_
    obtain ⟨items, _ | ⟨⟨branches, items'⟩, outer⟩⟩ := rest
    · exact absurd hrest (h items)
    · exact Option.bind_fun_none _

end Walk

end CopySpace.Nesting
