import Mathlib.Data.List.Perm.Basic

/-!
# Selecting units on demand

A pool of units, each of which defines and references names.  Starting from some base units,
a unit of the pool is selected when it defines a name that is needed: referenced, and not yet
defined.  Each selection makes some names defined and may make others needed.

A list of selected units is `Justified` when each was needed by the units before it, and
`Closed` when no further unit is needed.  Whether two such lists are the same depends on which
unit is taken where several define one needed name; where there is only one,
`Justified.subset` shows that the order in which the pool is searched does not matter.
-/

namespace CopySpace.Selection

variable {Unit Name : Type} (Defines References : Unit → Name → Prop) (root given : Name → Prop)

/-- Some unit, or the root, references the name, and nothing defines it. -/
def Needed (units : List Unit) (name : Name) : Prop :=
  (root name ∨ ∃ unit ∈ units, References unit name) ∧ ¬ given name ∧
    ∀ unit ∈ units, ¬ Defines unit name

/-- Each unit defined, when it was taken, some name that was needed by the units before it. -/
inductive Justified (base : List Unit) : List Unit → Prop where
  | nil : Justified base []
  | snoc {selected : List Unit} {unit : Unit} (before : Justified base selected)
      (needed : ∃ name, Defines unit name ∧
        Needed Defines References root given (base ++ selected) name) :
      Justified base (selected ++ [unit])

/-- No unit of the pool that was left out defines a name that is needed. -/
def Closed (pool base selected : List Unit) : Prop :=
  ∀ unit ∈ pool, unit ∉ selected → ∀ name, Defines unit name →
    ¬ Needed Defines References root given (base ++ selected) name

/-- Every name that was needed at some time is defined by one unit at most. -/
def Unambiguous (pool base selected : List Unit) : Prop :=
  ∀ before, before <+: selected → ∀ name,
    Needed Defines References root given (base ++ before) name →
      ∀ u ∈ pool, ∀ v ∈ pool, Defines u name → Defines v name → u = v

variable {Defines References root given} {pool pool' base selected selected' : List Unit}

/-- A unit defines nothing that is needed once it is among the units. -/
theorem Needed.not_mem {units : List Unit} {name : Name} {unit : Unit}
    (h : Needed Defines References root given units name) (hd : Defines unit name) :
    unit ∉ units := fun hmem ↦ h.2.2 unit hmem hd

/-- No unit is taken twice. -/
theorem Justified.nodup (h : Justified Defines References root given base selected) :
    selected.Nodup := by
  induction h with
  | nil => exact List.nodup_nil
  | snoc _ needed ih =>
      obtain ⟨name, hd, hn⟩ := needed
      refine List.nodup_append.mpr ⟨ih, by simp, fun u hu v hv ↦ ?_⟩
      obtain rfl := List.mem_singleton.mp hv
      rintro rfl
      exact hn.not_mem hd (List.mem_append_right _ hu)

/-- A unit was needed by the units before it. -/
theorem Justified.needed {before after : List Unit} {unit : Unit}
    (h : Justified Defines References root given base (before ++ unit :: after)) :
    ∃ name, Defines unit name ∧ Needed Defines References root given (base ++ before) name := by
  generalize hl : before ++ unit :: after = l at h
  induction h generalizing after with
  | nil => exact absurd hl (List.append_ne_nil_of_right_ne_nil _ (List.cons_ne_nil _ _))
  | snoc _ needed ih =>
      rcases List.eq_nil_or_concat after with rfl | ⟨after, last, rfl⟩
      · obtain ⟨rfl, he⟩ := List.append_inj' hl rfl
        cases he
        exact needed
      · rw [List.concat_eq_append, ← List.cons_append, ← List.append_assoc] at hl
        exact ih (List.append_inj' hl rfl).1

/-- What is needed stays referenced when more units are taken. -/
theorem Needed.mono {units units' : List Unit} {name : Name} (hsub : units ⊆ units')
    (h : Needed Defines References root given units name)
    (hd : ∀ unit ∈ units', ¬ Defines unit name) :
    Needed Defines References root given units' name := by
  obtain ⟨hr, hg, -⟩ := h
  refine ⟨?_, hg, hd⟩
  rcases hr with hr | ⟨unit, hmem, hr⟩
  · exact .inl hr
  · exact .inr ⟨unit, hsub hmem, hr⟩

/-- A unit that some order takes is taken by every order that is carried to its end. -/
theorem Justified.subset (h : Justified Defines References root given base selected)
    (hpool : selected ⊆ pool) (hpool' : selected' ⊆ pool)
    (hc : Closed Defines References root given pool base selected')
    (hu : Unambiguous Defines References root given pool base selected) :
    selected ⊆ selected' := by
  induction h with
  | nil => exact List.nil_subset _
  | @snoc before unit _ needed ih =>
      have hbefore : before ⊆ selected' :=
        ih (List.append_subset.mp hpool).1 fun l hl ↦ hu l (hl.trans (List.prefix_append _ _))
      refine List.append_subset.mpr ⟨hbefore, fun v hv ↦ ?_⟩
      obtain rfl := List.mem_singleton.mp hv
      obtain ⟨name, hd, hn⟩ := needed
      have hmem : v ∈ pool := hpool (List.mem_append_right _ hv)
      by_contra hnot
      refine hc v hmem hnot name hd (hn.mono ?_ fun w hw hdw ↦ ?_)
      · exact List.append_subset.mpr ⟨List.subset_append_left _ _,
          List.Subset.trans hbefore (List.subset_append_right _ _)⟩
      · -- whoever defines the name in the end is this unit
        rcases List.mem_append.mp hw with hw | hw
        · exact hn.2.2 w (List.mem_append_left _ hw) hdw
        · have := hu before (List.prefix_append _ _) name hn v hmem w (hpool' hw) hd hdw
          exact hnot (this ▸ hw)

/-- Two orders carried to their ends select the same units. -/
theorem Justified.perm (h : Justified Defines References root given base selected)
    (h' : Justified Defines References root given base selected') (hsub : selected ⊆ pool)
    (hsub' : selected' ⊆ pool)
    (hc : Closed Defines References root given pool base selected)
    (hc' : Closed Defines References root given pool base selected')
    (hu : Unambiguous Defines References root given pool base selected)
    (hu' : Unambiguous Defines References root given pool base selected') :
    selected.Perm selected' :=
  (List.perm_ext_iff_of_nodup h.nodup h'.nodup).mpr fun _ ↦
    ⟨fun hm ↦ h.subset hsub hsub' hc' hu hm, fun hm ↦ h'.subset hsub' hsub hc hu' hm⟩

end CopySpace.Selection
