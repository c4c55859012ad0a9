import Mathlib
import CopySpace.Link.Events
import CopySpace.Link.Resolve

/-!
# Aliases

What `layout_data` makes of the aliases of a program.  The targets of an alias are a `Chain` to a
constant, to a label that is defined, or to a weak name; then the alias is resolved, and its
address is that of the end plus the addends on the way.  Or they lead to a cycle, or to a name
that is neither defined nor weak; then the layout fails (`alias_resolution`).
-/

namespace CopySpace.Link

/-- The aliases from a label to the end of its targets, which is a constant or a label. -/
inductive Chain (aliases : List Alias) : Key → List Alias → Option Key → Prop where
  | label {k : Key} (h : ∀ a ∈ aliases, a.label ≠ k) : Chain aliases k [] (some k)
  | constant {a : Alias} (ha : a ∈ aliases) (ht : a.target = none) :
      Chain aliases a.label [a] none
  | target {a : Alias} {k : Key} {chain : List Alias} {e : Option Key} (ha : a ∈ aliases)
      (ht : a.target = some k) (h : Chain aliases k chain e) :
      Chain aliases a.label (a :: chain) e

/-- The end is a constant, or a label that is defined or weak. -/
def LabelTable.Ends (t : LabelTable) : Option Key → Prop
  | none => True
  | some k => (t.label k).defined = true ∨ (t.label k).weak = true

/-- The end is a weak name that nothing defines. -/
def LabelTable.MissingWeak (t : LabelTable) : Option Key → Prop
  | none => False
  | some k => (t.label k).defined = false ∧ (t.label k).weak = true

/-- Nothing defines the name, and it is not weak. -/
def LabelTable.UndefinedStrong (t : LabelTable) (k : Key) : Prop :=
  (t.label k).defined = false ∧ (t.label k).weak = false ∧ ∀ a ∈ t.aliases, a.label ≠ k

/-- An alias leads to its target. -/
def LabelTable.Leads (t : LabelTable) (k k' : Key) : Prop :=
  ∃ a ∈ t.aliases, a.label = k ∧ a.target = some k'

/-- The address of the end of a chain; a constant is in the addend of its alias. -/
def endAddress (label : Key → Label) : Option Key → Nat
  | none => 0
  | some k => (label k).address

/-- The kind of the end of a chain. -/
def endData (label : Key → Label) : Option Key → Int
  | none => -1
  | some k => (label k).data

variable {t t' : LabelTable} {sections : List DataSection} {k : Key} {a : Alias}
  {chain : List Alias} {e : Option Key}

/-! ## The labels before the passes -/

theorem placeLabel_of_not {l : Label} (h : l.defined = false) : placeLabel sections l = l := by
  unfold placeLabel
  split
  · simp [h]
  · rfl

theorem placeLabel_marks (sections : List DataSection) (l : Label) :
    (placeLabel sections l).defined = l.defined ∧ (placeLabel sections l).isAlias = l.isAlias ∧
      (placeLabel sections l).weak = l.weak ∧ (placeLabel sections l).data = l.data ∧
      (placeLabel sections l).missingWeak = l.missingWeak := by
  unfold placeLabel
  split
  · split
    · exact ⟨rfl, rfl, rfl, rfl, rfl⟩
    · exact ⟨rfl, rfl, rfl, rfl, rfl⟩
  · exact ⟨rfl, rfl, rfl, rfl, rfl⟩

/-- An alias has no value yet. -/
theorem values_alias (hg : t.Good) (ha : a ∈ t.aliases) :
    values (placeLabels sections t.label) a.label = none := by
  have hd := hg.undefined a ha
  have hm := (hg.marked a.label).mpr ⟨a, ha, rfl⟩
  refine Label.value_of_not ?_
  rw [placeLabels, placeLabel_of_not hd, missWeak, if_neg (by simp [hm])]
  exact hd

/-- A label that is defined has its final value. -/
theorem placeLabels_defined (hd : (t.label k).defined = true) :
    placeLabels sections t.label k = placeLabel sections (t.label k) := by
  rw [placeLabels, missWeak, if_neg (by simp [(placeLabel_marks sections (t.label k)).1, hd])]

/-- A weak name that nothing defines has address 0. -/
theorem placeLabels_weak (hd : (t.label k).defined = false) (hw : (t.label k).weak = true)
    (hm : (t.label k).isAlias = false) : placeLabels sections t.label k =
      { t.label k with defined := true, data := -1, address := 0, missingWeak := true } := by
  rw [placeLabels, placeLabel_of_not hd, missWeak, if_pos (by simp [hd, hw, hm])]

theorem placeLabels_strong (hd : (t.label k).defined = false) (hw : (t.label k).weak = false) :
    placeLabels sections t.label k = t.label k := by
  rw [placeLabels, placeLabel_of_not hd, missWeak, if_neg (by simp [hw])]

/-- No alias has this label. -/
theorem LabelTable.Good.not_isAlias (hg : t.Good) (h : ∀ a ∈ t.aliases, a.label ≠ k) :
    (t.label k).isAlias = false := by
  refine Bool.eq_false_iff.mpr fun hm ↦ ?_
  obtain ⟨a, ha, he⟩ := (hg.marked k).mp hm
  exact h a ha he

theorem values_none_iff (hg : t.Good) (h : ∀ a ∈ t.aliases, a.label ≠ k) :
    values (placeLabels sections t.label) k = none ↔
      (t.label k).defined = false ∧ (t.label k).weak = false := by
  cases hd : (t.label k).defined with
  | true =>
      have hplaced : (placeLabel sections (t.label k)).defined = true := by
        rw [(placeLabel_marks sections _).1, hd]
      rw [values, placeLabels_defined hd, Label.value_of hplaced]
      simp
  | false =>
      cases hw : (t.label k).weak with
      | true =>
          rw [values, placeLabels_weak hd hw (hg.not_isAlias h)]
          simp [Label.value]
      | false =>
          rw [values, placeLabels_strong hd hw, Label.value_of_not hd]
          simp

theorem functional_rules (hg : t.Good) : Relax.Functional (t.aliases.map Alias.rule) := by
  intro r hr r' hr' he
  obtain ⟨a, ha, rfl⟩ := List.mem_map.mp hr
  obtain ⟨b, hb, rfl⟩ := List.mem_map.mp hr'
  rw [List.inj_on_of_nodup_map hg.nodup ha hb he]

/-- The labels after the passes. -/
def resolved (sections : List DataSection) (t : LabelTable) : Key → Label :=
  resolveAliases t.aliases (placeLabels sections t.label)

theorem values_resolved : values (resolved sections t) =
    Relax.resolve (t.aliases.map Alias.rule) (values (placeLabels sections t.label)) :=
  values_resolveAliases _ _

/-! ## Chains -/

/-- The value at the end of a chain, which the passes do not change. -/
def endValue (sections : List DataSection) (t : LabelTable) (e : Option Key) : Value :=
  (endAddress (resolved sections t) e, endData (resolved sections t) e,
    e.any fun k ↦ !(t.label k).defined)

theorem Chain.end_not_alias (h : Chain t.aliases k chain e) :
    ∀ k' ∈ e, ∀ a ∈ t.aliases, a.label ≠ k' := by
  induction h with
  | label h =>
      rintro k' ⟨⟩
      exact h
  | constant => exact fun _ hk ↦ nomatch hk
  | target _ _ _ ih => exact ih

theorem Chain.ne_nil (h : Chain t.aliases k chain e) (ha : a ∈ t.aliases) (hk : a.label = k) :
    chain ≠ [] := by
  cases h with
  | label hno => exact absurd hk (hno a ha)
  | constant => exact List.cons_ne_nil _ _
  | target => exact List.cons_ne_nil _ _

theorem values_end (hg : t.Good) (h : ∀ a ∈ t.aliases, a.label ≠ k) (he : t.Ends (some k)) :
    values (placeLabels sections t.label) k = some (endValue sections t (some k)) := by
  have hres : resolved sections t k = placeLabels sections t.label k :=
    resolveAliases_of_forall_ne h _
  simp only [endValue, endAddress, endData, hres, Option.any_some]
  cases hd : (t.label k).defined with
  | true =>
      obtain ⟨hdef, -, -, -, hmiss⟩ := placeLabel_marks sections (t.label k)
      rw [values, placeLabels_defined hd, Label.value_of (hdef.trans hd), hmiss, hg.present k]
      rfl
  | false =>
      have hw : (t.label k).weak = true := he.resolve_left (by simp [hd])
      rw [values, placeLabels_weak hd hw (hg.not_isAlias h)]
      rfl

/-- What a chain that comes to an end denotes. -/
theorem Chain.denotes (hg : t.Good) (h : Chain t.aliases k chain e) (he : t.Ends e) :
    ∃ v, Relax.Denotes (t.aliases.map Alias.rule) (values (placeLabels sections t.label)) k v ∧
      v.1 % 2 ^ 32 = ((endValue sections t e).1 + (chain.map Alias.addend).sum) % 2 ^ 32 ∧
      v.2 = (endValue sections t e).2 ∧ (chain ≠ [] → v.1 < 2 ^ 32) := by
  induction h with
  | label h =>
      exact ⟨_, .given (values_end hg h he), by simp, rfl, fun h ↦ absurd rfl h⟩
  | @constant a ha ht =>
      refine ⟨_, .const (r := a.rule) (List.mem_map.mpr ⟨a, ha, rfl⟩) (values_alias hg ha) ht,
        ?_, rfl, fun _ ↦ Nat.mod_lt _ (by decide)⟩
      simp [Alias.rule, Alias.value, endValue, endAddress]
  | @target a k chain e ha ht _ ih =>
      obtain ⟨v, hv, haddress, hrest, -⟩ := ih he
      refine ⟨_, .follow (r := a.rule) (List.mem_map.mpr ⟨a, ha, rfl⟩) (values_alias hg ha) ht hv,
        ?_, hrest, fun _ ↦ Nat.mod_lt _ (by decide)⟩
      change (a.addend + v.1) % 2 ^ 32 % 2 ^ 32 = _
      rw [List.map_cons, List.sum_cons]
      omega

/-- What has a value has a chain that comes to an end. -/
theorem exists_chain (hg : t.Good) {v : Value}
    (h : Relax.Denotes (t.aliases.map Alias.rule) (values (placeLabels sections t.label)) k v) :
    ∃ chain e, Chain t.aliases k chain e ∧ t.Ends e := by
  induction h with
  | @given k v hv =>
      have hno : ∀ a ∈ t.aliases, a.label ≠ k := by
        rintro a ha rfl
        rw [values_alias hg ha] at hv
        cases hv
      refine ⟨[], some k, .label hno, ?_⟩
      by_contra hends
      obtain ⟨hd, hw⟩ := not_or.mp hends
      rw [(values_none_iff hg hno).mpr ⟨Bool.eq_false_iff.mpr hd, Bool.eq_false_iff.mpr hw⟩] at hv
      cases hv
  | const hr _ ht =>
      obtain ⟨a, ha, rfl⟩ := List.mem_map.mp hr
      exact ⟨[a], none, .constant ha ht, trivial⟩
  | follow hr _ ht _ ih =>
      obtain ⟨a, ha, rfl⟩ := List.mem_map.mp hr
      obtain ⟨chain, e, hchain, hends⟩ := ih
      exact ⟨a :: chain, e, .target ha ht hchain, hends⟩

/-! ## Aliases without a value -/

theorem leads_iff (hg : t.Good) :
    Relax.Leads (t.aliases.map Alias.rule) (values (placeLabels sections t.label)) = t.Leads := by
  funext k k'
  refine propext ⟨?_, ?_⟩
  · rintro ⟨r, hr, rfl, -, ht⟩
    obtain ⟨a, ha, rfl⟩ := List.mem_map.mp hr
    exact ⟨a, ha, rfl, ht⟩
  · rintro ⟨a, ha, rfl, ht⟩
    exact ⟨a.rule, List.mem_map.mpr ⟨a, ha, rfl⟩, rfl, values_alias hg ha, ht⟩

theorem undefined_iff (hg : t.Good) :
    Relax.Undefined (t.aliases.map Alias.rule) (values (placeLabels sections t.label)) k ↔
      t.UndefinedStrong k := by
  have hrules : (∀ r ∈ t.aliases.map Alias.rule, r.item ≠ k) ↔ ∀ a ∈ t.aliases, a.label ≠ k :=
    List.forall_mem_map
  unfold Relax.Undefined LabelTable.UndefinedStrong
  rw [hrules]
  constructor
  · rintro ⟨hv, hno⟩
    obtain ⟨hd, hw⟩ := (values_none_iff hg hno).mp hv
    exact ⟨hd, hw, hno⟩
  · rintro ⟨hd, hw, hno⟩
    exact ⟨(values_none_iff hg hno).mpr ⟨hd, hw⟩, hno⟩

/-- The targets lead to a cycle or to an undefined strong name. -/
def LabelTable.Stuck (t : LabelTable) (k : Key) : Prop :=
  ∃ k', Relation.ReflTransGen t.Leads k k' ∧
    (Relation.TransGen t.Leads k' k' ∨ t.UndefinedStrong k')

theorem stuck_iff (hg : t.Good) :
    Relax.Stuck (t.aliases.map Alias.rule) (values (placeLabels sections t.label)) k ↔
      t.Stuck k := by
  simp only [Relax.Stuck, LabelTable.Stuck, leads_iff hg, undefined_iff hg]

theorem defined_resolved : (resolved sections t k).defined = true ↔
    ∃ v, values (resolved sections t) k = some v := by
  rw [← Option.isSome_iff_exists, values, Label.isSome_value]

/-- The passes resolve what has a chain that comes to an end. -/
theorem resolved_iff (hg : t.Good) : (resolved sections t k).defined = true ↔
    ∃ chain e, Chain t.aliases k chain e ∧ t.Ends e := by
  rw [defined_resolved, values_resolved]
  simp only [Relax.resolve_eq_some (functional_rules hg)]
  constructor
  · rintro ⟨v, hv⟩
    exact exists_chain hg hv
  · rintro ⟨chain, e, h, he⟩
    obtain ⟨v, hv, -⟩ := h.denotes hg he
    exact ⟨v, hv⟩

theorem resolved_stuck (hg : t.Good) : (resolved sections t k).defined = false ↔ t.Stuck k := by
  rw [← @stuck_iff _ sections _ hg, ← Relax.resolve_eq_none (functional_rules hg),
    ← values_resolved, ← Bool.not_eq_true, defined_resolved, ← Option.ne_none_iff_exists', not_not]

/-- A resolved alias is its end and the addends on the way. -/
theorem resolved_value (hg : t.Good) (ha : a ∈ t.aliases) (h : Chain t.aliases a.label chain e)
    (he : t.Ends e) :
    (resolved sections t a.label).address =
        (endAddress (resolved sections t) e + (chain.map Alias.addend).sum) % 2 ^ 32 ∧
      (resolved sections t a.label).data = endData (resolved sections t) e ∧
      ((resolved sections t a.label).missingWeak = true ↔ t.MissingWeak e) := by
  obtain ⟨v, hv, haddress, hrest, hlt⟩ := @Chain.denotes _ sections _ _ _ hg h he
  rw [← Relax.resolve_eq_some (functional_rules hg), ← values_resolved] at hv
  have hd := defined_resolved.mpr ⟨v, hv⟩
  have hv' := Option.some.inj (hv.symm.trans (Label.value_of hd))
  have hne : chain ≠ [] := h.ne_nil ha rfl
  rw [hv'] at haddress hrest hlt
  refine ⟨?_, congrArg Prod.fst hrest, ?_⟩
  · exact (Nat.mod_eq_of_lt (hlt hne)).symm.trans haddress
  · rw [show (resolved sections t a.label).missingWeak = (endValue sections t e).2.2 from
      congrArg Prod.snd hrest]
    cases e with
    | none => simp [endValue, LabelTable.MissingWeak]
    | some k =>
        rw [endValue, Option.any_some]
        cases hd : (t.label k).defined with
        | true => simp [LabelTable.MissingWeak, hd]
        | false => exact iff_of_true rfl ⟨hd, he.resolve_left (by simp [hd])⟩

/-! ## The layout of a program -/

variable {labelCapacity : Nat} {assembly : Text}
  {operations operations' : List (Option Nat × LabelOperation)}

/-- What the layout makes of the labels: whether it succeeds, and the values. -/
def laidOut (memoryBytes : Nat) (sections : List DataSection) (t : LabelTable) :
    Bool × (Key → Option Value) :=
  ((layoutData memoryBytes sections t).1, values (layoutData memoryBytes sections t).2.2.label)

theorem layoutData_of_none {memoryBytes : Nat}
    (h : layoutSections (memoryBytes / 2) 256 sections = none) :
    layoutData memoryBytes sections t = (false, sections, t) := by
  rw [layoutData, h]

theorem layoutData_of_some {memoryBytes : Nat} {placed : List DataSection}
    (h : layoutSections (memoryBytes / 2) 256 sections = some placed) :
    layoutData memoryBytes sections t =
      (t.aliases.all fun a ↦ (resolved placed t a.label).defined, placed,
        { t with label := resolved placed t }) := by
  rw [layoutData, h]
  rfl

/-- The order of the aliases does not matter. -/
theorem laidOut_congr {memoryBytes : Nat} (hg : t.Good) (h : t.view = t'.view) :
    laidOut memoryBytes sections t = laidOut memoryBytes sections t' := by
  obtain ⟨-, -, hlabel, hperm⟩ := LabelTable.view_eq_iff.mp h
  cases hp : layoutSections (memoryBytes / 2) 256 sections with
  | none => rw [laidOut, laidOut, layoutData_of_none hp, layoutData_of_none hp, hlabel]
  | some placed =>
      have hvalues : values (resolved placed t) = values (resolved placed t') := by
        rw [values_resolved, values_resolved, hlabel]
        exact Relax.resolve_congr (functional_rules hg) fun r ↦ (hperm.map Alias.rule).mem_iff
      have hdefined : ∀ k, (resolved placed t k).defined = (resolved placed t' k).defined := fun k ↦ by
        rw [← Label.isSome_value, ← Label.isSome_value]
        exact congrArg Option.isSome (congrFun hvalues k)
      rw [laidOut, laidOut, layoutData_of_some hp, layoutData_of_some hp]
      refine Prod.ext ?_ hvalues
      change t.aliases.all _ = t'.aliases.all _
      rw [hperm.all_eq]
      exact congrArg (List.all t'.aliases) (funext fun a ↦ hdefined a.label)

/-- Aliases of each other, of a weak name and of a label. -/
def smallAliases : List (Option Nat × LabelOperation) :=
  [(some 0, .set "c,a-1".toList), (some 0, .set "a, w + 3".toList), (some 0, .weak "w".toList),
    (some 0, .define "x".toList 100 0), (some 0, .set "d,x".toList)]

end CopySpace.Link
