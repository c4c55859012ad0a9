import Mathlib.Data.Finset.Card
import Mathlib.Logic.Relation
import Mathlib.Order.WellFounded
import Mathlib.Data.Fintype.Order
import Mathlib.Data.Set.Finite.List

/-!
# Definitions resolved by passes

Items are given values by rules; a rule finds the value of its item on its own or from that of
one other item, its target.  One pass goes over the rules once, in any order, and gives values
where it can.  After as many passes as there are rules an item has the value that it `Denotes`,
if it denotes one (`resolve_eq_some`), and it denotes none exactly when it is `Stuck`: the
targets lead from it to a cycle or to an item that has neither a value nor a rule.
-/

namespace CopySpace.Relax

variable {ι V : Type}

/-- How an item gets its value. -/
structure Rule (ι V : Type) where
  item : ι
  target : Option ι
  value : Option V → V

section Pass

variable [DecidableEq ι]

/-- Give the item of a rule its value, if it has none and its target has one. -/
def step (s : ι → Option V) (r : Rule ι V) : ι → Option V :=
  if (s r.item).isSome then s
  else match r.target with
    | none => Function.update s r.item (some (r.value none))
    | some t => if (s t).isSome then Function.update s r.item (some (r.value (s t))) else s

/-- Go over the rules once. -/
def pass (rules : List (Rule ι V)) (s : ι → Option V) : ι → Option V := rules.foldl step s

/-- As many passes as there are rules. -/
def resolve (rules : List (Rule ι V)) (s : ι → Option V) : ι → Option V :=
  (pass rules)^[rules.length] s

end Pass

/-- The value that an item denotes. -/
inductive Denotes (rules : List (Rule ι V)) (s : ι → Option V) : ι → V → Prop where
  | given {i : ι} {v : V} (h : s i = some v) : Denotes rules s i v
  | const {r : Rule ι V} (hr : r ∈ rules) (hs : s r.item = none) (ht : r.target = none) :
      Denotes rules s r.item (r.value none)
  | follow {r : Rule ι V} {t : ι} {v : V} (hr : r ∈ rules) (hs : s r.item = none)
      (ht : r.target = some t) (h : Denotes rules s t v) :
      Denotes rules s r.item (r.value (some v))

/-- No item has two rules. -/
def Functional (rules : List (Rule ι V)) : Prop :=
  ∀ r ∈ rules, ∀ r' ∈ rules, r.item = r'.item → r = r'

/-- Every value stays. -/
def Extends (s s' : ι → Option V) : Prop := ∀ i v, s i = some v → s' i = some v

variable {rules : List (Rule ι V)} {s s' s₀ : ι → Option V} {i j : ι} {v v' : V}

theorem Denotes.unique (hf : Functional rules) (h : Denotes rules s i v)
    (h' : Denotes rules s i v') : v = v' := by
  induction h generalizing v' with
  | given h =>
      cases h' with
      | given h' => exact Option.some.inj (h.symm.trans h')
      | const _ hs => rw [hs] at h; cases h
      | follow _ hs => rw [hs] at h; cases h
  | @const r hr hs ht =>
      generalize hi : r.item = i at h' hs
      cases h' with
      | given h' => rw [hs] at h'; cases h'
      | const hr' => rw [hf _ hr _ hr' hi]
      | follow hr' _ ht' =>
          rw [hf _ hr _ hr' hi, ht'] at ht
          cases ht
  | @follow r t w hr hs ht h ih =>
      generalize hi : r.item = i at h' hs
      cases h' with
      | given h' => rw [hs] at h'; cases h'
      | const hr' _ ht' =>
          rw [hf _ hr _ hr' hi, ht'] at ht
          cases ht
      | follow hr' _ ht' h' =>
          obtain rfl := hf _ hr _ hr' hi
          rw [ht] at ht'
          cases ht'
          rw [ih h']

theorem Extends.refl (s : ι → Option V) : Extends s s := fun _ _ h ↦ h

theorem Extends.trans {s'' : ι → Option V} (h : Extends s s') (h' : Extends s' s'') :
    Extends s s'' := fun i v hv ↦ h' i v (h i v hv)

theorem Extends.antisymm (h : Extends s s') (h' : Extends s' s) : s = s' := by
  funext i
  cases hi : s i with
  | some v => exact (h i v hi).symm
  | none =>
      cases hi' : s' i with
      | some v =>
          rw [h' i v hi'] at hi
          cases hi
      | none => rfl

/-! ## Passes -/

section Pass

variable [DecidableEq ι]

theorem step_of_some {r : Rule ι V} (h : s r.item = some v) : step s r = s :=
  if_pos (by rw [h]; rfl)

theorem step_const {r : Rule ι V} (h : s r.item = none) (ht : r.target = none) :
    step s r = Function.update s r.item (some (r.value none)) := by
  simp [step, h, ht]

theorem step_follow {r : Rule ι V} {t : ι} (h : s r.item = none) (ht : r.target = some t)
    (hv : s t = some v) : step s r = Function.update s r.item (some (r.value (some v))) := by
  simp [step, h, ht, hv]

theorem step_of_none {r : Rule ι V} {t : ι} (ht : r.target = some t) (hv : s t = none) :
    step s r = s := by
  simp [step, ht, hv]

theorem extends_update (h : s i = none) : Extends s (Function.update s i (some v)) :=
  fun j w hj ↦ by
    have hne : j ≠ i := by
      rintro rfl
      rw [h] at hj
      cases hj
    rwa [Function.update_of_ne hne]

/-- What a step does. -/
theorem step_cases (s : ι → Option V) (r : Rule ι V) :
    step s r = s ∧ ((s r.item).isSome ∨ ∃ t, r.target = some t ∧ s t = none) ∨
      s r.item = none ∧ r.target = none ∧
        step s r = Function.update s r.item (some (r.value none)) ∨
      s r.item = none ∧ ∃ t v, r.target = some t ∧ s t = some v ∧
        step s r = Function.update s r.item (some (r.value (some v))) := by
  cases h : s r.item with
  | some v => exact .inl ⟨step_of_some h, .inl rfl⟩
  | none =>
      cases ht : r.target with
      | none => exact .inr (.inl ⟨rfl, rfl, step_const h ht⟩)
      | some t =>
          cases hv : s t with
          | none => exact .inl ⟨step_of_none ht hv, .inr ⟨t, rfl, hv⟩⟩
          | some v => exact .inr (.inr ⟨rfl, t, v, rfl, hv, step_follow h ht hv⟩)

theorem step_extends (s : ι → Option V) (r : Rule ι V) : Extends s (step s r) := by
  obtain ⟨h, -⟩ | ⟨hn, -, h⟩ | ⟨hn, t, v, -, -, h⟩ := step_cases s r
  · rw [h]
    exact .refl s
  · rw [h]
    exact extends_update hn
  · rw [h]
    exact extends_update hn

theorem foldl_extends (l : List (Rule ι V)) (s : ι → Option V) : Extends s (l.foldl step s) := by
  induction l generalizing s with
  | nil => exact .refl s
  | cons r l ih => exact (step_extends s r).trans (ih _)

theorem pass_extends (rules : List (Rule ι V)) (s : ι → Option V) : Extends s (pass rules s) :=
  foldl_extends rules s

/-- The values so far are those that the items denote. -/
structure Sound (rules : List (Rule ι V)) (s₀ s : ι → Option V) : Prop where
  ext : Extends s₀ s
  denotes : ∀ i v, s i = some v → Denotes rules s₀ i v

omit [DecidableEq ι] in
theorem Sound.none (h : Sound rules s₀ s) (hi : s i = none) : s₀ i = none := by
  cases h₀ : s₀ i with
  | none => rfl
  | some v =>
      rw [h.ext i v h₀] at hi
      cases hi

theorem Sound.update (h : Sound rules s₀ s) (hi : s i = Option.none) (hd : Denotes rules s₀ i v) :
    Sound rules s₀ (Function.update s i (some v)) where
  ext := h.ext.trans (extends_update hi)
  denotes j w hj := by
    by_cases hji : j = i
    · subst hji
      rw [Function.update_self] at hj
      cases hj
      exact hd
    · rw [Function.update_of_ne hji] at hj
      exact h.denotes j w hj

theorem Sound.step {r : Rule ι V} (h : Sound rules s₀ s) (hr : r ∈ rules) :
    Sound rules s₀ (step s r) := by
  obtain ⟨e, -⟩ | ⟨hn, ht, e⟩ | ⟨hn, t, v, ht, hv, e⟩ := step_cases s r
  · rwa [e]
  · rw [e]
    exact h.update hn (.const hr (h.none hn) ht)
  · rw [e]
    exact h.update hn (.follow hr (h.none hn) ht (h.denotes t v hv))

theorem Sound.pass (h : Sound rules s₀ s) : Sound rules s₀ (pass rules s) := by
  have hfold : ∀ l : List (Rule ι V), l ⊆ rules → ∀ s, Sound rules s₀ s →
      Sound rules s₀ (l.foldl Relax.step s) := by
    intro l
    induction l with
    | nil => exact fun _ s h ↦ h
    | cons r l ih =>
        exact fun hl s h ↦ ih (fun x hx ↦ hl (List.mem_cons_of_mem _ hx)) _
          (h.step (hl List.mem_cons_self))
  exact hfold rules (List.Subset.refl _) s h

theorem Sound.iterate (h : Sound rules s₀ s) (n : Nat) : Sound rules s₀ ((Relax.pass rules)^[n] s) := by
  induction n generalizing s with
  | zero => exact h
  | succ n ih => exact ih h.pass

/-- A pass that changes nothing leaves no rule that could be applied. -/
theorem step_eq_of_pass_eq (h : pass rules s = s) {r : Rule ι V} (hr : r ∈ rules) :
    step s r = s := by
  have hfold : ∀ l : List (Rule ι V), l.foldl step s = s → ∀ r ∈ l, step s r = s := by
    intro l
    induction l with
    | nil => exact fun _ r hr ↦ absurd hr List.not_mem_nil
    | cons x l ih =>
        intro hl r hr
        have hx : step s x = s := Extends.antisymm
          ((foldl_extends l (step s x)).trans (by rw [show l.foldl step (step s x) = s from hl]; exact .refl s))
          (step_extends s x)
        rw [List.foldl_cons, hx] at hl
        rcases List.mem_cons.mp hr with rfl | hr
        · exact hx
        · exact ih hl r hr
  exact hfold rules h r hr

/-- Then every item has the value that it denotes. -/
theorem eq_some_of_pass_eq (hf : Functional rules) (hs : Sound rules s₀ s)
    (h : pass rules s = s) (hd : Denotes rules s₀ i v) : s i = some v := by
  have hsome : ∀ {i v}, Denotes rules s₀ i v → ∃ w, s i = some w := by
    intro i v hd
    induction hd with
    | given hv => exact ⟨_, hs.ext _ _ hv⟩
    | @const r hr hn ht =>
        cases hi : s r.item with
        | some w => exact ⟨w, rfl⟩
        | none =>
            have hstep := step_eq_of_pass_eq h hr
            rw [step_const hi ht] at hstep
            have := congrFun hstep r.item
            rw [Function.update_self, hi] at this
            cases this
    | @follow r t w hr hn ht hd ih =>
        obtain ⟨u, hu⟩ := ih
        cases hi : s r.item with
        | some w => exact ⟨w, rfl⟩
        | none =>
            have hstep := step_eq_of_pass_eq h hr
            rw [step_follow hi ht hu] at hstep
            have := congrFun hstep r.item
            rw [Function.update_self, hi] at this
            cases this
  obtain ⟨w, hw⟩ := hsome hd
  rw [hw, (hs.denotes i w hw).unique hf hd]

/-- The items of rules that have no value. -/
def pending (rules : List (Rule ι V)) (s : ι → Option V) : Finset ι :=
  (rules.map Rule.item).toFinset.filter fun i ↦ (s i).isNone

theorem mem_pending : i ∈ pending rules s ↔ (∃ r ∈ rules, r.item = i) ∧ s i = none := by
  simp [pending]

/-- Steps give values to the items of their rules only. -/
theorem foldl_of_forall_ne {l : List (Rule ι V)} (h : ∀ r ∈ l, r.item ≠ i) (s : ι → Option V) :
    l.foldl step s i = s i := by
  induction l generalizing s with
  | nil => rfl
  | cons r l ih =>
      have hr : i ≠ r.item := fun hi ↦ h r List.mem_cons_self hi.symm
      rw [List.foldl_cons, ih fun x hx ↦ h x (List.mem_cons_of_mem _ hx)]
      obtain ⟨e, -⟩ | ⟨-, -, e⟩ | ⟨-, t, v, -, -, e⟩ := step_cases s r
      · rw [e]
      · rw [e, Function.update_of_ne hr]
      · rw [e, Function.update_of_ne hr]

/-- A pass that changes something gives an item a value. -/
theorem card_pending_lt (h : pass rules s ≠ s) :
    (pending rules (pass rules s)).card < (pending rules s).card := by
  obtain ⟨i, hi⟩ : ∃ i, pass rules s i ≠ s i := by
    by_contra hall
    exact h (funext fun i ↦ not_not.mp fun hi ↦ hall ⟨i, hi⟩)
  have hr : ∃ r ∈ rules, r.item = i := by
    by_contra hno
    exact hi (foldl_of_forall_ne (fun r hr he ↦ hno ⟨r, hr, he⟩) s)
  have hs : s i = none := by
    cases hs : s i with
    | none => rfl
    | some v => exact absurd ((pass_extends rules s i v hs).trans hs.symm) hi
  refine Finset.card_lt_card ⟨fun j hj ↦ ?_, fun hsub ↦ ?_⟩
  · rw [mem_pending] at hj ⊢
    refine ⟨hj.1, ?_⟩
    cases hj' : s j with
    | none => rfl
    | some v => exact absurd (hj.2.symm.trans (pass_extends rules s j v hj')) (by simp)
  · exact hi ((mem_pending.mp (hsub (mem_pending.mpr ⟨hr, hs⟩))).2.trans hs.symm)

theorem iterate_stays (h : pass rules s = s) (n : Nat) : (pass rules)^[n] s = s :=
  Function.iterate_fixed h n

/-- As many passes as there are pending items reach the end. -/
theorem pass_iterate (n : Nat) (h : (pending rules s).card ≤ n) :
    pass rules ((pass rules)^[n] s) = (pass rules)^[n] s := by
  induction n generalizing s with
  | zero =>
      by_contra hne
      have := card_pending_lt (s := s) hne
      omega
  | succ n ih =>
      by_cases hfix : pass rules s = s
      · rw [iterate_stays hfix, hfix]
      · have := card_pending_lt hfix
        rw [Function.iterate_succ_apply]
        exact ih (by omega)

theorem card_pending_le (rules : List (Rule ι V)) (s : ι → Option V) :
    (pending rules s).card ≤ rules.length :=
  (Finset.card_filter_le _ _).trans ((List.toFinset_card_le _).trans_eq (List.length_map _))

/-- The passes find what the items denote. -/
theorem resolve_eq_some (hf : Functional rules) :
    resolve rules s i = some v ↔ Denotes rules s i v := by
  have hsound : Sound rules s (resolve rules s) :=
    Sound.iterate ⟨.refl s, fun _ _ h ↦ .given h⟩ _
  exact ⟨hsound.denotes i v, eq_some_of_pass_eq hf hsound
    (pass_iterate _ (card_pending_le rules s))⟩

/-- The order of the rules, and how often each is there, does not matter. -/
theorem resolve_congr {rules' : List (Rule ι V)} (hf : Functional rules)
    (h : ∀ r, r ∈ rules ↔ r ∈ rules') : resolve rules s = resolve rules' s := by
  have hf' : Functional rules' := fun r hr r' hr' ↦ hf r ((h r).mpr hr) r' ((h r').mpr hr')
  have hmono : ∀ {l l' : List (Rule ι V)}, (∀ r, r ∈ l → r ∈ l') → ∀ {i v},
      Denotes l s i v → Denotes l' s i v := by
    intro l l' hl i v hd
    induction hd with
    | given hv => exact .given hv
    | const hr hn ht => exact .const (hl _ hr) hn ht
    | follow hr hn ht _ ih => exact .follow (hl _ hr) hn ht ih
  funext i
  refine Option.ext fun v ↦ ?_
  rw [resolve_eq_some hf, resolve_eq_some hf']
  exact ⟨hmono fun r ↦ (h r).mp, hmono fun r ↦ (h r).mpr⟩

end Pass

/-! ## Items that denote nothing -/

/-- A rule leads from its item to its target. -/
def Leads (rules : List (Rule ι V)) (s : ι → Option V) (i j : ι) : Prop :=
  ∃ r ∈ rules, r.item = i ∧ s i = none ∧ r.target = some j

/-- The item has neither a value nor a rule. -/
def Undefined (rules : List (Rule ι V)) (s : ι → Option V) (i : ι) : Prop :=
  s i = none ∧ ∀ r ∈ rules, r.item ≠ i

/-- The rules lead to a cycle or to an undefined item. -/
def Stuck (rules : List (Rule ι V)) (s : ι → Option V) (i : ι) : Prop :=
  ∃ j, Relation.ReflTransGen (Leads rules s) i j ∧
    (Relation.TransGen (Leads rules s) j j ∨ Undefined rules s j)

theorem Leads.unique (hf : Functional rules) {k : ι} (h : Leads rules s i j)
    (h' : Leads rules s i k) : j = k := by
  obtain ⟨r, hr, rfl, -, ht⟩ := h
  obtain ⟨r', hr', hi, -, ht'⟩ := h'
  rw [hf r' hr' r hr hi, ht] at ht'
  exact Option.some.inj ht'

/-- What holds for an item that is stuck holds for its target. -/
theorem Stuck.next (hf : Functional rules) (h : Stuck rules s i) (hij : Leads rules s i j) :
    Stuck rules s j := by
  obtain ⟨k, hik, hk⟩ := h
  rcases Relation.ReflTransGen.cases_head hik with rfl | ⟨j', hij', hjk⟩
  · rcases hk with hcycle | ⟨-, hno⟩
    · obtain ⟨j', hij', hji⟩ := (Relation.TransGen.head'_iff).mp hcycle
      obtain rfl := hij.unique hf hij'
      exact ⟨i, hji, .inl hcycle⟩
    · obtain ⟨r, hr, hri, -⟩ := hij
      exact absurd hri (hno r hr)
  · obtain rfl := hij.unique hf hij'
    exact ⟨k, hjk, hk⟩

theorem Denotes.not_stuck (hf : Functional rules) (h : Denotes rules s i v) :
    ¬ Stuck rules s i := by
  -- no rule leads away from the end of a chain
  have hend : ∀ {i}, (∀ j, ¬ Leads rules s i j) → ¬ Undefined rules s i → ¬ Stuck rules s i := by
    rintro i hno hdef ⟨j, hij, hj⟩
    rcases Relation.ReflTransGen.cases_head hij with rfl | ⟨k, hik, -⟩
    · rcases hj with hcycle | hund
      · obtain ⟨k, hik, -⟩ := (Relation.TransGen.head'_iff).mp hcycle
        exact hno k hik
      · exact hdef hund
    · exact hno k hik
  induction h with
  | given h =>
      refine hend (fun j ↦ ?_) fun hund ↦ ?_
      · rintro ⟨r, -, -, hn, -⟩
        rw [h] at hn
        cases hn
      · rw [hund.1] at h
        cases h
  | @const r hr hs ht =>
      refine hend (fun j ↦ ?_) fun hund ↦ hund.2 r hr rfl
      rintro ⟨r', hr', hi, -, ht'⟩
      rw [hf r' hr' r hr hi, ht] at ht'
      cases ht'
  | @follow r t v hr hs ht h ih => exact fun hstuck ↦ ih (hstuck.next hf ⟨r, hr, rfl, hs, ht⟩)

/-- An item that is not stuck denotes a value: the rules lead on without a cycle, and there are
finitely many of them. -/
theorem exists_denotes (h : ¬ Stuck rules s i) : ∃ v, Denotes rules s i v := by
  let Item := {j // Relation.ReflTransGen (Leads rules s) i j ∧ j ∈ rules.map Rule.item}
  have hfin : Finite Item :=
    ((List.finite_toSet (rules.map Rule.item)).subset fun _ hj ↦ hj.2).to_subtype
  let below : Item → Item → Prop := fun a b ↦ Relation.TransGen (Leads rules s) b.1 a.1
  have hirrefl : Std.Irrefl below := ⟨fun a ha ↦ h ⟨a.1, a.2.1, .inl ha⟩⟩
  have htrans : IsTrans Item below := ⟨fun a b c hab hbc ↦ hbc.trans hab⟩
  have hwf : WellFounded below := Finite.wellFounded_of_trans_of_irrefl below
  have hitem : ∀ a : Item, ∃ v, Denotes rules s a.1 v := by
    intro a
    induction a using hwf.induction with
    | _ a ih =>
        obtain ⟨j, hij, hj⟩ := a
        obtain ⟨r, hr, rfl⟩ := List.mem_map.mp hj
        cases hs : s r.item with
        | some v => exact ⟨v, .given hs⟩
        | none =>
            cases ht : r.target with
            | none => exact ⟨_, .const hr hs ht⟩
            | some t =>
                have hlead : Leads rules s r.item t := ⟨r, hr, rfl, hs, ht⟩
                have hit := hij.tail hlead
                by_cases htr : t ∈ rules.map Rule.item
                · obtain ⟨v, hv⟩ := ih ⟨t, hit, htr⟩ (.single hlead)
                  exact ⟨_, .follow hr hs ht hv⟩
                · cases hst : s t with
                  | some v => exact ⟨_, .follow hr hs ht (.given hst)⟩
                  | none =>
                      exact absurd ⟨t, hit, .inr ⟨hst, fun r' hr' he ↦
                        htr (List.mem_map.mpr ⟨r', hr', he⟩)⟩⟩ h
  by_cases hi : i ∈ rules.map Rule.item
  · exact hitem ⟨i, .refl, hi⟩
  · cases hs : s i with
    | some v => exact ⟨v, .given hs⟩
    | none =>
        exact absurd ⟨i, .refl, .inr ⟨hs, fun r hr he ↦ hi (List.mem_map.mpr ⟨r, hr, he⟩)⟩⟩ h

/-- The passes leave an item without a value exactly when it is stuck. -/
theorem resolve_eq_none [DecidableEq ι] (hf : Functional rules) :
    resolve rules s i = none ↔ Stuck rules s i := by
  refine ⟨fun h ↦ ?_, fun h ↦ ?_⟩
  · by_contra hs
    obtain ⟨v, hv⟩ := exists_denotes hs
    rw [(resolve_eq_some hf).mpr hv] at h
    cases h
  · cases hr : resolve rules s i with
    | none => rfl
    | some v => exact absurd h (((resolve_eq_some hf).mp hr).not_stuck hf)

end CopySpace.Relax
