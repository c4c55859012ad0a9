import CopySpace.Link.Labels
import Mathlib.Data.Multiset.AddSub

/-!
# What happens to the label table

Which entries an operation on the labels concerns depends on the text only, so an operation is a
list of events (`run_eq_events`).  An event keeps the table in order (`LabelTable.Good`), and the
events of `.set` may come earlier or later (`runEvents_move`): the order of these statements does
not matter (`runLabels_order`).
-/

namespace CopySpace.Link

inductive LabelEvent where
  | enter (k : Key)
  | set (a : Alias)
  | weak (k : Key)
  | define (k : Key) (address data : Nat)
  | internal
  | bind (index address : Nat)

def LabelEvent.run (labelCapacity : Nat) (t : LabelTable) : LabelEvent → Option LabelTable
  | enter k => (Link.enter labelCapacity k t).map Prod.snd
  | set a =>
      if t.aliases.length = labelCapacity ∨ t.taken a.label then none else some (t.addAlias a)
  | weak k => some (t.modify k fun l ↦ { l with weak := true })
  | define k address data => defineKey k address data t
  | internal => (internalLabel labelCapacity t).map Prod.snd
  | bind index address => some (bindLabel index address t)

def runEvents (labelCapacity : Nat) (t : LabelTable) (events : List LabelEvent) :
    Option LabelTable :=
  events.foldlM (LabelEvent.run labelCapacity) t

section Events

variable (assembly : Text) (statementOffset : Option Nat)

/-- The label and the addend of an expression. -/
def expressionKey (text : Text) : Option (Key × Nat) :=
  let name := text.takeWhile fun c ↦ c ≠ '+' && c ≠ '-'
  if name = [] ∨ name.length ≥ nameSize then none
  else
    (labelKey assembly statementOffset (trim name)).bind fun k ↦
      match text.dropWhile fun c ↦ c ≠ '+' && c ≠ '-' with
      | [] => some (k, 0)
      | sign :: number =>
          (integer (number.dropWhile whitespace)).map fun value ↦
            (k, if sign = '-' then (2 ^ 32 - value) % 2 ^ 32 else value)

/-- The target and the addend of an alias. -/
def aliasKey (value : Text) : Option (Option Key × Nat) :=
  match integer value with
  | some addend => some (none, addend)
  | none => (expressionKey assembly statementOffset value).map fun e ↦ (some e.1, e.2)

/-- The alias that `.set` makes. -/
def setAlias (arguments : Text) : Option Alias :=
  (strchr ',' arguments).bind fun e ↦
    (labelKey assembly statementOffset (trim e.1)).bind fun k ↦
      (aliasKey assembly statementOffset (trim e.2)).map fun v ↦ ⟨k, v.1, v.2⟩

def Alias.events (a : Alias) : List LabelEvent :=
  .enter a.label :: (a.target.toList.map .enter ++ [.set a])

/-- The entry that a label statement defines. -/
def definedKey (s : Text) : Option Key :=
  match decimalLabel s with
  | some ([], _) => some (.numbered (statementOffset.getD 0))
  | _ => labelKey assembly statementOffset s

def LabelOperation.events : LabelOperation → Option (List LabelEvent)
  | mention name => (labelKey assembly statementOffset name).map fun k ↦ [.enter k]
  | set arguments => (setAlias assembly statementOffset arguments).map Alias.events
  | weak arguments =>
      ((arguments.splitOn ',').mapM fun name ↦ labelKey assembly statementOffset (trim name)).map
        fun keys ↦ keys.flatMap fun k ↦ [.enter k, .weak k]
  | define s address data =>
      (definedKey assembly statementOffset s).map fun k ↦ [.enter k, .define k address data]
  | common name address data =>
      (labelKey assembly statementOffset (trim name)).map fun k ↦
        [.enter k, .define k address data]
  | internal => some [.internal]
  | bind index address => some [.bind index address]

end Events

variable {labelCapacity : Nat} {assembly : Text} {statementOffset : Option Nat}
  {t t' : LabelTable} {k k' : Key}

theorem runEvents_nil : runEvents labelCapacity t [] = some t := rfl

theorem runEvents_cons (event : LabelEvent) (events : List LabelEvent) :
    runEvents labelCapacity t (event :: events) =
      (event.run labelCapacity t).bind fun t ↦ runEvents labelCapacity t events := rfl

theorem runEvents_append (events events' : List LabelEvent) :
    runEvents labelCapacity t (events ++ events') =
      (runEvents labelCapacity t events).bind fun t ↦ runEvents labelCapacity t events' :=
  List.foldlM_append

theorem runEvents_enter (events : List LabelEvent) :
    runEvents labelCapacity t (.enter k :: events) =
      (enter labelCapacity k t).bind fun e ↦ runEvents labelCapacity e.2 events := by
  rw [runEvents_cons, LabelEvent.run, Option.bind_map]
  rfl

theorem enter_eq (h : enter labelCapacity k t = some (k', t')) :
    k' = k ∧ t'.label = t.label ∧ t'.aliases = t.aliases := by
  unfold enter at h
  split at h
  · cases h
    exact ⟨rfl, rfl, rfl⟩
  · split at h
    · cases h
    · cases h
      exact ⟨rfl, rfl, rfl⟩

/-- `label` enters the key that it looks for. -/
theorem label_eq (name : Text) : label labelCapacity assembly statementOffset name t =
    (labelKey assembly statementOffset name).bind fun k ↦ enter labelCapacity k t := rfl

theorem labelKey_ne_internal {name : Text} (h : labelKey assembly statementOffset name = some k)
    (i : Nat) : k ≠ .internal i := by
  rintro rfl
  unfold labelKey at h
  split at h
  · obtain ⟨before, -, h⟩ := Option.bind_eq_some_iff.mp h
    obtain ⟨target, -, h⟩ := Option.bind_eq_some_iff.mp h
    cases h
  · split at h
    · cases h
    · cases h

theorem expression_eq (text : Text) :
    expression labelCapacity assembly statementOffset text t =
      (expressionKey assembly statementOffset text).bind fun e ↦
        (enter labelCapacity e.1 t).map fun r ↦ (e.1, e.2, r.2) := by
  unfold expression expressionKey
  dsimp only
  split
  · rfl
  · rw [label_eq]
    generalize text.dropWhile (fun c ↦ c ≠ '+' && c ≠ '-') = rest
    cases labelKey assembly statementOffset _ with
    | none => rfl
    | some k =>
        cases he : enter labelCapacity k t with
        | none =>
            cases rest with
            | nil => simp [he]
            | cons sign number => cases hn : integer (number.dropWhile whitespace) <;> simp [he, hn]
        | some r =>
            obtain ⟨k', t'⟩ := r
            obtain ⟨rfl, -, -⟩ := enter_eq he
            cases rest with
            | nil => simp [he]
            | cons sign number => cases hn : integer (number.dropWhile whitespace) <;> simp [he, hn]

theorem aliasValue_eq (value : Text) :
    aliasValue labelCapacity assembly statementOffset value t =
      (aliasKey assembly statementOffset value).bind fun v ↦
        (runEvents labelCapacity t (v.1.toList.map .enter)).map fun t ↦ (v.1, v.2, t) := by
  unfold aliasValue aliasKey
  cases integer value with
  | some addend => rfl
  | none =>
      dsimp only
      rw [expression_eq]
      cases expressionKey assembly statementOffset value with
      | none => rfl
      | some e =>
          cases he : enter labelCapacity e.1 t with
          | none => simp [runEvents_enter, he]
          | some r => simp [runEvents_enter, he, runEvents_nil]

theorem runEvents_enters (keys : List Key) (h : runEvents labelCapacity t (keys.map .enter) = some t') :
    t'.label = t.label ∧ t'.aliases = t.aliases := by
  induction keys generalizing t with
  | nil =>
      cases h
      exact ⟨rfl, rfl⟩
  | cons k keys ih =>
      rw [List.map_cons, runEvents_enter] at h
      obtain ⟨⟨k', t''⟩, he, h⟩ := Option.bind_eq_some_iff.mp h
      obtain ⟨-, hl, ha⟩ := enter_eq he
      obtain ⟨hl', ha'⟩ := ih h
      exact ⟨hl'.trans hl, ha'.trans ha⟩

/-- `.set` as events. -/
theorem setDirective_eq (arguments : Text) :
    setDirective labelCapacity assembly statementOffset arguments t =
      (setAlias assembly statementOffset arguments).bind fun a ↦
        runEvents labelCapacity t a.events := by
  unfold setDirective setAlias
  cases strchr ',' arguments with
  | none => rfl
  | some e =>
      obtain ⟨name, value⟩ := e
      simp only [Option.bind_eq_bind, Option.bind_some, label_eq]
      cases labelKey assembly statementOffset (trim name) with
      | none => simp
      | some k =>
          cases he : enter labelCapacity k t with
          | none =>
              cases aliasKey assembly statementOffset (trim value) with
              | none => simp [he]
              | some v => simp [he, Alias.events, runEvents_enter]
          | some r =>
              obtain ⟨k', t'⟩ := r
              obtain ⟨rfl, hl, ha⟩ := enter_eq he
              simp only [Option.bind_some, he, aliasValue_eq]
              cases aliasKey assembly statementOffset (trim value) with
              | none => simp
              | some v =>
                  obtain ⟨target, addend⟩ := v
                  cases hv : runEvents labelCapacity t' (target.toList.map .enter) with
                  | none => simp [he, hv, Alias.events, runEvents_enter, runEvents_append]
                  | some u =>
                      obtain ⟨hul, hua⟩ := runEvents_enters _ hv
                      have htaken : u.taken k' = t'.taken k' := by
                        unfold LabelTable.taken
                        rw [hul]
                      have hlength : u.aliases.length = t.aliases.length := by rw [hua, ha]
                      simp only [he, hv, Alias.events, runEvents_append,
                        Option.bind_some, Option.map_some, runEvents_cons, runEvents_nil,
                        LabelEvent.run, htaken, hlength]
                      by_cases hfull : t.aliases.length = labelCapacity
                      · simp [hfull]
                      · cases t'.taken k' <;> simp [hfull]

theorem foldlM_weak (names : List Text) :
    names.foldlM (fun t name ↦ do
        let (k, t) ← label labelCapacity assembly statementOffset (trim name) t
        some (t.modify k fun l ↦ { l with weak := true })) t =
      ((names.mapM fun name ↦ labelKey assembly statementOffset (trim name)).map
        fun keys ↦ keys.flatMap fun k ↦ [LabelEvent.enter k, .weak k]).bind
          (runEvents labelCapacity t) := by
  induction names generalizing t with
  | nil => rfl
  | cons name names ih =>
      rw [List.foldlM_cons, List.mapM_cons]
      simp only [label_eq]
      cases labelKey assembly statementOffset (trim name) with
      | none => rfl
      | some k =>
          cases he : enter labelCapacity k t with
          | none =>
              cases names.mapM fun name ↦ labelKey assembly statementOffset (trim name) with
              | none => simp [he]
              | some keys => simp [he, runEvents_enter]
          | some r =>
              obtain ⟨k', t'⟩ := r
              obtain ⟨rfl, -, -⟩ := enter_eq he
              simp only [label_eq] at ih
              simp only [Option.bind_eq_bind, Option.bind_some, he]
              rw [← Option.bind_eq_bind, ih]
              cases names.mapM fun name ↦ labelKey assembly statementOffset (trim name) with
              | none => rfl
              | some keys => simp [he, runEvents_cons, LabelEvent.run]

theorem statementLabel_eq (s : Text) :
    statementLabel labelCapacity assembly statementOffset s t =
      (definedKey assembly statementOffset s).bind fun k ↦ enter labelCapacity k t := by
  unfold statementLabel definedKey
  rcases decimalLabel s with - | ⟨- | ⟨c, rest⟩, number⟩
  · exact label_eq s
  · rfl
  · exact label_eq s

/-- What an operation does is what its events do. -/
theorem run_eq_events (operation : LabelOperation) :
    operation.run labelCapacity assembly statementOffset t =
      (operation.events assembly statementOffset).bind (runEvents labelCapacity t) := by
  have hdefine : ∀ (o : Option Key) address data,
      (o.bind fun k ↦ (enter labelCapacity k t).bind fun e ↦ defineKey e.1 address data e.2) =
        (o.map fun k ↦ [LabelEvent.enter k, .define k address data]).bind
          (runEvents labelCapacity t) := by
    intro o address data
    cases o with
    | none => rfl
    | some k =>
        cases he : enter labelCapacity k t with
        | none => simp [he, runEvents_enter]
        | some r =>
            obtain ⟨k', t'⟩ := r
            obtain ⟨rfl, -, -⟩ := enter_eq he
            simp [he, runEvents_cons, runEvents_nil, LabelEvent.run]
  cases operation with
  | mention name =>
      rw [LabelOperation.run, label_eq, LabelOperation.events]
      cases labelKey assembly statementOffset name with
      | none => rfl
      | some k => cases he : enter labelCapacity k t <;> simp [he, runEvents_enter, runEvents_nil]
  | set arguments =>
      rw [LabelOperation.run, setDirective_eq, LabelOperation.events, Option.bind_map]
      rfl
  | weak arguments => exact foldlM_weak (arguments.splitOn ',')
  | define s address data =>
      rw [LabelOperation.run, LabelOperation.events, ← hdefine]
      rw [defineLabel, statementLabel_eq, Option.bind_eq_bind, Option.bind_assoc]
  | common name address data =>
      rw [LabelOperation.run, LabelOperation.events, ← hdefine, defineCommon, label_eq,
        Option.bind_eq_bind, Option.bind_assoc]
  | internal =>
      cases hi : internalLabel labelCapacity t <;>
        simp [LabelOperation.run, LabelOperation.events, runEvents_cons, runEvents_nil,
          LabelEvent.run, hi]
  | bind index address => rfl

/-! ## The table stays in order -/

/-- What statements leave in the table: an alias is marked, has one definition, and is neither
defined nor one of the labels that the linker makes for itself. -/
structure LabelTable.Good (t : LabelTable) : Prop where
  marked : ∀ k, (t.label k).isAlias = true ↔ ∃ a ∈ t.aliases, a.label = k
  undefined : ∀ a ∈ t.aliases, (t.label a.label).defined = false
  nodup : (t.aliases.map Alias.label).Nodup
  external : ∀ a ∈ t.aliases, ∀ i, a.label ≠ .internal i
  data : ∀ k, 0 ≤ (t.label k).data
  present : ∀ k, (t.label k).missingWeak = false

theorem LabelTable.good_empty : LabelTable.empty.Good where
  marked k := by simp [empty]
  undefined a ha := by simp [empty] at ha
  nodup := List.nodup_nil
  external a ha := by simp [empty] at ha
  data _ := Int.le_refl 0
  present _ := rfl

/-- An event makes no alias of an internal label. -/
def LabelEvent.External : LabelEvent → Prop
  | set a => ∀ i, a.label ≠ .internal i
  | _ => True

namespace LabelTable

@[simp] theorem label_modify_self (t : LabelTable) (k : Key) (f : Label → Label) :
    (t.modify k f).label k = f (t.label k) := Function.update_self _ _ _

theorem label_modify_of_ne {f : Label → Label} (h : k' ≠ k) :
    (t.modify k f).label k' = t.label k' := Function.update_of_ne h _ _

/-- A modification that neither marks an alias nor defines one keeps the table in order. -/
theorem Good.modify (h : t.Good) {f : Label → Label}
    (hmark : (f (t.label k)).isAlias = (t.label k).isAlias)
    (hdefined : (∃ a ∈ t.aliases, a.label = k) → (f (t.label k)).defined = false)
    (hdata : 0 ≤ (f (t.label k)).data) (hpresent : (f (t.label k)).missingWeak = false) :
    (t.modify k f).Good where
  marked k' := by
    by_cases hk : k' = k
    · rw [hk, label_modify_self, hmark]
      exact h.marked k
    · rw [label_modify_of_ne hk]
      exact h.marked k'
  undefined a ha := by
    by_cases hk : a.label = k
    · rw [hk, label_modify_self]
      exact hdefined ⟨a, ha, hk⟩
    · rw [label_modify_of_ne hk]
      exact h.undefined a ha
  nodup := h.nodup
  external := h.external
  data k' := by
    by_cases hk : k' = k
    · rw [hk, label_modify_self]
      exact hdata
    · rw [label_modify_of_ne hk]
      exact h.data k'
  present k' := by
    by_cases hk : k' = k
    · rw [hk, label_modify_self]
      exact hpresent
    · rw [label_modify_of_ne hk]
      exact h.present k'

theorem Good.addAlias (h : t.Good) {a : Alias} (ha : t.taken a.label = false)
    (hext : ∀ i, a.label ≠ .internal i) : (t.addAlias a).Good := by
  obtain ⟨hdefined, hmark⟩ : (t.label a.label).defined = false ∧ (t.label a.label).isAlias = false :=
    Bool.or_eq_false_iff.mp ha
  have hnew : ∀ b ∈ t.aliases, b.label ≠ a.label := fun b hb he ↦ by
    rw [(h.marked a.label).mpr ⟨b, hb, he⟩] at hmark
    cases hmark
  have hlabel : ∀ k, (t.addAlias a).label k =
      if k = a.label then { t.label k with isAlias := true } else t.label k := by
    intro k
    by_cases hk : k = a.label
    · rw [if_pos hk, hk]
      exact Function.update_self _ _ _
    · rw [if_neg hk]
      exact Function.update_of_ne hk _ _
  refine ⟨fun k ↦ ?_, fun b hb ↦ ?_, ?_, fun b hb ↦ ?_, fun k ↦ ?_, fun k ↦ ?_⟩
  · rw [hlabel]
    by_cases hk : k = a.label
    · rw [if_pos hk]
      exact iff_of_true rfl ⟨a, List.mem_append_right _ (List.mem_singleton.mpr rfl), hk.symm⟩
    · rw [if_neg hk, h.marked k]
      constructor
      · rintro ⟨b, hb, he⟩
        exact ⟨b, List.mem_append_left _ hb, he⟩
      · rintro ⟨b, hb, he⟩
        rcases List.mem_append.mp hb with hb | hb
        · exact ⟨b, hb, he⟩
        · rw [List.mem_singleton.mp hb] at he
          exact absurd he.symm hk
  · rw [hlabel]
    rcases List.mem_append.mp hb with hb | hb
    · rw [if_neg (hnew b hb)]
      exact h.undefined b hb
    · rw [List.mem_singleton.mp hb, if_pos rfl]
      exact hdefined
  · have hmap : (t.addAlias a).aliases.map Alias.label = t.aliases.map Alias.label ++ [a.label] :=
      List.map_append
    rw [hmap]
    refine List.nodup_append.mpr ⟨h.nodup, List.pairwise_singleton _ _, fun k hk k' hk' he ↦ ?_⟩
    obtain ⟨b, hb, rfl⟩ := List.mem_map.mp hk
    rw [List.mem_singleton.mp hk'] at he
    exact hnew b hb he
  · rcases List.mem_append.mp hb with hb | hb
    · exact h.external b hb
    · rw [List.mem_singleton.mp hb]
      exact hext
  · rw [hlabel]
    split
    · exact h.data k
    · exact h.data k
  · rw [hlabel]
    split
    · exact h.present k
    · exact h.present k

end LabelTable

theorem LabelTable.Good.run (h : t.Good) {event : LabelEvent} (hext : event.External)
    (hrun : event.run labelCapacity t = some t') : t'.Good := by
  cases event with
  | enter k =>
      obtain ⟨⟨k', u⟩, he, rfl⟩ := Option.map_eq_some_iff.mp hrun
      obtain ⟨-, hl, ha⟩ := enter_eq he
      obtain ⟨names', internals', label', aliases'⟩ := u
      cases hl
      cases ha
      exact ⟨h.1, h.2, h.3, h.4, h.5, h.6⟩
  | set a =>
      rw [LabelEvent.run] at hrun
      split at hrun
      · cases hrun
      · next hno =>
          cases hrun
          exact h.addAlias (Bool.eq_false_iff.mpr fun ht ↦ hno (.inr ht)) hext
  | weak k =>
      cases hrun
      refine h.modify rfl ?_ (h.data k) (h.present k)
      rintro ⟨a, ha, rfl⟩
      exact h.undefined a ha
  | define k address data =>
      rw [LabelEvent.run, defineKey] at hrun
      split at hrun
      · cases hrun
      · next hfree =>
          cases hrun
          refine h.modify rfl ?_ (Int.natCast_nonneg data) (h.present k)
          rintro ha
          exact absurd (Bool.or_eq_true_iff.mpr (.inr ((h.marked k).mpr ha))) hfree
  | internal =>
      obtain ⟨⟨k', u⟩, he, rfl⟩ := Option.map_eq_some_iff.mp hrun
      unfold internalLabel at he
      split at he
      · cases he
      · cases he
        exact ⟨h.1, h.2, h.3, h.4, h.5, h.6⟩
  | bind index address =>
      cases hrun
      refine h.modify rfl ?_ (h.data _) (h.present _)
      rintro ⟨a, ha, he⟩
      exact absurd he (h.external a ha index)

theorem LabelTable.Good.runEvents {events : List LabelEvent} (h : t.Good)
    (hext : ∀ event ∈ events, event.External) (hrun : runEvents labelCapacity t events = some t') :
    t'.Good := by
  induction events generalizing t with
  | nil =>
      cases hrun
      exact h
  | cons event events ih =>
      rw [runEvents_cons] at hrun
      obtain ⟨u, he, hrun⟩ := Option.bind_eq_some_iff.mp hrun
      exact ih (h.run (hext event List.mem_cons_self) he)
        (fun e hm ↦ hext e (List.mem_cons_of_mem _ hm)) hrun

/-- The alias of `.set` is no internal label. -/
theorem setAlias_external {arguments : Text} {a : Alias}
    (h : setAlias assembly statementOffset arguments = some a) (i : Nat) :
    a.label ≠ .internal i := by
  obtain ⟨e, -, h⟩ := Option.bind_eq_some_iff.mp h
  obtain ⟨k, hk, h⟩ := Option.bind_eq_some_iff.mp h
  obtain ⟨v, -, rfl⟩ := Option.map_eq_some_iff.mp h
  exact labelKey_ne_internal hk i

theorem Alias.external_events {a : Alias} (h : ∀ i, a.label ≠ .internal i) :
    ∀ event ∈ a.events, event.External := by
  intro event hm
  rcases List.mem_cons.mp hm with rfl | hm
  · trivial
  rcases List.mem_append.mp hm with hm | hm
  · obtain ⟨k, -, rfl⟩ := List.mem_map.mp hm
    trivial
  · rw [List.mem_singleton.mp hm]
    exact h

theorem LabelOperation.external_events {operation : LabelOperation} {events : List LabelEvent}
    (h : operation.events assembly statementOffset = some events) :
    ∀ event ∈ events, event.External := by
  cases operation with
  | mention name =>
      obtain ⟨k, -, rfl⟩ := Option.map_eq_some_iff.mp h
      exact List.forall_mem_singleton.mpr trivial
  | set arguments =>
      obtain ⟨a, ha, rfl⟩ := Option.map_eq_some_iff.mp h
      exact Alias.external_events (setAlias_external ha)
  | weak arguments =>
      obtain ⟨keys, -, rfl⟩ := Option.map_eq_some_iff.mp h
      intro event hm
      obtain ⟨k, -, hm⟩ := List.mem_flatMap.mp hm
      rcases List.mem_pair.mp hm with rfl | rfl
      · trivial
      · trivial
  | define s address data =>
      obtain ⟨k, -, rfl⟩ := Option.map_eq_some_iff.mp h
      exact List.forall_mem_cons.mpr ⟨trivial, List.forall_mem_singleton.mpr trivial⟩
  | common name address data =>
      obtain ⟨k, -, rfl⟩ := Option.map_eq_some_iff.mp h
      exact List.forall_mem_cons.mpr ⟨trivial, List.forall_mem_singleton.mpr trivial⟩
  | internal =>
      cases h
      exact List.forall_mem_singleton.mpr trivial
  | bind index address =>
      cases h
      exact List.forall_mem_singleton.mpr trivial

/-- Every run of statements keeps the table in order. -/
theorem LabelTable.Good.runLabels {operations : List (Option Nat × LabelOperation)} (h : t.Good)
    (hrun : runLabels labelCapacity assembly t operations = some t') : t'.Good := by
  induction operations generalizing t with
  | nil =>
      cases hrun
      exact h
  | cons operation operations ih =>
      obtain ⟨u, hu, hrun⟩ := Option.bind_eq_some_iff.mp hrun
      have hu := (run_eq_events operation.2).symm.trans hu
      obtain ⟨events, he, hu⟩ := Option.bind_eq_some_iff.mp hu
      exact ih (h.runEvents (LabelOperation.external_events he) hu) hrun

/-! ## The order of aliases -/

/-- A table, up to the order of its aliases. -/
def LabelTable.view (t : LabelTable) : Finset Key × Nat × (Key → Label) × Multiset Alias :=
  (t.names, t.internals, t.label, t.aliases)

/-- The event may come earlier or later. -/
def LabelEvent.Mobile : LabelEvent → Prop
  | enter _ => True
  | set a => ∀ i, a.label ≠ .internal i
  | _ => False

theorem LabelTable.view_eq_iff : t.view = t'.view ↔ t.names = t'.names ∧
    t.internals = t'.internals ∧ t.label = t'.label ∧ t.aliases.Perm t'.aliases := by
  simp [view, Multiset.coe_eq_coe]

/-- The table cannot take the event. -/
def LabelEvent.Fails (labelCapacity : Nat) (t : LabelTable) : LabelEvent → Prop
  | enter k => k ∉ t.names ∧ t.count = labelCapacity
  | set a => t.aliases.length = labelCapacity ∨ t.taken a.label = true
  | define k _ _ => t.taken k = true
  | internal => t.count = labelCapacity
  | weak _ => False
  | bind _ _ => False

instance (t : LabelTable) (event : LabelEvent) : Decidable (event.Fails labelCapacity t) := by
  cases event <;> unfold LabelEvent.Fails <;> infer_instance

/-- The table after the event. -/
def LabelEvent.apply (t : LabelTable) : LabelEvent → LabelTable
  | enter k => { t with names := insert k t.names }
  | set a => t.addAlias a
  | weak k => t.modify k fun l ↦ { l with weak := true }
  | define k address data =>
      t.modify k fun l ↦ { l with address := address, data := data, defined := true }
  | internal => { t with internals := t.internals + 1 }
  | bind index address => bindLabel index address t

theorem LabelEvent.run_eq (event : LabelEvent) : event.run labelCapacity t =
    if event.Fails labelCapacity t then none else some (event.apply t) := by
  cases event with
  | enter k =>
      by_cases hk : k ∈ t.names
      · simp [run, Link.enter, Fails, apply, hk]
      · by_cases hc : t.count = labelCapacity
        · simp [run, Link.enter, Fails, hk, hc]
        · simp [run, Link.enter, Fails, apply, hk, hc]
  | set a => rfl
  | weak k => rfl
  | define k address data => rfl
  | internal =>
      by_cases hc : t.count = labelCapacity
      · simp [run, internalLabel, Fails, hc]
      · simp [run, internalLabel, Fails, apply, hc]
  | bind index address => rfl

/-- The order of the aliases does not matter to an event. -/
theorem LabelEvent.congr (event : LabelEvent) (h : t.view = t'.view) :
    (event.Fails labelCapacity t ↔ event.Fails labelCapacity t') ∧
      (event.apply t).view = (event.apply t').view := by
  obtain ⟨names, internals, label, aliases⟩ := t
  obtain ⟨names', internals', label', aliases'⟩ := t'
  obtain ⟨hn, hi, hl, hperm⟩ := LabelTable.view_eq_iff.mp h
  dsimp only at hn hi hl hperm
  subst hn hi hl
  have hlen := hperm.length_eq
  cases event with
  | enter k => exact ⟨Iff.rfl, LabelTable.view_eq_iff.mpr ⟨rfl, rfl, rfl, hperm⟩⟩
  | set a =>
      refine ⟨?_, LabelTable.view_eq_iff.mpr ⟨rfl, rfl, rfl, hperm.append_right [a]⟩⟩
      simp only [Fails, hlen]
      rfl
  | weak k => exact ⟨Iff.rfl, LabelTable.view_eq_iff.mpr ⟨rfl, rfl, rfl, hperm⟩⟩
  | define k address data => exact ⟨Iff.rfl, LabelTable.view_eq_iff.mpr ⟨rfl, rfl, rfl, hperm⟩⟩
  | internal => exact ⟨Iff.rfl, LabelTable.view_eq_iff.mpr ⟨rfl, rfl, rfl, hperm⟩⟩
  | bind index address => exact ⟨Iff.rfl, LabelTable.view_eq_iff.mpr ⟨rfl, rfl, rfl, hperm⟩⟩

theorem LabelTable.taken_addAlias (a : Alias) (k : Key) :
    (t.addAlias a).taken k = (decide (k = a.label) || t.taken k) := by
  by_cases hk : k = a.label
  · simp [taken, addAlias, modify, hk]
  · simp [taken, addAlias, modify, hk]

theorem LabelTable.taken_modify {f : Label → Label} (k k' : Key) :
    (t.modify k f).taken k' = if k' = k then
      (f (t.label k)).defined || (f (t.label k)).isAlias else t.taken k' := by
  by_cases hk : k' = k
  · simp [taken, modify, hk]
  · simp [taken, modify, hk]

theorem update_comm {f g : Label → Label} (label : Key → Label) (h : k = k' → ∀ l, f (g l) = g (f l)) :
    Function.update (Function.update label k (f (label k))) k'
        (g (Function.update label k (f (label k)) k')) =
      Function.update (Function.update label k' (g (label k'))) k
        (f (Function.update label k' (g (label k')) k)) := by
  by_cases hk : k = k'
  · subst hk
    simp only [Function.update_self, Function.update_idem, h rfl]
  · rw [Function.update_of_ne hk, Function.update_of_ne (Ne.symm hk), Function.update_comm hk]

/-- Two events are the same in either order. -/
def LabelEvent.Swaps (labelCapacity : Nat) (t : LabelTable) (event event' : LabelEvent) : Prop :=
  (event.Fails labelCapacity t ∨ event'.Fails labelCapacity (event.apply t) ↔
    event'.Fails labelCapacity t ∨ event.Fails labelCapacity (event'.apply t)) ∧
  (event'.apply (event.apply t)).view = (event.apply (event'.apply t)).view

theorem LabelEvent.Swaps.symm {event event' : LabelEvent}
    (h : event.Swaps labelCapacity t event') : event'.Swaps labelCapacity t event :=
  ⟨h.1.symm, h.2.symm⟩

theorem count_enter (k : Key) :
    LabelTable.count { t with names := insert k t.names } =
      if k ∈ t.names then t.count else t.count + 1 := by
  by_cases hk : k ∈ t.names
  · rw [if_pos hk]
    simp only [LabelTable.count, Finset.insert_eq_of_mem hk]
  · rw [if_neg hk]
    simp only [LabelTable.count, Finset.card_insert_of_notMem hk]
    omega

theorem LabelEvent.swaps_enter (k : Key) (event : LabelEvent) :
    (LabelEvent.enter k).Swaps labelCapacity t event := by
  cases event with
  | enter k' =>
      refine ⟨?_, ?_⟩
      · rcases eq_or_ne k k' with rfl | he
        · exact Iff.rfl
        · simp only [Fails, apply, count_enter, Finset.mem_insert, he, he.symm, false_or]
          by_cases hk : k ∈ t.names
          · simp [hk]
          · by_cases hk' : k' ∈ t.names
            · simp [hk']
            · simp [hk, hk']
      · simp only [apply, LabelTable.view, Finset.insert_comm]
  | set a => exact ⟨or_comm, rfl⟩
  | weak k' => exact ⟨or_comm, rfl⟩
  | define k' address data => exact ⟨or_comm, rfl⟩
  | internal =>
      refine ⟨?_, rfl⟩
      simp only [Fails, apply, count_enter]
      by_cases hk : k ∈ t.names
      · simp [hk]
      · simp only [hk, if_false, not_false_iff, true_and]
        rw [show LabelTable.count { t with internals := t.internals + 1 } = t.count + 1 from
          (Nat.add_assoc _ _ _).symm]
  | bind index address => exact ⟨or_comm, rfl⟩

/-- The view of two tables that differ in the order of updates of their labels only. -/
theorem view_addAlias_modify {f : Label → Label} (a : Alias) (k : Key)
    (hf : ∀ l, f { l with isAlias := true } = { f l with isAlias := true }) :
    ((t.addAlias a).modify k f).view = ((t.modify k f).addAlias a).view := by
  refine LabelTable.view_eq_iff.mpr ⟨rfl, rfl, ?_, List.Perm.refl _⟩
  exact update_comm (f := fun l ↦ { l with isAlias := true }) (g := f) t.label fun _ l ↦ (hf l).symm

theorem LabelEvent.swaps_set {a : Alias} (hext : ∀ i, a.label ≠ .internal i) (event : LabelEvent) :
    (LabelEvent.set a).Swaps labelCapacity t event := by
  cases event with
  | enter k => exact (swaps_enter k (.set a)).symm
  | set a' =>
      refine ⟨?_, LabelTable.view_eq_iff.mpr ⟨rfl, rfl, ?_, ?_⟩⟩
      · have hlen : ∀ a : Alias, (t.addAlias a).aliases.length = t.aliases.length + 1 := fun a ↦
          List.length_append
        simp only [Fails, apply, hlen, LabelTable.taken_addAlias, Bool.or_eq_true, decide_eq_true_eq]
        rw [eq_comm (a := a'.label)]
        tauto
      · exact update_comm (f := fun l ↦ { l with isAlias := true })
          (g := fun l ↦ { l with isAlias := true }) t.label fun _ _ ↦ rfl
      · change (t.aliases ++ [a] ++ [a']).Perm (t.aliases ++ [a'] ++ [a])
        rw [List.append_assoc, List.append_assoc]
        exact (List.Perm.swap a' a []).append_left t.aliases
  | weak k =>
      refine ⟨?_, view_addAlias_modify a k fun _ ↦ rfl⟩
      simp only [Fails, apply, LabelTable.taken_modify]
      have htaken : (if a.label = k then (t.label k).defined || (t.label k).isAlias
          else t.taken a.label) = t.taken a.label := by
        split
        · next h => rw [h, LabelTable.taken]
        · rfl
      rw [htaken]
      exact or_comm
  | define k address data =>
      refine ⟨?_, view_addAlias_modify a k fun _ ↦ rfl⟩
      simp only [Fails, apply, LabelTable.taken_modify, LabelTable.taken_addAlias]
      have hlen : (t.modify k fun l ↦ { l with address := address, data := data, defined := true
        }).aliases.length = t.aliases.length := rfl
      rw [hlen]
      by_cases hk : k = a.label
      · simp [hk]
      · simp only [hk, Ne.symm hk, if_false, decide_false, Bool.false_or]
        exact or_comm
  | internal => exact ⟨or_comm, rfl⟩
  | bind index address =>
      refine ⟨?_, view_addAlias_modify a _ fun _ ↦ rfl⟩
      simp only [Fails, apply, bindLabel, LabelTable.taken_modify, hext index, if_false]
      exact or_comm

theorem LabelEvent.Mobile.swaps {event : LabelEvent} (h : event.Mobile) (event' : LabelEvent) :
    event.Swaps labelCapacity t event' := by
  cases event with
  | enter k => exact swaps_enter k event'
  | set a => exact swaps_set h event'
  | weak k => exact h.elim
  | define k address data => exact h.elim
  | internal => exact h.elim
  | bind index address => exact h.elim

variable {events events' : List LabelEvent}

theorem runEvents_cons_eq (event : LabelEvent) : runEvents labelCapacity t (event :: events) =
    if event.Fails labelCapacity t then none else runEvents labelCapacity (event.apply t) events := by
  rw [runEvents_cons, LabelEvent.run_eq]
  split <;> rfl

theorem runEvents_congr (h : t.view = t'.view) :
    (runEvents labelCapacity t events).map LabelTable.view =
      (runEvents labelCapacity t' events).map LabelTable.view := by
  induction events generalizing t t' with
  | nil => exact congrArg some h
  | cons event events ih =>
      obtain ⟨hfails, hview⟩ := @LabelEvent.congr labelCapacity _ _ event h
      simp only [runEvents_cons_eq, hfails]
      split
      · rfl
      · exact ih hview

/-- A mobile event may change places with the one behind it. -/
theorem runEvents_swap {event : LabelEvent} (h : event.Mobile) (event' : LabelEvent) :
    (runEvents labelCapacity t (event :: event' :: events)).map LabelTable.view =
      (runEvents labelCapacity t (event' :: event :: events)).map LabelTable.view := by
  obtain ⟨hfails, hview⟩ := @LabelEvent.Mobile.swaps labelCapacity t _ h event'
  simp only [runEvents_cons_eq]
  by_cases hf : event.Fails labelCapacity t ∨ event'.Fails labelCapacity (event.apply t)
  · have hleft : (if event.Fails labelCapacity t then none
        else if event'.Fails labelCapacity (event.apply t) then none
        else runEvents labelCapacity (event'.apply (event.apply t)) events) = none := by
      rcases hf with hf | hf <;> simp [hf]
    have hright : (if event'.Fails labelCapacity t then none
        else if event.Fails labelCapacity (event'.apply t) then none
        else runEvents labelCapacity (event.apply (event'.apply t)) events) = none := by
      rcases hfails.mp hf with hf | hf <;> simp [hf]
    rw [hleft, hright]
  · obtain ⟨h₁, h₂⟩ := not_or.mp hf
    obtain ⟨h₃, h₄⟩ := not_or.mp (mt hfails.mpr hf)
    rw [if_neg h₁, if_neg h₂, if_neg h₃, if_neg h₄]
    exact runEvents_congr hview

/-- What is the same after an event is the same. -/
theorem runEvents_cons_congr {event : LabelEvent}
    (h : ∀ t, (runEvents labelCapacity t events).map LabelTable.view =
      (runEvents labelCapacity t events').map LabelTable.view) (t : LabelTable) :
    (runEvents labelCapacity t (event :: events)).map LabelTable.view =
      (runEvents labelCapacity t (event :: events')).map LabelTable.view := by
  simp only [runEvents_cons_eq]
  split
  · rfl
  · exact h _

theorem runEvents_append_congr (first : List LabelEvent)
    (h : ∀ t, (runEvents labelCapacity t events).map LabelTable.view =
      (runEvents labelCapacity t events').map LabelTable.view) (t : LabelTable) :
    (runEvents labelCapacity t (first ++ events)).map LabelTable.view =
      (runEvents labelCapacity t (first ++ events')).map LabelTable.view := by
  induction first generalizing t with
  | nil => exact h t
  | cons event first ih => exact runEvents_cons_congr ih t

theorem runEvents_move_one {event : LabelEvent} (h : event.Mobile) (first : List LabelEvent)
    (t : LabelTable) :
    (runEvents labelCapacity t (first ++ event :: events)).map LabelTable.view =
      (runEvents labelCapacity t (event :: (first ++ events))).map LabelTable.view := by
  induction first generalizing t with
  | nil => rfl
  | cons event' first ih => exact (runEvents_cons_congr ih t).trans (runEvents_swap h event').symm

/-- Mobile events may come before others. -/
theorem runEvents_move {mobile : List LabelEvent} (h : ∀ event ∈ mobile, event.Mobile)
    (first : List LabelEvent) (t : LabelTable) :
    (runEvents labelCapacity t (first ++ (mobile ++ events))).map LabelTable.view =
      (runEvents labelCapacity t (mobile ++ (first ++ events))).map LabelTable.view := by
  induction mobile generalizing t with
  | nil => rfl
  | cons event mobile ih =>
      obtain ⟨he, hm⟩ := List.forall_mem_cons.mp h
      exact (runEvents_move_one he first t).trans (runEvents_cons_congr (ih hm) t)

/-- Mobile events may come in any order. -/
theorem runEvents_perm {mobile mobile' : List LabelEvent} (h : ∀ event ∈ mobile, event.Mobile)
    (hperm : mobile.Perm mobile') (t : LabelTable) :
    (runEvents labelCapacity t (mobile ++ events)).map LabelTable.view =
      (runEvents labelCapacity t (mobile' ++ events)).map LabelTable.view := by
  induction hperm generalizing t with
  | nil => rfl
  | cons event _ ih =>
      exact runEvents_cons_congr (ih (List.forall_mem_cons.mp h).2) t
  | swap event event' rest => exact runEvents_swap (List.forall_mem_cons.mp h).1 event
  | trans hperm _ ih ih' =>
      exact (ih h t).trans (ih' (fun event he ↦ h event (hperm.mem_iff.mpr he)) t)

/-! ## The order of `.set` statements -/

def LabelOperation.isSet : LabelOperation → Bool
  | set _ => true
  | _ => false

/-- The same statements, but those that are `.set` or `.equ` are in another order and stand
elsewhere between the others. -/
structure Reordered (operations operations' : List (Option Nat × LabelOperation)) : Prop where
  others : operations.filter (fun o ↦ !o.2.isSet) = operations'.filter (fun o ↦ !o.2.isSet)
  sets : (operations.filter fun o ↦ o.2.isSet).Perm (operations'.filter fun o ↦ o.2.isSet)

variable {operations operations' : List (Option Nat × LabelOperation)}

theorem Reordered.perm (h : Reordered operations operations') : operations.Perm operations' :=
  (List.filter_append_perm (fun o ↦ o.2.isSet) operations).symm.trans
    ((h.sets.append (List.Perm.of_eq h.others)).trans
      (List.filter_append_perm (fun o ↦ o.2.isSet) operations'))

/-- The events of an operation whose names can be read. -/
def eventsOf (assembly : Text) (operation : Option Nat × LabelOperation) : List LabelEvent :=
  (operation.2.events assembly operation.1).getD []

theorem runLabels_eq_none {operation : Option Nat × LabelOperation} (hm : operation ∈ operations)
    (h : operation.2.events assembly operation.1 = none) :
    runLabels labelCapacity assembly t operations = none := by
  induction operations generalizing t with
  | nil => cases hm
  | cons first operations ih =>
      change Option.bind (first.2.run labelCapacity assembly first.1 t) _ = none
      rcases List.mem_cons.mp hm with rfl | hm
      · rw [run_eq_events, h]
        rfl
      · exact Option.bind_eq_none_iff.mpr fun t _ ↦ ih hm

theorem runLabels_eq_runEvents
    (h : ∀ operation ∈ operations, operation.2.events assembly operation.1 ≠ none) :
    runLabels labelCapacity assembly t operations =
      runEvents labelCapacity t (operations.flatMap (eventsOf assembly)) := by
  induction operations generalizing t with
  | nil => rfl
  | cons first operations ih =>
      obtain ⟨hfirst, hrest⟩ := List.forall_mem_cons.mp h
      obtain ⟨events, he⟩ := Option.ne_none_iff_exists'.mp hfirst
      change Option.bind (first.2.run labelCapacity assembly first.1 t)
        (fun t ↦ runLabels labelCapacity assembly t operations) = _
      rw [run_eq_events, he, List.flatMap_cons, runEvents_append, eventsOf, he]
      exact congrArg _ (funext fun t ↦ ih hrest)

theorem mobile_eventsOf {operation : Option Nat × LabelOperation} (h : operation.2.isSet = true) :
    ∀ event ∈ eventsOf assembly operation, event.Mobile := by
  obtain ⟨statementOffset, operation⟩ := operation
  cases operation with
  | set arguments =>
      unfold eventsOf
      cases ha : setAlias assembly statementOffset arguments with
      | none => simp [LabelOperation.events, ha]
      | some a =>
          intro event hm
          simp only [LabelOperation.events, ha, Option.map_some, Option.getD_some, Alias.events] at hm
          rcases List.mem_cons.mp hm with rfl | hm
          · trivial
          rcases List.mem_append.mp hm with hm | hm
          · obtain ⟨k, -, rfl⟩ := List.mem_map.mp hm
            trivial
          · rw [List.mem_singleton.mp hm]
            exact setAlias_external ha
  | _ => cases h

/-- The `.set` statements may come first. -/
theorem runEvents_sets_first (operations : List (Option Nat × LabelOperation)) (t : LabelTable) :
    (runEvents labelCapacity t (operations.flatMap (eventsOf assembly))).map LabelTable.view =
      (runEvents labelCapacity t ((operations.filter fun o ↦ o.2.isSet).flatMap (eventsOf assembly) ++
        (operations.filter fun o ↦ !o.2.isSet).flatMap (eventsOf assembly))).map LabelTable.view := by
  induction operations generalizing t with
  | nil => rfl
  | cons operation operations ih =>
      rw [List.flatMap_cons]
      refine (runEvents_append_congr _ ih t).trans ?_
      cases hset : operation.2.isSet with
      | true =>
          simp only [List.filter_cons, hset, if_true, Bool.not_true, Bool.false_eq_true, if_false,
            List.flatMap_cons, List.append_assoc]
      | false =>
          simp only [List.filter_cons, hset, if_true, Bool.not_false, Bool.false_eq_true, if_false,
            List.flatMap_cons]
          refine runEvents_move (fun event he ↦ ?_) _ t
          obtain ⟨o, ho, he⟩ := List.mem_flatMap.mp he
          exact mobile_eventsOf (List.mem_filter.mp ho).2 event he

/-- The order of the `.set` statements does not matter. -/
theorem runLabels_order (h : Reordered operations operations') (t : LabelTable) :
    (runLabels labelCapacity assembly t operations).map LabelTable.view =
      (runLabels labelCapacity assembly t operations').map LabelTable.view := by
  by_cases hall : ∀ operation ∈ operations, operation.2.events assembly operation.1 ≠ none
  · rw [runLabels_eq_runEvents hall,
      runLabels_eq_runEvents fun o ho ↦ hall o (h.perm.mem_iff.mpr ho), runEvents_sets_first,
      runEvents_sets_first, ← h.others]
    refine runEvents_perm (fun event he ↦ ?_) (h.sets.flatMap_right _) t
    obtain ⟨o, ho, he⟩ := List.mem_flatMap.mp he
    exact mobile_eventsOf (List.mem_filter.mp ho).2 event he
  · push Not at hall
    obtain ⟨operation, hm, hnone⟩ := hall
    rw [runLabels_eq_none hm hnone, runLabels_eq_none (h.perm.mem_iff.mp hm) hnone]

end CopySpace.Link
