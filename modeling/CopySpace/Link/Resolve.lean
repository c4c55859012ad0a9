import CopySpace.Link.Layout

/-!
# Resolved aliases

The passes of `layout_data` are those of `CopySpace.Lib.Relax`: an alias is resolved when its
`Chain` of targets comes to an end that has an address (`resolved_iff`), and then has the address
of the end plus the addends of the chain (`resolved_value`).
-/

namespace CopySpace.Link

/-! ## The passes -/

/-- What is known of a label once it is defined: its address, its kind, and whether it is a
missing weak name. -/
abbrev Value := Nat × Int × Bool

def Label.value (l : Label) : Option Value :=
  if l.defined then some (l.address, l.data, l.missingWeak) else none

/-- The value of an alias from that of its target. -/
def Alias.value (a : Alias) : Option Value → Value
  | none => (a.addend % 2 ^ 32, -1, false)
  | some (address, data, missingWeak) => ((a.addend + address) % 2 ^ 32, data, missingWeak)

def Alias.rule (a : Alias) : Relax.Rule Key Value := ⟨a.label, a.target, a.value⟩

def values (label : Key → Label) (k : Key) : Option Value := (label k).value

theorem Label.value_of_not {l : Label} (h : l.defined = false) : l.value = none := by
  simp [value, h]

theorem Label.value_of {l : Label} (h : l.defined = true) :
    l.value = some (l.address, l.data, l.missingWeak) := by
  simp [value, h]

theorem Label.isSome_value (l : Label) : l.value.isSome = l.defined := by
  cases h : l.defined with
  | false => rw [value_of_not h]; rfl
  | true => rw [value_of h]; rfl

theorem values_update (label : Key → Label) (k : Key) (l : Label) :
    values (Function.update label k l) = Function.update (values label) k l.value := by
  funext k'
  by_cases hk : k' = k
  · rw [hk, values, Function.update_self, Function.update_self]
  · rw [values, Function.update_of_ne hk, Function.update_of_ne hk, values]

theorem values_aliasStep (label : Key → Label) (a : Alias) :
    values (aliasStep label a) = Relax.step (values label) a.rule := by
  cases hd : (label a.label).defined with
  | true =>
      have hsome : values label a.rule.item = _ := Label.value_of hd
      rw [aliasStep, if_pos hd, Relax.step_of_some hsome]
  | false =>
      have hnone : values label a.rule.item = none := Label.value_of_not hd
      rw [aliasStep, if_neg (by rw [hd]; exact Bool.false_ne_true)]
      cases ht : a.target with
      | none => rw [Relax.step_const hnone ht, values_update]; rfl
      | some k =>
          cases hk : (label k).defined with
          | false =>
              have hvalue : values label k = none := Label.value_of_not hk
              have htarget : a.rule.target = some k := ht
              rw [Relax.step_of_none htarget hvalue]
              simp [hk]
          | true =>
              have hvalue : values label k = _ := Label.value_of hk
              have htarget : a.rule.target = some k := ht
              rw [Relax.step_follow hnone htarget hvalue]
              simp only [hk, not_true_eq_false, if_false, values_update]
              rfl

theorem values_aliasPass (aliases : List Alias) (label : Key → Label) :
    values (aliasPass aliases label) = Relax.pass (aliases.map Alias.rule) (values label) := by
  unfold aliasPass Relax.pass
  induction aliases generalizing label with
  | nil => rfl
  | cons a aliases ih =>
      rw [List.foldl_cons, ih, values_aliasStep, List.map_cons, List.foldl_cons]

theorem values_resolveAliases (aliases : List Alias) (label : Key → Label) :
    values (resolveAliases aliases label) =
      Relax.resolve (aliases.map Alias.rule) (values label) := by
  have hiterate : ∀ n label, values ((aliasPass aliases)^[n] label) =
      (Relax.pass (aliases.map Alias.rule))^[n] (values label) := by
    intro n
    induction n with
    | zero => exact fun _ ↦ rfl
    | succ n ih =>
        intro label
        rw [Function.iterate_succ_apply, ih, values_aliasPass, Function.iterate_succ_apply]
  rw [resolveAliases, hiterate, Relax.resolve, List.length_map]

theorem aliasStep_of_ne {a : Alias} {k : Key} (h : k ≠ a.label) (label : Key → Label) :
    aliasStep label a k = label k := by
  cases ht : a.target with
  | none =>
      simp only [aliasStep, ht]
      split
      · rfl
      · exact Function.update_of_ne h _ _
  | some target =>
      simp only [aliasStep, ht]
      split
      · rfl
      · split
        · rfl
        · exact Function.update_of_ne h _ _

/-- Only aliases change. -/
theorem resolveAliases_of_forall_ne {aliases : List Alias} {k : Key}
    (h : ∀ a ∈ aliases, a.label ≠ k) (label : Key → Label) :
    resolveAliases aliases label k = label k := by
  have hstep : ∀ a ∈ aliases, ∀ label, aliasStep label a k = label k := fun a ha label ↦
    aliasStep_of_ne (h a ha).symm label
  have hpass : ∀ label, aliasPass aliases label k = label k := by
    intro label
    unfold aliasPass
    clear h
    induction aliases generalizing label with
    | nil => rfl
    | cons a aliases ih =>
        rw [List.foldl_cons, ih fun b hb ↦ hstep b (List.mem_cons_of_mem _ hb),
          hstep a List.mem_cons_self]
  unfold resolveAliases
  generalize aliases.length = n
  induction n generalizing label with
  | zero => rfl
  | succ n ih => rw [Function.iterate_succ_apply, ih, hpass]

end CopySpace.Link
