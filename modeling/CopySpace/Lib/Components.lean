import Mathlib.Data.List.Basic

/-!
# Texts of components, and components on a stack

A text in which a separator stands between components, and the evaluation of components on a stack:
some are skipped, some take the last one off, which fails on the empty stack, and the others are put
on it.
-/

namespace CopySpace.Components

/-! ## Joining -/

section Join

variable {α : Type*} (sep : α)

/-- The components with separators between them. -/
def join (ps : List (List α)) : List α := [sep].intercalate ps

variable {sep} {p : List α} {ps qs : List (List α)}

@[simp] theorem join_nil : join sep [] = [] := rfl

@[simp] theorem join_singleton : join sep [p] = p := List.intercalate_singleton

theorem join_cons (h : ps ≠ []) : join sep (p :: ps) = p ++ sep :: join sep ps := by
  rw [join, List.intercalate_cons_of_ne_nil h, List.append_assoc]
  rfl

theorem join_concat (h : ps ≠ []) : join sep (ps ++ [p]) = join sep ps ++ sep :: p := by
  induction ps with
  | nil => exact absurd rfl h
  | cons q ps ih =>
      rcases eq_or_ne ps [] with rfl | hps
      · rw [List.singleton_append, join_cons (List.cons_ne_nil _ _), join_singleton, join_singleton]
      · rw [List.cons_append, join_cons (List.append_ne_nil_of_left_ne_nil hps _), ih hps,
          join_cons hps, List.append_assoc, List.cons_append]

theorem join_eq_nil (h : ∀ p ∈ ps, p ≠ []) : join sep ps = [] ↔ ps = [] := by
  refine ⟨fun he ↦ ?_, fun he ↦ by rw [he, join_nil]⟩
  cases ps with
  | nil => rfl
  | cons p ps =>
      have hp := h p List.mem_cons_self
      rcases eq_or_ne ps [] with rfl | hps
      · rw [join_singleton] at he
        exact absurd he hp
      · rw [join_cons hps] at he
        exact absurd (List.append_eq_nil_iff.mp he).1 hp

theorem length_join_cons_le : (join sep ps).length ≤ (join sep (p :: ps)).length := by
  rcases eq_or_ne ps [] with rfl | hps
  · exact Nat.zero_le _
  · rw [join_cons hps, List.length_append, List.length_cons]
    omega

/-- Fewer components make a shorter text. -/
theorem length_join_sublist (h : ps.Sublist qs) :
    (join sep ps).length ≤ (join sep qs).length := by
  induction h with
  | slnil => exact Nat.le_refl _
  | cons q _ ih => exact Nat.le_trans ih length_join_cons_le
  | @cons_cons ps qs p hsub ih =>
      rcases eq_or_ne ps [] with rfl | hps
      · rcases eq_or_ne qs [] with rfl | hqs
        · exact Nat.le_refl _
        · rw [join_singleton, join_cons hqs, List.length_append]
          exact Nat.le_add_right _ _
      · have hqs : qs ≠ [] := fun he ↦ hps (List.sublist_nil.mp (he ▸ hsub))
        rw [join_cons hps, join_cons hqs, List.length_append, List.length_append, List.length_cons,
          List.length_cons]
        omega

theorem join_dropLast_prefix : join sep ps.dropLast <+: join sep ps := by
  obtain rfl | ⟨init, p, rfl⟩ := List.eq_nil_or_concat ps
  · exact List.prefix_refl _
  · rw [List.concat_eq_append, List.dropLast_concat]
    rcases eq_or_ne init [] with rfl | hinit
    · exact List.nil_prefix
    · exact join_concat hinit ▸ List.prefix_append _ _

theorem mem_join {c : α} : c ∈ join sep ps → c = sep ∨ ∃ p ∈ ps, c ∈ p := by
  induction ps with
  | nil => exact fun h ↦ nomatch h
  | cons p ps ih =>
      intro h
      rcases eq_or_ne ps [] with rfl | hps
      · exact .inr ⟨p, List.mem_singleton_self p, by rwa [join_singleton] at h⟩
      · rw [join_cons hps] at h
        obtain h | h := List.mem_append.mp h
        · exact .inr ⟨p, List.mem_cons_self, h⟩
        obtain h | h := List.mem_cons.mp h
        · exact .inl h
        · exact (ih h).imp_right fun ⟨q, hq, hc⟩ ↦ ⟨q, List.mem_cons_of_mem _ hq, hc⟩

theorem mem_join_of_mem {c : α} (hp : p ∈ ps) (hc : c ∈ p) : c ∈ join sep ps := by
  induction ps with
  | nil => nomatch hp
  | cons q ps ih =>
      rcases eq_or_ne ps [] with rfl | hps
      · rwa [join_singleton, ← List.mem_singleton.mp hp]
      · rw [join_cons hps]
        obtain rfl | hp := List.mem_cons.mp hp
        · exact List.mem_append_left _ hc
        · exact List.mem_append_right _ (List.mem_cons_of_mem _ (ih hp))

/-- No component has a separator in it. -/
theorem not_mem_of_mem_splitOn [DecidableEq α] {text : List α} (h : p ∈ text.splitOn sep) :
    sep ∉ p := by
  induction text generalizing p with
  | nil =>
      rw [List.splitOn_nil, List.mem_singleton] at h
      exact h ▸ List.not_mem_nil
  | cons c text ih =>
      rw [List.splitOn_cons_eq_if_modifyHead] at h
      split at h
      · obtain rfl | h := List.mem_cons.mp h
        · exact List.not_mem_nil
        · exact ih h
      case isFalse hc =>
        obtain ⟨head, tail, hsplit⟩ := List.exists_cons_of_ne_nil (List.splitOn_ne_nil sep text)
        rw [hsplit] at h ih
        obtain rfl | h := List.mem_cons.mp h
        · rw [List.mem_cons, not_or]
          exact ⟨fun he ↦ hc (beq_iff_eq.mpr he.symm), ih List.mem_cons_self⟩
        · exact ih (List.mem_cons_of_mem _ h)

end Join

/-! ## Evaluating -/

section Evaluate

variable {β : Type*} (skip up : β → Prop) [DecidablePred skip] [DecidablePred up]

/-- One component. -/
def push (stack : List β) (p : β) : Option (List β) :=
  if skip p then some stack
  else if up p then if stack = [] then none else some stack.dropLast
  else some (stack ++ [p])

/-- Some components, one after the other. -/
def evaluate (stack ps : List β) : Option (List β) := ps.foldlM (push skip up) stack

variable {skip up} {stack stack' ps qs : List β} {p : β}

@[simp] theorem evaluate_nil : evaluate skip up stack [] = some stack := rfl

theorem evaluate_cons :
    evaluate skip up stack (p :: ps) =
      (push skip up stack p).bind fun stack ↦ evaluate skip up stack ps := rfl

theorem evaluate_append :
    evaluate skip up stack (ps ++ qs) =
      (evaluate skip up stack ps).bind fun stack ↦ evaluate skip up stack qs :=
  List.foldlM_append

theorem push_of_skip (h : skip p) : push skip up stack p = some stack := if_pos h

theorem evaluate_cons_of_skip (h : skip p) :
    evaluate skip up stack (p :: ps) = evaluate skip up stack ps := by
  rw [evaluate_cons, push_of_skip h, Option.bind_some]

/-- Components that are neither skipped nor go up are put on the stack. -/
theorem evaluate_clean (h : ∀ p ∈ ps, ¬ skip p ∧ ¬ up p) :
    evaluate skip up stack ps = some (stack ++ ps) := by
  induction ps generalizing stack with
  | nil => rw [evaluate_nil, List.append_nil]
  | cons p ps ih =>
      obtain ⟨hskip, hup⟩ := h p List.mem_cons_self
      rw [evaluate_cons, push, if_neg hskip, if_neg hup, Option.bind_some,
        ih fun q hq ↦ h q (List.mem_cons_of_mem _ hq), List.append_assoc, List.singleton_append]

/-- What is on the stack was put there. -/
theorem mem_of_push (h : push skip up stack p = some stack') {q : β} (hq : q ∈ stack') :
    q ∈ stack ∨ (q = p ∧ ¬ skip p ∧ ¬ up p) := by
  unfold push at h
  split at h
  · cases h
    exact .inl hq
  case isFalse hskip =>
    split at h
    · split at h
      · nomatch h
      · cases h
        exact .inl (List.dropLast_subset stack hq)
    case isFalse hup =>
      cases h
      exact (List.mem_append.mp hq).imp_right fun hq ↦ ⟨List.mem_singleton.mp hq, hskip, hup⟩

theorem mem_of_evaluate (h : evaluate skip up stack ps = some stack') {q : β} (hq : q ∈ stack') :
    q ∈ stack ∨ (q ∈ ps ∧ ¬ skip q ∧ ¬ up q) := by
  induction ps generalizing stack with
  | nil =>
      cases h
      exact .inl hq
  | cons p ps ih =>
      rw [evaluate_cons] at h
      obtain ⟨between, hp, h⟩ := Option.bind_eq_some_iff.mp h
      obtain hq | ⟨hq, hclean⟩ := ih h
      · obtain hq | ⟨rfl, hclean⟩ := mem_of_push hp hq
        · exact .inl hq
        · exact .inr ⟨List.mem_cons_self, hclean⟩
      · exact .inr ⟨List.mem_cons_of_mem _ hq, hclean⟩

/-- What is on the stack is in the order of the components. -/
theorem sublist_of_evaluate (h : evaluate skip up stack ps = some stack') :
    stack'.Sublist (stack ++ ps) := by
  induction ps generalizing stack with
  | nil =>
      cases h
      rw [List.append_nil]
  | cons p ps ih =>
      rw [evaluate_cons] at h
      obtain ⟨between, hp, h⟩ := Option.bind_eq_some_iff.mp h
      have hsub : between.Sublist (stack ++ [p]) := by
        unfold push at hp
        split at hp
        · cases hp
          exact List.sublist_append_left stack [p]
        · split at hp
          · split at hp
            · nomatch hp
            · cases hp
              exact (List.dropLast_sublist stack).trans (List.sublist_append_left stack [p])
          · cases hp
            exact List.Sublist.refl _
      have := (ih h).trans (hsub.append_right ps)
      rwa [List.append_assoc, List.singleton_append] at this

/-! ### Limits -/

variable (skip up) in
/-- The stack has at most the size `limit` all the time. -/
def Within (size : List β → Nat) (limit : Nat) (stack ps : List β) : Prop :=
  ∀ before, before <+: ps → ∀ stack', evaluate skip up stack before = some stack' →
    size stack' ≤ limit

variable {size : List β → Nat} {limit : Nat}

theorem within_nil : Within skip up size limit stack [] ↔ size stack ≤ limit := by
  refine ⟨fun h ↦ h [] (List.prefix_refl _) stack rfl, fun h before hb stack' he ↦ ?_⟩
  rw [List.prefix_nil.mp hb] at he
  cases he
  exact h

theorem within_cons : Within skip up size limit stack (p :: ps) ↔ size stack ≤ limit ∧
    ∀ stack', push skip up stack p = some stack' → Within skip up size limit stack' ps := by
  constructor
  · refine fun h ↦ ⟨h [] List.nil_prefix stack rfl, fun between hp before hb stack' he ↦ ?_⟩
    refine h (p :: before) (List.cons_prefix_cons.mpr ⟨rfl, hb⟩) stack' ?_
    rw [evaluate_cons, hp, Option.bind_some, he]
  · rintro ⟨hstack, h⟩ before hb stack' he
    cases before with
    | nil =>
        cases he
        exact hstack
    | cons q before =>
        obtain ⟨rfl, hinitial⟩ := List.cons_prefix_cons.mp hb
        rw [evaluate_cons] at he
        obtain ⟨between, hp, he⟩ := Option.bind_eq_some_iff.mp he
        exact h between hp before hinitial stack' he

variable (skip up) in
/-- The components make a stack, within the limit. -/
def Yields (size : List β → Nat) (limit : Nat) (stack ps stack' : List β) : Prop :=
  evaluate skip up stack ps = some stack' ∧ Within skip up size limit stack ps

theorem yields_nil : Yields skip up size limit stack [] stack' ↔ stack = stack' ∧ size stack ≤ limit :=
  and_congr Option.some_inj within_nil

theorem yields_cons : Yields skip up size limit stack (p :: ps) stack' ↔ size stack ≤ limit ∧
    ∃ between, push skip up stack p = some between ∧
      Yields skip up size limit between ps stack' := by
  rw [Yields, evaluate_cons, within_cons, Option.bind_eq_some_iff]
  constructor
  · rintro ⟨⟨between, hp, he⟩, hsize, hw⟩
    exact ⟨hsize, between, hp, he, hw between hp⟩
  · rintro ⟨hsize, between, hp, he, hw⟩
    refine ⟨⟨between, hp, he⟩, hsize, fun other ho ↦ ?_⟩
    rw [hp] at ho
    cases ho
    exact hw

theorem Yields.size_le (h : Yields skip up size limit stack ps stack') : size stack ≤ limit :=
  h.2 [] List.nil_prefix stack rfl

theorem yields_cons_of_skip (h : skip p) :
    Yields skip up size limit stack (p :: ps) stack' ↔ Yields skip up size limit stack ps stack' := by
  rw [yields_cons]
  constructor
  · rintro ⟨-, between, hp, hy⟩
    rw [push_of_skip h] at hp
    cases hp
    exact hy
  · exact fun hy ↦ ⟨hy.size_le, stack, push_of_skip h, hy⟩

end Evaluate

end CopySpace.Components
