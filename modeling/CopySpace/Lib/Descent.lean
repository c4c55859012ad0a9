import Mathlib.Data.DFinsupp.WellFounded
import Mathlib.Data.Fintype.Card

/-!
# Lists of sets that lose and gain members

A list of sets is rewritten at its front: some sets are dropped, or they are replaced by sets
that all contain the common members of those and one more.  Nothing else is known of the new
sets, and there may be any number of them.  Still this ends: the sets met so far have fewer and
fewer members in common, and the places with few common members become fewer.
-/

namespace CopySpace

/-! ## Descending sequences -/

/-- The first sequence is below the second at one of the first indices, and at no smaller index
above it. -/
def Drops (n : Nat) (f g : Nat → Nat) : Prop :=
  ∃ c ≤ n, (∀ i < c, f i ≤ g i) ∧ f c < g c

/-- A sequence cannot drop for ever. -/
theorem drops_wellFounded (n : Nat) : WellFounded (Drops n) := by
  let cut (f : Nat → Nat) : Lex (Fin (n + 1) → Nat) := toLex fun i ↦ f i
  refine Subrelation.wf ?_ (InvImage.wf cut wellFounded_lt)
  rintro f g ⟨c, hc, hle, hlt⟩
  induction c using Nat.strong_induction_on with
  | _ c ih =>
    -- the first index at which the two differ decides
    by_cases heq : ∀ i < c, f i = g i
    · exact ⟨⟨c, Nat.lt_succ_of_le hc⟩, fun j hj ↦ heq j hj, hlt⟩
    · push Not at heq
      obtain ⟨i, hi, hne⟩ := heq
      exact ih i hi (hi.le.trans hc) (fun j hj ↦ hle j (hj.trans hi)) ((hle i hi).lt_of_ne hne)

/-! ## Ranks -/

section Ranks

variable {α : Type} [DecidableEq α] {s t : Finset α} {l l' : List (Finset α)} {c : Nat}

/-- The common members of a set and the sets of a list. -/
def meet (s : Finset α) (l : List (Finset α)) : Finset α := l.foldl (· ∩ ·) s

/-- How many members the sets up to each place have in common. -/
def ranks (s : Finset α) : List (Finset α) → List Nat
  | [] => []
  | h :: l => (s ∩ h).card :: ranks (s ∩ h) l

/-- How many places have at most so many common members. -/
def low (s : Finset α) (l : List (Finset α)) (c : Nat) : Nat := (ranks s l).countP (· ≤ c)

@[simp] theorem meet_cons (s h : Finset α) (l : List (Finset α)) :
    meet s (h :: l) = meet (s ∩ h) l := rfl

theorem meet_subset : meet s l ⊆ s := by
  induction l generalizing s with
  | nil => exact subset_rfl
  | cons h l ih => exact ih.trans Finset.inter_subset_left

theorem subset_meet (hs : t ⊆ s) (hl : ∀ h ∈ l, t ⊆ h) : t ⊆ meet s l := by
  induction l generalizing s with
  | nil => exact hs
  | cons h l ih =>
    refine ih (Finset.subset_inter hs (hl h List.mem_cons_self)) ?_
    exact fun h' hm ↦ hl h' (List.mem_cons_of_mem h hm)

theorem meet_subset_of_mem {h : Finset α} (hm : h ∈ l) : meet s l ⊆ h := by
  induction l generalizing s with
  | nil => cases hm
  | cons h' l ih =>
    rcases List.mem_cons.mp hm with rfl | hm
    · exact (meet_subset (s := s ∩ h) (l := l)).trans Finset.inter_subset_right
    · exact ih hm

theorem low_append : low s (l ++ l') c = low s l c + low (meet s l) l' c := by
  induction l generalizing s with
  | nil => simp [low, ranks, meet]
  | cons h l ih =>
    simp only [low, ranks, List.cons_append, List.countP_cons, meet_cons] at ih ⊢
    rw [ih]
    omega

/-- With more members to begin with, fewer places are low. -/
theorem low_anti (h : s ⊆ t) : low t l c ≤ low s l c := by
  induction l generalizing s t with
  | nil => exact le_rfl
  | cons a l ih =>
    have hsub : s ∩ a ⊆ t ∩ a := Finset.inter_subset_inter_right h
    have hcard := Finset.card_le_card hsub
    have := ih hsub
    simp only [low, ranks, List.countP_cons] at this ⊢
    split_ifs with h₁ h₂
    · omega
    · simp only [decide_eq_true_eq] at h₁ h₂
      omega
    · omega
    · omega

/-- Sets that all have many members leave no low place. -/
theorem low_eq_zero (hs : t ⊆ s) (hl : ∀ h ∈ l, t ⊆ h) (hc : c < t.card) : low s l c = 0 := by
  induction l generalizing s with
  | nil => rfl
  | cons h l ih =>
    have hsub : t ⊆ s ∩ h := Finset.subset_inter hs (hl h List.mem_cons_self)
    have hcard := Finset.card_le_card hsub
    have := ih hsub fun h' hm ↦ hl h' (List.mem_cons_of_mem h hm)
    simp only [low, ranks, List.countP_cons] at this ⊢
    rw [this, if_neg (by simp only [decide_eq_true_eq]; omega)]

/-- The last place of a list is as low as its common members say. -/
theorem low_pos (hne : l ≠ []) : 0 < low s l (meet s l).card := by
  induction l generalizing s with
  | nil => exact absurd rfl hne
  | cons h l ih =>
    simp only [low, ranks, List.countP_cons, meet_cons] at ih ⊢
    cases l with
    | nil => simp [meet]
    | cons h' l => exact (ih (s := s ∩ h) (List.cons_ne_nil h' l)).trans_le (Nat.le_add_right _ _)

/-- **Sets at the front are replaced by sets that contain their common members and more.** -/
theorem low_replace {old new : List (Finset α)} (after : List (Finset α)) (hne : old ≠ [])
    (ht : meet s old ⊆ t) (hs : t ⊆ s) (hnew : ∀ h ∈ new, t ⊆ h)
    (hlt : new = [] ∨ (meet s old).card < t.card) :
    (∀ c ≤ (meet s old).card, low s (new ++ after) c ≤ low s (old ++ after) c) ∧
      low s (new ++ after) (meet s old).card < low s (old ++ after) (meet s old).card := by
  have hbelow (c : Nat) (hc : c ≤ (meet s old).card) :
      low s (new ++ after) c ≤ low (meet s old) after c := by
    rw [low_append]
    rcases hlt with rfl | hlt
    · simpa [low, ranks, meet] using low_anti meet_subset
    · rw [low_eq_zero hs hnew (hc.trans_lt hlt), Nat.zero_add]
      exact low_anti (ht.trans (subset_meet hs hnew))
  refine ⟨fun c hc ↦ ?_, ?_⟩
  · rw [low_append (l := old)]
    exact (hbelow c hc).trans (Nat.le_add_left _ _)
  · rw [low_append (l := old)]
    have := hbelow _ le_rfl
    have := low_pos (s := s) hne
    omega

/-- Sets at the front are dropped. -/
theorem low_drop {old : List (Finset α)} (after : List (Finset α)) (hne : old ≠ []) :
    (∀ c ≤ (meet s old).card, low s after c ≤ low s (old ++ after) c) ∧
      low s after (meet s old).card < low s (old ++ after) (meet s old).card :=
  have hnew : ∀ h ∈ ([] : List (Finset α)), s ⊆ h := List.forall_mem_nil _
  low_replace after hne meet_subset subset_rfl hnew (.inl rfl)

end Ranks

end CopySpace
