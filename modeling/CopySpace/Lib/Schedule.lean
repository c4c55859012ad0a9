import Mathlib.Data.Nat.Init

/-!
# Tasks executed by levels

A list of tasks, each of which overwrites some positions of a memory, may be executed in the
order of the list (`inOrder`) or by levels: task `i` commits at time `L i`, and tasks of one
level commit together.  `commits L w m t k` is the memory at time `t` when the first `k` tasks
take part: the value at a position is that of the last task in list order among those that
have committed.

`w i p` is the value that task `i` writes at `p`, or `none`; it is the same in both orders,
and the rules below say when a task that reads at some time reads what it would read in list
order (`commits_eq_inOrder_of_read`), and what one more level commits (`commits_succ_of_some`,
`commits_succ_of_none`).
-/

namespace CopySpace.Schedule

variable {Pos Val : Type} (L : Nat → Nat) (w : Nat → Pos → Option Val) (m : Pos → Val)

/-- The memory after the first `k` tasks in list order. -/
def inOrder : Nat → Pos → Val
  | 0, p => m p
  | k + 1, p => (w k p).getD (inOrder k p)

/-- The memory at time `t`, when only the first `k` tasks take part. -/
def commits (t : Nat) : Nat → Pos → Val
  | 0, p => m p
  | k + 1, p => if L k ≤ t then (w k p).getD (commits t k p) else commits t k p

variable {L w m} {t j k : Nat} {p : Pos}

/-- A task that leaves a position alone, or has not committed, may be left out. -/
theorem commits_succ_task (h : w k p = none ∨ t < L k) :
    commits L w m t (k + 1) p = commits L w m t k p := by
  rw [commits]
  rcases h with h | h
  · rw [h, Option.getD_none, ite_self]
  · rw [if_neg (Nat.not_le.mpr h)]

/-- Every writer has committed. -/
theorem commits_eq_inOrder (h : ∀ i < k, w i p ≠ none → L i ≤ t) :
    commits L w m t k p = inOrder w m k p := by
  induction k with
  | zero => rfl
  | succ k ih =>
      have ih := ih fun i hi ↦ h i (Nat.lt_succ_of_lt hi)
      cases hw : w k p with
      | none => rw [commits_succ_task (.inl hw), ih, inOrder, hw, Option.getD_none]
      | some v =>
          rw [commits, if_pos (h k (Nat.lt_succ_self k) (by simp [hw])), inOrder, ih]

/-- Writers from `j` on that have not committed do not matter. -/
theorem commits_eq_of_pending (hjk : j ≤ k)
    (h : ∀ i, j ≤ i → i < k → w i p ≠ none → t < L i) :
    commits L w m t k p = commits L w m t j p := by
  induction k, hjk using Nat.le_induction with
  | base => rfl
  | succ k hjk ih =>
      have ih := ih fun i h₁ h₂ ↦ h i h₁ (Nat.lt_succ_of_lt h₂)
      rw [← ih]
      refine commits_succ_task ?_
      by_cases hw : w k p = none
      · exact .inl hw
      · exact .inr (h k hjk (Nat.lt_succ_self k) hw)

/-- What task `j` reads at time `t`: the earlier writers have committed, and the others,
itself included, have not. -/
theorem commits_eq_inOrder_of_read (hjk : j ≤ k) (h₁ : ∀ i < j, w i p ≠ none → L i ≤ t)
    (h₂ : ∀ i, j ≤ i → i < k → w i p ≠ none → t < L i) :
    commits L w m t k p = inOrder w m j p :=
  (commits_eq_of_pending hjk h₂).trans (commits_eq_inOrder h₁)

/-- The next level commits a value that no other committed task overwrites. -/
theorem commits_succ_of_some {v : Val} (hjk : j < k) (hj : L j = t + 1) (hw : w j p = some v)
    (h : ∀ i, j < i → i < k → w i p ≠ none → t + 1 < L i) :
    commits L w m (t + 1) k p = v := by
  rw [commits_eq_of_pending (Nat.succ_le_of_lt hjk) fun i h₁ ↦ h i h₁, commits,
    if_pos (Nat.le_of_eq hj), hw, Option.getD_some]

/-- No task of the next level writes the position. -/
theorem commits_succ_of_none (h : ∀ i < k, L i = t + 1 → w i p = none) :
    commits L w m (t + 1) k p = commits L w m t k p := by
  induction k with
  | zero => rfl
  | succ k ih =>
      have ih := ih fun i hi ↦ h i (Nat.lt_succ_of_lt hi)
      rw [commits, commits, ih]
      by_cases hk : L k = t + 1
      · rw [h k (Nat.lt_succ_self k) hk, Option.getD_none, ite_self, ite_self]
      · by_cases hle : L k ≤ t
        · rw [if_pos hle, if_pos (Nat.le_succ_of_le hle)]
        · rw [if_neg hle, if_neg fun hc ↦ hle (Nat.le_of_lt_succ (Nat.lt_of_le_of_ne hc hk))]

/-- Before the first level nothing is committed. -/
theorem commits_of_lt (h : ∀ i < k, t < L i) : commits L w m t k = m := by
  funext p
  exact commits_eq_of_pending (Nat.zero_le k) fun i _ hi _ ↦ h i hi

end CopySpace.Schedule
