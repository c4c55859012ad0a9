import Mathlib.Data.Nat.Init
import Mathlib.Order.Lattice

/-!
# `rv32i_bulk.py`: the levels of a block

`BulkImage._level` walks once through the copies of a block and gives each the first level at
which the values it reads are there and the positions it writes are free.  The two tables
`avail_read` and `avail_write` hold for every position the level of its last writer; `patch`
holds for an instruction the level of the last copy into one of its fields.

What the tables know the levels respect (`levelAt_lt_of_read`, `levelAt_lt_of_write`,
`levelAt_of_patch`).  A *reader* enters no table, and neither does an operand whose value is
patched at run time.
-/

namespace CopySpace.Bulk

/-! ## Blocks -/

inductive FieldName where
  | n
  | dst
  | src
deriving DecidableEq

/-- An operand of a copy: a position, or a field of another instruction.  Instructions are
named by their index in the block; the terminator comes after the copies. -/
inductive Operand where
  | int (value : Nat)
  | field (instruction : Nat) (name : FieldName) (offset : Nat)
deriving DecidableEq

/-- A node of a block. -/
structure Copy where
  n : Nat
  dst : Operand
  src : Operand
deriving DecidableEq

instance : Inhabited Copy := ⟨⟨0, .int 0, .int 0⟩⟩

/-- `_span`: the positions of an operand, as far as they are known before the run. -/
def span : Operand → Nat → List Nat
  | .int value, n => List.range' value n
  | .field .., _ => []

theorem mem_span_int {value n p : Nat} :
    p ∈ span (.int value) n ↔ value ≤ p ∧ p < value + n := by
  simp [span, List.mem_range'_1]

/-! ## `_level` -/

/-- The tables that `_level` carries along. -/
structure Avail where
  read : Nat → Nat
  write : Nat → Nat
  patch : Nat → Option Nat

/-- The level of the next node, the one with this index. -/
def levelOf (avail : Avail) (index : Nat) (node : Copy) : Nat :=
  let level := (span node.src node.n).foldl (fun level p ↦ max level (avail.read p)) 0
  let level := level + 1
  let level := (span node.dst node.n).foldl (fun level p ↦ max level (avail.write p + 1)) level
  match avail.patch index with
  | some patched => max level (patched + 2)
  | none => level

/-- The tables after the node has been given its level. -/
def Avail.place (avail : Avail) (node : Copy) (level : Nat) : Avail where
  read p := if p ∈ span node.dst node.n then level else avail.read p
  write p := if p ∈ span node.dst node.n then level else avail.write p
  patch target := match node.dst with
    | .field instruction _ _ =>
        if target = instruction then some (max ((avail.patch target).getD 0) level)
        else avail.patch target
    | .int _ => avail.patch target

section Level

variable (ops : List Copy)

def node (i : Nat) : Copy := ops.getD i default

/-- The tables after the first `i` nodes. -/
def availAt : Nat → Avail
  | 0 => ⟨fun _ ↦ 0, fun _ ↦ 0, fun _ ↦ none⟩
  | i + 1 => (availAt i).place (node ops i) (levelOf (availAt i) i (node ops i))

/-- The level of node `i`. -/
def levelAt (i : Nat) : Nat := levelOf (availAt ops i) i (node ops i)

/-- The highest level of a node. -/
def top : Nat := (List.range ops.length).foldl (fun level i ↦ max level (levelAt ops i)) 0

/-- The level of the terminator. -/
def last : Nat :=
  match (availAt ops ops.length).patch ops.length with
  | some patched => max (top ops + 1) (patched + 2)
  | none => top ops + 1

end Level

/-! ## What the levels respect -/

/-- A maximum is above where it starts and above everything it goes through. -/
theorem le_foldl_max {α : Type} (f : α → Nat) (l : List α) (a : Nat) :
    a ≤ l.foldl (fun level x ↦ max level (f x)) a ∧
      ∀ x ∈ l, f x ≤ l.foldl (fun level x ↦ max level (f x)) a := by
  induction l generalizing a with
  | nil => exact ⟨le_rfl, fun x hx ↦ absurd hx (List.not_mem_nil)⟩
  | cons y l ih =>
      obtain ⟨h₁, h₂⟩ := ih (max a (f y))
      refine ⟨(Nat.le_max_left _ _).trans h₁, fun x hx ↦ ?_⟩
      rcases List.mem_cons.mp hx with rfl | hx
      · exact (Nat.le_max_right _ _).trans h₁
      · exact h₂ x hx

section LevelOf

variable {avail : Avail} {index p : Nat} {node : Copy}

/-- What a level is at least. -/
theorem levelOf_ge : 1 ≤ levelOf avail index node ∧
    (p ∈ span node.src node.n → avail.read p < levelOf avail index node) ∧
    (p ∈ span node.dst node.n → avail.write p < levelOf avail index node) ∧
    ∀ patched, avail.patch index = some patched → patched + 2 ≤ levelOf avail index node := by
  obtain ⟨-, h₂⟩ := le_foldl_max avail.read (span node.src node.n) 0
  obtain ⟨h₃, h₄⟩ := le_foldl_max (fun p ↦ avail.write p + 1) (span node.dst node.n)
    ((span node.src node.n).foldl (fun level p ↦ max level (avail.read p)) 0 + 1)
  unfold levelOf
  dsimp only at h₄ ⊢
  cases hp : avail.patch index with
  | none =>
      dsimp only
      refine ⟨by omega, fun h ↦ ?_, fun h ↦ h₄ p h, fun patched hq ↦ nomatch hq⟩
      have := h₂ p h
      omega
  | some patched =>
      dsimp only
      refine ⟨by omega, fun h ↦ ?_, fun h ↦ ?_, fun _ hq ↦ ?_⟩
      · have := h₂ p h
        omega
      · have := h₄ p h
        omega
      · cases hq
        exact Nat.le_max_right _ _

end LevelOf

section LevelAt

variable {ops : List Copy} {i j p : Nat}

theorem availAt_succ (ops : List Copy) (i : Nat) :
    availAt ops (i + 1) = (availAt ops i).place (node ops i) (levelAt ops i) := rfl

/-- Both tables hold the level of a later writer, or of this one. -/
theorem levelAt_le_avail (hij : i < j) (hp : p ∈ span (node ops i).dst (node ops i).n) :
    levelAt ops i ≤ (availAt ops j).read p ∧ levelAt ops i ≤ (availAt ops j).write p := by
  induction j, hij using Nat.le_induction with
  | base =>
      rw [availAt_succ]
      simp [Avail.place, hp]
  | succ j hij ih =>
      rw [availAt_succ]
      by_cases h : p ∈ span (node ops j).dst (node ops j).n
      · have hlt : (availAt ops j).write p < levelAt ops j := levelOf_ge.2.2.1 h
        have : levelAt ops i ≤ levelAt ops j := ih.2.trans (Nat.le_of_lt hlt)
        simp [Avail.place, h, this]
      · simpa [Avail.place, h] using ih

theorem one_le_levelAt : 1 ≤ levelAt ops i := (levelOf_ge (p := 0)).1

/-- A node reads a position after an earlier node has written it. -/
theorem levelAt_lt_of_read (hij : i < j) (hi : p ∈ span (node ops i).dst (node ops i).n)
    (hj : p ∈ span (node ops j).src (node ops j).n) : levelAt ops i < levelAt ops j :=
  (levelAt_le_avail hij hi).1.trans_lt (levelOf_ge.2.1 hj)

/-- A node writes a position after an earlier node has written it. -/
theorem levelAt_lt_of_write (hij : i < j) (hi : p ∈ span (node ops i).dst (node ops i).n)
    (hj : p ∈ span (node ops j).dst (node ops j).n) : levelAt ops i < levelAt ops j :=
  (levelAt_le_avail hij hi).2.trans_lt (levelOf_ge.2.2.1 hj)

/-- The patch table holds the level of a later patch of the instruction, or of this one. -/
theorem levelAt_le_patch {target : Nat} {name : FieldName} {offset : Nat} (hij : i < j)
    (hi : (node ops i).dst = .field target name offset) :
    ∃ patched, (availAt ops j).patch target = some patched ∧ levelAt ops i ≤ patched := by
  induction j, hij using Nat.le_induction with
  | base =>
      rw [availAt_succ]
      simp [Avail.place, hi]
  | succ j hij ih =>
      obtain ⟨patched, hp, hle⟩ := ih
      rw [availAt_succ]
      cases hd : (node ops j).dst with
      | int value => exact ⟨patched, by simp [Avail.place, hd, hp], hle⟩
      | field instruction _ _ =>
          by_cases ht : target = instruction
          · refine ⟨_, by simp only [Avail.place, hd, if_pos ht]; rfl, ?_⟩
            rw [hp, Option.getD_some]
            exact hle.trans (Nat.le_max_left _ _)
          · exact ⟨patched, by simp [Avail.place, hd, hp, ht], hle⟩

/-- A patched node is two levels behind the patch. -/
theorem levelAt_of_patch {name : FieldName} {offset : Nat} (hij : i < j)
    (hi : (node ops i).dst = .field j name offset) : levelAt ops i + 2 ≤ levelAt ops j := by
  obtain ⟨patched, hp, hle⟩ := levelAt_le_patch hij hi
  exact (Nat.add_le_add_right hle 2).trans ((levelOf_ge (p := 0)).2.2.2 patched hp)

theorem levelAt_le_top (hi : i < ops.length) : levelAt ops i ≤ top ops :=
  (le_foldl_max (levelAt ops) _ 0).2 i (List.mem_range.mpr hi)

theorem top_lt_last : top ops < last ops := by
  unfold last
  split <;> omega

theorem levelAt_lt_last (hi : i < ops.length) : levelAt ops i < last ops :=
  (levelAt_le_top hi).trans_lt top_lt_last

/-- A patched terminator is two levels behind the patch. -/
theorem last_of_patch {name : FieldName} {offset : Nat} (hi : i < ops.length)
    (hd : (node ops i).dst = .field ops.length name offset) : levelAt ops i + 2 ≤ last ops := by
  obtain ⟨patched, hp, hle⟩ := levelAt_le_patch hi hd
  rw [last, hp]
  dsimp only
  omega

end LevelAt

/-! ## Levels are the longest chains of dependencies -/

/-- What `_level` knows of the order of two nodes, and how many levels it keeps between them. -/
inductive Depends (ops : List Copy) (i j : Nat) : Nat → Prop where
  | read {p : Nat} (hij : i < j) (hi : p ∈ span (node ops i).dst (node ops i).n)
      (hj : p ∈ span (node ops j).src (node ops j).n) : Depends ops i j 1
  | write {p : Nat} (hij : i < j) (hi : p ∈ span (node ops i).dst (node ops i).n)
      (hj : p ∈ span (node ops j).dst (node ops j).n) : Depends ops i j 1
  | patch {name : FieldName} {offset : Nat} (hij : i < j)
      (hi : (node ops i).dst = .field j name offset) : Depends ops i j 2

/-- A chain of dependencies that ends in node `j`, with its length in levels. -/
inductive Chain (ops : List Copy) : Nat → Nat → Prop where
  | start (j : Nat) : Chain ops j 0
  | step {i j d w : Nat} (chain : Chain ops i d) (depends : Depends ops i j w) :
      Chain ops j (d + w)

section Chain

variable {ops : List Copy} {i j k p : Nat}

theorem levelAt_of_depends {w : Nat} (h : Depends ops i j w) :
    levelAt ops i + w ≤ levelAt ops j := by
  cases h with
  | read hij hi hj => exact levelAt_lt_of_read hij hi hj
  | write hij hi hj => exact levelAt_lt_of_write hij hi hj
  | patch hij hi => exact levelAt_of_patch hij hi

theorem Chain.lt_levelAt {d : Nat} (h : Chain ops j d) : d < levelAt ops j := by
  induction h with
  | start j => exact one_le_levelAt
  | step _ depends ih =>
      have := levelAt_of_depends depends
      omega

/-- A table entry is the level of a node that writes the position. -/
theorem availAt_write (k p : Nat) : (availAt ops k).write p = 0 ∨
    ∃ i < k, p ∈ span (node ops i).dst (node ops i).n ∧
      (availAt ops k).write p = levelAt ops i := by
  induction k with
  | zero => exact .inl rfl
  | succ k ih =>
      rw [availAt_succ]
      by_cases h : p ∈ span (node ops k).dst (node ops k).n
      · exact .inr ⟨k, Nat.lt_succ_self k, h, by simp [Avail.place, h]⟩
      · rcases ih with h₀ | ⟨i, hi, hp, he⟩
        · exact .inl (by simpa [Avail.place, h] using h₀)
        · exact .inr ⟨i, Nat.lt_succ_of_lt hi, hp, by simpa [Avail.place, h] using he⟩

/-- The two tables never differ. -/
theorem availAt_read (k : Nat) : (availAt ops k).read = (availAt ops k).write := by
  induction k with
  | zero => rfl
  | succ k ih =>
      rw [availAt_succ]
      simp only [Avail.place, ih]

theorem availAt_patch {target patched : Nat} (h : (availAt ops k).patch target = some patched) :
    ∃ i < k, ∃ name offset, (node ops i).dst = .field target name offset ∧
      patched = levelAt ops i := by
  induction k generalizing patched with
  | zero => nomatch h
  | succ k ih =>
      rw [availAt_succ] at h
      have old : ∀ patched, (availAt ops k).patch target = some patched →
          ∃ i < k + 1, ∃ name offset, (node ops i).dst = .field target name offset ∧
            patched = levelAt ops i := by
        intro patched h
        obtain ⟨i, hi, hd⟩ := ih h
        exact ⟨i, Nat.lt_succ_of_lt hi, hd⟩
      cases hd : (node ops k).dst with
      | int value => exact old patched (by simpa [Avail.place, hd] using h)
      | field instruction name offset =>
          by_cases ht : target = instruction
          · subst ht
            have hnew : ∃ i < k + 1, ∃ name offset, (node ops i).dst = .field target name offset ∧
                levelAt ops k = levelAt ops i := ⟨k, Nat.lt_succ_self k, name, offset, hd, rfl⟩
            simp only [Avail.place, hd, if_pos] at h
            cases hp : (availAt ops k).patch target with
            | none =>
                rw [hp, Option.getD_none, Nat.zero_max] at h
                cases h
                exact hnew
            | some before =>
                rw [hp, Option.getD_some] at h
                cases h
                rcases Nat.le_total before (levelAt ops k) with hle | hle
                · rw [Nat.max_eq_right hle]
                  exact hnew
                · rw [Nat.max_eq_left hle]
                  exact old before hp
          · exact old patched (by simpa [Avail.place, hd, ht] using h)

/-- A maximum is where it starts or something it goes through. -/
theorem foldl_max_eq {α : Type} (f : α → Nat) (l : List α) (a : Nat) :
    l.foldl (fun level x ↦ max level (f x)) a = a ∨
      ∃ x ∈ l, l.foldl (fun level x ↦ max level (f x)) a = f x := by
  induction l generalizing a with
  | nil => exact .inl rfl
  | cons y l ih =>
      rcases ih (max a (f y)) with h | ⟨x, hx, h⟩
      · rcases Nat.le_total a (f y) with hle | hle
        · exact .inr ⟨y, List.mem_cons_self, by rw [List.foldl_cons, h, Nat.max_eq_right hle]⟩
        · exact .inl (by rw [List.foldl_cons, h, Nat.max_eq_left hle])
      · exact .inr ⟨x, List.mem_cons_of_mem _ hx, h⟩

/-- A level is one, or a node that this one depends on is just below it. -/
theorem levelAt_cases (ops : List Copy) (j : Nat) : levelAt ops j = 1 ∨
    ∃ i w, Depends ops i j w ∧ levelAt ops j = levelAt ops i + w := by
  have h₁ := foldl_max_eq (availAt ops j).read (span (node ops j).src (node ops j).n) 0
  generalize hr : (span (node ops j).src (node ops j).n).foldl
    (fun level p ↦ max level ((availAt ops j).read p)) 0 = r at h₁
  have h₂ := foldl_max_eq (fun p ↦ (availAt ops j).write p + 1)
    (span (node ops j).dst (node ops j).n) (r + 1)
  generalize hw : (span (node ops j).dst (node ops j).n).foldl
    (fun level p ↦ max level ((availAt ops j).write p + 1)) (r + 1) = s at h₂
  -- without the patches the level is `s`
  have hs : s = 1 ∨ ∃ i w, Depends ops i j w ∧ s = levelAt ops i + w := by
    rcases h₂ with h₂ | ⟨p, hp, h₂⟩
    · rcases h₁ with h₁ | ⟨p, hp, h₁⟩
      · exact .inl (by rw [h₂, h₁])
      · rw [availAt_read] at h₁
        rcases @availAt_write ops j p with h | ⟨i, hi, hpi, h⟩
        · exact .inl (by rw [h₂, h₁, h])
        · exact .inr ⟨i, 1, .read hi hpi hp, by rw [h₂, h₁, h]⟩
    · rcases @availAt_write ops j p with h | ⟨i, hi, hpi, h⟩
      · exact .inl (by rw [h₂, h])
      · exact .inr ⟨i, 1, .write hi hpi hp, by rw [h₂, h]⟩
  cases hp : (availAt ops j).patch j with
  | none =>
      have : levelAt ops j = s := by simp only [levelAt, levelOf, hr, hw, hp]
      rwa [this]
  | some patched =>
      have : levelAt ops j = max s (patched + 2) := by simp only [levelAt, levelOf, hr, hw, hp]
      rw [this]
      rcases Nat.le_total s (patched + 2) with hle | hle
      · obtain ⟨i, hi, name, offset, hd, rfl⟩ := availAt_patch hp
        exact .inr ⟨i, 2, .patch hi hd, Nat.max_eq_right hle⟩
      · rwa [Nat.max_eq_left hle]

theorem Depends.lt {w : Nat} (h : Depends ops i j w) : i < j := by
  cases h <;> assumption

/-- The level of a node is one more than the longest chain that ends in it. -/
theorem exists_chain (ops : List Copy) (j : Nat) : ∃ d, Chain ops j d ∧ levelAt ops j = d + 1 := by
  induction j using Nat.strongRecOn with
  | _ j ih =>
      rcases levelAt_cases ops j with h | ⟨i, w, hd, h⟩
      · exact ⟨0, .start j, h⟩
      · obtain ⟨d, hc, he⟩ := ih i hd.lt
        exact ⟨d + w, hc.step hd, by omega⟩

/-- Every chain that ends in `i` is shorter than some chain that ends in `j`. -/
def Precedes (ops : List Copy) (i j : Nat) : Prop :=
  ∀ d, Chain ops i d → ∃ d', d < d' ∧ Chain ops j d'

/-- No chain that ends in `i` is longer than all that end in `j`. -/
def NotOvertaken (ops : List Copy) (i j : Nat) : Prop :=
  ∀ d, Chain ops i d → ∃ d', d ≤ d' ∧ Chain ops j d'

theorem precedes_iff : Precedes ops i j ↔ levelAt ops i < levelAt ops j := by
  constructor
  · intro h
    obtain ⟨d, hd, he⟩ := exists_chain ops i
    obtain ⟨d', hlt, hd'⟩ := h d hd
    have := hd'.lt_levelAt
    omega
  · intro h d hd
    obtain ⟨d', hd', he⟩ := exists_chain ops j
    have := hd.lt_levelAt
    exact ⟨d', by omega, hd'⟩

theorem notOvertaken_iff : NotOvertaken ops i j ↔ levelAt ops i ≤ levelAt ops j := by
  constructor
  · intro h
    obtain ⟨d, hd, he⟩ := exists_chain ops i
    obtain ⟨d', hle, hd'⟩ := h d hd
    have := hd'.lt_levelAt
    omega
  · intro h d hd
    obtain ⟨d', hd', he⟩ := exists_chain ops j
    have := hd.lt_levelAt
    exact ⟨d', by omega, hd'⟩

/-- A dependency is a precedence. -/
theorem Depends.precedes {w : Nat} (h : Depends ops i j w) : Precedes ops i j := by
  rw [precedes_iff]
  have := levelAt_of_depends h
  cases h <;> omega

end Chain

end CopySpace.Bulk
