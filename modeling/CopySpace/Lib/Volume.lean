import Mathlib.Data.List.Basic
import Mathlib.Logic.Function.Basic

/-!
# Files as arrays

What a file system with descriptors is for, without buffers, counts of references and limits: names
stand for files, a file is an array, and a cursor is a position in a file.  A file lives as long as
it has a name or a cursor.
-/

namespace CopySpace.Volume

/-! ## Arrays -/

section Overwrite

variable {α : Type*} (zero : α)

/-- An array with `data` at a position; a gap in front of it is filled. -/
def overwrite (a : List α) (position : Nat) (data : List α) : List α :=
  a.take position ++ List.replicate (position - a.length) zero ++ data ++
    a.drop (position + data.length)

variable {zero} {a data : List α} {position : Nat} {b : α}

theorem length_overwrite :
    (overwrite zero a position data).length = max a.length (position + data.length) := by
  simp only [overwrite, List.length_append, List.length_take, List.length_replicate,
    List.length_drop]
  omega

/-- Every element is one of before, one that is written, or from the gap. -/
theorem mem_overwrite (h : b ∈ overwrite zero a position data) : b ∈ a ∨ b = zero ∨ b ∈ data := by
  simp only [overwrite, List.mem_append] at h
  obtain ((h | h) | h) | h := h
  · exact .inl (List.mem_of_mem_take h)
  · exact .inr (.inl (List.eq_of_mem_replicate h))
  · exact .inr (.inr h)
  · exact .inl (List.mem_of_mem_drop h)

theorem getElem?_overwrite (k : Nat) : (overwrite zero a position data)[k]? =
    if k < position then if k < a.length then a[k]? else some zero
    else if k < position + data.length then data[k - position]? else a[k]? := by
  have hfront : (a.take position ++ List.replicate (position - a.length) zero).length = position := by
    rw [List.length_append, List.length_take, List.length_replicate]
    omega
  rw [overwrite, List.append_assoc, List.getElem?_append, hfront]
  by_cases hk : k < position
  · rw [if_pos hk, if_pos hk, List.getElem?_append, List.length_take]
    by_cases ha : k < a.length
    · rw [if_pos (Nat.lt_min.mpr ⟨hk, ha⟩), if_pos ha, List.getElem?_take_of_lt hk]
    · rw [if_neg (fun h ↦ ha (Nat.lt_min.mp h).2), if_neg ha, List.getElem?_replicate_of_lt]
      omega
  · rw [if_neg hk, if_neg hk, List.getElem?_append]
    by_cases hd : k < position + data.length
    · rw [if_pos (by omega), if_pos hd]
    · rw [if_neg (by omega), if_neg hd, List.getElem?_drop]
      congr 1
      omega

end Overwrite

/-! ## Volumes -/

/-- A position in a file, and whether what is written goes to its end. -/
structure Cursor (ι : Type*) where
  file : ι
  position : Nat
  append : Bool

end Volume

/-- Names `ν` of files `ι` with elements `α`, and cursors `κ`. -/
@[ext] structure Volume (ν ι κ α : Type*) where
  names : ν → Option ι
  contents : ι → List α
  cursors : κ → Option (Volume.Cursor ι)

namespace Volume

variable {ν ι κ α : Type*}

/-- The file has a name or a cursor. -/
def InUse (v : Volume ν ι κ α) (i : ι) : Prop :=
  (∃ name, v.names name = some i) ∨ ∃ k c, v.cursors k = some c ∧ c.file = i

/-- The cursor is the end of the file, or where it was left. -/
def place (v : Volume ν ι κ α) (c : Cursor ι) : Nat :=
  if c.append then (v.contents c.file).length else c.position

/-- Where the offset of a seek is counted from. -/
def origin (v : Volume ν ι κ α) (c : Cursor ι) (origin : Int) : Option Nat :=
  if origin = 0 then some 0
  else if origin = 1 then some c.position
  else if origin = 2 then some (v.contents c.file).length
  else none

variable [DecidableEq ν] [DecidableEq ι] [DecidableEq κ]

def setName (v : Volume ν ι κ α) (name : ν) (i : Option ι) : Volume ν ι κ α :=
  { v with names := Function.update v.names name i }

def setContents (v : Volume ν ι κ α) (i : ι) (a : List α) : Volume ν ι κ α :=
  { v with contents := Function.update v.contents i a }

def setCursor (v : Volume ν ι κ α) (k : κ) (c : Option (Cursor ι)) : Volume ν ι κ α :=
  { v with cursors := Function.update v.cursors k c }

open Classical in
/-- Without its last name and cursor a file is gone. -/
noncomputable def sweep (v : Volume ν ι κ α) (i : ι) : Volume ν ι κ α :=
  if v.InUse i then v else v.setContents i []

/-- What is done, with what it gives back. -/
inductive Operation (ν ι κ α : Type*)
  | idle
  | enter (k : κ) (name : ν) (append truncate : Bool)
  | close (k : κ)
  | read (k : κ) (size : Nat) (result : List α)
  | write (k : κ) (data : List α) (count : Nat)
  | seek (k : κ) (offset origin : Int) (position : Nat)
  | unlink (name : ν)
  | replace (name : ν) (data : List α)
  | mount (files : ι → Option (ν × List α))

/-- The elements that an operation brings in. -/
def Operation.Brings (op : Operation ν ι κ α) (b : α) : Prop :=
  match op with
  | write _ data _ | replace _ data => b ∈ data
  | mount files => ∃ i file, files i = some file ∧ b ∈ file.2
  | _ => False

variable (zero : α)

/-- The meaning of the operations. -/
inductive Step (v : Volume ν ι κ α) : Operation ν ι κ α → Volume ν ι κ α → Prop
  | idle : Step v .idle v
  | enter {k name i append truncate} : v.cursors k = none → v.names name = some i →
      Step v (.enter k name append truncate)
        ((v.setContents i (if truncate then [] else v.contents i)).setCursor k
          (some ⟨i, 0, append⟩))
  | create {k name i append truncate} : v.cursors k = none → v.names name = none → ¬ v.InUse i →
      Step v (.enter k name append truncate)
        (((v.setName name (some i)).setContents i []).setCursor k (some ⟨i, 0, append⟩))
  | close {k c} : v.cursors k = some c → Step v (.close k) ((v.setCursor k none).sweep c.file)
  /-- A read is shortened at the end of the file. -/
  | read {k c size result} : v.cursors k = some c →
      result = ((v.contents c.file).drop c.position).take size →
      Step v (.read k size result)
        (v.setCursor k (some { c with position := c.position + result.length }))
  | writeNothing {k} : Step v (.write k [] 0) v
  | write {k c data} : v.cursors k = some c → data ≠ [] →
      Step v (.write k data data.length)
        ((v.setContents c.file (overwrite zero (v.contents c.file) (v.place c) data)).setCursor k
          (some { c with position := v.place c + data.length }))
  | seek {k c offset origin base} {position : Nat} : v.cursors k = some c →
      v.origin c origin = some base → (position : Int) = base + offset →
      Step v (.seek k offset origin position)
        (v.setCursor k (some { c with position := position }))
  | unlink {name i} : v.names name = some i →
      Step v (.unlink name) ((v.setName name none).sweep i)
  | replace {name i data} : v.names name = some i → (∀ k c, v.cursors k = some c → c.file ≠ i) →
      Step v (.replace name data) (v.setContents i data)
  | mount {files names} : (∀ k, v.cursors k = none) →
      (∀ name i, names name = some i ↔ ∃ data, files i = some (name, data)) →
      Step v (.mount files) ⟨names, fun i ↦ ((files i).map Prod.snd).getD [], v.cursors⟩

/-- Some operations after each other. -/
inductive Run : Volume ν ι κ α → List (Operation ν ι κ α) → Volume ν ι κ α → Prop
  | nil {v} : Run v [] v
  | cons {v v' v'' op ops} : Step zero v op v' → Run v' ops v'' → Run v (op :: ops) v''

variable {zero} {v v' : Volume ν ι κ α} {op : Operation ν ι κ α} {ops : List (Operation ν ι κ α)}

section Changes

omit [DecidableEq ι] [DecidableEq κ] in
@[simp] theorem names_setName (name name' : ν) (i : Option ι) :
    (v.setName name i).names name' = if name' = name then i else v.names name' :=
  Function.update_apply v.names name i name'

omit [DecidableEq ν] [DecidableEq ι] in
@[simp] theorem cursors_setCursor (k k' : κ) (c : Option (Cursor ι)) :
    (v.setCursor k c).cursors k' = if k' = k then c else v.cursors k' :=
  Function.update_apply v.cursors k c k'

omit [DecidableEq ν] [DecidableEq κ] in
@[simp] theorem names_sweep (i : ι) : (v.sweep i).names = v.names := by
  unfold sweep
  split <;> rfl

omit [DecidableEq ν] [DecidableEq κ] in
@[simp] theorem cursors_sweep (i : ι) : (v.sweep i).cursors = v.cursors := by
  unfold sweep
  split <;> rfl

omit [DecidableEq ν] [DecidableEq κ] in
@[simp] theorem setContents_setContents (i : ι) (a b : List α) :
    (v.setContents i a).setContents i b = v.setContents i b := by
  rw [setContents, setContents, Function.update_idem]
  rfl

end Changes

omit [DecidableEq ν] [DecidableEq κ] in
@[simp] theorem contents_setContents (i j : ι) (a : List α) :
    (v.setContents i a).contents j = if j = i then a else v.contents j :=
  Function.update_apply v.contents i a j

omit [DecidableEq ν] [DecidableEq κ] in
theorem mem_setContents {i j : ι} {a : List α} {b : α} (h : b ∈ (v.setContents i a).contents j) :
    b ∈ v.contents j ∨ (j = i ∧ b ∈ a) := by
  rw [contents_setContents] at h
  split at h
  case isTrue hj => exact .inr ⟨hj, h⟩
  case isFalse hj => exact .inl h

omit [DecidableEq ν] [DecidableEq κ] in
theorem mem_sweep {i j : ι} {b : α} (h : b ∈ (v.sweep i).contents j) : b ∈ v.contents j := by
  unfold sweep at h
  split at h
  · exact h
  · rcases mem_setContents h with h | ⟨-, h⟩
    · exact h
    · exact absurd h List.not_mem_nil

/-- Where the elements of the files come from. -/
theorem Step.mem (h : Step zero v op v') {i : ι} {b : α} (hb : b ∈ v'.contents i) :
    b ∈ v.contents i ∨ b = zero ∨ op.Brings b := by
  cases h with
  | idle | read _ _ | writeNothing | seek _ _ _ => exact .inl hb
  | @enter k name j append truncate _ _ =>
      obtain hb | ⟨rfl, hb⟩ := mem_setContents (v := v) hb
      · exact .inl hb
      · cases truncate
        · exact .inl hb
        · exact absurd hb List.not_mem_nil
  | create _ _ _ =>
      obtain hb | ⟨-, hb⟩ := mem_setContents (v := v.setName _ _) hb
      · exact .inl hb
      · exact absurd hb List.not_mem_nil
  | @close k c _ => exact .inl (mem_sweep (v := v.setCursor k none) hb)
  | @unlink name i _ => exact .inl (mem_sweep (v := v.setName name none) hb)
  | @write k c data _ _ =>
      obtain hb | ⟨hi, hb⟩ := mem_setContents (v := v) hb
      · exact .inl hb
      · rw [hi]
        exact mem_overwrite hb
  | replace _ _ =>
      obtain hb | ⟨-, hb⟩ := mem_setContents (v := v) hb
      · exact .inl hb
      · exact .inr (.inr hb)
  | @mount files names _ _ =>
      cases hf : files i with
      | none =>
          simp only [hf] at hb
          exact absurd hb List.not_mem_nil
      | some file =>
          simp only [hf] at hb
          exact .inr (.inr ⟨i, file, hf, hb⟩)

/-- What a file lost does not come back: its elements are those of before, those that were brought in
since, and those of gaps. -/
theorem Run.mem (h : Run zero v ops v') {i : ι} {b : α} (hb : b ∈ v'.contents i) :
    b ∈ v.contents i ∨ b = zero ∨ ∃ op ∈ ops, op.Brings b := by
  induction h with
  | nil => exact .inl hb
  | cons hstep _ ih =>
      obtain hb | hb | ⟨op, hop, hb⟩ := ih hb
      · obtain hb | hb | hb := hstep.mem hb
        · exact .inl hb
        · exact .inr (.inl hb)
        · exact .inr (.inr ⟨_, List.mem_cons_self, hb⟩)
      · exact .inr (.inl hb)
      · exact .inr (.inr ⟨op, List.mem_cons_of_mem _ hop, hb⟩)

end CopySpace.Volume
