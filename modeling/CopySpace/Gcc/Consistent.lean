import Mathlib.Data.Fintype.Card
import CopySpace.Gcc.Steps

/-!
# The tables stay consistent

Files count the descriptors that point at them, and slots are only reused when nothing points at
them any more.
-/

namespace CopySpace.Gcc

open Files

/-- The descriptors that point at a file. -/
def users (s : Files) (i : Fin filesMax) : Finset (Fin fdCount) :=
  Finset.univ.filter fun fd ↦ (s.handles fd).map Descriptor.object = some i

/-- What holds of the tables even while a file is released. -/
structure Tables (s : Files) : Prop where
  /-- The references are counted. -/
  references : ∀ i, (s.objects i).references = (users s i).card
  /-- No descriptor points at a free slot. -/
  used : ∀ fd d, s.handles fd = some d → (s.objects d.object).name ≠ none
  standard : ∀ fd, s.handles fd ≠ none → 3 ≤ fd.val
  /-- Linked files have different names. -/
  distinct : ∀ name i j, s.Named name i → s.Named name j → i = j
  free : ∀ i, (s.objects i).name = none → s.objects i = .free
  size_le : ∀ i, (s.objects i).size ≤ (s.objects i).capacity
  capacity_le : ∀ i, (s.objects i).capacity ≤ intMax
  position_le : ∀ fd d, s.handles fd = some d → d.position ≤ intMax
  /-- Files that are read only are not open for writing. -/
  writable : ∀ fd d, s.handles fd = some d → has d.flags Flags.write →
    (s.objects d.object).readonly = false
  /-- Files that are read only keep their names. -/
  linked : ∀ i, (s.objects i).readonly = true → (s.objects i).linked = true

/-- What holds of the tables between two calls. -/
structure Consistent (s : Files) : Prop extends Tables s where
  /-- An unlinked file has a descriptor. -/
  unlinked : ∀ i, (s.objects i).name ≠ none → (s.objects i).linked = false →
    0 < (s.objects i).references

section Users

variable {s : Files} {fd : Fin fdCount} {d d' : Descriptor} {i : Fin filesMax} {f : File}

theorem mem_users : fd ∈ users s i ↔ ∃ d, s.handles fd = some d ∧ d.object = i := by
  simp [users]

@[simp] theorem users_setObject (i j : Fin filesMax) : users (s.setObject i f) j = users s j := rfl

@[simp] theorem users_withDirectories (D n) (j : Fin filesMax) :
    users (s.withDirectories D n) j = users s j := rfl

theorem handles_setHandle (fd' : Fin fdCount) {o : Option Descriptor} :
    (s.setHandle fd o).handles fd' = if fd' = fd then o else s.handles fd' :=
  Function.update_apply s.handles fd o fd'

theorem objects_setObject (j : Fin filesMax) :
    (s.setObject i f).objects j = if j = i then f else s.objects j :=
  Function.update_apply s.objects i f j

/-- A new descriptor. -/
theorem users_enter (h : s.handles fd = none) :
    users (s.setHandle fd (some d)) i =
      if d.object = i then insert fd (users s i) else users s i := by
  ext fd'
  rw [mem_users, handles_setHandle]
  by_cases hfd : fd' = fd
  · subst hfd
    by_cases hi : d.object = i
    · simp [hi]
    · simp [hi, mem_users, h]
  · rw [if_neg hfd, ← mem_users]
    by_cases hi : d.object = i <;> simp [hi, hfd]

/-- A descriptor that is closed. -/
theorem users_close (h : s.handles fd = some d) :
    users (s.setHandle fd none) i =
      if d.object = i then (users s i).erase fd else users s i := by
  ext fd'
  rw [mem_users, handles_setHandle]
  by_cases hfd : fd' = fd
  · subst hfd
    by_cases hi : d.object = i
    · simp [hi]
    · simp [hi, mem_users, h]
  · rw [if_neg hfd, ← mem_users]
    by_cases hi : d.object = i <;> simp [hi, hfd]

/-- A descriptor of the same file. -/
theorem users_move (h : s.handles fd = some d) (hd : d'.object = d.object) :
    users (s.setHandle fd (some d')) i = users s i := by
  ext fd'
  rw [mem_users, handles_setHandle]
  by_cases hfd : fd' = fd
  · subst hfd
    simp [hd, mem_users, h]
  · rw [if_neg hfd, ← mem_users]

theorem card_users_enter (h : s.handles fd = none) (hd : d.object = i) :
    (users (s.setHandle fd (some d)) i).card = (users s i).card + 1 := by
  rw [users_enter h, if_pos hd, Finset.card_insert_of_notMem]
  simp [mem_users, h]

theorem card_users_close (h : s.handles fd = some d) (hd : d.object = i) :
    (users (s.setHandle fd none) i).card = (users s i).card - 1 := by
  rw [users_close h, if_pos hd, Finset.card_erase_of_mem (mem_users.mpr ⟨d, h, hd⟩)]

end Users

section Preserved

variable {s s' : Files} {call : Call} {fd : Fin fdCount} {d d' : Descriptor} {i : Fin filesMax}
  {f : File}

theorem consistent_empty : Consistent .empty where
  references i := by simp [users, empty, File.free]
  used := nofun
  standard _ h := absurd rfl h
  distinct _ i _ h := nomatch h.1
  unlinked _ h := absurd rfl h
  free _ _ := rfl
  size_le _ := le_rfl
  capacity_le _ := Nat.zero_le _
  position_le := nofun
  writable := nofun
  linked := nofun

theorem Consistent.withDirectories (h : Consistent s) (D n) :
    Consistent (s.withDirectories D n) :=
  ⟨⟨h.references, h.used, h.standard, h.distinct, h.free, h.size_le, h.capacity_le,
    h.position_le, h.writable, h.linked⟩, h.unlinked⟩

/-- What is found is the file with the name. -/
theorem Tables.lookup_eq_some (h : Tables s) {name : Bytes} :
    s.lookup name = some i ↔ s.Named name i := by
  refine ⟨named_of_lookup, fun hi ↦ ?_⟩
  obtain ⟨j, hj⟩ := Option.isSome_iff_exists.mp (lookup_isSome.mpr ⟨i, hi⟩)
  rw [hj, h.distinct name j i (named_of_lookup hj) hi]

/-- A slot that no descriptor points at. -/
theorem Tables.not_used (h : Tables s) (hi : (s.objects i).references = 0)
    (hd : s.handles fd = some d) : d.object ≠ i := fun he ↦ by
  have hmem : fd ∈ users s i := mem_users.mpr ⟨d, hd, he⟩
  rw [h.references, Finset.card_eq_zero] at hi
  exact Finset.notMem_empty fd (hi ▸ hmem)

/-- A descriptor moves. -/
theorem Consistent.move (h : Consistent s) (hd : s.handles fd = some d)
    (hobject : d'.object = d.object) (hflags : d'.flags = d.flags) (hp : d'.position ≤ intMax) :
    Consistent (s.setHandle fd (some d')) where
  references j := by rw [users_move hd hobject]; exact h.references j
  used fd' e he := by
    rw [handles_setHandle] at he
    split at he
    · cases he
      exact hobject ▸ h.used fd d hd
    · exact h.used fd' e he
  standard fd' he := by
    rw [handles_setHandle] at he
    split at he
    case isTrue hfd => exact hfd ▸ h.standard fd (hd ▸ Option.some_ne_none d)
    case isFalse => exact h.standard fd' he
  distinct := h.distinct
  unlinked := h.unlinked
  free := h.free
  size_le := h.size_le
  capacity_le := h.capacity_le
  position_le fd' e he := by
    rw [handles_setHandle] at he
    split at he
    · cases he
      exact hp
    · exact h.position_le fd' e he
  writable fd' e he hw := by
    rw [handles_setHandle] at he
    split at he
    · cases he
      rw [hflags] at hw
      exact (congrArg (fun i ↦ (s.objects i).readonly) hobject).trans (h.writable fd d hd hw)
    · exact h.writable fd' e he hw
  linked := h.linked

/-- The bytes of a file change. -/
theorem Consistent.change (h : Consistent s) (hname : f.name = (s.objects i).name)
    (hlinked : f.linked = (s.objects i).linked)
    (hreferences : f.references = (s.objects i).references)
    (hreadonly : f.readonly = (s.objects i).readonly) (hused : (s.objects i).name ≠ none)
    (hsize : f.size ≤ f.capacity) (hcapacity : f.capacity ≤ intMax) :
    Consistent (s.setObject i f) where
  references j := by
    rw [objects_setObject, users_setObject, ← h.references]
    split
    case isTrue hj => rw [hj, hreferences]
    case isFalse => rfl
  used fd e he := by
    rw [objects_setObject]
    split
    · rwa [hname]
    · exact h.used fd e he
  standard := h.standard
  distinct name j k hj hk := by
    refine h.distinct name j k ?_ ?_
    · unfold Files.Named at hj ⊢
      rw [objects_setObject] at hj
      split at hj
      case isTrue he => rwa [he, ← hname, ← hlinked]
      case isFalse => exact hj
    · unfold Files.Named at hk ⊢
      rw [objects_setObject] at hk
      split at hk
      case isTrue he => rwa [he, ← hname, ← hlinked]
      case isFalse => exact hk
  unlinked j hj hl := by
    rw [objects_setObject] at hj hl ⊢
    split at hj
    case isTrue he =>
      rw [if_pos he] at hl ⊢
      rw [hreferences]
      exact h.unlinked i hused (hlinked ▸ hl)
    case isFalse he =>
      rw [if_neg he] at hl ⊢
      exact h.unlinked j hj hl
  free j hj := by
    rw [objects_setObject] at hj ⊢
    split at hj
    case isTrue he => exact absurd (hname ▸ hj) hused
    case isFalse he =>
      rw [if_neg he]
      exact h.free j hj
  size_le j := by
    rw [objects_setObject]
    split
    · exact hsize
    · exact h.size_le j
  capacity_le j := by
    rw [objects_setObject]
    split
    · exact hcapacity
    · exact h.capacity_le j
  position_le := h.position_le
  writable fd e he hw := by
    have hr := h.writable fd e he hw
    rw [objects_setObject]
    split
    case isTrue hi => rw [hreadonly, ← hi, hr]
    case isFalse => exact hr
  linked j hj := by
    rw [objects_setObject] at hj ⊢
    split at hj
    case isTrue he =>
      rw [if_pos he, hlinked]
      exact h.linked i (hreadonly ▸ hj)
    case isFalse he =>
      rw [if_neg he]
      exact h.linked j hj

theorem setObject_setObject {f' : File} : (s.setObject i f).setObject i f' = s.setObject i f' := by
  rw [setObject, setObject, setObject, Function.update_idem]

/-- A file gets another descriptor. -/
theorem Consistent.add (h : Consistent s) {flags : UInt32} (hlow : 3 ≤ fd.val)
    (hfree : s.handles fd = none) (hused : (s.objects i).name ≠ none)
    (hwrite : has flags Flags.write → (s.objects i).readonly = false) :
    Consistent ((s.setObject i { s.objects i with references := (s.objects i).references + 1 }).setHandle
      fd (some ⟨i, 0, flags⟩)) := by
  obtain ⟨t, ht⟩ : ∃ t, t = s.setObject i
    { s.objects i with references := (s.objects i).references + 1 } := ⟨_, rfl⟩
  have hobject : ∀ j, t.objects j = { s.objects j with
      references := (s.objects j).references + if j = i then 1 else 0 } := fun j ↦ by
    rw [ht, objects_setObject]
    split
    case isTrue hj => rw [hj]
    case isFalse => rfl
  have hhandles : t.handles = s.handles := by rw [ht]; rfl
  have husers : ∀ j, users t j = users s j := fun j ↦ by rw [ht]; rfl
  have hfree' : t.handles fd = none := by rwa [hhandles]
  rw [← ht]
  refine ⟨⟨fun j ↦ ?_, fun fd' e he ↦ ?_, fun fd' he ↦ ?_, fun name j k hj hk ↦ ?_,
    fun j hj ↦ ?_, fun j ↦ ?_, fun j ↦ ?_, fun fd' e he ↦ ?_, fun fd' e he hw ↦ ?_, fun j hj ↦ ?_⟩,
    fun j hj hl ↦ ?_⟩
  · change (t.objects j).references = _
    rw [hobject]
    dsimp only
    split
    case isTrue hj =>
      rw [card_users_enter hfree' hj.symm, husers, h.references]
    case isFalse hj =>
      rw [users_enter hfree', if_neg (Ne.symm hj), husers, h.references, Nat.add_zero]
  · change (t.objects _).name ≠ none
    rw [hobject]
    rw [handles_setHandle] at he
    split at he
    · cases he
      exact hused
    · exact h.used fd' e (hhandles ▸ he)
  · rw [handles_setHandle] at he
    split at he
    case isTrue hfd => exact hfd ▸ hlow
    case isFalse => exact h.standard fd' (hhandles ▸ he)
  · change (t.objects j).name = _ ∧ (t.objects j).linked = _ at hj
    change (t.objects k).name = _ ∧ (t.objects k).linked = _ at hk
    rw [hobject] at hj hk
    exact h.distinct name j k hj hk
  · change (t.objects j).name = none at hj
    change t.objects j = .free
    rw [hobject] at hj ⊢
    have hne : j ≠ i := fun he ↦ hused (he ▸ hj)
    rw [if_neg hne]
    exact h.free j hj
  · change (t.objects j).size ≤ (t.objects j).capacity
    rw [hobject]
    exact h.size_le j
  · change (t.objects j).capacity ≤ intMax
    rw [hobject]
    exact h.capacity_le j
  · rw [handles_setHandle] at he
    split at he
    · cases he
      exact Nat.zero_le _
    · exact h.position_le fd' e (hhandles ▸ he)
  · change (t.objects _).readonly = false
    rw [hobject]
    rw [handles_setHandle] at he
    split at he
    · cases he
      exact hwrite hw
    · exact h.writable fd' e (hhandles ▸ he) hw
  · change (t.objects j).readonly = true at hj
    change (t.objects j).linked = true
    rw [hobject] at hj ⊢
    exact h.linked j hj
  · change (t.objects j).name ≠ none at hj
    change (t.objects j).linked = false at hl
    change 0 < (t.objects j).references
    rw [hobject] at hj hl ⊢
    exact Nat.lt_of_lt_of_le (h.unlinked j hj hl) (Nat.le_add_right _ _)

/-- A file is opened. -/
theorem Consistent.enter (h : Consistent s) {flags : UInt32} (hlow : 3 ≤ fd.val)
    (hfree : s.handles fd = none) (hused : (s.objects i).name ≠ none)
    (hwrite : has flags Flags.write → (s.objects i).readonly = false) :
    Consistent (enter s fd i flags) := by
  have hadd : ∀ {f : File}, Consistent (s.setObject i f) → f.name = (s.objects i).name →
      f.readonly = (s.objects i).readonly → Consistent ((s.setObject i
        { f with references := f.references + 1 }).setHandle fd (some ⟨i, 0, flags⟩)) := by
    intro f hc hname hreadonly
    have hi : (s.setObject i f).objects i = f := (objects_setObject i).trans (if_pos rfl)
    have hfinal := hc.add (i := i) hlow hfree (by rwa [hi, hname]) (by rwa [hi, hreadonly])
    rwa [hi, setObject_setObject] at hfinal
  unfold Gcc.enter
  dsimp only
  split
  · exact hadd (h.change rfl rfl rfl rfl hused (Nat.zero_le _) (h.capacity_le i)) rfl rfl
  · exact hadd (h.change rfl rfl rfl rfl hused (h.size_le i) (h.capacity_le i)) rfl rfl

/-- A name is given to a free slot. -/
theorem Consistent.link (h : Consistent s) {name : Bytes} (hi : (s.objects i).name = none)
    (hnew : ∀ j, ¬ s.Named name j) :
    Consistent (s.setObject i { s.objects i with name := some name, linked := true }) := by
  have hfree := h.free i hi
  have hunused : ∀ fd d, s.handles fd = some d → d.object ≠ i := fun fd d hd ↦
    h.not_used (by rw [hfree]; rfl) hd
  have hnamed : ∀ name' j, (s.setObject i { s.objects i with name := some name, linked := true }).Named
      name' j → (j = i ∧ name' = name) ∨ (j ≠ i ∧ s.Named name' j) := fun name' j hj ↦ by
    unfold Files.Named at hj
    rw [objects_setObject] at hj
    split at hj
    case isTrue he => exact .inl ⟨he, (Option.some.inj hj.1).symm⟩
    case isFalse he => exact .inr ⟨he, hj⟩
  refine ⟨⟨fun j ↦ ?_, fun fd e he ↦ ?_, h.standard, fun name' j k hj hk ↦ ?_, fun j hj ↦ ?_,
    fun j ↦ ?_, fun j ↦ ?_, h.position_le, fun fd e he hw ↦ ?_, fun j hj ↦ ?_⟩, fun j hj hl ↦ ?_⟩
  · rw [objects_setObject, users_setObject, ← h.references]
    split
    case isTrue hj => rw [hj]
    case isFalse => rfl
  · rw [objects_setObject, if_neg (hunused fd e he)]
    exact h.used fd e he
  · rcases hnamed name' j hj with ⟨hji, hj'⟩ | ⟨-, hj'⟩
    · rcases hnamed name' k hk with ⟨hki, -⟩ | ⟨-, hk'⟩
      · exact hji.trans hki.symm
      · exact absurd (hj' ▸ hk') (hnew k)
    · rcases hnamed name' k hk with ⟨-, hk'⟩ | ⟨-, hk'⟩
      · exact absurd (hk' ▸ hj') (hnew j)
      · exact h.distinct name' j k hj' hk'
  · rw [objects_setObject] at hj ⊢
    split at hj
    · nomatch hj
    case isFalse he =>
      rw [if_neg he]
      exact h.free j hj
  · rw [objects_setObject]
    split
    · exact h.size_le i
    · exact h.size_le j
  · rw [objects_setObject]
    split
    · exact h.capacity_le i
    · exact h.capacity_le j
  · rw [objects_setObject, if_neg (hunused fd e he)]
    exact h.writable fd e he hw
  · rw [objects_setObject] at hj ⊢
    split at hj
    case isTrue he => rw [if_pos he]
    case isFalse he =>
      rw [if_neg he]
      exact h.linked j hj
  · rw [objects_setObject] at hj hl ⊢
    split at hj
    case isTrue he =>
      rw [if_pos he] at hl
      nomatch hl
    case isFalse he =>
      rw [if_neg he] at hl ⊢
      exact h.unlinked j hj hl

/-- A file without descriptors is released. -/
theorem Tables.release (h : Tables s) (hi : (s.objects i).references = 0)
    (hu : ∀ j, j ≠ i → (s.objects j).name ≠ none → (s.objects j).linked = false →
      0 < (s.objects j).references) : Consistent (s.setObject i .free) := by
  have hunused : ∀ fd d, s.handles fd = some d → d.object ≠ i := fun fd d hd ↦ h.not_used hi hd
  have hnamed : ∀ name j, (s.setObject i .free).Named name j → s.Named name j := fun name j hj ↦ by
    unfold Files.Named at hj ⊢
    rw [objects_setObject] at hj
    split at hj
    · nomatch hj.1
    · exact hj
  refine ⟨⟨fun j ↦ ?_, fun fd e he ↦ ?_, h.standard, fun name j k hj hk ↦
    h.distinct name j k (hnamed name j hj) (hnamed name k hk), fun j hj ↦ ?_, fun j ↦ ?_,
    fun j ↦ ?_, h.position_le, fun fd e he hw ↦ ?_, fun j hj ↦ ?_⟩, fun j hj hl ↦ ?_⟩
  · rw [objects_setObject, users_setObject, ← h.references]
    split
    case isTrue hj => rw [hj, hi]; rfl
    case isFalse => rfl
  · rw [objects_setObject, if_neg (hunused fd e he)]
    exact h.used fd e he
  · rw [objects_setObject] at hj ⊢
    split at hj
    case isTrue he => rw [if_pos he]
    case isFalse he =>
      rw [if_neg he]
      exact h.free j hj
  · rw [objects_setObject]
    split
    · exact le_rfl
    · exact h.size_le j
  · rw [objects_setObject]
    split
    · exact Nat.zero_le _
    · exact h.capacity_le j
  · rw [objects_setObject, if_neg (hunused fd e he)]
    exact h.writable fd e he hw
  · rw [objects_setObject] at hj ⊢
    split at hj
    · nomatch hj
    case isFalse he =>
      rw [if_neg he]
      exact h.linked j hj
  · rw [objects_setObject] at hj hl ⊢
    split at hj
    · exact absurd rfl hj
    case isFalse he =>
      rw [if_neg he] at hl ⊢
      exact hu j he hj hl

/-- `unlink`. -/
theorem Consistent.unlink (h : Consistent s) (hr : (s.objects i).readonly = false) :
    Consistent (s.setObject i (s.objects i).unlinked) := by
  unfold File.unlinked
  split
  case isTrue hi => exact h.release hi fun j _ ↦ h.unlinked j
  case isFalse hi =>
    have hobject : ∀ j, (s.setObject i { s.objects i with linked := false }).objects j =
        { s.objects j with linked := if j = i then false else (s.objects j).linked } := fun j ↦ by
      rw [objects_setObject]
      split
      case isTrue hj => rw [hj]
      case isFalse => rfl
    have hnamed : ∀ name j, (s.setObject i { s.objects i with linked := false }).Named name j →
        s.Named name j := fun name j hj ↦ by
      unfold Files.Named at hj ⊢
      rw [hobject] at hj
      dsimp only at hj
      split at hj
      · nomatch hj.2
      · exact hj
    refine ⟨⟨fun j ↦ ?_, fun fd e he ↦ ?_, h.standard, fun name j k hj hk ↦
      h.distinct name j k (hnamed name j hj) (hnamed name k hk), fun j hj ↦ ?_, fun j ↦ ?_,
      fun j ↦ ?_, h.position_le, fun fd e he hw ↦ ?_, fun j hj ↦ ?_⟩, fun j hj hl ↦ ?_⟩
    · rw [hobject]
      exact h.references j
    · rw [hobject]
      exact h.used fd e he
    · rw [hobject] at hj ⊢
      have hfree := h.free j hj
      rw [hfree]
      split <;> rfl
    · rw [hobject]
      exact h.size_le j
    · rw [hobject]
      exact h.capacity_le j
    · rw [hobject]
      exact h.writable fd e he hw
    · rw [hobject] at hj ⊢
      dsimp only at hj ⊢
      have hne : j ≠ i := fun he ↦ by
        rw [he, hr] at hj
        nomatch hj
      rw [if_neg hne]
      exact h.linked j hj
    · rw [hobject] at hj hl ⊢
      by_cases he : j = i
      · rw [he]
        exact Nat.pos_of_ne_zero hi
      · exact h.unlinked j hj (by rwa [if_neg he] at hl)

/-- A descriptor is closed. -/
theorem Consistent.close (h : Consistent s) (hd : s.handles fd = some d) :
    Consistent ((s.setHandle fd none).setObject d.object (s.objects d.object).closed) := by
  obtain ⟨t, ht⟩ : ∃ t, t = (s.setHandle fd none).setObject d.object
    { s.objects d.object with references := (s.objects d.object).references - 1 } := ⟨_, rfl⟩
  have hhandles : ∀ fd', t.handles fd' = if fd' = fd then none else s.handles fd' := fun fd' ↦ by
    rw [ht]
    exact handles_setHandle fd'
  have hobject : ∀ j, t.objects j = { s.objects j with
      references := (s.objects j).references - if j = d.object then 1 else 0 } := fun j ↦ by
    rw [ht, objects_setObject]
    split
    case isTrue hj => rw [hj]
    case isFalse => rfl
  have hold : ∀ fd' e, t.handles fd' = some e → s.handles fd' = some e := fun fd' e he ↦ by
    rw [hhandles] at he
    split at he
    · nomatch he
    · exact he
  have htables : Tables t := by
    refine ⟨fun j ↦ ?_, fun fd' e he ↦ ?_, fun fd' he ↦ ?_, fun name j k hj hk ↦ ?_,
      fun j hj ↦ ?_, fun j ↦ ?_, fun j ↦ ?_, fun fd' e he ↦ h.position_le fd' e (hold fd' e he),
      fun fd' e he hw ↦ ?_, fun j hj ↦ ?_⟩
    · rw [hobject, ht]
      dsimp only
      rw [users_setObject]
      split
      case isTrue hj => rw [card_users_close hd hj.symm, h.references]
      case isFalse hj => rw [users_close hd, if_neg (Ne.symm hj), h.references, Nat.sub_zero]
    · rw [hobject]
      exact h.used fd' e (hold fd' e he)
    · obtain ⟨e, he⟩ := Option.ne_none_iff_exists'.mp he
      exact h.standard fd' (hold fd' e he ▸ Option.some_ne_none e)
    · unfold Files.Named at hj hk
      rw [hobject] at hj hk
      exact h.distinct name j k hj hk
    · rw [hobject] at hj ⊢
      have hfree := h.free j hj
      rw [hfree]
      simp [File.free]
    · rw [hobject]
      exact h.size_le j
    · rw [hobject]
      exact h.capacity_le j
    · rw [hobject]
      exact h.writable fd' e (hold fd' e he) hw
    · rw [hobject] at hj ⊢
      exact h.linked j hj
  have hothers : ∀ j, j ≠ d.object → (t.objects j).name ≠ none → (t.objects j).linked = false →
      0 < (t.objects j).references := fun j hne hj hl ↦ by
    rw [hobject, if_neg hne] at hj hl ⊢
    exact h.unlinked j hj hl
  unfold File.closed
  split
  case isTrue hlast =>
    have hrelease := htables.release (i := d.object) (by
      rw [hobject, if_pos rfl]
      exact hlast.2) hothers
    rwa [ht, setObject_setObject] at hrelease
  case isFalse hlast =>
    rw [← ht]
    refine ⟨htables, fun j hj hl ↦ ?_⟩
    by_cases hne : j = d.object
    · subst hne
      rw [hobject, if_pos rfl] at hl ⊢
      exact Nat.pos_of_ne_zero fun h0 ↦ hlast ⟨hl, h0⟩
    · exact hothers j hne hj hl

/-- A mount replaces all files. -/
theorem Consistent.mount (h : Consistent s) {blob : Bytes} {e : Envelope}
    (hclosed : ∀ fd : Fin fdCount, 3 ≤ fd.val → s.handles fd = none)
    (he : decodeFiles blob = some e) (hsize : ∀ f ∈ e.files, f.data.length ≤ intMax) :
    Consistent (mounted s e.files) := by
  obtain ⟨hnames, -, -⟩ := decodeFiles_spec he
  have hnone : ∀ fd, s.handles fd = none := fun fd ↦ by
    by_contra hne
    exact hne (hclosed fd (h.standard fd hne))
  have hobject : ∀ i, (∃ f ∈ e.files, e.files[i.val]? = some f ∧ (mounted s e.files).objects i =
      ⟨some f.name, f.data, f.data.length, 0, true, true⟩) ∨
        (mounted s e.files).objects i = .free := fun i ↦ by
    cases hi : e.files[i.val]? with
    | some f => exact .inl ⟨f, List.mem_of_getElem? hi, rfl, objects_mounted_some hi⟩
    | none =>
        right
        rw [objects_mounted_none hi]
        split
        case isTrue hname => exact h.free i hname
        case isFalse => rfl
  have hempty : ∀ i, users (mounted s e.files) i = ∅ := fun i ↦
    Finset.eq_empty_of_forall_notMem fun fd hfd ↦ by
      obtain ⟨d, hd, -⟩ := mem_users.mp hfd
      cases (hnone fd).symm.trans hd
  have hhandles : ∀ fd d, (mounted s e.files).handles fd ≠ some d := fun fd d hd ↦ by
    cases (hnone fd).symm.trans hd
  refine ⟨⟨fun i ↦ ?_, fun fd d hd ↦ absurd hd (hhandles fd d), fun fd hd ↦
    absurd (hnone fd) hd, fun name i j hi hj ↦ ?_, fun i hi ↦ ?_, fun i ↦ ?_, fun i ↦ ?_,
    fun fd d hd ↦ absurd hd (hhandles fd d), fun fd d hd ↦ absurd hd (hhandles fd d),
    fun i hi ↦ ?_⟩, fun i hi hl ↦ ?_⟩
  · rw [hempty, Finset.card_empty]
    rcases hobject i with ⟨f, -, -, hf⟩ | hf
    · rw [hf]
    · rw [hf]
      rfl
  · -- the names of the envelope are different
    unfold Files.Named at hi hj
    rcases hobject i with ⟨f, -, hfi, hf⟩ | hf
    · rcases hobject j with ⟨g, -, hgj, hg⟩ | hg
      · rw [hf] at hi
        rw [hg] at hj
        obtain ⟨hi', hfi⟩ := List.getElem?_eq_some_iff.mp hfi
        obtain ⟨hj', hgj⟩ := List.getElem?_eq_some_iff.mp hgj
        have hil : i.val < (e.files.map InputFile.name).length := by rwa [List.length_map]
        have hjl : j.val < (e.files.map InputFile.name).length := by rwa [List.length_map]
        have heq : (e.files.map InputFile.name)[i.val] = (e.files.map InputFile.name)[j.val] := by
          rw [List.getElem_map, List.getElem_map, hfi, hgj]
          exact Option.some.inj (hi.1.trans hj.1.symm)
        exact Fin.ext ((List.Nodup.getElem_inj_iff hnames).mp heq)
      · rw [hg] at hj
        cases hj.1
    · rw [hf] at hi
      cases hi.1
  · rcases hobject i with ⟨f, -, -, hf⟩ | hf
    · rw [hf] at hi
      cases hi
    · exact hf
  · rcases hobject i with ⟨f, -, -, hf⟩ | hf
    · exact hf ▸ le_rfl
    · exact hf ▸ le_rfl
  · rcases hobject i with ⟨f, hmem, -, hf⟩ | hf
    · rw [hf]
      exact hsize f hmem
    · rw [hf]
      exact Nat.zero_le _
  · rcases hobject i with ⟨f, -, -, hf⟩ | hf
    · rw [hf]
    · rw [hf] at hi
      cases hi
  · rcases hobject i with ⟨f, -, -, hf⟩ | hf
    · rw [hf] at hl
      cases hl
    · rw [hf] at hi
      exact absurd rfl hi

/-! ## Writing -/

variable {position finish : Nat} {data : Bytes}

theorem File.length_extended (hs : f.size ≤ f.capacity) (hp : position ≤ finish) :
    (f.extended position finish).length = max f.capacity finish := by
  have hgrown : (if finish > f.capacity then f.data ++ List.replicate (finish - f.capacity) 0
      else f.data).length = max f.capacity finish := by
    unfold File.capacity at hs ⊢
    split
    · rw [List.length_append, List.length_replicate]
      omega
    · omega
  unfold File.extended
  dsimp only
  split
  · rw [List.length_append, List.length_append, List.length_take, List.length_replicate,
      List.length_drop, hgrown]
    omega
  · exact hgrown

theorem File.capacity_written (hs : f.size ≤ f.capacity) :
    (f.written position data).capacity = max f.capacity (position + data.length) := by
  have hlength := File.length_extended hs (Nat.le_add_right position data.length)
  change (((f.extended position (position + data.length)).take position ++ data ++
    (f.extended position (position + data.length)).drop (position + data.length)).length) = _
  rw [List.length_append, List.length_append, List.length_take, List.length_drop, hlength]
  omega

theorem File.size_written (hs : f.size ≤ f.capacity) :
    (f.written position data).size ≤ (f.written position data).capacity := by
  rw [File.capacity_written hs]
  change (if position + data.length > f.size then position + data.length else f.size) ≤ _
  split <;> omega

end Preserved

/-! ## Every call -/

section Calls

variable {s s' : Files} {call : Call} {fd : Fin fdCount} {d : Descriptor} {i : Fin filesMax}

/-- A call keeps the tables consistent. -/
theorem Consistent.step (h : Consistent s) (hs : Step s call s') : Consistent s' := by
  cases hs with
  | same D n => exact h.withDirectories D n
  | mount hclosed he hsize => exact h.mount hclosed he hsize
  | @enter memory path flags name fd i D _ hlow hfree hnamed _ hwrite =>
      have hname : (s.objects i).name ≠ none := by
        rw [hnamed.1]
        exact Option.some_ne_none name
      exact (h.withDirectories D _).enter hlow hfree hname hwrite
  | @create memory path flags name fd i D _ hlow hfree hnew hi _ _ =>
      have hobject : ∀ f, ((s.withDirectories D s.openDirectories).setObject i f).objects i = f :=
        fun f ↦ (objects_setObject i).trans (if_pos rfl)
      refine ((h.withDirectories D _).link hi hnew).enter hlow hfree ?_ fun _ ↦ ?_
      · rw [hobject]
        exact Option.some_ne_none name
      · have hr : (s.objects i).readonly = false := by
          rw [h.free i hi]
          rfl
        exact (congrArg File.readonly (hobject _)).trans hr
  | close hd => exact h.close hd
  | @read fd d null size hd =>
      refine h.move hd rfl rfl ?_
      have hp := h.position_le fd d hd
      have hs := h.size_le d.object
      have hc := h.capacity_le d.object
      dsimp only
      omega
  | seek hd hp => exact h.move hd rfl rfl hp
  | @write fd memory null data d position hd hwrite hne hp =>
      have hs := h.size_le d.object
      have hc := h.capacity_le d.object
      have hchange : Consistent (s.setObject d.object ((s.objects d.object).written position data)) :=
        h.change rfl rfl rfl rfl (h.used fd d hd) (File.size_written hs) (by
          rw [File.capacity_written hs]
          omega)
      exact hchange.move hd rfl rfl hp
  | unlink _ _ hr => exact h.unlink hr
  | @replace path name i null own data _ hnamed _ _ hsize =>
      have hname : (s.objects i).name ≠ none := by
        rw [hnamed.1]
        exact Option.some_ne_none name
      exact h.change rfl rfl rfl rfl hname le_rfl hsize

/-- From consistent tables only consistent tables are reached. -/
theorem Consistent.run (h : Consistent s) (calls : List Call) : Consistent (run s calls) := by
  induction calls generalizing s with
  | nil => exact h
  | cons call calls ih => exact ih (h.step (call.step_spec s))

end Calls

end CopySpace.Gcc
