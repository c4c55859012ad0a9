import CopySpace.Gcc.Consistent

/-!
# What becomes of the bytes of a file

A file that is read only keeps its bytes until the next mount.  A file that is unlinked keeps them
as long as a descriptor points at it.
-/

namespace CopySpace.Gcc

open Files

/-- Every call of a run has a property, in the tables that it finds. -/
def Along (P : Files → Call → Prop) : Files → List Call → Prop
  | _, [] => True
  | s, call :: calls => P s call ∧ Along P (call.step s) calls

/-- What every such call preserves holds after the run. -/
theorem Along.preserved {P : Files → Call → Prop} {I : Files → Prop}
    (hstep : ∀ s call, I s → P s call → I (call.step s)) {s : Files} {calls : List Call}
    (hs : I s) (h : Along P s calls) : I (run s calls) := by
  induction calls generalizing s with
  | nil => exact hs
  | cons call calls ih => exact ih (hstep s call hs h.1) h.2

theorem Along.and {P Q : Files → Call → Prop} {s : Files} {calls : List Call} (h : Along P s calls)
    (h' : Along Q s calls) : Along (fun s call ↦ P s call ∧ Q s call) s calls := by
  induction calls generalizing s with
  | nil => trivial
  | cons call calls ih => exact ⟨⟨h.1, h'.1⟩, ih h.2 h'.2⟩

section Readonly

variable {s s' : Files} {call : Call} {i : Fin filesMax}

/-- The file is the same, but for its references. -/
structure Unchanged (i : Fin filesMax) (s s' : Files) : Prop where
  name : (s'.objects i).name = (s.objects i).name
  data : (s'.objects i).data = (s.objects i).data
  size : (s'.objects i).size = (s.objects i).size
  readonly : (s'.objects i).readonly = (s.objects i).readonly
  linked : (s'.objects i).linked = (s.objects i).linked

/-- The call mounts files. -/
def Mounts (s : Files) (call : Call) : Prop :=
  ∃ memory blob, call = .mount memory blob ∧ (mount memory s blob).1 = .ok ()

theorem Unchanged.refl (i : Fin filesMax) (s : Files) : Unchanged i s s := ⟨rfl, rfl, rfl, rfl, rfl⟩

theorem Unchanged.trans {s'' : Files} (h : Unchanged i s s') (h' : Unchanged i s' s'') :
    Unchanged i s s'' :=
  ⟨h'.name.trans h.name, h'.data.trans h.data, h'.size.trans h.size,
    h'.readonly.trans h.readonly, h'.linked.trans h.linked⟩

theorem Unchanged.of_eq (h : s'.objects i = s.objects i) : Unchanged i s s' := by
  constructor <;> rw [h]

/-- Other files do not change. -/
theorem unchanged_setObject {f : File} {j : Fin filesMax} (h : i ≠ j) :
    Unchanged i s (s.setObject j f) := .of_eq ((objects_setObject i).trans (if_neg h))

theorem Unchanged.setHandle (h : Unchanged i s s') {fd : Fin fdCount} {o : Option Descriptor} :
    Unchanged i s (s'.setHandle fd o) := h.trans (.of_eq rfl)

/-- A file that is opened changes if it is truncated. -/
theorem unchanged_enter {flags : UInt32} {fd : Fin fdCount} {j : Fin filesMax}
    (h : has flags Flags.trunc = true → i ≠ j) : Unchanged i s (enter s fd j flags) := by
  by_cases hij : i = j
  · subst hij
    have hkeep : ¬ has flags Flags.trunc = true := fun ht ↦ h ht rfl
    have hobject : (enter s fd i flags).objects i =
        { s.objects i with references := (s.objects i).references + 1 } := by
      unfold enter
      dsimp only
      rw [if_neg hkeep]
      exact (objects_setObject i).trans (if_pos rfl)
    constructor <;> rw [hobject]
  · exact (unchanged_setObject hij).setHandle

/-- A call that does not mount files keeps the files that are read only. -/
theorem Step.readonly (hs : Step s call s') (h : Consistent s)
    (hi : (s.objects i).readonly = true) (hm : ¬ Mounts s call) : Unchanged i s s' := by
  have hother : ∀ {j}, (s.objects j).readonly = false → i ≠ j := fun hj he ↦ by
    rw [he, hj] at hi
    nomatch hi
  cases hs with
  | same => exact .of_eq rfl
  | mount _ _ _ hok => exact absurd ⟨_, _, rfl, hok⟩ hm
  | @enter memory path flags name fd j D _ _ _ _ htrunc hwrite =>
      have hdirectories : Unchanged i s (s.withDirectories D s.openDirectories) := .of_eq rfl
      exact hdirectories.trans (unchanged_enter fun ht ↦ hother (hwrite (htrunc ht)))
  | @create memory path flags name fd j D _ _ _ _ hj _ _ =>
      -- the slot was free
      have hne : i ≠ j := hother (by rw [h.free j hj]; rfl)
      have hdirectories : Unchanged i s (s.withDirectories D s.openDirectories) := .of_eq rfl
      exact (hdirectories.trans (unchanged_setObject hne)).trans (unchanged_enter fun _ ↦ hne)
  | @close fd d hd =>
      by_cases hid : i = d.object
      · subst hid
        have hlinked : ¬ ((s.objects d.object).linked = false ∧
            (s.objects d.object).references - 1 = 0) := fun hl ↦ by
          rw [h.linked d.object hi] at hl
          nomatch hl.1
        have hobject : ((s.setHandle fd none).setObject d.object
            (s.objects d.object).closed).objects d.object =
              { s.objects d.object with references := (s.objects d.object).references - 1 } := by
          rw [objects_setObject, if_pos rfl]
          exact if_neg hlinked
        constructor <;> rw [hobject]
      · exact ((Unchanged.refl i s).setHandle).trans (unchanged_setObject hid)
  | read | seek => exact .of_eq rfl
  | @write fd memory null data d position hd hwrite =>
      exact (unchanged_setObject (hother (h.writable fd d hd hwrite))).setHandle
  | unlink _ _ hj => exact unchanged_setObject (hother hj)
  | replace _ _ hj => exact unchanged_setObject (hother hj)

/-- A file that is read only keeps its bytes until the next mount. -/
theorem Consistent.readonly (h : Consistent s) (hi : (s.objects i).readonly = true)
    {calls : List Call} (hm : Along (fun s call ↦ ¬ Mounts s call) s calls) :
    Unchanged i s (Gcc.run s calls) := by
  have hpreserved := Along.preserved (I := fun t ↦ Consistent t ∧ Unchanged i s t)
    (fun t call ht hcall ↦ ⟨ht.1.step (call.step_spec t), ht.2.trans
      ((call.step_spec t).readonly ht.1 (ht.2.readonly.trans hi) hcall)⟩) ⟨h, .refl i s⟩ hm
  exact hpreserved.2

end Readonly

section Unlinked

variable {s s' : Files} {call : Call} {fd : Fin fdCount} {d : Descriptor} {contents : Bytes}

/-- The call writes the file. -/
def Writes (s : Files) (i : Fin filesMax) (call : Call) : Prop :=
  ∃ (memory : Bool) (fd : Fin fdCount) (null : Bool) (data : Bytes) (d : Descriptor),
    call = .writeFile memory fd null data ∧ s.handles fd = some d ∧ d.object = i

/-- The descriptor is open, and its file is unlinked. -/
structure Held (fd : Fin fdCount) (d : Descriptor) (contents : Bytes) (s : Files) : Prop where
  handle : ∃ position, s.handles fd = some { d with position := position }
  linked : (s.objects d.object).linked = false
  contents : (s.objects d.object).contents = contents

/-- Neither the descriptor nor its file changes. -/
theorem Held.of_eq (h : Held fd d contents s) (hhandle : s'.handles fd = s.handles fd)
    (hlinked : (s'.objects d.object).linked = (s.objects d.object).linked)
    (hcontents : (s'.objects d.object).contents = (s.objects d.object).contents) :
    Held fd d contents s' := by
  obtain ⟨position, hp⟩ := h.handle
  exact ⟨⟨position, hhandle.trans hp⟩, hlinked.trans h.linked, hcontents.trans h.contents⟩

/-- Another file changes. -/
theorem Held.setObject (h : Held fd d contents s) {f : File} {j : Fin filesMax}
    (hj : d.object ≠ j) : Held fd d contents (s.setObject j f) := by
  have hobject : (s.setObject j f).objects d.object = s.objects d.object :=
    (objects_setObject d.object).trans (if_neg hj)
  exact h.of_eq rfl (congrArg File.linked hobject) (congrArg File.contents hobject)

/-- Another descriptor changes. -/
theorem Held.setHandle (h : Held fd d contents s) {o : Option Descriptor} {fd' : Fin fdCount}
    (hfd : fd ≠ fd') : Held fd d contents (s.setHandle fd' o) :=
  h.of_eq ((handles_setHandle fd).trans (if_neg hfd)) rfl rfl

/-- A descriptor of the file moves. -/
theorem Held.move (h : Held fd d contents s) {fd' : Fin fdCount} {d' : Descriptor}
    {position : Nat} (hd : s.handles fd' = some d') :
    Held fd d contents (s.setHandle fd' (some { d' with position := position })) := by
  by_cases hfd : fd = fd'
  · subst hfd
    obtain ⟨p, hp⟩ := h.handle
    refine ⟨⟨position, ?_⟩, h.linked, h.contents⟩
    rw [handles_setHandle, if_pos rfl, Option.some.inj (hd.symm.trans hp)]
  · exact h.setHandle hfd

/-- A descriptor of the file is closed, but not the one that is held. -/
theorem Held.close (h : Held fd d contents s) (hc : Consistent s) {fd' : Fin fdCount}
    {d' : Descriptor} (hd : s.handles fd' = some d') (hfd : fd ≠ fd') :
    Held fd d contents ((s.setHandle fd' none).setObject d'.object
      (s.objects d'.object).closed) := by
  by_cases hobject : d.object = d'.object
  · obtain ⟨p, hp⟩ := h.handle
    have hmem : ({fd, fd'} : Finset (Fin fdCount)) ⊆ users s d'.object := by
      intro x hx
      rcases Finset.mem_insert.mp hx with rfl | hx
      · exact mem_users.mpr ⟨_, hp, hobject⟩
      · rw [Finset.mem_singleton.mp hx]
        exact mem_users.mpr ⟨d', hd, rfl⟩
    have hcard := Finset.card_le_card hmem
    rw [Finset.card_pair hfd, ← hc.references] at hcard
    have hkept : (s.objects d'.object).closed =
        { s.objects d'.object with references := (s.objects d'.object).references - 1 } :=
      if_neg fun hl ↦ by omega
    rw [hkept]
    have hnew : ((s.setHandle fd' none).setObject d'.object { s.objects d'.object with
        references := (s.objects d'.object).references - 1 }).objects d.object =
          { s.objects d.object with references := (s.objects d.object).references - 1 } := by
      rw [objects_setObject, if_pos hobject, hobject]
    refine (h.setHandle (o := none) hfd).of_eq rfl ?_ ?_
    · rw [hnew]
      rfl
    · rw [hnew]
      rfl
  · exact (h.setHandle hfd).setObject hobject

/-- The bytes of the file are replaced through a descriptor. -/
theorem Held.written (h : Held fd d contents s) {fd' : Fin fdCount} {d' : Descriptor} {f : File}
    {position : Nat} (hd : s.handles fd' = some d') (hobject : d.object = d'.object)
    (hlinked : f.linked = (s.objects d'.object).linked) :
    Held fd d f.contents ((s.setObject d'.object f).setHandle fd'
      (some { d' with position := position })) := by
  have hnew : (s.setObject d'.object f).objects d.object = f :=
    (objects_setObject d.object).trans (if_pos hobject)
  have hset : Held fd d f.contents (s.setObject d'.object f) := by
    refine ⟨h.handle, ?_, congrArg File.contents hnew⟩
    rw [hnew, hlinked, ← hobject]
    exact h.linked
  exact hset.move hd

/-- Only the close of the descriptor takes the file away, and only a write changes its bytes. -/
theorem Step.held (hs : Step s call s') (hc : Consistent s) (h : Held fd d contents s)
    (hclose : call ≠ .closeFile fd) :
    ∃ contents', Held fd d contents' s' ∧ (¬ Writes s d.object call → contents' = contents) := by
  obtain ⟨p, hp⟩ := h.handle
  have hnamed : ∀ {name j}, s.Named name j → d.object ≠ j := fun hj he ↦ by
    have hl := h.linked
    rw [he, hj.2] at hl
    nomatch hl
  have hfd : ∀ {fd'}, s.handles fd' = none → fd ≠ fd' := fun hfree he ↦ by
    rw [← he, hp] at hfree
    nomatch hfree
  cases hs with
  | same => exact ⟨contents, h.of_eq rfl rfl rfl, fun _ ↦ rfl⟩
  | mount hclosed =>
      have hnone := hclosed fd (hc.standard fd (hp ▸ Option.some_ne_none _))
      rw [hp] at hnone
      nomatch hnone
  | @enter memory path flags name fd' j D _ _ hfree hj =>
      have hd : Held fd d contents (s.withDirectories D s.openDirectories) := h.of_eq rfl rfl rfl
      exact ⟨contents, (hd.setObject (hnamed hj)).setHandle (hfd hfree), fun _ ↦ rfl⟩
  | @create memory path flags name fd' j D _ _ hfree _ hj _ _ =>
      have hd : Held fd d contents (s.withDirectories D s.openDirectories) := h.of_eq rfl rfl rfl
      have hne : d.object ≠ j := fun he ↦ hc.used fd _ hp (he ▸ hj)
      exact ⟨contents, ((hd.setObject hne).setObject hne).setHandle (hfd hfree), fun _ ↦ rfl⟩
  | close hd => exact ⟨contents, h.close hc hd fun he ↦ hclose (he ▸ rfl), fun _ ↦ rfl⟩
  | read hd => exact ⟨contents, h.move hd, fun _ ↦ rfl⟩
  | seek hd => exact ⟨contents, h.move hd, fun _ ↦ rfl⟩
  | @write fd' memory null data d' position hd =>
      by_cases hobject : d.object = d'.object
      · exact ⟨_, h.written hd hobject rfl, fun hwrites ↦
          absurd ⟨memory, fd', null, data, d', rfl, hd, hobject.symm⟩ hwrites⟩
      · have hfd' : fd ≠ fd' := fun he ↦ hobject (by
          have heq := Option.some.inj (hp.symm.trans (he ▸ hd))
          rw [← heq])
        exact ⟨contents, (h.setObject hobject).setHandle hfd', fun _ ↦ rfl⟩
  | unlink _ hj => exact ⟨contents, h.setObject (hnamed hj), fun _ ↦ rfl⟩
  | replace _ hj => exact ⟨contents, h.setObject (hnamed hj), fun _ ↦ rfl⟩

/-- An unlinked file stays while a descriptor is open. -/
theorem Held.run (h : Held fd d contents s) (hc : Consistent s) {calls : List Call}
    (hcalls : Along (fun _ call ↦ call ≠ .closeFile fd) s calls) :
    ∃ contents', Held fd d contents' (Gcc.run s calls) := by
  have hpreserved := Along.preserved
    (I := fun t ↦ Consistent t ∧ ∃ contents', Held fd d contents' t)
    (fun t call ⟨htc, _, ht⟩ hcall ↦ by
      obtain ⟨contents', ht', -⟩ := (call.step_spec t).held htc ht hcall
      exact ⟨htc.step (call.step_spec t), contents', ht'⟩) ⟨hc, contents, h⟩ hcalls
  exact hpreserved.2

/-- Its bytes stay the same while it is not written. -/
theorem Held.run_contents (h : Held fd d contents s) (hc : Consistent s) {calls : List Call}
    (hcalls : Along (fun s call ↦ call ≠ .closeFile fd ∧ ¬ Writes s d.object call) s calls) :
    Held fd d contents (Gcc.run s calls) := by
  have hpreserved := Along.preserved (I := fun t ↦ Consistent t ∧ Held fd d contents t)
    (fun t call ⟨htc, ht⟩ hcall ↦ by
      obtain ⟨contents', ht', heq⟩ := (call.step_spec t).held htc ht hcall.1
      exact ⟨htc.step (call.step_spec t), heq hcall.2 ▸ ht'⟩) ⟨hc, h⟩ hcalls
  exact hpreserved.2

/-- A file with a descriptor is still there when it is unlinked. -/
theorem held_unlink (hc : Consistent s) (hd : s.handles fd = some d) {path : Option Bytes}
    {name : Bytes} (hpath : normalize path = .ok name) (hname : s.Named name d.object)
    (hok : (unlink s path).1 = .ok ()) :
    Held fd d (s.objects d.object).contents (unlink s path).2 := by
  obtain ⟨i, hi⟩ := Option.isSome_iff_exists.mp (lookup_isSome.mpr ⟨d.object, hname⟩)
  obtain rfl : i = d.object := hc.distinct name i d.object (named_of_lookup hi) hname
  have hused : (s.objects d.object).references ≠ 0 := fun h0 ↦ hc.not_used h0 hd rfl
  have hreadonly : ¬ (s.objects d.object).readonly = true := fun hr ↦ by
    unfold unlink at hok
    rw [hpath] at hok
    dsimp only at hok
    rw [hi] at hok
    dsimp only at hok
    rw [if_pos hr] at hok
    nomatch hok
  have hafter : (unlink s path).2 =
      s.setObject d.object { s.objects d.object with linked := false } := by
    unfold unlink
    rw [hpath]
    dsimp only
    rw [hi]
    dsimp only
    rw [if_neg hreadonly, if_neg hused]
  have hobject : (unlink s path).2.objects d.object =
      { s.objects d.object with linked := false } := by
    rw [hafter]
    exact (objects_setObject d.object).trans (if_pos rfl)
  refine ⟨⟨d.position, ?_⟩, ?_, ?_⟩
  · rw [hafter]
    exact hd
  · rw [hobject]
  · rw [hobject]
    rfl

/-- What a descriptor reads is in the contents of its file. -/
theorem File.read_contents (f : File) (position size : Nat) :
    (f.data.drop position).take (min size (f.size - position)) =
      (f.contents.drop position).take size := by
  unfold File.contents
  rw [List.drop_take, List.take_take]

/-- The bytes of a held file can be read at every position. -/
theorem Held.readable (h : Held fd d contents s) (hc : Consistent s)
    (hread : has d.flags Flags.read) {position size : Nat} (hp : position ≤ intMax)
    (hs : size ≤ intMax) :
    (seekFile s fd position 0).1 = .ok position ∧
      (readFile (seekFile s fd position 0).2 fd false size).1 =
        .ok ((contents.drop position).take size) := by
  obtain ⟨p, hd⟩ := h.handle
  have hlow := hc.standard fd (hd ▸ Option.some_ne_none _)
  have hseek : seekFile s fd position 0 =
      (.ok position, s.setHandle fd (some { d with position := position })) := by
    unfold seekFile
    rw [get_handle hlow hd]
    dsimp only
    rw [if_pos rfl]
    dsimp only
    rw [if_neg (by omega)]
    have hposition : (((0 : Nat) : Int) + (position : Int)).toNat = position := by omega
    rw [hposition]
  rw [hseek]
  refine ⟨rfl, ?_⟩
  dsimp only
  have hhandle : (s.setHandle fd (some { d with position := position })).handles fd =
      some { d with position := position } := (handles_setHandle fd).trans (if_pos rfl)
  unfold readFile
  rw [get_handle hlow hhandle]
  dsimp only
  rw [if_neg (not_not.mpr hread), if_neg (Nat.not_lt.mpr hs), if_neg (by simp)]
  change Except.ok _ = _
  rw [count_eq_min, ← h.contents, ← File.read_contents]
  rfl

end Unlinked

/-- In every run the tables are consistent, and files that are read only keep their bytes until
the next mount.  A file that is unlinked can be read through every descriptor that was open, until
the descriptor is closed, and its bytes are the same until it is written. -/
theorem files_consistent (calls : List Call) :
    let s := run .empty calls
    Consistent s ∧
      (∀ i later, (s.objects i).readonly = true →
        Along (fun s call ↦ ¬ Mounts s call) s later → Unchanged i s (run s later)) ∧
      ∀ fd d path name later, s.handles fd = some d → has d.flags Flags.read →
        normalize path = .ok name → s.Named name d.object → (unlink s path).1 = .ok () →
        Along (fun _ call ↦ call ≠ .closeFile fd) (unlink s path).2 later →
        let t := run (unlink s path).2 later
        (∀ position ≤ intMax, ∀ size ≤ intMax,
          (seekFile t fd position 0).1 = .ok position ∧
            (readFile (seekFile t fd position 0).2 fd false size).1 =
              .ok (((t.objects d.object).contents.drop position).take size)) ∧
        (Along (fun s call ↦ ¬ Writes s d.object call) (unlink s path).2 later →
          (t.objects d.object).contents = (s.objects d.object).contents) := by
  dsimp only
  have hc : Consistent (run .empty calls) := consistent_empty.run calls
  refine ⟨hc, fun i later hi hm ↦ hc.readonly hi hm, ?_⟩
  intro fd d path name later hd hread hpath hname hok hlater
  have hunlinked : Consistent (unlink (run .empty calls) path).2 := hc.step (unlink_step path)
  have hheld := held_unlink hc hd hpath hname hok
  obtain ⟨contents, ht⟩ := hheld.run hunlinked hlater
  refine ⟨fun position hp size hs ↦ ?_, fun hwrites ↦ ?_⟩
  · rw [ht.contents]
    exact ht.readable (hunlinked.run later) hread hp hs
  · exact (hheld.run_contents hunlinked (hlater.and hwrites)).contents

end CopySpace.Gcc
