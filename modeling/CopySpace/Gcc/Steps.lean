import CopySpace.Gcc.Files

/-!
# What a call can do to the tables

`Step` lists what the calls do to the slots of the files and the descriptors.  The numbers of the
directories and the count of open directories are free.
-/

namespace CopySpace.Gcc

open Files

section Search

variable {s : Files} {name : Bytes} {i : Fin filesMax} {fd : Int} {h : Fin fdCount}
  {d : Descriptor}

theorem named_of_lookup (h : s.lookup name = some i) : s.Named name i := by
  have hfound := List.find?_some h
  exact of_decide_eq_true hfound

theorem lookup_eq_none : s.lookup name = none ↔ ∀ i, ¬ s.Named name i := by
  simp [Files.lookup]

/-- A name that a file has is found. -/
theorem lookup_isSome : (s.lookup name).isSome ↔ ∃ i, s.Named name i := by
  rw [← Option.ne_none_iff_isSome, ne_eq, lookup_eq_none]
  push Not
  rfl

theorem get_eq_some (hg : get s fd = some (h, d)) :
    (h.val : Int) = fd ∧ 3 ≤ h.val ∧ s.handles h = some d := by
  unfold get at hg
  split at hg
  case isTrue hfd =>
    obtain ⟨d', hd, he⟩ := Option.map_eq_some_iff.mp hg
    cases he
    have hval : ((fd.toNat : Nat) : Int) = fd := Int.toNat_of_nonneg (by omega)
    exact ⟨hval, by change 3 ≤ fd.toNat; omega, hd⟩
  case isFalse => nomatch hg

/-- An open descriptor is found. -/
theorem get_handle (hlow : 3 ≤ h.val) (hd : s.handles h = some d) :
    get s (h.val : Int) = some (h, d) := by
  have hfd : (3 : Int) ≤ (h.val : Int) ∧ (h.val : Int) < fdCount := ⟨by omega, by omega⟩
  unfold get
  rw [dif_pos hfd]
  simp only [Int.toNat_natCast, Fin.eta, hd, Option.map_some]

theorem freeHandle_eq_some (hf : s.freeHandle = some h) : 3 ≤ h.val ∧ s.handles h = none := by
  have hfound := List.find?_some hf
  exact of_decide_eq_true hfound

theorem freeObject_eq_some (hf : s.freeObject = some i) : (s.objects i).name = none := by
  have hfound := List.find?_some hf
  exact of_decide_eq_true hfound

end Search

/-- The number of bytes that are read. -/
theorem count_eq_min (position size n : Nat) :
    (if n < (if position < size then size - position else 0) then n
      else if position < size then size - position else 0) = min n (size - position) := by
  split <;> split <;> omega

/-- The file after a write of `data` at the position. -/
def File.written (f : File) (position : Nat) (data : Bytes) : File :=
  let finish := position + data.length
  let buffer := f.extended position finish
  { f with
    data := buffer.take position ++ data ++ buffer.drop finish
    size := if finish > f.size then finish else f.size }

/-- The file after `unlink`. -/
def File.unlinked (f : File) : File := if f.references = 0 then .free else { f with linked := false }

/-- The file after one of its descriptors has been closed. -/
def File.closed (f : File) : File :=
  if f.linked = false ∧ f.references - 1 = 0 then .free
  else { f with references := f.references - 1 }

/-- The files after `mount`. -/
def mounted (s : Files) (files : List InputFile) : Files :=
  { s with
    objects := fun i ↦ match files[i.val]? with
      | some f => ⟨some f.name, f.data, f.data.length, 0, true, true⟩
      | none => if (s.objects i).name = none then s.objects i else .free
    directories := fun _ ↦ none }

theorem objects_mounted_some {s : Files} {files : List InputFile} {i : Fin filesMax}
    {f : InputFile} (h : files[i.val]? = some f) :
    (mounted s files).objects i = ⟨some f.name, f.data, f.data.length, 0, true, true⟩ := by
  unfold mounted
  dsimp only
  rw [h]

theorem objects_mounted_none {s : Files} {files : List InputFile} {i : Fin filesMax}
    (h : files[i.val]? = none) : (mounted s files).objects i =
      if (s.objects i).name = none then s.objects i else .free := by
  unfold mounted
  dsimp only
  rw [h]

/-- Other numbers for the directories. -/
def Files.withDirectories (s : Files) (D : Fin filesMax → Option Bytes) (n : Nat) : Files :=
  { s with directories := D, openDirectories := n }

/-- A linked file has the name. -/
def FileAt (s : Files) (name : Bytes) : Prop := ∃ i, s.Named name i

/-- The name is that of the root, or a linked file is below it. -/
def DirectoryAt (s : Files) (name : Bytes) : Prop := name = [] ∨ ∃ i, s.Below name i

/-- The directory has a number or can get one. -/
def Numbered (memory : Bool) (s : Files) (name : Bytes) : Prop :=
  (∃ i, s.directories i = some name) ∨ (memory = true ∧ ∃ i, s.directories i = none)

/-- What a call does. -/
inductive Step (s : Files) : Call → Files → Prop
  | same {call : Call} (D n) : Step s call (s.withDirectories D n)
  | mount {memory blob} {e : Envelope} : (∀ fd : Fin fdCount, 3 ≤ fd.val → s.handles fd = none) →
      decodeFiles blob = some e → (∀ f ∈ e.files, f.data.length ≤ intMax) →
      (Gcc.mount memory s blob).1 = .ok () → Step s (.mount memory blob) (mounted s e.files)
  | enter {memory path flags name fd i} (D) : normalize path = .ok name → 3 ≤ fd.val →
      s.handles fd = none → s.Named name i →
      (has flags Flags.trunc → has flags Flags.write) →
      (has flags Flags.write → (s.objects i).readonly = false) →
      Step s (.openFile memory path flags) (enter (s.withDirectories D s.openDirectories) fd i flags)
  | create {memory path flags name fd i} (D) : normalize path = .ok name → 3 ≤ fd.val →
      s.handles fd = none → (∀ j, ¬ s.Named name j) → (s.objects i).name = none →
      has flags Flags.create → (DirectoryAt s name → ¬ Numbered (memory 0) s name) →
      Step s (.openFile memory path flags)
        (enter ((s.withDirectories D s.openDirectories).setObject i
          { s.objects i with name := some name, linked := true }) fd i flags)
  | close {fd : Fin fdCount} {d} : s.handles fd = some d → Step s (.closeFile fd)
      ((s.setHandle fd none).setObject d.object (s.objects d.object).closed)
  | read {fd : Fin fdCount} {d null size} : s.handles fd = some d →
      Step s (.readFile fd null size) (s.setHandle fd
        (some { d with
          position := d.position + min size ((s.objects d.object).size - d.position) }))
  | seek {fd : Fin fdCount} {d offset origin position} : s.handles fd = some d →
      position ≤ intMax → Step s (.seekFile fd offset origin) (s.setHandle fd
        (some { d with position := position }))
  | write {fd : Fin fdCount} {memory null data d position} : s.handles fd = some d →
      has d.flags Flags.write → data ≠ [] → position + data.length ≤ intMax →
      Step s (.writeFile memory fd null data)
        ((s.setObject d.object ((s.objects d.object).written position data)).setHandle fd
          (some { d with position := position + data.length }))
  | unlink {path name i} : normalize path = .ok name → s.Named name i →
      (s.objects i).readonly = false →
      Step s (.unlink path) (s.setObject i (s.objects i).unlinked)
  | replace {path name i null own data} : normalize path = .ok name → s.Named name i →
      (s.objects i).readonly = false → (s.objects i).references = 0 → data.length ≤ intMax →
      Step s (.replaceOwned path null own data)
        (s.setObject i { s.objects i with data := data, size := data.length })

section Steps

variable {s : Files} {call : Call}

theorem Step.refl (s : Files) (call : Call) : Step s call s := .same s.directories s.openDirectories

theorem directoryInode_state (memory : Bool) (s : Files) (name : Bytes) :
    ∃ D, (directoryInode memory s name).2 = s.withDirectories D s.openDirectories := by
  unfold directoryInode
  split
  · exact ⟨s.directories, rfl⟩
  split
  · exact ⟨s.directories, rfl⟩
  split
  · exact ⟨_, rfl⟩
  · exact ⟨s.directories, rfl⟩

theorem stat_state (memory : Bool) (s : Files) (path : Option Bytes) :
    ∃ D, (stat memory s path).2 = s.withDirectories D s.openDirectories := by
  unfold stat
  split
  · exact ⟨s.directories, rfl⟩
  case h_2 name hname =>
    split
    · exact ⟨s.directories, rfl⟩
    split
    · dsimp only
      exact directoryInode_state memory s name
    · exact ⟨s.directories, rfl⟩

/-- A directory with a number is found. -/
theorem directoryInode_ok {memory : Bool} {name : Bytes} (h : Numbered memory s name) :
    ∃ inode, (directoryInode memory s name).1 = .ok inode := by
  unfold directoryInode
  split
  · exact ⟨_, rfl⟩
  case h_2 hnone =>
    rw [List.find?_eq_none] at hnone
    rcases h with ⟨i, hi⟩ | ⟨hmemory, i, hi⟩
    · exact absurd (decide_eq_true hi) (hnone i (List.mem_finRange i))
    · split
      case h_1 hfull =>
        rw [List.find?_eq_none] at hfull
        exact absurd (decide_eq_true hi) (hfull i (List.mem_finRange i))
      case h_2 =>
        rw [if_pos hmemory]
        exact ⟨_, rfl⟩

/-- What `stat` does not report as a directory has no number, or is none. -/
theorem stat_directory {memory : Bool} {path : Option Bytes} {name : Bytes}
    (hpath : normalize path = .ok name) (hfile : ¬ FileAt s name) (hdirectory : DirectoryAt s name)
    (hnumber : Numbered memory s name) : isDirectory (stat memory s path).1 = true := by
  obtain ⟨inode, hinode⟩ := directoryInode_ok hnumber
  unfold stat
  rw [hpath]
  dsimp only
  rw [lookup_eq_none.mpr fun i hi ↦ hfile ⟨i, hi⟩]
  dsimp only
  rw [if_pos (show name = [] ∨ ∃ i, s.Below name i from hdirectory)]
  dsimp only
  rw [hinode]
  rfl

/-- A mount that succeeds, or leaves the tables as they are. -/
theorem mount_eq (memory : Nat → Bool) (s : Files) (blob : Bytes) :
    (∃ e, (∀ fd : Fin fdCount, 3 ≤ fd.val → s.handles fd = none) ∧ decodeFiles blob = some e ∧
      (∀ f ∈ e.files, f.data.length ≤ intMax) ∧
        mount memory s blob = (.ok (), mounted s e.files)) ∨
      ∃ e, mount memory s blob = (.error e, s) := by
  unfold mount
  split
  · exact .inr ⟨_, rfl⟩
  split
  · exact .inr ⟨_, rfl⟩
  case isFalse hhandles =>
    push Not at hhandles
    split
    · exact .inr ⟨_, rfl⟩
    case h_2 e he =>
      split
      · exact .inr ⟨_, rfl⟩
      case isFalse hsize =>
        push Not at hsize
        split
        · exact .inr ⟨_, rfl⟩
        · exact .inl ⟨e, hhandles, he, hsize, rfl⟩

theorem mount_step (memory : Nat → Bool) (blob : Bytes) :
    Step s (.mount memory blob) (mount memory s blob).2 := by
  rcases mount_eq memory s blob with ⟨e, hclosed, he, hsize, h⟩ | ⟨e, h⟩
  · rw [h]
    exact .mount hclosed he hsize (congrArg Prod.fst h)
  · rw [h]
    exact .refl s _

theorem has_or {flags a b : UInt32} (h : has flags a) : has flags (a ||| b) := by
  have hand : flags &&& a ≠ 0 := of_decide_eq_true h
  have habsorb : flags &&& (a ||| b) &&& a = flags &&& a := by
    refine UInt32.toBitVec_inj.mp (BitVec.eq_of_getLsbD_eq fun i hi ↦ ?_)
    simp only [UInt32.toBitVec_and, UInt32.toBitVec_or, BitVec.getLsbD_and, BitVec.getLsbD_or]
    cases flags.toBitVec.getLsbD i <;> cases a.toBitVec.getLsbD i <;> simp
  refine decide_eq_true fun hzero ↦ hand ?_
  rw [← habsorb, hzero, UInt32.zero_and]

theorem openName_step {memory : Nat → Bool} {path : Option Bytes} {flags : UInt32} {name : Bytes}
    (hpath : normalize path = .ok name) (htrunc : has flags Flags.trunc → has flags Flags.write)
    (hdirectory : ¬ FileAt s name → DirectoryAt s name → ¬ Numbered (memory 0) s name)
    (D : Fin filesMax → Option Bytes) :
    Step s (.openFile memory path flags)
      (openName (memory 1) (s.withDirectories D s.openDirectories) name flags).2 := by
  unfold openName
  dsimp only
  split
  · exact .same D _
  split
  · exact .same D _
  case isFalse hreadonly =>
    split
    · exact .same D _
    case isFalse hcreate =>
      split
      · exact .same D _
      case h_2 fd hfd =>
        obtain ⟨hlow, hfree⟩ := freeHandle_eq_some hfd
        split
        case h_1 i hi =>
          refine .enter D hpath hlow hfree (named_of_lookup hi) htrunc fun hwrite ↦ ?_
          by_contra hr
          refine hreadonly ⟨?_, hwrite⟩
          rw [hi]
          exact Bool.of_not_eq_false hr
        case h_2 hnone =>
          split
          · exact .same D _
          case h_2 i hi =>
            split
            · have hnew : ∀ j, ¬ s.Named name j := lookup_eq_none.mp hnone
              refine .create D hpath hlow hfree hnew (freeObject_eq_some hi) ?_
                (hdirectory fun ⟨j, hj⟩ ↦ hnew j hj)
              by_contra hc
              exact hcreate ⟨hnone, hc⟩
            · exact .same D _

theorem openFile_step (memory : Nat → Bool) (path : Option Bytes) (flags : UInt32) :
    Step s (.openFile memory path flags) (openFile memory s path flags).2 := by
  obtain ⟨D, hD⟩ := stat_state (memory 0) s path
  unfold openFile
  split
  · exact .refl s _
  split
  · exact .refl s _
  case isFalse htrunc =>
    split
    · exact .refl s _
    case h_2 name hname =>
      dsimp only
      split
      · exact hD ▸ .same D _
      case isFalse hdirectory =>
        rw [hD]
        refine openName_step hname (fun h ↦ ?_) (fun hfile hdir hnumber ↦
          hdirectory (stat_directory hname hfile hdir hnumber)) D
        by_contra hw
        exact htrunc ⟨has_or h, hw⟩

theorem closeFile_step (fd : Int) : Step s (.closeFile fd) (closeFile s fd).2 := by
  unfold closeFile
  split
  · exact .refl s _
  case h_2 h d hg =>
    obtain ⟨rfl, -, hd⟩ := get_eq_some hg
    exact .close hd

theorem readFile_step (fd : Int) (null : Bool) (size : Nat) :
    Step s (.readFile fd null size) (readFile s fd null size).2 := by
  unfold readFile
  split
  · exact .refl s _
  case h_2 h d hg =>
    obtain ⟨rfl, -, hd⟩ := get_eq_some hg
    dsimp only
    split
    · exact .refl s _
    split
    · exact .refl s _
    split
    · exact .refl s _
    · rw [count_eq_min]
      exact .read hd

theorem writeFile_step (memory : Bool) (fd : Int) (null : Bool) (data : Bytes) :
    Step s (.writeFile memory fd null data) (writeFile memory s fd null data).2 := by
  unfold writeFile
  split
  · exact .refl s _
  case h_2 h d hg =>
    obtain ⟨rfl, -, hd⟩ := get_eq_some hg
    dsimp only
    split
    · exact .refl s _
    case isFalse hwrite =>
      split
      · exact .refl s _
      split
      · exact .refl s _
      split
      · exact .refl s _
      case isFalse hdata =>
        generalize (if has d.flags Flags.append then _ else d.position) = position
        split
        · exact .refl s _
        case isFalse hsize =>
          split
          · exact .refl s _
          · have hlength : data.length ≠ 0 := fun h ↦ hdata (List.length_eq_zero_iff.mp h)
            exact .write hd (not_not.mp hwrite) hdata (by omega)

theorem seekFile_step (fd offset origin : Int) :
    Step s (.seekFile fd offset origin) (seekFile s fd offset origin).2 := by
  unfold seekFile
  split
  · exact .refl s _
  case h_2 h d hg =>
    obtain ⟨rfl, -, hd⟩ := get_eq_some hg
    dsimp only
    split
    · exact .refl s _
    split
    · exact .refl s _
    · exact .seek hd (by omega)

theorem unlink_step (path : Option Bytes) : Step s (.unlink path) (unlink s path).2 := by
  unfold unlink
  split
  · exact .refl s _
  case h_2 name hname =>
    split
    · exact .refl s _
    case h_2 i hi =>
      dsimp only
      split
      · exact .refl s _
      case isFalse hr => exact .unlink hname (named_of_lookup hi) (Bool.of_not_eq_true hr)

theorem replaceOwned_step (path : Option Bytes) (null own : Bool) (data : Bytes) :
    Step s (.replaceOwned path null own data) (replaceOwned s path null own data).2 := by
  unfold replaceOwned
  split
  · exact .refl s _
  case isFalse hsize =>
    split
    · exact .refl s _
    split
    · exact .refl s _
    case h_2 name hname =>
      split
      · exact .refl s _
      case h_2 i hi =>
        dsimp only
        split
        · exact .refl s _
        case isFalse hr =>
          split
          · exact .refl s _
          case isFalse href =>
            split
            · exact .refl s _
            · exact .replace hname (named_of_lookup hi) (Bool.of_not_eq_true hr)
                (not_not.mp href) (Nat.not_lt.mp hsize)

theorem directoryOpen_state (memory : Bool) (s : Files) (path : Option Bytes) :
    ∃ D n, (directoryOpen memory s path).2 = s.withDirectories D n := by
  obtain ⟨D, hD⟩ := stat_state memory s path
  unfold directoryOpen
  dsimp only
  rw [hD]
  split
  · exact ⟨D, _, rfl⟩
  split
  · exact ⟨D, _, rfl⟩
  split
  · exact ⟨D, _, rfl⟩
  · exact ⟨D, _, rfl⟩

theorem access_state (memory : Bool) (s : Files) (path : Option Bytes) (write execute : Bool) :
    ∃ D n, (access memory s path write execute).2 = s.withDirectories D n := by
  obtain ⟨D, hD⟩ := stat_state memory s path
  unfold access
  dsimp only
  rw [hD]
  split
  · exact ⟨D, _, rfl⟩
  split
  · exact ⟨D, _, rfl⟩
  split
  · exact ⟨D, _, rfl⟩
  split
  · exact ⟨D, _, rfl⟩
  · exact ⟨D, _, rfl⟩

theorem directoryNext_state (memory : Bool) (s : Files) (path : Option Bytes)
    (cursor capacity : Nat) :
    ∃ D n, (directoryNext memory s path cursor capacity).2 = s.withDirectories D n := by
  have hsame : ∃ D n, s = s.withDirectories D n := ⟨s.directories, s.openDirectories, rfl⟩
  unfold directoryNext
  split
  · exact hsame
  split
  · exact hsame
  split
  · exact hsame
  split
  · exact hsame
  split
  · exact hsame
  split
  · dsimp only
    obtain ⟨D, hD⟩ := directoryInode_state memory s _
    exact ⟨D, _, hD⟩
  · exact hsame

theorem fstat_state (s : Files) (fd : Int) : (fstat s fd).2 = s := by
  unfold fstat
  split <;> rfl

/-- The calls that only look. -/
def Call.Looks : Call → Prop
  | .fstat _ | .stat _ _ | .access _ _ _ _ | .directoryOpen _ _ | .directoryNext _ _ _ _
  | .directoryClose => True
  | _ => False

/-- A call that only looks changes at most the numbers of directories. -/
theorem Call.Looks.state (s : Files) {call : Call} (h : call.Looks) :
    ∃ D n, call.step s = s.withDirectories D n := by
  cases call with
  | fstat fd => exact ⟨s.directories, s.openDirectories, fstat_state s fd⟩
  | stat memory path =>
      obtain ⟨D, hD⟩ := stat_state memory s path
      exact ⟨D, _, hD⟩
  | access memory path write execute => exact access_state memory s path write execute
  | directoryOpen memory path => exact directoryOpen_state memory s path
  | directoryNext memory path cursor capacity =>
      exact directoryNext_state memory s path cursor capacity
  | directoryClose => exact ⟨s.directories, s.openDirectories - 1, rfl⟩
  | _ => exact h.elim

/-- What a call does is in the list. -/
theorem Call.step_spec (s : Files) (call : Call) : Step s call (call.step s) := by
  have hlooks : call.Looks → Step s call (call.step s) := fun h ↦ by
    obtain ⟨D, n, hD⟩ := h.state s
    rw [hD]
    exact .same D n
  cases call with
  | mount memory blob => exact mount_step memory blob
  | openFile memory path flags => exact openFile_step memory path flags
  | closeFile fd => exact closeFile_step fd
  | readFile fd null size => exact readFile_step fd null size
  | writeFile memory fd null data => exact writeFile_step memory fd null data
  | seekFile fd offset origin => exact seekFile_step fd offset origin
  | unlink path => exact unlink_step path
  | replaceOwned path null own data => exact replaceOwned_step path null own data
  | fstat | stat | access | directoryOpen | directoryNext | directoryClose => exact hlooks trivial

end Steps

end CopySpace.Gcc
