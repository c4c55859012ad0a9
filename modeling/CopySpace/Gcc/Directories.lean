import CopySpace.Gcc.Lifetime

/-!
# Files and directories

A directory is a prefix of the names of files.  A path stands for a file or for a directory, as
long as no file is made where a directory is or below a file.
-/

namespace CopySpace.Gcc

open Files

section Names

variable {s s' : Files} {call : Call} {name : Bytes}

/-- No path is that of a file and of a directory. -/
structure Separate (s : Files) : Prop where
  /-- No file is below a file. -/
  below : ∀ name i j, s.Named name i → ¬ s.Below name j
  /-- No file has the name of the root. -/
  root : ∀ i, ¬ s.Named [] i

theorem fileAt_of_below {i : Fin filesMax} (h : s.Below name i) :
    ∃ p, FileAt s p ∧ name ++ [slash] <+: p := by
  obtain ⟨hlinked, p, hp, hbelow⟩ := h
  exact ⟨p, ⟨i, hp, hlinked⟩, hbelow⟩

theorem below_of_fileAt {p : Bytes} (h : FileAt s p) (hbelow : name ++ [slash] <+: p) :
    ∃ i, s.Below name i := by
  obtain ⟨i, hp, hlinked⟩ := h
  exact ⟨i, hlinked, p, hp, hbelow⟩

/-- Only the names of the files count. -/
theorem separate_iff : Separate s ↔
    (∀ name p, FileAt s name → FileAt s p → ¬ name ++ [slash] <+: p) ∧ ¬ FileAt s [] := by
  constructor
  · intro h
    refine ⟨fun name p ⟨i, hi⟩ hp hbelow ↦ ?_, fun ⟨i, hi⟩ ↦ h.root i hi⟩
    obtain ⟨j, hj⟩ := below_of_fileAt hp hbelow
    exact h.below name i j hi hj
  · intro h
    refine ⟨fun name i j hi hj ↦ ?_, fun i hi ↦ h.2 ⟨i, hi⟩⟩
    obtain ⟨p, hp, hbelow⟩ := fileAt_of_below hj
    exact h.1 name p ⟨i, hi⟩ hp hbelow

/-- Fewer names. -/
theorem Separate.of_fileAt (h : Separate s) (hs : ∀ name, FileAt s' name → FileAt s name) :
    Separate s' := by
  rw [separate_iff] at h ⊢
  exact ⟨fun name p hname hp ↦ h.1 name p (hs name hname) (hs p hp), fun hroot ↦ h.2 (hs [] hroot)⟩

/-- The name of a file is not that of a directory. -/
theorem Separate.not_directoryAt (h : Separate s) (hname : FileAt s name) :
    ¬ DirectoryAt s name := by
  obtain ⟨i, hi⟩ := hname
  rintro (rfl | ⟨j, hj⟩)
  · exact h.root i hi
  · exact h.below name i j hi hj

/-! ## What a call does to the names -/

theorem named_setObject {i j : Fin filesMax} {f : File} :
    (s.setObject i f).Named name j ↔
      if j = i then f.name = some name ∧ f.linked = true else s.Named name j := by
  unfold Files.Named
  rw [objects_setObject]
  split
  case isTrue => rfl
  case isFalse => rfl

/-- A file that keeps its name, or loses it. -/
theorem fileAt_setObject {i : Fin filesMax} {f : File}
    (h : ∀ name, f.name = some name → f.linked = true → s.Named name i)
    (hname : FileAt (s.setObject i f) name) : FileAt s name := by
  obtain ⟨j, hj⟩ := hname
  rw [named_setObject] at hj
  split at hj
  case isTrue => exact ⟨i, h name hj.1 hj.2⟩
  case isFalse => exact ⟨j, hj⟩

/-- An open file has the name that it had. -/
theorem fileAt_enter {fd : Fin fdCount} {i : Fin filesMax} {flags : UInt32} :
    FileAt (enter s fd i flags) name ↔ FileAt s name := by
  have hnamed : ∀ j, (enter s fd i flags).Named name j ↔ s.Named name j := fun j ↦ by
    unfold enter
    dsimp only
    change (Files.setObject s i _).Named name j ↔ _
    rw [named_setObject]
    split
    case isTrue hj =>
      subst hj
      unfold Files.Named
      split <;> rfl
    case isFalse => rfl
  unfold FileAt
  simp only [hnamed]

/-- The file is made with a name that is new. -/
theorem fileAt_create {i : Fin filesMax} {new : Bytes} {f : File}
    (hi : (s.objects i).name = none) (hf : f.name = some new) (hl : f.linked = true) :
    FileAt (s.setObject i f) name ↔ name = new ∨ FileAt s name := by
  constructor
  · rintro ⟨j, hj⟩
    rw [named_setObject] at hj
    split at hj
    case isTrue => exact .inl (Option.some.inj (hj.1.symm.trans hf))
    case isFalse => exact .inr ⟨j, hj⟩
  · rintro (rfl | ⟨j, hj⟩)
    · exact ⟨i, named_setObject.mpr (by rw [if_pos rfl]; exact ⟨hf, hl⟩)⟩
    · have hne : j ≠ i := fun he ↦ by
        rw [he, Files.Named, hi] at hj
        nomatch hj.1
      exact ⟨j, named_setObject.mpr (by rwa [if_neg hne])⟩

/-- The call mounts no files. -/
def Call.Keeps : Call → Prop
  | .mount _ _ => False
  | _ => True

/-- A call gives a file no name, or makes one. -/
theorem Step.fileAt (hs : Step s call s') (hkeeps : call.Keeps) :
    (∀ name, FileAt s' name → FileAt s name) ∨
      ∃ memory path flags new, call = .openFile memory path flags ∧ normalize path = .ok new ∧
        ¬ FileAt s new ∧ has flags Flags.create ∧
          (DirectoryAt s new → ¬ Numbered (memory 0) s new) ∧
            ∀ name, FileAt s' name ↔ name = new ∨ FileAt s name := by
  cases hs with
  | same => exact .inl fun name h ↦ h
  | mount => exact hkeeps.elim
  | @enter memory path flags new fd i D =>
      exact .inl fun name h ↦ (fileAt_enter (s := s.withDirectories D s.openDirectories)).mp h
  | @create memory path flags new fd i D hpath _ _ hnew hi hcreate hdirectory =>
      refine .inr ⟨memory, path, flags, new, rfl, hpath, fun ⟨j, hj⟩ ↦ hnew j hj, hcreate,
        hdirectory, fun name ↦ fileAt_enter.trans ?_⟩
      exact fileAt_create (s := s.withDirectories D s.openDirectories) hi rfl rfl
  | @close fd d =>
      refine .inl fun name h ↦ fileAt_setObject (s := s.setHandle fd none)
        (fun name hname hl ↦ ?_) h
      unfold File.closed at hname hl
      split at hname
      · nomatch hname
      case isFalse hlast =>
        rw [if_neg hlast] at hl
        exact ⟨hname, hl⟩
  | read | seek => exact .inl fun name h ↦ h
  | @write fd memory null data d position =>
      have hnames : ∀ name, ((s.objects d.object).written position data).name = some name →
          ((s.objects d.object).written position data).linked = true → s.Named name d.object :=
        fun name hname hl ↦ ⟨hname, hl⟩
      exact .inl fun name h ↦ fileAt_setObject hnames h
  | @unlink path _ i =>
      refine .inl fun name h ↦ fileAt_setObject (fun name hname hl ↦ ?_) h
      unfold File.unlinked at hname hl
      split at hname
      · nomatch hname
      case isFalse hused =>
        rw [if_neg hused] at hl
        nomatch hl
  | @replace path _ i null own data =>
      refine .inl fun name h ↦ ?_
      exact fileAt_setObject (f := { s.objects i with data := data, size := data.length })
        (fun name hname hl ↦ ⟨hname, hl⟩) h

end Names

/-! ## Files that can be made -/

section Permitted

variable {s : Files} {call : Call} {name : Bytes}

/-- If the call makes a file, it is not below a file, and where it is a directory this is noticed,
because the directory has or gets a number. -/
def Permitted (s : Files) (call : Call) : Prop :=
  ∀ memory path flags name, call = .openFile memory path flags → normalize path = .ok name →
    ¬ FileAt s name → has flags Flags.create →
      (∀ parent, parent ++ [slash] <+: name → ¬ FileAt s parent) ∧
        (DirectoryAt s name → Numbered (memory 0) s name)

/-- Files are opened with success, and none are mounted. -/
def Accepted (s : Files) (call : Call) : Prop :=
  call.Keeps ∧ ∀ memory path flags, call = .openFile memory path flags →
    ∃ fd, (openFile memory s path flags).1 = .ok fd

/-- A name is not below itself. -/
theorem not_below_self (name : Bytes) : ¬ name ++ [slash] <+: name := fun h ↦ by
  have hlength := h.length_le
  rw [List.length_append, List.length_singleton] at hlength
  omega

theorem Separate.step (h : Separate s) (hkeeps : call.Keeps) (hp : Permitted s call) :
    Separate (call.step s) := by
  rcases (call.step_spec s).fileAt hkeeps with hfewer |
    ⟨memory, path, flags, new, rfl, hpath, hnew, hcreate, hdirectory, hnames⟩
  · exact h.of_fileAt hfewer
  · obtain ⟨hparents, hnumber⟩ := hp memory path flags new rfl hpath hnew hcreate
    have hplain : ¬ DirectoryAt s new := fun hd ↦ hdirectory hd (hnumber hd)
    have hold := separate_iff.mp h
    refine separate_iff.mpr ⟨fun name p hname hp hbelow ↦ ?_, fun hroot ↦ ?_⟩
    · rcases (hnames p).mp hp with rfl | hp
      · rcases (hnames name).mp hname with rfl | hname
        · exact not_below_self name hbelow
        · exact hparents name hbelow hname
      · rcases (hnames name).mp hname with rfl | hname
        · exact hplain (.inr (below_of_fileAt hp hbelow))
        · exact hold.1 name p hname hp hbelow
    · rcases (hnames []).mp hroot with hempty | hroot
      · exact hplain (.inl hempty.symm)
      · exact hold.2 hroot

/-- The name that has been opened is that of a file. -/
theorem openName_ok {memory : Bool} {flags : UInt32} {fd : Nat}
    (h : (openName memory s name flags).1 = .ok fd) :
    FileAt (openName memory s name flags).2 name ∧
      ∀ p, FileAt s p → FileAt (openName memory s name flags).2 p := by
  unfold openName at h ⊢
  dsimp only at h ⊢
  split at h
  · nomatch h
  case isFalse h₁ =>
    rw [if_neg h₁]
    split at h
    · nomatch h
    case isFalse h₂ =>
      rw [if_neg h₂]
      split at h
      · nomatch h
      case isFalse h₃ =>
        rw [if_neg h₃]
        split at h
        · nomatch h
        case h_2 fd' hfd =>
          split at h
          case h_1 i hi =>
            exact ⟨fileAt_enter.mpr ⟨i, named_of_lookup hi⟩, fun p hp ↦ fileAt_enter.mpr hp⟩
          case h_2 =>
            split at h
            · nomatch h
            case h_2 i hi =>
              split at h
              case isFalse => nomatch h
              case isTrue hmemory =>
                have hfree := freeObject_eq_some hi
                rw [if_pos hmemory]
                exact ⟨fileAt_enter.mpr ((fileAt_create hfree rfl rfl).mpr (.inl rfl)),
                  fun p hp ↦ fileAt_enter.mpr ((fileAt_create hfree rfl rfl).mpr (.inr hp))⟩

theorem openFile_ok {memory : Nat → Bool} {path : Option Bytes} {flags : UInt32} {fd : Nat}
    (h : (openFile memory s path flags).1 = .ok fd) :
    ∃ name, normalize path = .ok name ∧ FileAt (openFile memory s path flags).2 name ∧
      ∀ p, FileAt s p → FileAt (openFile memory s path flags).2 p := by
  obtain ⟨D, hD⟩ := stat_state (memory 0) s path
  unfold openFile at h ⊢
  split at h
  · nomatch h
  case isFalse h₁ =>
    rw [if_neg h₁]
    split at h
    · nomatch h
    case isFalse h₂ =>
      rw [if_neg h₂]
      split at h
      · nomatch h
      case h_2 name hname =>
        dsimp only at h ⊢
        split at h
        · nomatch h
        case isFalse h₃ =>
          rw [if_neg h₃]
          obtain ⟨hfile, hmono⟩ := openName_ok h
          exact ⟨name, hname, hfile, fun p hp ↦ hmono p (hD ▸ hp)⟩

/-- A file that is not permitted is made nevertheless. -/
theorem Separate.permitted (h : Separate (call.step s)) (hok : Accepted s call) :
    Permitted s call := by
  rintro memory path flags name rfl hpath - -
  obtain ⟨fd, hfd⟩ := hok.2 memory path flags rfl
  obtain ⟨name', hname', hfile, hmono⟩ := openFile_ok hfd
  cases hpath.symm.trans hname'
  have hnew := separate_iff.mp h
  refine ⟨fun parent hbelow hparent ↦ hnew.1 parent name (hmono parent hparent) hfile hbelow, ?_⟩
  rintro (rfl | ⟨j, hj⟩)
  · exact absurd hfile hnew.2
  · obtain ⟨p, hp, hbelow⟩ := fileAt_of_below hj
    exact absurd hbelow (hnew.1 name p hfile (hmono p hp))

/-- From separate files a run reaches separate files only, if every file that it makes is
permitted, and only then. -/
theorem Separate.run_iff (h : Separate s) {calls : List Call} (hcalls : Along Accepted s calls) :
    (∀ before, before <+: calls → Separate (run s before)) ↔ Along Permitted s calls := by
  induction calls generalizing s with
  | nil =>
      refine ⟨fun _ ↦ trivial, fun _ before hb ↦ ?_⟩
      rw [List.prefix_nil.mp hb]
      exact h
  | cons call calls ih =>
      constructor
      · intro hall
        have hstep : Separate (call.step s) :=
          hall [call] (List.cons_prefix_cons.mpr ⟨rfl, List.nil_prefix⟩)
        exact ⟨hstep.permitted hcalls.1, (ih hstep hcalls.2).mp fun before hb ↦
          hall (call :: before) (List.cons_prefix_cons.mpr ⟨rfl, hb⟩)⟩
      · rintro ⟨hp, hrest⟩ before hb
        cases before with
        | nil => exact h
        | cons c before =>
            obtain ⟨rfl, hbefore⟩ := List.cons_prefix_cons.mp hb
            exact (ih (h.step hcalls.1.1 hp) hcalls.2).mpr hrest before hbefore

end Permitted

/-! ## What is reported of a path -/

section Reports

variable {s : Files} {name base part : Bytes} {i : Fin filesMax}

/-- The path of an entry of a directory. -/
def joined (base name : Bytes) : Bytes := if base = [] then name else base ++ slash :: name

/-- A call has reported a file. -/
inductive ReportsFile (s : Files) (name : Bytes) : Prop
  | stat {memory path st} : normalize path = .ok name → (stat memory s path).1 = .ok st →
      st.directory = false → ReportsFile s name
  | openFile {memory before path flags fd} : normalize path = .ok name →
      openFile memory before path flags = (.ok fd, s) → ReportsFile s name
  | directoryNext {memory path base cursor capacity entry next} : normalize path = .ok base →
      (directoryNext memory s path cursor capacity).1 = .ok (some entry, next) →
      entry.directory = false → name = joined base entry.name → ReportsFile s name

/-- A call has reported a directory. -/
inductive ReportsDirectory (s : Files) (name : Bytes) : Prop
  | stat {memory path st} : normalize path = .ok name → (stat memory s path).1 = .ok st →
      st.directory = true → ReportsDirectory s name
  | openFile {memory path flags} : normalize path = .ok name →
      (openFile memory s path flags).1 = .error .EISDIR → ReportsDirectory s name
  | directoryNext {memory path base cursor capacity entry next} : normalize path = .ok base →
      (directoryNext memory s path cursor capacity).1 = .ok (some entry, next) →
      entry.directory = true → name = joined base entry.name → ReportsDirectory s name

theorem joined_append (base name rest : Bytes) :
    joined base (name ++ rest) = joined base name ++ rest := by
  unfold joined
  split
  · rfl
  · rw [List.append_assoc, List.cons_append]

theorem child_eq_some (h : child (s.objects i) base = some part) :
    s.Named (joined base part) i := by
  unfold child at h
  split at h
  · nomatch h
  case h_2 p hp =>
    split at h
    · nomatch h
    case isFalse hl =>
      have hlinked : (s.objects i).linked = true := Bool.of_not_eq_false hl
      unfold joined
      split at h
      case isTrue hbase =>
        cases h
        rw [if_pos hbase]
        exact ⟨hp, hlinked⟩
      case isFalse hbase =>
        split at h
        case isFalse => nomatch h
        case isTrue hbelow =>
          cases h
          obtain ⟨rest, hrest⟩ := List.isPrefixOf_iff_prefix.mp hbelow
          rw [if_neg hbase, ← hrest]
          refine ⟨hp.trans (congrArg some ?_), hlinked⟩
          rw [← hrest, List.append_assoc, ← List.drop_drop, List.drop_left]
          rfl

/-- What is listed is the name of a file, or a directory on the way to it. -/
theorem listed_eq_some {first : Bytes} {directory : Bool}
    (h : listed s base i = some (first, directory)) :
    if directory then DirectoryAt s (joined base first) else FileAt s (joined base first) := by
  unfold listed at h
  split at h
  · nomatch h
  case h_2 part hpart =>
    have hnamed := child_eq_some hpart
    split at h
    · nomatch h
    dsimp only [firstPart] at h
    split at h
    · nomatch h
    obtain ⟨rfl, rfl⟩ := Prod.mk.inj (Option.some.inj h)
    have hsplit := List.takeWhile_append_dropWhile (p := fun c ↦ decide (c ≠ slash)) (l := part)
    rw [← hsplit, joined_append] at hnamed
    cases hrest : part.dropWhile (fun c ↦ decide (c ≠ slash)) with
    | nil =>
        rw [hrest, List.append_nil] at hnamed
        exact ⟨i, hnamed⟩
    | cons c rest =>
        -- the component ends at a slash
        have hc : c = slash := by
          have hhead := List.head_dropWhile_not (fun c ↦ decide (c ≠ slash))
            (hrest ▸ List.cons_ne_nil c rest)
          simp only [hrest, List.head_cons] at hhead
          simpa using hhead
        subst hc
        rw [hrest] at hnamed
        exact .inr (below_of_fileAt ⟨i, hnamed⟩ ⟨rest, by rw [List.append_assoc]; rfl⟩)

theorem stat_ok {memory : Bool} {path : Option Bytes} {st : Stat}
    (hpath : normalize path = .ok name) (h : (stat memory s path).1 = .ok st) :
    if st.directory then DirectoryAt s name else FileAt s name := by
  unfold stat at h
  rw [hpath] at h
  dsimp only at h
  split at h
  case h_1 i hi =>
    cases h
    exact ⟨i, named_of_lookup hi⟩
  case h_2 =>
    split at h
    case isFalse => nomatch h
    case isTrue hdirectory =>
      dsimp only at h
      cases hinode : (directoryInode memory s name).1 with
      | error e =>
          rw [hinode] at h
          nomatch h
      | ok inode =>
          rw [hinode] at h
          cases h
          exact hdirectory

theorem directoryNext_ok {memory : Bool} {path : Option Bytes} {cursor capacity next : Nat}
    {entry : Entry} (hpath : normalize path = .ok base)
    (h : (directoryNext memory s path cursor capacity).1 = .ok (some entry, next)) :
    if entry.directory then DirectoryAt s (joined base entry.name)
    else FileAt s (joined base entry.name) := by
  unfold directoryNext at h
  split at h
  · nomatch h
  rw [hpath] at h
  dsimp only at h
  split at h
  · nomatch h
  case h_2 i hi =>
    split at h
    · nomatch h
    case h_2 first directory hlisted =>
      have hreport := listed_eq_some hlisted
      split at h
      · nomatch h
      split at h
      case isTrue hdirectory =>
        dsimp only at h
        generalize (directoryInode memory s _).1 = inode at h
        cases inode with
        | error e => nomatch h
        | ok inode =>
            cases h
            rwa [hdirectory] at hreport
      case isFalse hfile =>
        cases h
        rwa [Bool.of_not_eq_true hfile] at hreport

theorem ReportsFile.fileAt (h : ReportsFile s name) : FileAt s name := by
  cases h with
  | stat hpath hok hfile =>
      have hreport := stat_ok hpath hok
      rwa [hfile] at hreport
  | @openFile memory before path flags fd hpath hok =>
      obtain ⟨name', hname', hfile, -⟩ := openFile_ok (congrArg Prod.fst hok)
      cases hpath.symm.trans hname'
      rwa [hok] at hfile
  | directoryNext hpath hok hfile hname =>
      have hreport := directoryNext_ok hpath hok
      rw [hfile] at hreport
      exact hname ▸ hreport

theorem openName_ne_EISDIR {memory : Bool} {flags : UInt32} :
    (openName memory s name flags).1 ≠ .error .EISDIR := by
  unfold openName
  dsimp only
  split
  · nofun
  split
  · nofun
  split
  · nofun
  split
  · nofun
  split
  · nofun
  split
  · nofun
  split
  · nofun
  · nofun

theorem ReportsDirectory.directoryAt (h : ReportsDirectory s name) : DirectoryAt s name := by
  cases h with
  | stat hpath hok hdirectory =>
      have hreport := stat_ok hpath hok
      rwa [hdirectory] at hreport
  | @openFile memory path flags hpath hok =>
      unfold Gcc.openFile at hok
      split at hok
      · nomatch hok
      split at hok
      · nomatch hok
      rw [hpath] at hok
      dsimp only at hok
      split at hok
      case isTrue hdirectory =>
        cases hst : (Gcc.stat (memory 0) s path).1 with
        | error e =>
            rw [hst] at hdirectory
            nomatch hdirectory
        | ok st =>
            have hreport := stat_ok hpath hst
            rw [hst] at hdirectory
            rwa [show st.directory = true from hdirectory] at hreport
      case isFalse => exact absurd hok openName_ne_EISDIR
  | directoryNext hpath hok hdirectory hname =>
      have hreport := directoryNext_ok hpath hok
      rw [hdirectory] at hreport
      exact hname ▸ hreport

/-- Where no file is in the place of a directory, the functions agree. -/
theorem Separate.reports (h : Separate s) (name : Bytes) :
    ¬ (ReportsFile s name ∧ ReportsDirectory s name) :=
  fun ⟨hfile, hdirectory⟩ ↦ h.not_directoryAt hfile.fileAt hdirectory.directoryAt

end Reports

/-! ## Runs from mounted files -/

section Mounted

variable {s : Files} {e : Envelope} {blob : Bytes}

/-- No file of the envelope is below another. -/
def PrefixFree (e : Envelope) : Prop :=
  ∀ f ∈ e.files, ∀ g ∈ e.files, ¬ f.name ++ [slash] <+: g.name

theorem fileAt_mounted {name : Bytes} (h : FileAt (mounted s e.files) name) :
    ∃ f ∈ e.files, f.name = name := by
  obtain ⟨i, hname, hlinked⟩ := h
  cases hi : e.files[i.val]? with
  | some f =>
      rw [objects_mounted_some hi] at hname
      exact ⟨f, List.mem_of_getElem? hi, Option.some.inj hname⟩
  | none =>
      rw [objects_mounted_none hi] at hname
      split at hname
      case isTrue hnone => cases hnone.symm.trans hname
      case isFalse => cases hname

/-- Mounted files are separate if no name is below another. -/
theorem separate_mounted (he : decodeFiles blob = some e) (hfree : PrefixFree e) :
    Separate (mounted s e.files) := by
  obtain ⟨-, hvalid, -⟩ := decodeFiles_spec he
  refine separate_iff.mpr ⟨fun name p hname hp ↦ ?_, fun hroot ↦ ?_⟩
  · obtain ⟨f, hf, rfl⟩ := fileAt_mounted hname
    obtain ⟨g, hg, rfl⟩ := fileAt_mounted hp
    exact hfree f hf g hg
  · obtain ⟨f, hf, hempty⟩ := fileAt_mounted hroot
    have hname := hvalid f hf
    rw [hempty] at hname
    nomatch hname

end Mounted

/-- A packet with the empty file `a`. -/
def onlyA : Bytes := filesMagic ++ [1, 0, 0, 0, 0, 0, 0, 0, 0, 0, 0, 0, 1, 0, 0, 0, 0, 0, 0, 0, 97]

/-- `open("a/b", O_WRONLY | O_CREAT)`. -/
def openAB : Call := .openFile (fun _ ↦ true) (some [97, slash, 98]) 6

theorem onlyA_decoded : decodeFiles onlyA = some ⟨[⟨[97], []⟩], [], 0⟩ := by
  decide

theorem onlyA_prefixFree : PrefixFree ⟨[⟨[97], []⟩], [], 0⟩ := by
  unfold PrefixFree
  decide

/-- The files after the packet has been mounted first. -/
def afterA : Files := (mount (fun _ ↦ true) (run .empty []) onlyA).2

theorem mount_onlyA : (mount (fun _ ↦ true) (run .empty []) onlyA).1 = .ok () := by
  decide

theorem accepted_openAB : Along Accepted afterA [openAB] := by
  have hopen : (openFile (fun _ ↦ true) afterA (some [97, slash, 98]) 6).1 = .ok 3 := by
    decide +kernel
  exact ⟨⟨trivial, fun _ _ _ he ↦ by cases he; exact ⟨3, hopen⟩⟩, trivial⟩

/-- Files that no name is below are mounted, and other calls follow.  No path becomes that of a
file and of a directory if every file that is made is permitted, and only then. -/
theorem separate_run_iff (before calls : List Call) (memory : Nat → Bool) (blob : Bytes)
    (e : Envelope) (he : decodeFiles blob = some e) (hfree : PrefixFree e)
    (hok : (mount memory (run .empty before) blob).1 = .ok ())
    (hcalls : Along Accepted (mount memory (run .empty before) blob).2 calls) :
    (∀ first, first <+: calls →
      let s := run (mount memory (run .empty before) blob).2 first
      Separate s ∧ ∀ name, ¬ (ReportsFile s name ∧ ReportsDirectory s name)) ↔
        Along Permitted (mount memory (run .empty before) blob).2 calls := by
  have hseparate : Separate (mount memory (run .empty before) blob).2 := by
    rcases mount_eq memory (run .empty before) blob with ⟨e', -, he', -, h⟩ | ⟨err, h⟩
    · cases he.symm.trans he'
      rw [h]
      exact separate_mounted he hfree
    · rw [h] at hok
      nomatch hok
  rw [← hseparate.run_iff hcalls]
  exact ⟨fun h first hfirst ↦ (h first hfirst).1, fun h first hfirst ↦
    ⟨h first hfirst, (h first hfirst).reports⟩⟩

theorem separate_run_iff_openAB : (∀ before, before <+: [openAB] →
    let s := run afterA before
    Separate s ∧ ∀ name, ¬ (ReportsFile s name ∧ ReportsDirectory s name)) ↔
      Along Permitted afterA [openAB] :=
  separate_run_iff [] [openAB] (fun _ ↦ true) onlyA _ onlyA_decoded onlyA_prefixFree mount_onlyA
    accepted_openAB

/-- The file `a/b` is made below the file `a`. -/
theorem file_below_file : ¬ ∀ (before calls : List Call) (memory : Nat → Bool) (blob : Bytes)
    (e : Envelope), decodeFiles blob = some e → PrefixFree e →
      (mount memory (run .empty before) blob).1 = .ok () →
        Along Accepted (mount memory (run .empty before) blob).2 calls →
          Separate (run (mount memory (run .empty before) blob).2 calls) := by
  intro h
  have hseparate := h [] [openAB] (fun _ ↦ true) onlyA _ onlyA_decoded onlyA_prefixFree
    mount_onlyA accepted_openAB
  exact hseparate.below [97] ⟨0, by decide⟩ ⟨1, by decide⟩ (by decide +kernel)
    (by decide +kernel)

end CopySpace.Gcc
