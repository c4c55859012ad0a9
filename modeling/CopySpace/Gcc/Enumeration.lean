import CopySpace.Gcc.Directories
import CopySpace.Gcc.Paths
import Mathlib.Data.Set.Card
import Mathlib.Data.Set.Finite.Range
import Mathlib.Order.WellFounded

/-!
# `files.c`: enumerating a directory

The children of a directory are deduced from the full names of the files.  A call to
`cs_gcc_fs_directory_next` reports the first slot, from a cursor on, with a child that no slot before
has, so calls from the beginning to the end report every child once.
-/

namespace CopySpace.Gcc

open Files

/-! ## Valid names -/

section Valid

variable {s : Files} {name base part : Bytes}

/-- The linked files have valid names, or that of the root. -/
def ValidNames (s : Files) : Prop := ∀ name, FileAt s name → fileNameValid name true

/-- The path of a file to be made is a C string. -/
def Call.CString : Call → Prop
  | .openFile _ path _ => ∀ p, path = some p → 0 ∉ p
  | _ => True

theorem fileNameValid_root (h : fileNameValid name false) : fileNameValid name true := by
  obtain ⟨-, hfalse⟩ | hvalid := fileNameValid_iff.mp h
  · nomatch hfalse
  · exact fileNameValid_iff.mpr (.inr hvalid)

theorem ValidNames.step (h : ValidNames s) {call : Call} (hcall : call.CString) :
    ValidNames (call.step s) := by
  have hstep : call.Keeps → ValidNames (call.step s) := fun hkeeps name hname ↦ by
    obtain hold | ⟨memory, path, flags, new, rfl, hpath, -, -, -, hnames⟩ :=
      (call.step_spec s).fileAt hkeeps
    · exact h name (hold name hname)
    · obtain rfl | hname := (hnames name).mp hname
      · cases path with
        | none => nomatch hpath
        | some path => exact fileNameValid_normalize hpath (hcall path rfl)
      · exact h name hname
  cases call with
  | mount memory blob =>
      change ValidNames (Gcc.mount memory s blob).2
      obtain ⟨e, -, he, -, hm⟩ | ⟨e, hm⟩ := mount_eq memory s blob
      · rw [hm]
        intro name hname
        obtain ⟨f, hf, rfl⟩ := fileAt_mounted hname
        exact fileNameValid_root ((decodeFiles_spec he).2.1 f hf)
      · rw [hm]
        exact h
  | _ => exact hstep trivial

theorem validNames_empty : ValidNames .empty := fun _ ⟨_, hname, _⟩ ↦ nomatch hname

theorem ValidNames.run (h : ValidNames s) {calls : List Call} (hcalls : ∀ call ∈ calls, call.CString) :
    ValidNames (Gcc.run s calls) := by
  induction calls generalizing s with
  | nil => exact h
  | cons call calls ih =>
      exact ih (h.step (hcalls call List.mem_cons_self)) fun c hc ↦
        hcalls c (List.mem_cons_of_mem _ hc)

end Valid

/-! ## Children -/

section Children

variable {s : Files} {name base part : Bytes} {i j : Fin filesMax} {directory : Bool}

/-- The name of a file in the directory, or of a directory in it that a file is below. -/
structure Child (s : Files) (base name : Bytes) : Prop where
  nonempty : name ≠ []
  slash : slash ∉ name
  exists_file : FileAt s (joined base name) ∨ ∃ i, s.Below (joined base name) i

theorem child_eq_some_iff : child (s.objects i) base = some part ↔ s.Named (joined base part) i := by
  refine ⟨child_eq_some, fun ⟨hname, hlinked⟩ ↦ ?_⟩
  unfold child
  rw [hname]
  dsimp only
  rw [if_neg (by rw [hlinked]; exact Bool.noConfusion)]
  unfold joined
  by_cases hbase : base = []
  · rw [if_pos hbase, if_pos hbase]
  · have hinitial : (base ++ [Gcc.slash]).isPrefixOf (base ++ Gcc.slash :: part) = true :=
      List.isPrefixOf_iff_prefix.mpr ⟨part, by rw [List.append_assoc]; rfl⟩
    rw [if_neg hbase, if_neg hbase, if_pos hinitial, ← List.drop_drop, List.drop_left]
    rfl

/-- When a text has the first component, as the comparison of `cs_gcc_fs_directory_next` says. -/
theorem first_iff {first previous : Bytes} (h : Gcc.slash ∉ first) :
    (first.isPrefixOf previous && (previous.length = first.length ||
      previous[first.length]? = some Gcc.slash)) = true ↔
        previous.takeWhile (· ≠ Gcc.slash) = first := by
  have hall : ∀ c ∈ first, decide (c ≠ Gcc.slash) = true := fun c hc ↦
    decide_eq_true fun he ↦ h (he ▸ hc)
  rw [Bool.and_eq_true, Bool.or_eq_true, decide_eq_true_eq, decide_eq_true_eq,
    List.isPrefixOf_iff_prefix]
  constructor
  · rintro ⟨⟨rest, rfl⟩, hend⟩
    rw [List.takeWhile_append_of_pos hall]
    cases rest with
    | nil => exact List.append_nil first
    | cons c rest =>
        have hc : c = Gcc.slash := by
          rw [List.length_append, List.length_cons, List.getElem?_append_right (Nat.le_refl _),
            Nat.sub_self, List.getElem?_cons_zero] at hend
          exact hend.elim (fun h ↦ by omega) Option.some.inj
        rw [hc, List.takeWhile_cons_of_neg (by decide), List.append_nil]
  · rintro rfl
    have hpath := List.takeWhile_append_dropWhile (p := fun c ↦ decide (c ≠ Gcc.slash)) (l := previous)
    obtain ⟨-, -, ⟨hnil, -⟩ | ⟨rest, hrest, -⟩⟩ := splitOn_first previous
    · rw [hnil, List.append_nil] at hpath
      rw [hpath]
      exact ⟨List.prefix_refl _, .inl rfl⟩
    · refine ⟨⟨_, hpath⟩, .inr ?_⟩
      rw [hrest] at hpath
      nth_rewrite 1 [← hpath]
      rw [List.getElem?_append_right (Nat.le_refl _), Nat.sub_self, List.getElem?_cons_zero]

/-- The slot has a file in the directory whose name there begins with the component. -/
def Begins (s : Files) (base name : Bytes) (i : Fin filesMax) : Prop :=
  ∃ part, child (s.objects i) base = some part ∧ (firstPart part).1 = name

theorem firstPart_snd (part : Bytes) :
    (firstPart part).2 = true ↔ ∃ rest, part = (firstPart part).1 ++ slash :: rest := by
  have hpath := List.takeWhile_append_dropWhile (p := fun c ↦ decide (c ≠ slash)) (l := part)
  rw [firstPart, decide_eq_true_eq]
  constructor
  · intro h
    obtain ⟨rest, hrest⟩ := List.head?_eq_some_iff.mp h
    rw [hrest] at hpath
    exact ⟨rest, hpath.symm⟩
  · rintro ⟨rest, hrest⟩
    rw [List.append_cancel_left (hpath.trans hrest), List.head?_cons]

/-- What is reported of a slot: its child, unless a slot before has it. -/
theorem listed_iff : listed s base i = some (name, directory) ↔
    ∃ part, child (s.objects i) base = some part ∧ part ≠ [] ∧ firstPart part = (name, directory) ∧
      ∀ j < i, ¬ Begins s base name j := by
  unfold listed
  cases hpart : child (s.objects i) base with
  | none => exact iff_of_false (fun h ↦ nomatch h) fun ⟨_, h, _⟩ ↦ nomatch h
  | some part =>
      simp only [Option.some.injEq, exists_eq_left']
      by_cases hnil : part = []
      · rw [if_pos hnil]
        exact iff_of_false (fun h ↦ nomatch h) fun h ↦ h.1 hnil
      · have hduplicate : (∃ j, j < i ∧ (child (s.objects j) base).any (fun previous ↦
            (firstPart part).1.isPrefixOf previous && (previous.length = (firstPart part).1.length ||
              previous[(firstPart part).1.length]? = some slash)) = true) ↔
                ∃ j < i, Begins s base (firstPart part).1 j := by
          refine exists_congr fun j ↦ and_congr_right fun _ ↦ ?_
          rw [Option.any_eq_true]
          exact exists_congr fun previous ↦ and_congr_right fun _ ↦ first_iff (not_mem_first part)
        rw [if_neg hnil]
        by_cases hd : ∃ j < i, Begins s base (firstPart part).1 j
        · rw [if_pos (decide_eq_true (hduplicate.mpr hd))]
          refine iff_of_false (fun h ↦ nomatch h) ?_
          rintro ⟨-, hfirst, hmin⟩
          rw [hfirst] at hd
          exact hd.elim fun j hj ↦ hmin j hj.1 hj.2
        · rw [if_neg (fun h ↦ hd (hduplicate.mp (of_decide_eq_true h))), Option.some.injEq]
          refine ⟨fun h ↦ ⟨hnil, h, ?_⟩, fun h ↦ h.2.1⟩
          intro j hj hb
          have hname : (firstPart part).1 = name := congrArg Prod.fst h
          exact hd ⟨j, hj, hname ▸ hb⟩

/-- Different slots report different children. -/
theorem listed_inj {directory' : Bool} (hi : listed s base i = some (name, directory))
    (hj : listed s base j = some (name, directory')) : i = j := by
  have hbegins : ∀ {i d}, listed s base i = some (name, d) → Begins s base name i := fun h ↦ by
    obtain ⟨part, hpart, -, hfirst, -⟩ := listed_iff.mp h
    exact ⟨part, hpart, congrArg Prod.fst hfirst⟩
  obtain ⟨-, -, -, -, hmini⟩ := listed_iff.mp hi
  obtain ⟨-, -, -, -, hminj⟩ := listed_iff.mp hj
  rcases lt_trichotomy i j with hlt | rfl | hlt
  · exact absurd (hbegins hi) (hminj i hlt)
  · rfl
  · exact absurd (hbegins hj) (hmini j hlt)

/-- The components of a valid name in a directory are not empty. -/
theorem first_ne_nil (h : fileNameValid (joined base part) true) (hpart : part ≠ []) :
    part.takeWhile (· ≠ slash) ≠ [] := by
  obtain ⟨ps, hsplit, -⟩ := splitOn_first part
  have hmem : part.takeWhile (· ≠ slash) ∈ (joined base part).splitOn slash := by
    unfold joined
    split
    · rw [hsplit]
      exact List.mem_cons_self
    · rw [List.splitOn_append_cons_self, hsplit]
      exact List.mem_append_right _ List.mem_cons_self
  have hne : joined base part ≠ [] := by
    unfold joined
    split
    · exact hpart
    · exact List.append_ne_nil_of_right_ne_nil _ (List.cons_ne_nil _ _)
  obtain ⟨he, -⟩ | ⟨-, -, -, hok⟩ := fileNameValid_iff.mp h
  · exact absurd he hne
  · intro he
    exact absurd (hok _ (he ▸ hmem)) (by decide)

theorem joined_ne_nil (h : name ≠ []) : joined base name ≠ [] := by
  unfold joined
  split
  · exact h
  · exact List.append_ne_nil_of_right_ne_nil _ (List.cons_ne_nil _ _)

theorem takeWhile_of_not_mem (h : slash ∉ name) (rest : Bytes) :
    (name ++ slash :: rest).takeWhile (· ≠ slash) = name ∧ name.takeWhile (· ≠ slash) = name := by
  have hall : ∀ c ∈ name, decide (c ≠ slash) = true := fun c hc ↦ decide_eq_true fun he ↦ h (he ▸ hc)
  constructor
  · rw [List.takeWhile_append_of_pos hall, List.takeWhile_cons_of_neg (by decide), List.append_nil]
  · exact List.takeWhile_eq_self_iff.mpr hall

/-- A child begins the name of some file in the directory. -/
theorem exists_begins_iff (hname : slash ∉ name) : (∃ i, Begins s base name i) ↔
    FileAt s (joined base name) ∨ ∃ i, s.Below (joined base name) i := by
  constructor
  · rintro ⟨i, part, hpart, hfirst⟩
    have hnamed := child_eq_some hpart
    cases hsnd : (firstPart part).2 with
    | true =>
        obtain ⟨rest, hrest⟩ := (firstPart_snd part).mp hsnd
        rw [hfirst] at hrest
        rw [hrest, joined_append] at hnamed
        exact .inr (below_of_fileAt ⟨i, hnamed⟩ ⟨rest, by rw [List.append_assoc]; rfl⟩)
    | false =>
        have hpath := List.takeWhile_append_dropWhile (p := fun c ↦ decide (c ≠ slash)) (l := part)
        obtain ⟨-, -, ⟨hnil, -⟩ | ⟨rest, hrest, -⟩⟩ := splitOn_first part
        · rw [hnil, List.append_nil] at hpath
          have : part = name := hpath.symm.trans hfirst
          exact .inl ⟨i, this ▸ hnamed⟩
        · rw [hrest] at hpath
          rw [(firstPart_snd part).mpr ⟨rest, hpath.symm⟩] at hsnd
          nomatch hsnd
  · rintro (⟨i, hi⟩ | ⟨i, hlinked, p, hp, rest, rfl⟩)
    · exact ⟨i, name, child_eq_some_iff.mpr hi, (takeWhile_of_not_mem hname []).2⟩
    · have hnamed : s.Named (joined base (name ++ slash :: rest)) i := by
        rw [joined_append]
        refine ⟨hp.trans (congrArg some ?_), hlinked⟩
        rw [List.append_assoc]
        rfl
      exact ⟨i, _, child_eq_some_iff.mpr hnamed, (takeWhile_of_not_mem hname rest).1⟩

/-- Every child is reported of some slot, and nothing else. -/
theorem exists_listed_iff (h : ValidNames s) :
    (∃ i directory, listed s base i = some (name, directory)) ↔ Child s base name := by
  constructor
  · rintro ⟨i, directory, hlisted⟩
    obtain ⟨part, hpart, hnil, hfirst, -⟩ := listed_iff.mp hlisted
    have hname : part.takeWhile (· ≠ slash) = name := congrArg Prod.fst hfirst
    have hslash : slash ∉ name := hname ▸ not_mem_first part
    exact ⟨hname ▸ first_ne_nil (h _ ⟨i, child_eq_some hpart⟩) hnil, hslash,
      (exists_begins_iff hslash).mp ⟨i, part, hpart, hname⟩⟩
  · rintro ⟨hne, hslash, hfile⟩
    obtain ⟨i, ⟨part, hpart, hfirst⟩, hmin⟩ := WellFounded.has_min (@wellFounded_lt (Fin filesMax) _ _)
      {i | Begins s base name i} ((exists_begins_iff hslash).mpr hfile)
    refine ⟨i, (firstPart part).2, listed_iff.mpr ⟨part, hpart, ?_, ?_, fun j hj hb ↦ hmin j hb hj⟩⟩
    · rintro rfl
      exact hne hfirst.symm
    · rw [← hfirst]

/-- A child is reported as a directory when a file is below it. -/
theorem listed_directory (hsep : Separate s) (h : ValidNames s)
    (hi : listed s base i = some (name, directory)) :
    directory = true ↔ ∃ j, s.Below (joined base name) j := by
  have hchild := (exists_listed_iff h).mp ⟨i, directory, hi⟩
  have hreport := listed_eq_some hi
  cases directory with
  | true => exact iff_of_true rfl (hreport.resolve_left (joined_ne_nil hchild.nonempty))
  | false =>
      refine iff_of_false Bool.false_ne_true fun hbelow ↦ ?_
      exact hsep.not_directoryAt hreport (.inr hbelow)

end Children

/-! ## Numbers of directories -/

section Numbers

variable {s : Files} {name full : Bytes} {i : Fin filesMax}

/-- The slot that numbers a directory. -/
def numberOf (s : Files) (name : Bytes) : Option (Fin filesMax) :=
  (List.finRange filesMax).find? fun i ↦ s.directories i = some name

/-- What has a number keeps it. -/
def KeepsNumbers (s t : Files) : Prop := ∀ name i, numberOf s name = some i → numberOf t name = some i

theorem directories_of_numberOf (h : numberOf s name = some i) : s.directories i = some name :=
  of_decide_eq_true (List.find?_some (p := fun i ↦ decide (s.directories i = some name)) h)

theorem numberOf_eq_none : numberOf s name = none ↔ ∀ i, s.directories i ≠ some name := by
  unfold numberOf
  rw [List.find?_eq_none]
  simp only [List.mem_finRange, forall_const, decide_eq_true_eq, ne_eq]

/-- A new number for a directory that has none. -/
def Files.number (s : Files) (i : Fin filesMax) (name : Bytes) : Files :=
  s.withDirectories (Function.update s.directories i (some name)) s.openDirectories

theorem keepsNumbers_number (hi : s.directories i = none) (hname : numberOf s name = none) :
    KeepsNumbers s (s.number i name) := by
  intro other j hj
  have hne : name ≠ other := fun he ↦ by
    rw [he, hj] at hname
    nomatch hname
  rw [← hj]
  refine congrArg (List.find? · _) (funext fun k ↦ decide_eq_decide.mpr ?_)
  change Function.update s.directories i (some name) k = some other ↔ _
  rw [Function.update_apply]
  split
  case isTrue hk =>
    rw [hk, hi, Option.some.injEq]
    exact iff_of_false hne (fun h ↦ nomatch h)
  case isFalse => exact Iff.rfl

theorem numberOf_number (hname : numberOf s name = none) : numberOf (s.number i name) name = some i := by
  have hslot : ∀ j, (s.number i name).directories j = some name ↔ j = i := fun j ↦ by
    change Function.update s.directories i (some name) j = some name ↔ _
    rw [Function.update_apply]
    split
    case isTrue hj => exact iff_of_true rfl hj
    case isFalse hj => exact iff_of_false (numberOf_eq_none.mp hname j) hj
  obtain ⟨j, hj⟩ := Option.ne_none_iff_exists'.mp (mt numberOf_eq_none.mp fun h ↦ h i ((hslot i).mpr rfl))
  rw [hj, (hslot j).mp (directories_of_numberOf hj)]

/-- A directory gets its number, or a new one. -/
theorem directoryInode_eq (s : Files) (name : Bytes) :
    (∃ i, numberOf s name = some i ∧ directoryInode true s name = (.ok (filesMax + 1 + i), s)) ∨
      (numberOf s name = none ∧ ((∀ i, s.directories i ≠ none) ∨ ∃ i, s.directories i = none ∧
        directoryInode true s name = (.ok (filesMax + 1 + i), s.number i name))) := by
  unfold directoryInode
  split
  case h_1 i hi => exact .inl ⟨i, hi, rfl⟩
  case h_2 hnone =>
    refine .inr ⟨hnone, ?_⟩
    split
    case h_1 hfull =>
      rw [List.find?_eq_none] at hfull
      exact .inl fun i hi ↦ hfull i (List.mem_finRange i) (decide_eq_true hi)
    case h_2 i hi =>
      exact .inr ⟨i, of_decide_eq_true
        (List.find?_some (p := fun i ↦ decide (s.directories i = none)) hi), rfl⟩

end Numbers

/-! ## Enumerating -/

/-- Calls to `cs_gcc_fs_directory_next` from a cursor on, until it returns 0 or fails: `none` when
this takes more calls. -/
def enumerate (path : Option Bytes) (capacity : Nat) :
    Nat → Files → Nat → Option (Except Errno (List Entry) × Files)
  | 0, _, _ => none
  | fuel + 1, s, cursor => match directoryNext true s path cursor capacity with
    | (.error e, s) => some (.error e, s)
    | (.ok (none, _), s) => some (.ok [], s)
    | (.ok (some entry, cursor), s) =>
        (enumerate path capacity fuel s cursor).map fun r ↦ (r.1.map (entry :: ·), r.2)

/-- The directories in a directory that have no number yet. -/
def Unnumbered (s : Files) (base : Bytes) : Set Bytes :=
  {full | ∃ name, Child s base name ∧ full = joined base name ∧ (∃ i, s.Below full i) ∧
    ∀ i, s.directories i ≠ some full}

/-- The slots for numbers that are free. -/
def freeNumbers (s : Files) : Finset (Fin filesMax) := Finset.univ.filter (s.directories · = none)

section Enumerate

variable {s t : Files} {path : Option Bytes} {base : Bytes} {capacity : Nat}

/-- The inode of an entry is that of its file, or the number of its directory. -/
def Entry.Numbers (e : Entry) (s : Files) (base : Bytes) : Prop :=
  if e.directory then ∃ i, numberOf s (joined base e.name) = some i ∧ e.inode = filesMax + 1 + i
  else ∃ i, s.Named (joined base e.name) i ∧ e.inode = i + 1

theorem listed_file {i : Fin filesMax} {name : Bytes} (h : listed s base i = some (name, false)) :
    s.Named (joined base name) i := by
  obtain ⟨part, hpart, -, hfirst, -⟩ := listed_iff.mp h
  have hname : (firstPart part).1 = name := congrArg Prod.fst hfirst
  have hpath := List.takeWhile_append_dropWhile (p := fun c ↦ decide (c ≠ slash)) (l := part)
  obtain ⟨-, -, ⟨hnil, -⟩ | ⟨rest, hrest, -⟩⟩ := splitOn_first part
  · rw [hnil, List.append_nil] at hpath
    exact (hpath.symm.trans hname) ▸ child_eq_some hpart
  · rw [hrest] at hpath
    have := (firstPart_snd part).mpr ⟨rest, hpath.symm⟩
    rw [hfirst] at this
    nomatch this

theorem unnumbered_finite (h : ValidNames s) : (Unnumbered s base).Finite := by
  refine Set.Finite.subset (Set.finite_range fun i ↦ joined base ((listed s base i).getD ([], false)).1) ?_
  rintro full ⟨name, hchild, rfl, -⟩
  obtain ⟨i, directory, hlisted⟩ := (exists_listed_iff h).mpr hchild
  exact ⟨i, by dsimp only; rw [hlisted]; rfl⟩

/-- There are numbers left for the directories that have none. -/
def Room (s : Files) (base : Bytes) : Prop := (Unnumbered s base).ncard ≤ (freeNumbers s).card

theorem Room.number (hroom : Room s base) (h : ValidNames s) {full : Bytes} {i : Fin filesMax}
    (hfull : full ∈ Unnumbered s base) (hi : s.directories i = none) :
    Room (s.number i full) base := by
  have hdirectories : ∀ j, (s.number i full).directories j =
      if j = i then some full else s.directories j := fun j ↦ Function.update_apply _ _ _ j
  have hsub : Unnumbered (s.number i full) base ⊆ Unnumbered s base \ {full} := by
    rintro other ⟨name, hchild, hname, hbelow, hnone⟩
    refine ⟨⟨name, ⟨hchild.1, hchild.2, hchild.3⟩, hname, hbelow, fun j hj ↦ ?_⟩, fun he ↦ ?_⟩
    · refine hnone j ?_
      rw [hdirectories, if_neg (fun he ↦ by rw [he, hi] at hj; nomatch hj), hj]
    · refine hnone i ?_
      rw [hdirectories, if_pos rfl, Set.mem_singleton_iff.mp he]
  have hfree : freeNumbers (s.number i full) = (freeNumbers s).erase i := by
    ext j
    simp only [freeNumbers, Finset.mem_filter, Finset.mem_univ, true_and, Finset.mem_erase,
      hdirectories]
    split
    case isTrue hj => exact iff_of_false (fun h ↦ nomatch h) fun h ↦ h.1 hj
    case isFalse hj => exact (and_iff_right hj).symm
  have hmem : i ∈ freeNumbers s := Finset.mem_filter.mpr ⟨Finset.mem_univ i, hi⟩
  have hcard := Set.ncard_le_ncard hsub ((unnumbered_finite h).subset Set.sdiff_subset)
  rw [Set.ncard_sdiff_singleton_of_mem hfull] at hcard
  rw [Room, hfree, Finset.card_erase_of_mem hmem]
  exact Nat.le_trans hcard (Nat.sub_le_sub_right hroom 1)

/-- A directory in the directory gets its number. -/
theorem directoryInode_child (h : ValidNames s) (hroom : Room s base) {name : Bytes}
    (hchild : Child s base name) (hbelow : ∃ i, s.Below (joined base name) i) :
    ∃ (i : Fin filesMax) (D : _), directoryInode true s (joined base name) =
      (.ok (filesMax + 1 + i), s.withDirectories D s.openDirectories) ∧
        numberOf (s.withDirectories D s.openDirectories) (joined base name) = some i ∧
          KeepsNumbers s (s.withDirectories D s.openDirectories) ∧
            Room (s.withDirectories D s.openDirectories) base := by
  obtain ⟨i, hi, heq⟩ | ⟨hnone, hfull | ⟨i, hi, heq⟩⟩ := directoryInode_eq s (joined base name)
  · exact ⟨i, s.directories, heq, hi, fun _ _ ↦ id, hroom⟩
  all_goals
    have hmem : joined base name ∈ Unnumbered s base :=
      ⟨name, hchild, rfl, hbelow, numberOf_eq_none.mp hnone⟩
  · have hempty : freeNumbers s = ∅ := Finset.filter_eq_empty_iff.mpr fun i _ ↦ hfull i
    have hpos := (Set.ncard_pos (unnumbered_finite h)).mpr ⟨_, hmem⟩
    rw [Room, hempty, Finset.card_empty] at hroom
    exact absurd hpos (Nat.not_lt.mpr hroom)
  · exact ⟨i, _, heq, numberOf_number hnone, keepsNumbers_number hi hnone, hroom.number h hmem hi⟩

/-- The rows behind the one that is found. -/
theorem finRange_split {n cursor : Nat} {i : Fin n} {before after : List (Fin n)}
    (h : (List.finRange n).drop cursor = before ++ i :: after) :
    cursor ≤ i.val ∧ (List.finRange n).drop (i + 1) = after := by
  have hi : cursor + before.length = i.val := by
    have hget : ((List.finRange n).drop cursor)[before.length]? = some i := by
      rw [h, List.getElem?_append_right (Nat.le_refl _), Nat.sub_self, List.getElem?_cons_zero]
    rw [List.getElem?_drop] at hget
    obtain ⟨hlt, hget⟩ := List.getElem?_eq_some_iff.mp hget
    rw [List.getElem_finRange] at hget
    exact congrArg Fin.val hget
  refine ⟨hi ▸ Nat.le_add_right _ _, ?_⟩
  rw [← hi, Nat.add_assoc, ← List.drop_drop, h, ← List.drop_drop, List.drop_left]
  rfl

theorem Entry.Numbers.mono {e : Entry} {D n} (h : e.Numbers s base)
    (hkeeps : KeepsNumbers s (s.withDirectories D n)) : e.Numbers (s.withDirectories D n) base := by
  unfold Entry.Numbers at h ⊢
  split at h
  case isTrue hd =>
    rw [if_pos hd]
    exact h.imp fun i hi ↦ ⟨hkeeps _ i hi.1, hi.2⟩
  case isFalse hd =>
    rw [if_neg hd]
    exact h

/-- What is known of the entries reported from a cursor on. -/
structure Enumerated (s : Files) (base : Bytes) (cursor : Nat) (entries : List Entry) (t : Files) :
    Prop where
  state : ∃ D, t = s.withDirectories D s.openDirectories
  keeps : KeepsNumbers s t
  rows : entries.map (fun e ↦ (e.name, e.directory)) =
    ((List.finRange filesMax).drop cursor).filterMap (listed s base)
  numbers : ∀ e ∈ entries, e.Numbers t base

theorem enumerate_spec (hpath : normalize path = .ok base) {fuel cursor : Nat} (h : ValidNames s)
    (hsep : Separate s) (hroom : Room s base)
    (hcapacity : ∀ name, Child s base name → name.length < capacity)
    (hcursor : cursor ≤ filesMax) (hfuel : filesMax < cursor + fuel) :
    ∃ entries t, enumerate path capacity fuel s cursor = some (.ok entries, t) ∧
      Enumerated s base cursor entries t := by
  induction fuel generalizing s cursor with
  | zero => omega
  | succ fuel ih =>
      rw [enumerate, directoryNext, if_neg (Nat.not_lt.mpr hcursor), hpath]
      dsimp only
      cases hfind : ((List.finRange filesMax).drop cursor).find? fun i ↦ (listed s base i).isSome with
      | none =>
          refine ⟨[], s, rfl, ⟨s.directories, rfl⟩, fun _ _ ↦ id, ?_, fun _ h ↦ nomatch h⟩
          rw [List.find?_eq_none] at hfind
          refine (List.filterMap_eq_nil_iff.mpr fun i hi ↦ ?_).symm
          exact Option.not_isSome_iff_eq_none.mp (hfind i hi)
      | some i =>
          obtain ⟨hsome, before, after, hrows, hbefore⟩ := List.find?_eq_some_iff_append.mp hfind
          obtain ⟨⟨name, directory⟩, hlisted⟩ := Option.isSome_iff_exists.mp hsome
          have hchild := (exists_listed_iff h).mp ⟨i, directory, hlisted⟩
          have hdirectory := listed_directory hsep h hlisted
          obtain ⟨hcursor', hrest⟩ := finRange_split hrows
          have hfilter : ((List.finRange filesMax).drop cursor).filterMap (listed s base) =
              (name, directory) :: ((List.finRange filesMax).drop (i + 1)).filterMap (listed s base) := by
            rw [hrest, hrows, List.filterMap_append, List.filterMap_cons, hlisted,
              List.filterMap_eq_nil_iff.mpr fun j hj ↦ by simpa using hbefore j hj]
            rfl
          have hle : i.val + 1 ≤ filesMax := i.isLt
          have hlt : filesMax < i.val + 1 + fuel := by omega
          dsimp only
          rw [hlisted]
          dsimp only
          rw [if_neg (Nat.not_le.mpr (hcapacity name hchild))]
          cases directory with
          | false =>
              obtain ⟨entries, t, henumerate, ⟨D, rfl⟩, hkeeps, hrows', hnumbers⟩ :=
                ih h hsep hroom hcapacity hle hlt
              have hentry : Entry.Numbers ⟨name, false, i + 1⟩ (s.withDirectories D s.openDirectories)
                  base := ⟨i, listed_file hlisted, rfl⟩
              rw [if_neg Bool.false_ne_true]
              dsimp only
              rw [henumerate]
              refine ⟨_, _, rfl, ⟨D, rfl⟩, hkeeps, ?_, List.forall_mem_cons.mpr ⟨hentry, hnumbers⟩⟩
              rw [hfilter, List.map_cons, hrows']
          | true =>
              obtain ⟨j, D, hinode, hnumber, hkeeps, hroom'⟩ :=
                directoryInode_child h hroom hchild (hdirectory.mp rfl)
              obtain ⟨entries, t, henumerate, ⟨D', rfl⟩, hkeeps', hrows', hnumbers⟩ :=
                ih (s := s.withDirectories D s.openDirectories) h (hsep.of_fileAt fun _ ↦ id) hroom'
                  (fun name hc ↦ hcapacity name ⟨hc.1, hc.2, hc.3⟩) hle hlt
              have hentry : Entry.Numbers ⟨name, true, filesMax + 1 + j⟩
                  (s.withDirectories D' s.openDirectories) base := ⟨j, hkeeps' _ j hnumber, rfl⟩
              rw [if_pos rfl, show (if base = [] then name else base ++ slash :: name) =
                joined base name from rfl, hinode]
              dsimp only [Except.map]
              rw [henumerate]
              refine ⟨_, _, rfl, ⟨D', rfl⟩, fun name k hk ↦ hkeeps' name k (hkeeps name k hk), ?_,
                List.forall_mem_cons.mpr ⟨hentry, hnumbers⟩⟩
              rw [hfilter, List.map_cons, hrows']
              rfl

/-- A directory on the way to a file has a valid name. -/
theorem fileNameValid_of_below {name p : Bytes} (hp : fileNameValid p true)
    (hbelow : name ++ [slash] <+: p) (hne : name ≠ []) : fileNameValid name false := by
  obtain ⟨rest, rfl⟩ := hbelow
  rw [List.append_assoc, List.singleton_append] at hp
  obtain ⟨he, -⟩ | ⟨-, hlength, hzero, hok⟩ := fileNameValid_iff.mp hp
  · exact absurd (List.append_eq_nil_iff.mp he).1 hne
  · rw [List.splitOn_append_cons_self] at hok
    rw [List.length_append] at hlength
    exact fileNameValid_iff.mpr (.inr ⟨hne, by omega, fun h ↦ hzero (List.mem_append_left _ h),
      fun q hq ↦ hok q (List.mem_append_left _ hq)⟩)

/-- The path of a child is its name. -/
theorem normalize_child (h : ValidNames s) {name : Bytes} (hchild : Child s base name) :
    normalize (some (joined base name)) = .ok (joined base name) := by
  have hne : joined base name ≠ [] := joined_ne_nil hchild.nonempty
  refine normalize_of_valid ?_
  obtain hfile | ⟨i, hlinked, p, hp, hbelow⟩ := hchild.exists_file
  · obtain ⟨he, -⟩ | hvalid := fileNameValid_iff.mp (h _ hfile)
    · exact absurd he hne
    · exact fileNameValid_iff.mpr (.inr hvalid)
  · exact fileNameValid_of_below (h p ⟨i, hp, hlinked⟩) hbelow hne

/-- `cs_gcc_fs_stat` agrees with an entry. -/
theorem Entry.Numbers.stat {e : Entry} (hc : Consistent s) (hsep : Separate s) (h : ValidNames s)
    (hchild : Child s base e.name)
    (hdirectory : e.directory = true ↔ ∃ i, s.Below (joined base e.name) i) (he : e.Numbers s base) :
    ∃ size, Gcc.stat true s (some (joined base e.name)) = (.ok ⟨size, e.directory, e.inode⟩, s) := by
  unfold Entry.Numbers at he
  unfold Gcc.stat
  rw [normalize_child h hchild]
  dsimp only
  split at he
  case isTrue hd =>
    obtain ⟨i, hnumber, hinode⟩ := he
    have hbelow := hdirectory.mp hd
    have hnone : s.lookup (joined base e.name) = none := lookup_eq_none.mpr fun j hj ↦
      hsep.not_directoryAt ⟨j, hj⟩ (.inr hbelow)
    have heq : directoryInode true s (joined base e.name) = (.ok (filesMax + 1 + i), s) := by
      obtain ⟨j, hj, heq⟩ | ⟨hnone, -⟩ := directoryInode_eq s (joined base e.name)
      · rw [hnumber] at hj
        cases hj
        exact heq
      · rw [hnumber] at hnone
        nomatch hnone
    rw [hnone, if_pos (.inr hbelow), heq, hd, hinode]
    exact ⟨0, rfl⟩
  case isFalse hd =>
    obtain ⟨i, hnamed, hinode⟩ := he
    rw [hc.lookup_eq_some.mpr hnamed, Bool.eq_false_of_not_eq_true hd, hinode]
    exact ⟨_, rfl⟩

theorem joined_inj {a b : Bytes} (h : joined base a = joined base b) : a = b := by
  unfold joined at h
  split at h
  · exact h
  · exact List.tail_eq_of_cons_eq (List.append_cancel_left h)

/-- Entries with one inode are one child. -/
theorem Entry.Numbers.inj {e e' : Entry} (h : e.Numbers s base) (h' : e'.Numbers s base)
    (hinode : e.inode = e'.inode) : e.name = e'.name := by
  unfold Entry.Numbers at h h'
  split at h <;> split at h' <;> obtain ⟨i, hi, he⟩ := h <;> obtain ⟨j, hj, he'⟩ := h'
  · have hij : i = j := Fin.ext (by omega)
    subst hij
    exact joined_inj (Option.some.inj
      ((directories_of_numberOf hi).symm.trans (directories_of_numberOf hj)))
  · omega
  · omega
  · have hij : i = j := Fin.ext (by omega)
    subst hij
    exact joined_inj (Option.some.inj (hi.1.symm.trans hj.1))

end Enumerate

/-! ## Enumeration is exact -/

section Exact

variable {s t : Files} {base : Bytes} {entries : List Entry}

theorem Enumerated.names (h : Enumerated s base 0 entries t) : entries.map Entry.name =
    (List.finRange filesMax).filterMap fun i ↦ (listed s base i).map Prod.fst := by
  have hrows := congrArg (List.map Prod.fst) h.rows
  rw [List.map_map, List.drop_zero, List.map_filterMap] at hrows
  exact hrows

theorem Enumerated.nodup_names (h : Enumerated s base 0 entries t) :
    (entries.map Entry.name).Nodup := by
  rw [h.names]
  refine (List.nodup_finRange filesMax).filterMap fun i j name hi hj ↦ ?_
  obtain ⟨⟨first, d⟩, hlisted, rfl⟩ := Option.map_eq_some_iff.mp hi
  obtain ⟨⟨first', d'⟩, hlisted', hname⟩ := Option.map_eq_some_iff.mp hj
  cases (show first' = first from hname)
  exact listed_inj hlisted hlisted'

theorem Enumerated.mem_names (h : Enumerated s base 0 entries t) (hvalid : ValidNames s)
    (name : Bytes) : name ∈ entries.map Entry.name ↔ Child s base name := by
  rw [h.names, List.mem_filterMap, ← exists_listed_iff hvalid]
  simp only [List.mem_finRange, true_and, Option.map_eq_some_iff, Prod.exists, exists_and_right,
    exists_eq_right]

theorem Enumerated.nodup_inodes (h : Enumerated s base 0 entries t) :
    (entries.map Entry.inode).Nodup := by
  have hnames := List.pairwise_map.mp h.nodup_names
  exact List.pairwise_map.mpr (hnames.imp_of_mem fun he he' hne hinode ↦
    hne ((h.numbers _ he).inj (h.numbers _ he') hinode))

theorem Enumerated.directory (h : Enumerated s base 0 entries t) (hvalid : ValidNames s)
    (hsep : Separate s) {e : Entry} (he : e ∈ entries) :
    e.directory = true ↔ ∃ i, s.Below (joined base e.name) i := by
  have hmem := List.mem_map_of_mem (f := fun e : Entry ↦ (e.name, e.directory)) he
  rw [h.rows] at hmem
  obtain ⟨i, -, hi⟩ := List.mem_filterMap.mp hmem
  exact listed_directory hsep hvalid hi

/-- Files are made and removed by any calls, and no file is below a file.  If there are numbers left
for the directories in a directory, and room for the names, calls from the cursor 0 on report every
child once, as a directory when a file is below it and only then, with different inodes, those that
`cs_gcc_fs_stat` reports of the paths of the children, and then 0. -/
theorem directory_enumeration (calls : List Call) (hcalls : ∀ call ∈ calls, call.CString)
    (hsep : Separate (run .empty calls)) (path : Option Bytes) (base : Bytes)
    (hpath : normalize path = .ok base) (hroom : Room (run .empty calls) base) (capacity : Nat)
    (hcapacity : ∀ name, Child (run .empty calls) base name → name.length < capacity) :
    ∃ entries t, enumerate path capacity (filesMax + 1) (run .empty calls) 0 = some (.ok entries, t) ∧
      (entries.map Entry.name).Nodup ∧
      (∀ name, name ∈ entries.map Entry.name ↔ Child (run .empty calls) base name) ∧
      (entries.map Entry.inode).Nodup ∧
      ∀ e ∈ entries,
        (e.directory = true ↔ ∃ i, (run .empty calls).Below (joined base e.name) i) ∧
        ∃ size, stat true t (some (joined base e.name)) = (.ok ⟨size, e.directory, e.inode⟩, t) := by
  have hvalid := validNames_empty.run hcalls
  have hconsistent := consistent_empty.run calls
  obtain ⟨entries, t, henumerate, h⟩ := enumerate_spec hpath hvalid hsep hroom hcapacity
    (Nat.zero_le _) (Nat.lt_of_lt_of_eq (Nat.lt_succ_self _) (Nat.zero_add _).symm)
  refine ⟨entries, t, henumerate, h.nodup_names, h.mem_names hvalid, h.nodup_inodes,
    fun e he ↦ ⟨h.directory hvalid hsep he, ?_⟩⟩
  have hchild := (h.mem_names hvalid e.name).mp (List.mem_map_of_mem he)
  have hdirectory := h.directory hvalid hsep he
  have hnumbers := h.numbers e he
  obtain ⟨D, rfl⟩ := h.state
  exact hnumbers.stat (hconsistent.withDirectories D _) (hsep.of_fileAt fun _ ↦ id) hvalid
    ⟨hchild.1, hchild.2, hchild.3⟩ hdirectory

/-- The only file is `a/b`. -/
theorem fileAt_openAB {name : Bytes} (h : FileAt (run .empty [openAB]) name) :
    name = [97, slash, 98] := by
  obtain hold | ⟨memory, path, flags, new, heq, hpath, -, -, -, hnames⟩ :=
    (openAB.step_spec .empty).fileAt trivial
  · obtain ⟨i, hi, -⟩ := hold name h
    nomatch hi
  · obtain rfl | ⟨i, hi, -⟩ := (hnames name).mp h
    · cases heq
      have : normalize (some [97, slash, 98]) = .ok [97, slash, 98] := by decide
      exact Except.ok.inj (hpath.symm.trans this)
    · nomatch hi

/-- Its directory is the only child of the root. -/
theorem child_openAB {name : Bytes} (h : Child (run .empty [openAB]) [] name) : name = [97] := by
  obtain ⟨-, hslash, hfile⟩ := h
  rw [show joined [] name = name from if_pos rfl] at hfile
  obtain hfile | ⟨i, hbelow⟩ := hfile
  · rw [fileAt_openAB hfile] at hslash
    exact absurd (by decide) hslash
  · obtain ⟨p, hp, rest, hrest⟩ := fileAt_of_below hbelow
    rw [fileAt_openAB hp, List.append_assoc, List.singleton_append] at hrest
    rw [← (takeWhile_of_not_mem hslash rest).1, hrest]
    decide

theorem separate_openAB : Separate (run .empty [openAB]) := by
  refine separate_iff.mpr ⟨fun name p hname hp ↦ ?_, fun h ↦ nomatch fileAt_openAB h⟩
  rw [fileAt_openAB hname, fileAt_openAB hp]
  exact not_below_self _

theorem room_openAB : Room (run .empty [openAB]) [] := by
  have hsub : Unnumbered (run .empty [openAB]) [] ⊆ {[97]} := by
    rintro full ⟨name, hchild, rfl, -⟩
    rw [child_openAB hchild]
    rfl
  have hfree : (run .empty [openAB]).directories ⟨0, by decide⟩ = none := by decide +kernel
  calc (Unnumbered (run .empty [openAB]) []).ncard
      ≤ ({[97]} : Set Bytes).ncard := Set.ncard_le_ncard hsub (Set.finite_singleton _)
    _ = 1 := Set.ncard_singleton _
    _ ≤ (freeNumbers (run .empty [openAB])).card :=
      Finset.card_pos.mpr ⟨_, Finset.mem_filter.mpr ⟨Finset.mem_univ _, hfree⟩⟩

theorem directory_enumeration_openAB :
    ∃ entries t, enumerate (some [slash]) 100 (filesMax + 1) (run .empty [openAB]) 0 =
        some (.ok entries, t) ∧
      (entries.map Entry.name).Nodup ∧
      (∀ name, name ∈ entries.map Entry.name ↔ Child (run .empty [openAB]) [] name) ∧
      (entries.map Entry.inode).Nodup ∧
      ∀ e ∈ entries,
        (e.directory = true ↔ ∃ i, (run .empty [openAB]).Below (joined [] e.name) i) ∧
        ∃ size, stat true t (some (joined [] e.name)) = (.ok ⟨size, e.directory, e.inode⟩, t) :=
  directory_enumeration [openAB]
    (List.forall_mem_singleton.mpr fun p hp ↦ by cases hp; decide) separate_openAB _ []
    (by decide) room_openAB 100 fun name h ↦ by rw [child_openAB h]; decide

end Exact

end CopySpace.Gcc
