import CopySpace.Gcc.Consistent
import CopySpace.Gcc.Lifetime
import CopySpace.Lib.Volume

/-!
# `files.c`: files as arrays

The tables of `files.c` stand for a volume of byte arrays: the names are those of the linked files,
the bytes of a file are the first ones of its buffer, and the cursors are the descriptors.  Every
call is an operation on the volume; a call that fails is none.
-/

namespace CopySpace.Gcc

open CopySpace.Volume (overwrite)

/-! ## The volume -/

def Descriptor.cursor (d : Descriptor) : Volume.Cursor (Fin filesMax) :=
  ⟨d.object, d.position, has d.flags Flags.append⟩

/-- What the tables stand for. -/
def volume (s : Files) : Volume Bytes (Fin filesMax) Int UInt8 where
  names := s.lookup
  contents i := (s.objects i).contents
  cursors fd := (get s fd).map fun h ↦ h.2.cursor

/-- The operation that a call with its result is: one that fails, or only looks, is none. -/
@[simp]
def Call.operation (s : Files) : Call → Volume.Operation Bytes (Fin filesMax) Int UInt8
  | mount memory blob => match (Gcc.mount memory s blob).1, decodeFiles blob with
    | .ok _, some e => .mount fun i ↦ (e.files[i.val]?).map fun f ↦ (f.name, f.data)
    | _, _ => .idle
  | openFile memory path flags => match (Gcc.openFile memory s path flags).1, normalize path with
    | .ok fd, .ok name => .enter fd name (has flags Flags.append) (has flags Flags.trunc)
    | _, _ => .idle
  | closeFile fd => match (Gcc.closeFile s fd).1 with
    | .ok _ => .close fd
    | .error _ => .idle
  | readFile fd null size => match (Gcc.readFile s fd null size).1 with
    | .ok data => .read fd size data
    | .error _ => .idle
  | writeFile memory fd null data => match (Gcc.writeFile memory s fd null data).1 with
    | .ok count => .write fd data count
    | .error _ => .idle
  | seekFile fd offset origin => match (Gcc.seekFile s fd offset origin).1 with
    | .ok position => .seek fd offset origin position
    | .error _ => .idle
  | unlink path => match (Gcc.unlink s path).1, normalize path with
    | .ok _, .ok name => .unlink name
    | _, _ => .idle
  | replaceOwned path null own data =>
      match (Gcc.replaceOwned s path null own data).1, normalize path with
      | .ok _, .ok name => .replace name data
      | _, _ => .idle
  | _ => .idle

/-- The operations of some calls. -/
def operations (s : Files) : List Call → List (Volume.Operation Bytes (Fin filesMax) Int UInt8)
  | [] => []
  | call :: calls => call.operation s :: operations (call.step s) calls

/-! ## What the calls do -/

section Calls

variable {s : Files} {fd : Int}

theorem closeFile_eq (s : Files) (fd : Int) :
    (∃ e, closeFile s fd = (.error e, s)) ∨ ∃ h d, get s fd = some (h, d) ∧
      closeFile s fd = (.ok (), (s.setHandle h none).setObject d.object
        (s.objects d.object).closed) := by
  unfold closeFile
  split
  · exact .inl ⟨_, rfl⟩
  case h_2 h d hg => exact .inr ⟨h, d, hg, rfl⟩

theorem readFile_eq (s : Files) (fd : Int) (null : Bool) (size : Nat) :
    (∃ e, readFile s fd null size = (.error e, s)) ∨ ∃ h d, get s fd = some (h, d) ∧
      readFile s fd null size =
        (.ok (((s.objects d.object).contents.drop d.position).take size),
          s.setHandle h
            (some { d with position := d.position + min size ((s.objects d.object).size - d.position) })) := by
  unfold readFile
  split
  · exact .inl ⟨_, rfl⟩
  case h_2 h d hg =>
    dsimp only
    split
    · exact .inl ⟨_, rfl⟩
    split
    · exact .inl ⟨_, rfl⟩
    split
    · exact .inl ⟨_, rfl⟩
    · rw [count_eq_min, File.read_contents]
      exact .inr ⟨h, d, hg, rfl⟩

/-- Where a write goes. -/
def Descriptor.place (d : Descriptor) (f : File) : Nat :=
  if has d.flags Flags.append then f.size else d.position

theorem writeFile_eq (memory : Bool) (s : Files) (fd : Int) (null : Bool) (data : Bytes) :
    (∃ e, writeFile memory s fd null data = (.error e, s)) ∨
      (data = [] ∧ writeFile memory s fd null data = (.ok 0, s)) ∨
      ∃ h d, get s fd = some (h, d) ∧ data ≠ [] ∧
        writeFile memory s fd null data =
          (.ok data.length, (s.setObject d.object ((s.objects d.object).written
            (d.place (s.objects d.object)) data)).setHandle h
              (some { d with position := d.place (s.objects d.object) + data.length })) := by
  unfold writeFile
  split
  · exact .inl ⟨_, rfl⟩
  case h_2 h d hg =>
    dsimp only
    split
    · exact .inl ⟨_, rfl⟩
    split
    · exact .inl ⟨_, rfl⟩
    split
    · exact .inl ⟨_, rfl⟩
    split
    case isTrue hdata => exact .inr (.inl ⟨hdata, rfl⟩)
    case isFalse hdata =>
      generalize hplace : (if has d.flags Flags.append then (s.objects d.object).size
        else d.position) = position
      split
      · exact .inl ⟨_, rfl⟩
      split
      · exact .inl ⟨_, rfl⟩
      · refine .inr (.inr ⟨h, d, hg, hdata, ?_⟩)
        rw [Descriptor.place, hplace]
        rfl

/-- Where the offset of a seek is counted from. -/
def Descriptor.origin (d : Descriptor) (f : File) (origin : Int) : Option Nat :=
  if origin = 0 then some 0
  else if origin = 1 then some d.position
  else if origin = 2 then some f.size
  else none

theorem seekFile_eq (s : Files) (fd offset origin : Int) :
    (∃ e, seekFile s fd offset origin = (.error e, s)) ∨
      ∃ h d base, ∃ position : Nat, get s fd = some (h, d) ∧
        d.origin (s.objects d.object) origin = some base ∧ (position : Int) = base + offset ∧
          seekFile s fd offset origin =
            (.ok position, s.setHandle h (some { d with position := position })) := by
  unfold seekFile
  split
  · exact .inl ⟨_, rfl⟩
  case h_2 h d hg =>
    dsimp only
    split
    · exact .inl ⟨_, rfl⟩
    case h_2 base hbase =>
      split
      · exact .inl ⟨_, rfl⟩
      case isFalse hbounds =>
        rw [not_or, Int.not_lt] at hbounds
        refine .inr ⟨h, d, base, (base + offset).toNat, hg, hbase, ?_, rfl⟩
        rw [Int.toNat_of_nonneg]
        omega

theorem unlink_eq (s : Files) (path : Option Bytes) :
    (∃ e, unlink s path = (.error e, s)) ∨ ∃ name i, normalize path = .ok name ∧
      s.lookup name = some i ∧
        unlink s path = (.ok (), s.setObject i (s.objects i).unlinked) := by
  unfold unlink
  split
  · exact .inl ⟨_, rfl⟩
  case h_2 name hname =>
    split
    · exact .inl ⟨_, rfl⟩
    case h_2 i hi =>
      dsimp only
      split
      · exact .inl ⟨_, rfl⟩
      · exact .inr ⟨name, i, hname, hi, rfl⟩

theorem replaceOwned_eq (s : Files) (path : Option Bytes) (null own : Bool) (data : Bytes) :
    (∃ e, replaceOwned s path null own data = (.error e, s)) ∨ ∃ name i,
      normalize path = .ok name ∧ s.lookup name = some i ∧ (s.objects i).references = 0 ∧
        replaceOwned s path null own data =
          (.ok (), s.setObject i { s.objects i with data := data, size := data.length }) := by
  unfold replaceOwned
  split
  · exact .inl ⟨_, rfl⟩
  split
  · exact .inl ⟨_, rfl⟩
  split
  · exact .inl ⟨_, rfl⟩
  case h_2 name hname =>
    split
    · exact .inl ⟨_, rfl⟩
    case h_2 i hi =>
      dsimp only
      split
      · exact .inl ⟨_, rfl⟩
      split
      · exact .inl ⟨_, rfl⟩
      case isFalse href =>
        split
        · exact .inl ⟨_, rfl⟩
        · exact .inr ⟨name, i, hname, hi, not_not.mp href, rfl⟩

/-- The numbers of directories aside, the tables `openName` starts from are those of `s`. -/
theorem openName_eq (memory : Bool) (s : Files) (name : Bytes) (flags : UInt32) :
    (∃ e, openName memory s name flags = (.error e, s)) ∨ ∃ fd : Fin fdCount, 3 ≤ fd.val ∧
      s.handles fd = none ∧
        ((∃ i, s.lookup name = some i ∧ openName memory s name flags = (.ok fd, enter s fd i flags)) ∨
          ∃ i, s.lookup name = none ∧ (s.objects i).name = none ∧
            openName memory s name flags =
              (.ok fd, enter (s.setObject i { s.objects i with name := some name, linked := true })
                fd i flags)) := by
  unfold openName
  dsimp only
  split
  · exact .inl ⟨_, rfl⟩
  split
  · exact .inl ⟨_, rfl⟩
  split
  · exact .inl ⟨_, rfl⟩
  split
  · exact .inl ⟨_, rfl⟩
  case h_2 fd hfd =>
    obtain ⟨hlow, hfree⟩ := freeHandle_eq_some hfd
    split
    case h_1 i hi => exact .inr ⟨fd, hlow, hfree, .inl ⟨i, hi, rfl⟩⟩
    case h_2 hnone =>
      split
      · exact .inl ⟨_, rfl⟩
      case h_2 i hi =>
        split
        · exact .inr ⟨fd, hlow, hfree, .inr ⟨i, hnone, freeObject_eq_some hi, rfl⟩⟩
        · exact .inl ⟨_, rfl⟩

theorem openFile_eq (memory : Nat → Bool) (s : Files) (path : Option Bytes) (flags : UInt32) :
    ∃ D, (∃ e, openFile memory s path flags = (.error e, s.withDirectories D s.openDirectories)) ∨
      ∃ name, normalize path = .ok name ∧ openFile memory s path flags =
        openName (memory 1) (s.withDirectories D s.openDirectories) name flags := by
  obtain ⟨D, hD⟩ := stat_state (memory 0) s path
  unfold openFile
  split
  · exact ⟨s.directories, .inl ⟨_, rfl⟩⟩
  split
  · exact ⟨s.directories, .inl ⟨_, rfl⟩⟩
  split
  · exact ⟨s.directories, .inl ⟨_, rfl⟩⟩
  case h_2 name hname =>
    dsimp only
    rw [hD]
    split
    · exact ⟨D, .inl ⟨_, rfl⟩⟩
    · exact ⟨D, .inr ⟨name, hname, rfl⟩⟩

end Calls

/-! ## The volume after a change of the tables -/

section Changes

variable {s : Files} {fd : Fin fdCount} {i : Fin filesMax} {f : File} {name : Bytes}

theorem Tables.length_contents (h : Tables s) (i : Fin filesMax) :
    (s.objects i).contents.length = (s.objects i).size := by
  rw [File.contents, List.length_take]
  exact Nat.min_eq_left (h.size_le i)

theorem names_volume (s : Files) (name : Bytes) : (volume s).names name = s.lookup name := by
  rw [volume]

theorem contents_volume (s : Files) (i : Fin filesMax) :
    (volume s).contents i = (s.objects i).contents := rfl

theorem cursors_volume (s : Files) (k : Int) :
    (volume s).cursors k = (get s k).map fun h ↦ h.2.cursor := rfl

theorem lookup_congr {s' : Files} (h : ∀ j, s'.Named name j ↔ s.Named name j) :
    s'.lookup name = s.lookup name :=
  congrArg (List.find? · _) (funext fun j ↦ decide_eq_decide.mpr (h j))

theorem get_setHandle {o : Option Descriptor} (hlow : 3 ≤ fd.val) (k : Int) :
    get (s.setHandle fd o) k = if k = fd.val then o.map ((fd, ·)) else get s k := by
  have hfd := fd.isLt
  unfold get
  split
  case isTrue hk =>
    dsimp only
    rw [handles_setHandle]
    by_cases he : k = fd.val
    · have hto : (⟨k.toNat, by omega⟩ : Fin fdCount) = fd := Fin.ext (by dsimp only; omega)
      rw [if_pos he, if_pos hto, hto]
    · have hto : (⟨k.toNat, by omega⟩ : Fin fdCount) ≠ fd := fun h ↦
        he (by have := congrArg Fin.val h; dsimp only at this; omega)
      rw [if_neg he, if_neg hto]
  case isFalse hk => rw [if_neg (by omega)]

theorem volume_setHandle {o : Option Descriptor} (hlow : 3 ≤ fd.val) :
    volume (s.setHandle fd o) = (volume s).setCursor fd.val (o.map Descriptor.cursor) := by
  refine Volume.ext (funext fun name ↦ ?_) rfl (funext fun k ↦ ?_)
  · rw [Volume.setCursor, names_volume, names_volume]
    exact lookup_congr fun j ↦ Iff.rfl
  · have hupdate : ((volume s).setCursor fd.val (o.map Descriptor.cursor)).cursors k =
        if k = fd.val then o.map Descriptor.cursor else (volume s).cursors k :=
      Function.update_apply _ _ _ k
    rw [cursors_volume, get_setHandle hlow, hupdate]
    split
    · cases o <;> rfl
    · rfl

theorem volume_withDirectories (s : Files) (D n) : volume (s.withDirectories D n) = volume s := by
  refine Volume.ext (funext fun name ↦ ?_) rfl rfl
  rw [names_volume, names_volume]
  exact lookup_congr fun _ ↦ Iff.rfl

theorem contents_update (s : Files) (i : Fin filesMax) (f : File) :
    (fun j ↦ ((s.setObject i f).objects j).contents) =
      Function.update (fun j ↦ (s.objects j).contents) i f.contents := by
  funext j
  rw [objects_setObject, Function.update_apply]
  split <;> rfl

theorem get_setObject (i : Fin filesMax) (f : File) (k : Int) :
    get (s.setObject i f) k = get s k := rfl

theorem cursors_setObject (i : Fin filesMax) (f : File) :
    (volume (s.setObject i f)).cursors = (volume s).cursors := by
  funext k
  rw [cursors_volume, cursors_volume, get_setObject]

/-- A file that keeps its name. -/
theorem volume_change (hname : f.name = (s.objects i).name)
    (hlinked : f.linked = (s.objects i).linked) :
    volume (s.setObject i f) = (volume s).setContents i f.contents := by
  refine Volume.ext (funext fun name ↦ ?_) (contents_update s i f) rfl
  rw [Volume.setContents, names_volume, names_volume]
  refine lookup_congr fun j ↦ ?_
  rw [Files.Named, Files.Named, objects_setObject]
  split
  case isTrue h => rw [h, hname, hlinked]
  case isFalse => exact Iff.rfl

/-- A file that gets a name. -/
theorem volume_link (h : Consistent s) (hi : (s.objects i).name = none)
    (hnew : s.lookup name = none) :
    volume (s.setObject i { s.objects i with name := some name, linked := true }) =
      ((volume s).setName name (some i)).setContents i [] := by
  have htables := (h.link hi (lookup_eq_none.mp hnew)).toTables
  refine Volume.ext (funext fun name' ↦ Option.ext fun j ↦ ?_) ?_ rfl
  · have hupdate : (((volume s).setName name (some i)).setContents i []).names name' =
        if name' = name then some i else s.lookup name' := by
      rw [← names_volume]
      exact Function.update_apply (volume s).names name _ name'
    rw [names_volume, htables.lookup_eq_some, hupdate, Files.Named, objects_setObject]
    by_cases hj : j = i
    · rw [if_pos hj, hj]
      refine ⟨fun he ↦ by rw [if_pos (Option.some.inj he.1).symm], fun he ↦ ?_⟩
      split at he
      case isTrue hname => exact ⟨congrArg some hname.symm, rfl⟩
      case isFalse => exact absurd (hi ▸ (named_of_lookup he).1) (by nofun)
    · rw [if_neg hj, ← Files.Named, ← h.lookup_eq_some]
      split
      case isTrue hname =>
        rw [hname, hnew]
        constructor
        · exact fun he ↦ nomatch he
        · exact fun he ↦ absurd (Option.some.inj he).symm hj
      case isFalse => exact Iff.rfl
  · refine (contents_update s i _).trans ?_
    have hfree := h.free i hi
    rw [hfree]
    rfl

/-- The cursors in a file are its descriptors. -/
theorem cursor_iff (hstandard : ∀ fd, s.handles fd ≠ none → 3 ≤ fd.val) :
    (∃ k c, (volume s).cursors k = some c ∧ c.file = i) ↔ (users s i).card ≠ 0 := by
  rw [Finset.card_ne_zero]
  constructor
  · rintro ⟨k, c, hc, hfile⟩
    obtain ⟨⟨fd, d⟩, hg, rfl⟩ := Option.map_eq_some_iff.mp hc
    exact ⟨fd, mem_users.mpr ⟨d, (get_eq_some hg).2.2, hfile⟩⟩
  · rintro ⟨fd, hfd⟩
    obtain ⟨d, hd, hobject⟩ := mem_users.mp hfd
    have hlow := hstandard fd (by rw [hd]; exact Option.some_ne_none d)
    exact ⟨fd.val, d.cursor, Option.map_eq_some_iff.mpr ⟨(fd, d), get_handle hlow hd, rfl⟩, hobject⟩

/-- What is found when a slot has no name any more. -/
theorem lookup_unnamed (h : Tables s) (hi : s.lookup name = some i)
    (hf : ∀ name', ¬ (f.name = some name' ∧ f.linked = true)) (name' : Bytes) :
    (s.setObject i f).lookup name' = if name' = name then none else s.lookup name' := by
  have hnamed : ∀ j, (s.setObject i f).Named name' j ↔ j ≠ i ∧ s.Named name' j := fun j ↦ by
    rw [Files.Named, objects_setObject]
    split
    case isTrue hj => exact ⟨fun he ↦ absurd he (hf name'), fun he ↦ absurd hj he.1⟩
    case isFalse hj => exact ⟨fun he ↦ ⟨hj, he⟩, fun he ↦ he.2⟩
  split
  case isTrue he =>
    refine lookup_eq_none.mpr fun j hj ↦ ?_
    obtain ⟨hne, hj⟩ := (hnamed j).mp hj
    exact hne (h.distinct name' j i hj (he ▸ named_of_lookup hi))
  case isFalse he =>
    refine lookup_congr fun j ↦ (hnamed j).trans ⟨And.right, fun hj ↦ ⟨fun hji ↦ he ?_, hj⟩⟩
    exact Option.some.inj ((hji ▸ hj.1).symm.trans (named_of_lookup hi).1)

/-- A file that loses its name, and without descriptors its slot. -/
theorem volume_unlinked (h : Consistent s) (hi : s.lookup name = some i) :
    volume (s.setObject i (s.objects i).unlinked) = ((volume s).setName name none).sweep i := by
  have hnone : ∀ name', ¬ ((s.objects i).unlinked.name = some name' ∧
      (s.objects i).unlinked.linked = true) := fun name' he ↦ by
    unfold File.unlinked at he
    split at he
    · nomatch he.1
    · nomatch he.2
  have hnames : (volume (s.setObject i (s.objects i).unlinked)).names =
      ((volume s).setName name none).names := by
    funext name'
    rw [names_volume, lookup_unnamed h.toTables hi hnone, Volume.names_setName, names_volume]
  have huse : ((volume s).setName name none).InUse i ↔ (s.objects i).references ≠ 0 := by
    rw [h.references]
    refine Iff.trans (or_iff_right ?_) (cursor_iff (s := s) (i := i) h.standard)
    rintro ⟨name', he⟩
    rw [← hnames, names_volume] at he
    have hnamed := named_of_lookup he
    rw [Files.Named, objects_setObject, if_pos rfl] at hnamed
    exact hnone name' hnamed
  refine Volume.ext ?_ ((contents_update s i _).trans ?_) ?_
  · rw [hnames, Volume.names_sweep]
  · rw [Volume.sweep, File.unlinked]
    split
    case isTrue hr =>
      rw [if_neg (fun hu ↦ huse.mp hu hr)]
      rfl
    case isFalse hr =>
      rw [if_pos (huse.mpr hr)]
      exact Function.update_eq_self i _
  · rw [Volume.cursors_sweep, cursors_setObject, Volume.setName]

/-- A file that loses a descriptor, and without a name and other descriptors its slot. -/
theorem volume_closed (h : Consistent s) {d : Descriptor} (hd : s.handles fd = some d) :
    volume ((s.setHandle fd none).setObject d.object (s.objects d.object).closed) =
      ((volume s).setCursor fd.val none).sweep d.object := by
  have hlow : 3 ≤ fd.val := h.standard fd (by rw [hd]; exact Option.some_ne_none d)
  have hcursor := volume_setHandle (s := s) (o := none) hlow
  have hused := h.used fd d hd
  have hcard : (users (s.setHandle fd none) d.object).card = (s.objects d.object).references - 1 := by
    rw [card_users_close hd rfl, h.references]
  have huse : ((volume s).setCursor fd.val none).InUse d.object ↔
      (s.objects d.object).linked = true ∨ (s.objects d.object).references - 1 ≠ 0 := by
    refine or_congr ?_ ?_
    · simp only [Volume.setCursor, names_volume, h.lookup_eq_some]
      constructor
      · exact fun ⟨name, hname⟩ ↦ hname.2
      · exact fun hl ↦ (Option.ne_none_iff_exists'.mp hused).imp fun name hname ↦ ⟨hname, hl⟩
    · rw [← hcard, ← cursor_iff, hcursor]
      · rfl
      · intro k hk
        rw [handles_setHandle] at hk
        split at hk
        · exact absurd rfl hk
        · exact h.standard k hk
  have hnamed : ∀ name i, ((s.setHandle fd none).setObject d.object
      (s.objects d.object).closed).Named name i ↔ s.Named name i := fun name i ↦ by
    rw [Files.Named, objects_setObject]
    split
    case isTrue hi =>
      rw [hi, File.closed, Files.Named]
      split
      case isTrue hfree =>
        rw [hfree.1]
        exact ⟨fun he ↦ (nomatch he.1), fun he ↦ (nomatch he.2)⟩
      case isFalse => exact Iff.rfl
    case isFalse => exact Iff.rfl
  refine Volume.ext (funext fun name ↦ ?_) ((contents_update _ d.object _).trans ?_) ?_
  · rw [names_volume, lookup_congr (hnamed name), Volume.names_sweep, Volume.setCursor,
      names_volume]
  · rw [Volume.sweep, File.closed]
    split
    case isTrue hfree =>
      rw [if_neg (fun hu ↦ (huse.mp hu).elim (fun hl ↦ by rw [hfree.1] at hl; nomatch hl)
        fun hr ↦ hr hfree.2)]
      rfl
    case isFalse hkept =>
      rw [if_pos (huse.mpr (by
        rw [not_and_or, Bool.not_eq_false] at hkept
        exact hkept))]
      exact Function.update_eq_self d.object _
  · rw [Volume.cursors_sweep, cursors_setObject, hcursor, Option.map_none]

end Changes

/-! ## Writing -/

section Writing

variable {f : File} {position finish : Nat} {data : Bytes}

/-- The buffer up to the position: the file, and zeros in a gap. -/
theorem File.take_extended (hs : f.size ≤ f.capacity) :
    (f.extended position finish).take position =
      f.contents.take position ++ List.replicate (position - f.contents.length) 0 := by
  have hlength : f.contents.length = f.size := by
    rw [File.contents, List.length_take]
    exact Nat.min_eq_left hs
  have hgrown : (if finish > f.capacity then f.data ++ List.replicate (finish - f.capacity) 0
      else f.data).take f.size = f.contents := by
    split
    · exact List.take_append_of_le_length hs
    · rfl
  rw [File.extended, hlength]
  split
  case isTrue hgap =>
    rw [hgrown, List.take_of_length_le (l := f.contents) (by omega)]
    refine List.take_left' ?_
    rw [List.length_append, List.length_replicate, hlength]
    omega
  case isFalse hno =>
    rw [Nat.sub_eq_zero_of_le (Nat.not_lt.mp hno), List.replicate_zero, List.append_nil, ← hgrown,
      List.take_take, Nat.min_eq_left (Nat.not_lt.mp hno)]

/-- What is behind the written bytes, if the file goes on there. -/
theorem File.drop_extended (hp : position ≤ finish) (hf : finish ≤ f.size) (hs : f.size ≤ f.capacity) :
    ((f.extended position finish).drop finish).take (f.size - finish) = f.contents.drop finish := by
  rw [File.extended, if_neg (show ¬ finish > f.capacity by omega),
    if_neg (show ¬ position > f.size by omega), File.contents, List.drop_take]

/-- The buffer of a file that is written to holds the array that is written to. -/
theorem File.contents_written (hs : f.size ≤ f.capacity) :
    (f.written position data).contents = overwrite 0 f.contents position data := by
  have hlength : f.contents.length = f.size := by
    rw [File.contents, List.length_take]
    exact Nat.min_eq_left hs
  have hfront : (f.contents.take position ++
      List.replicate (position - f.contents.length) 0 ++ data).length = position + data.length := by
    rw [List.length_append, List.length_append, List.length_take, List.length_replicate]
    omega
  rw [File.contents, File.written, overwrite]
  dsimp only
  rw [File.take_extended hs]
  split
  case isTrue hgrows =>
    rw [List.take_left' hfront, List.drop_eq_nil_of_le (by omega), List.append_nil]
  case isFalse hinside =>
    rw [List.take_append, hfront, List.take_of_length_le (by omega),
      File.drop_extended (Nat.le_add_right _ _) (Nat.not_lt.mp hinside) hs]

end Writing

/-! ## Every call is an operation -/

section Operations

variable {s : Files}

/-- A descriptor is a cursor. -/
theorem cursor_of_get {fd : Int} {h : Fin fdCount} {d : Descriptor} (hg : get s fd = some (h, d)) :
    (volume s).cursors fd = some d.cursor := by
  rw [cursors_volume, hg, Option.map_some]

theorem volume_enter {fd : Fin fdCount} {i : Fin filesMax} {flags : UInt32}
    (hlow : 3 ≤ fd.val) :
    volume (enter s fd i flags) =
      ((volume s).setContents i (if has flags Flags.trunc then [] else (volume s).contents i)).setCursor
        fd.val (some ⟨i, 0, has flags Flags.append⟩) := by
  unfold enter
  dsimp only
  rw [volume_setHandle hlow, volume_change (by split <;> rfl) (by split <;> rfl)]
  congr 2
  split
  · exact List.take_zero
  · rfl

theorem closeFile_operation (hc : Consistent s) (fd : Int) :
    Volume.Step 0 (volume s) (Call.operation s (.closeFile fd)) (volume (closeFile s fd).2) := by
  rw [Call.operation]
  rcases closeFile_eq s fd with ⟨e, h⟩ | ⟨h, d, hg, hr⟩
  · rw [h]
    exact .idle
  · obtain ⟨rfl, -, hd⟩ := get_eq_some hg
    rw [hr, volume_closed hc hd]
    exact .close (cursor_of_get hg)

theorem readFile_operation (hc : Consistent s) (fd : Int) (null : Bool) (size : Nat) :
    Volume.Step 0 (volume s) (Call.operation s (.readFile fd null size))
      (volume (readFile s fd null size).2) := by
  rw [Call.operation]
  rcases readFile_eq s fd null size with ⟨e, h⟩ | ⟨h, d, hg, hr⟩
  · rw [h]
    exact .idle
  · have hcount : min size ((s.objects d.object).size - d.position) =
        (((s.objects d.object).contents.drop d.position).take size).length := by
      rw [List.length_take, List.length_drop, hc.length_contents]
    have hstep := cursor_of_get hg
    obtain ⟨rfl, hlow, -⟩ := get_eq_some hg
    rw [hcount] at hr
    rw [hr, volume_setHandle hlow]
    exact .read hstep rfl

theorem writeFile_operation (hc : Consistent s) (memory : Bool) (fd : Int) (null : Bool)
    (data : Bytes) :
    Volume.Step 0 (volume s) (Call.operation s (.writeFile memory fd null data))
      (volume (writeFile memory s fd null data).2) := by
  rw [Call.operation]
  rcases writeFile_eq memory s fd null data with ⟨e, h⟩ | ⟨rfl, h⟩ | ⟨h, d, hg, hdata, hr⟩
  · rw [h]
    exact .idle
  · rw [h]
    exact .writeNothing
  · have hplace : (volume s).place d.cursor = d.place (s.objects d.object) := by
      have hlength : ((volume s).contents d.cursor.file).length = (s.objects d.object).size :=
        hc.length_contents d.object
      rw [Volume.place, hlength]
      rfl
    have hcursor := cursor_of_get hg
    obtain ⟨rfl, hlow, -⟩ := get_eq_some hg
    have hvolume : volume (s.setObject d.object
        ((s.objects d.object).written ((volume s).place d.cursor) data)) =
          (volume s).setContents d.object (overwrite 0 ((volume s).contents d.object)
            ((volume s).place d.cursor) data) := by
      rw [volume_change, File.contents_written (hc.size_le _), contents_volume] <;> rfl
    rw [hr, volume_setHandle hlow, ← hplace, hvolume]
    exact .write hcursor hdata

theorem seekFile_operation (hc : Consistent s) (fd offset origin : Int) :
    Volume.Step 0 (volume s) (Call.operation s (.seekFile fd offset origin))
      (volume (seekFile s fd offset origin).2) := by
  rw [Call.operation]
  rcases seekFile_eq s fd offset origin with ⟨e, h⟩ | ⟨h, d, base, position, hg, hbase, hp, hr⟩
  · rw [h]
    exact .idle
  · have horigin : (volume s).origin d.cursor origin = some base := by
      have hlength : ((volume s).contents d.cursor.file).length = (s.objects d.object).size :=
        hc.length_contents d.object
      rw [Volume.origin, hlength]
      exact hbase
    have hcursor := cursor_of_get hg
    obtain ⟨rfl, hlow, -⟩ := get_eq_some hg
    rw [hr, volume_setHandle hlow]
    exact .seek hcursor horigin hp

theorem unlink_operation (hc : Consistent s) (path : Option Bytes) :
    Volume.Step 0 (volume s) (Call.operation s (.unlink path)) (volume (unlink s path).2) := by
  rw [Call.operation]
  rcases unlink_eq s path with ⟨e, h⟩ | ⟨name, i, hname, hi, h⟩
  · rw [h]
    exact .idle
  · rw [h, hname, volume_unlinked hc hi]
    exact .unlink ((names_volume s name).trans hi)

theorem replaceOwned_operation (hc : Consistent s) (path : Option Bytes) (null own : Bool)
    (data : Bytes) :
    Volume.Step 0 (volume s) (Call.operation s (.replaceOwned path null own data))
      (volume (replaceOwned s path null own data).2) := by
  rw [Call.operation]
  rcases replaceOwned_eq s path null own data with ⟨e, h⟩ | ⟨name, i, hname, hi, hr, h⟩
  · rw [h]
    exact .idle
  · have hcontents : ({ s.objects i with data := data, size := data.length } : File).contents = data :=
      List.take_length
    have hvolume : volume (s.setObject i { s.objects i with data := data, size := data.length }) =
        (volume s).setContents i data := by
      rw [volume_change, hcontents] <;> rfl
    rw [h, hname, hvolume]
    refine .replace ((names_volume s name).trans hi) fun k c hk hfile ↦ ?_
    have hused : (users s i).card ≠ 0 := (cursor_iff hc.standard).mp ⟨k, c, hk, hfile⟩
    exact hused (hc.references i ▸ hr)

theorem openName_operation (hc : Consistent s) (memory : Bool) (name : Bytes) (flags : UInt32) :
    (∃ e, openName memory s name flags = (.error e, s)) ∨ ∃ fd : Nat,
      (openName memory s name flags).1 = .ok fd ∧
        Volume.Step 0 (volume s)
          (.enter fd name (has flags Flags.append) (has flags Flags.trunc))
          (volume (openName memory s name flags).2) := by
  rcases openName_eq memory s name flags with he | ⟨fd, hlow, hfree, h⟩
  · exact .inl he
  · refine .inr ⟨fd.val, ?_⟩
    have hcursor : (volume s).cursors fd.val = none := by
      rw [cursors_volume, Option.map_eq_none_iff]
      refine Option.eq_none_iff_forall_ne_some.mpr fun r hr ↦ ?_
      obtain ⟨hfd, -, hd⟩ := get_eq_some hr
      have hsame : r.1 = fd := Fin.ext (Int.ofNat.inj hfd)
      rw [hsame, hfree] at hd
      nomatch hd
    rcases h with ⟨i, hi, h⟩ | ⟨i, hnone, hname, h⟩
    · rw [h, volume_enter hlow]
      exact ⟨rfl, .enter hcursor ((names_volume s name).trans hi)⟩
    · have hcontents : (if has flags Flags.trunc = true then ([] : Bytes)
          else (((volume s).setName name (some i)).setContents i []).contents i) = [] := by
        rw [Volume.contents_setContents, if_pos rfl, ite_self]
      have hunused : ¬ (volume s).InUse i := by
        have hfile := hc.free i hname
        rintro (⟨name', hname'⟩ | hk)
        · have := (named_of_lookup ((names_volume s name').symm.trans hname')).1
          rw [hname] at this
          nomatch this
        · refine (cursor_iff hc.standard).mp hk ?_
          rw [← hc.references, hfile]
          rfl
      rw [h, volume_enter hlow, volume_link hc hname hnone, hcontents,
        Volume.setContents_setContents]
      exact ⟨rfl, .create hcursor ((names_volume s name).trans hnone) hunused⟩

theorem openFile_operation (hc : Consistent s) (memory : Nat → Bool) (path : Option Bytes)
    (flags : UInt32) :
    Volume.Step 0 (volume s) (Call.operation s (.openFile memory path flags))
      (volume (openFile memory s path flags).2) := by
  rw [Call.operation]
  obtain ⟨D, ⟨e, h⟩ | ⟨name, hname, h⟩⟩ := openFile_eq memory s path flags
  · rw [h, volume_withDirectories]
    exact .idle
  · rw [h, hname, ← volume_withDirectories s D s.openDirectories]
    rcases openName_operation (hc.withDirectories D _) (memory 1) name flags with
      ⟨e, h⟩ | ⟨fd, hfd, hstep⟩
    · rw [h]
      exact .idle
    · rw [hfd]
      exact hstep

theorem mount_operation (h : Consistent s) (memory : Nat → Bool) (blob : Bytes) :
    Volume.Step 0 (volume s) (Call.operation s (.mount memory blob))
      (volume (mount memory s blob).2) := by
  rw [Call.operation]
  rcases mount_eq memory s blob with ⟨e, hclosed, he, hsize, hm⟩ | ⟨e, hm⟩
  · have hmounted := (h.mount hclosed he hsize).toTables
    have hobject : ∀ i, ((mounted s e.files).objects i).contents =
        (((e.files[i.val]?).map fun f ↦ (f.name, f.data)).map Prod.snd).getD [] ∧
          ∀ name, (mounted s e.files).Named name i ↔
            ∃ data, (e.files[i.val]?).map (fun f ↦ (f.name, f.data)) = some (name, data) := fun i ↦ by
      unfold Files.Named
      cases hi : e.files[i.val]? with
      | none =>
          rw [objects_mounted_none hi]
          have hfree : (if (s.objects i).name = none then s.objects i else .free) = .free := by
            split
            case isTrue hi => exact h.free i hi
            case isFalse => rfl
          rw [hfree]
          refine ⟨rfl, fun name ↦ ⟨fun he ↦ ?_, fun he ↦ ?_⟩⟩
          · cases he.1
          · obtain ⟨data, he⟩ := he
            cases he
      | some f =>
          rw [objects_mounted_some hi]
          refine ⟨List.take_length, fun name ↦ ⟨fun he ↦ ⟨f.data, ?_⟩, fun he ↦ ⟨?_, rfl⟩⟩⟩
          · rw [Option.map_some, Option.some.inj he.1]
          · obtain ⟨data, he⟩ := he
            rw [Option.map_some] at he
            exact congrArg some (Prod.mk.inj (Option.some.inj he)).1
    have hvolume : volume (mounted s e.files) =
        ⟨(mounted s e.files).lookup, fun i ↦
          (((e.files[i.val]?).map fun f ↦ (f.name, f.data)).map Prod.snd).getD [],
            (volume s).cursors⟩ := by
      refine Volume.ext (funext fun name ↦ ?_) (funext fun i ↦ (hobject i).1) rfl
      rw [names_volume]
    rw [hm, he, hvolume]
    refine .mount (fun k ↦ ?_) fun name i ↦ ?_
    · refine Option.map_eq_none_iff.mpr (Option.eq_none_iff_forall_ne_some.mpr fun r hr ↦ ?_)
      obtain ⟨-, hlow, hd⟩ := get_eq_some hr
      rw [hclosed _ hlow] at hd
      cases hd
    · exact hmounted.lookup_eq_some.trans ((hobject i).2 name)
  · rw [hm]
    exact .idle

theorem Call.step_operation (hc : Consistent s) (call : Call) :
    Volume.Step 0 (volume s) (call.operation s) (volume (call.step s)) := by
  have hlooks : call.Looks → Volume.Step (0 : UInt8) (volume s) .idle (volume (call.step s)) :=
    fun h ↦ by
      obtain ⟨D, n, hD⟩ := h.state s
      rw [hD, volume_withDirectories]
      exact .idle
  cases call with
  | mount memory blob => exact mount_operation hc memory blob
  | openFile memory path flags => exact openFile_operation hc memory path flags
  | closeFile fd => exact closeFile_operation hc fd
  | readFile fd null size => exact readFile_operation hc fd null size
  | writeFile memory fd null data => exact writeFile_operation hc memory fd null data
  | seekFile fd offset origin => exact seekFile_operation hc fd offset origin
  | unlink path => exact unlink_operation hc path
  | replaceOwned path null own data => exact replaceOwned_operation hc path null own data
  | fstat | stat | access | directoryOpen | directoryNext | directoryClose => exact hlooks trivial

/-- A run of calls is a run of operations. -/
theorem run_operations (hc : Consistent s) (calls : List Call) :
    Volume.Run 0 (volume s) (operations s calls) (volume (run s calls)) := by
  induction calls generalizing s with
  | nil => exact .nil
  | cons call calls ih => exact .cons (call.step_operation hc) (ih (hc.step (call.step_spec s)))

end Operations

/-! ## Files are arrays -/

/-- Whatever is called, the tables go through the states of a volume of byte arrays: a read gives the
bytes of the array at the cursor, a write replaces or extends it there, or at its end, with zeros in
a gap, cursors move by the bytes transferred from where the transfer begins, and a call that fails
changes nothing.  Bytes that a file lost do not come back: a byte of a file was in it before, was
brought in since, or is a zero. -/
theorem contents_refine (before calls : List Call) :
    Volume.Run 0 (volume (run .empty before)) (operations (run .empty before) calls)
        (volume (run (run .empty before) calls)) ∧
      ∀ i, ∀ b ∈ (volume (run (run .empty before) calls)).contents i,
        b ∈ (volume (run .empty before)).contents i ∨ b = 0 ∨
          ∃ op ∈ operations (run .empty before) calls, op.Brings b :=
  have h := run_operations (consistent_empty.run before) calls
  ⟨h, fun _ _ hb ↦ h.mem hb⟩

/-- A file that is opened to append to it, with a byte in it, and the cursor at its beginning. -/
def appended : List Call :=
  [.openFile (fun _ ↦ true) (some [97]) 22, .writeFile true 3 false [1], .seekFile 3 0 0]

/-- A cursor does not move by the bytes transferred from where it was, if it appends: it is taken to
the end of the file first. -/
theorem append_moves_more : ¬ ∀ (calls : List Call) (fd : Int) (data : Bytes) (n p p' : Nat),
    (get (run .empty calls) fd).map (·.2.position) = some p →
      (writeFile true (run .empty calls) fd false data).1 = .ok n →
        (get (writeFile true (run .empty calls) fd false data).2 fd).map (·.2.position) = some p' →
          p' = p + n := fun h ↦
  absurd (h appended 3 [2] 1 0 2 (by decide +kernel) (by decide +kernel) (by decide +kernel))
    (by decide)

end CopySpace.Gcc
