import Mathlib.Algebra.Group.Nat.Defs
import Mathlib.Data.List.Nodup
import CopySpace.Lib.Words

/-!
# `input_files.h`: the envelope of the files

The files of a job come as one packet: a magic, the counts, the include roots, and the files with
their names.  Names are relative paths without empty or dot components.
-/

namespace CopySpace.Gcc

open Bytes

def filesMax : Nat := 1024

def rootsMax : Nat := 32

def slash : UInt8 := 47

def dot : UInt8 := 46

/-- `"\0CCFILES1"`. -/
def filesMagic : Bytes := [0, 67, 67, 70, 73, 76, 69, 83, 49]

/-! ## Names -/

/-- A component of a name is neither empty nor one or two dots. -/
def componentOk (first : Bytes) : Bool := first ≠ [] && first ≠ [dot] && first ≠ [dot, dot]

/-- The loop of `cc_file_name_valid`: `first` has been read of the current component. -/
def componentsOk (first : Bytes) : Bytes → Bool
  | [] => componentOk first
  | c :: name =>
      if c = 0 then false
      else if c = slash then componentOk first && componentsOk [] name
      else componentsOk (first ++ [c]) name

/-- `cc_file_name_valid`; the empty name is the root. -/
def fileNameValid (name : Bytes) (root : Bool) : Bool :=
  if name = [] then root
  else if name.length > 4096 ∨ name.head? = some slash ∨ name.getLast? = some slash then false
  else componentsOk [] name

section Names

variable {name : Bytes} {root : Bool}

/-- The components of a name lie between its slashes. -/
theorem componentsOk_iff (first : Bytes) : componentsOk first name ↔
    0 ∉ name ∧ ∀ p ∈ (name.splitOn slash).modifyHead (first ++ ·), componentOk p := by
  induction name generalizing first with
  | nil =>
      rw [List.splitOn_nil, List.modifyHead, List.append_nil, List.forall_mem_singleton]
      exact ⟨fun h ↦ ⟨List.not_mem_nil, h⟩, fun h ↦ h.2⟩
  | cons c name ih =>
      obtain ⟨part, parts, hparts⟩ := List.exists_cons_of_ne_nil (List.splitOn_ne_nil slash name)
      rw [componentsOk, List.splitOn_cons_eq_if_modifyHead, hparts]
      split
      case isTrue hc => exact ⟨nofun, fun h ↦ absurd (List.mem_cons.mpr (.inl hc.symm)) h.1⟩
      case isFalse hc =>
        have hzero : 0 ∉ c :: name ↔ 0 ∉ name := by
          rw [List.mem_cons, or_iff_right (fun h ↦ hc h.symm)]
        rw [hzero]
        by_cases hslash : c = slash
        · rw [if_pos hslash, if_pos (beq_iff_eq.mpr hslash), Bool.and_eq_true, ih, hparts,
            List.modifyHead, List.modifyHead, List.append_nil, List.nil_append,
            List.forall_mem_cons (l := part :: parts)]
          exact and_left_comm
        · rw [if_neg hslash, if_neg (fun h ↦ hslash (eq_of_beq h)), ih, hparts, List.modifyHead,
            List.modifyHead, List.modifyHead, List.append_assoc, List.singleton_append]

/-- A valid name is short and has neither zeros nor bad components; it is empty for a root only. -/
theorem fileNameValid_iff : fileNameValid name root ↔ (name = [] ∧ root = true) ∨
    (name ≠ [] ∧ name.length ≤ 4096 ∧ 0 ∉ name ∧ ∀ p ∈ name.splitOn slash, componentOk p) := by
  have hsplit : (name.splitOn slash).modifyHead ([] ++ ·) = name.splitOn slash := by
    obtain ⟨part, parts, hparts⟩ := List.exists_cons_of_ne_nil (List.splitOn_ne_nil slash name)
    rw [hparts]
    rfl
  unfold fileNameValid
  split
  case isTrue hempty => exact ⟨fun h ↦ .inl ⟨hempty, h⟩, fun h ↦ h.elim And.right fun h ↦
    absurd hempty h.1⟩
  case isFalse hempty =>
    split
    case isTrue hbad =>
      refine ⟨nofun, fun h ↦ ?_⟩
      rcases h with h | ⟨-, hlength, -, hparts⟩
      · exact absurd h.1 hempty
      exfalso
      have hnil : [] ∉ name.splitOn slash := fun hmem ↦ absurd (hparts [] hmem) (by decide)
      rcases hbad with hlong | hfirst | hlast
      · omega
      · obtain ⟨rest, rfl⟩ := List.head?_eq_some_iff.mp hfirst
        rw [List.splitOn_cons_eq_if_modifyHead, if_pos (beq_self_eq_true _)] at hnil
        exact hnil List.mem_cons_self
      · obtain ⟨rest, rfl⟩ := List.getLast?_eq_some_iff.mp hlast
        rw [List.splitOn_append_cons_self] at hnil
        exact hnil (List.mem_append.mpr (.inr List.mem_cons_self))
    case isFalse hgood =>
      rw [componentsOk_iff, hsplit]
      refine ⟨fun h ↦ .inr ⟨hempty, by omega, h⟩, fun h ↦ ?_⟩
      rcases h with h | h
      · exact absurd h.1 hempty
      · exact h.2.2

end Names

/-! ## The envelope -/

/-- `cc_input_file`. -/
structure InputFile where
  name : Bytes
  data : Bytes
deriving DecidableEq

/-- What `cc_files_decode` leaves in its variables. -/
structure Envelope where
  files : List InputFile
  /-- Without repetitions. -/
  roots : List Bytes
  main : Nat
deriving DecidableEq

/-- The roots, behind those that have been found already. -/
def decodeRoots : Nat → List Bytes → Bytes → Option (List Bytes × Bytes)
  | 0, unique, rest => some (unique, rest)
  | n + 1, unique, rest => do
      let (length, rest) ← word rest
      let (name, rest) ← takeBytes length rest
      if fileNameValid name true then
        decodeRoots n (if name ∈ unique then unique else unique ++ [name]) rest
      else none

/-- The files, behind those that have been found already. -/
def decodeInputs : Nat → List InputFile → Bytes → Option (List InputFile × Bytes)
  | 0, files, rest => some (files, rest)
  | n + 1, files, rest => do
      let (length, rest) ← word rest
      let (bytes, rest) ← word rest
      let (name, rest) ← takeBytes length rest
      if fileNameValid name false then do
        let (data, rest) ← takeBytes bytes rest
        if name ∈ files.map InputFile.name then none
        else decodeInputs n (files ++ [⟨name, data⟩]) rest
      else none

/-- `cc_files_decode`. -/
def decodeFiles (data : Bytes) : Option Envelope :=
  if filesMagic.isPrefixOf data then do
    let (count, rest) ← word (data.drop 9)
    let (main, rest) ← word rest
    let (roots, rest) ← word rest
    if count = 0 ∨ count > filesMax ∨ main ≥ count ∨ roots > rootsMax then none
    else do
      let (unique, rest) ← decodeRoots roots [] rest
      let (files, rest) ← decodeInputs count [] rest
      if rest = [] then some ⟨files, unique, main⟩ else none
  else none

/-! ## What has been decoded -/

section Decoded

variable {n : Nat} {data rest rest' : Bytes} {files files' : List InputFile} {e : Envelope}

theorem decodeInputs_succ_eq_some :
    decodeInputs (n + 1) files rest = some (files', rest') ↔ ∃ name data after,
      rest = ofWord name.length ++ (ofWord data.length ++ (name ++ (data ++ after))) ∧
        name.length < 2 ^ 32 ∧ data.length < 2 ^ 32 ∧ fileNameValid name false ∧
          name ∉ files.map InputFile.name ∧
            decodeInputs n (files ++ [⟨name, data⟩]) after = some (files', rest') := by
  constructor
  · intro h
    obtain ⟨⟨length, r₁⟩, h₁, h⟩ := Option.bind_eq_some_iff.mp h
    obtain ⟨⟨bytes, r₂⟩, h₂, h⟩ := Option.bind_eq_some_iff.mp h
    obtain ⟨⟨name, r₃⟩, h₃, h⟩ := Option.bind_eq_some_iff.mp h
    dsimp only at h₂ h₃ h
    split at h
    case isFalse => nomatch h
    case isTrue hname =>
      obtain ⟨⟨data, r₄⟩, h₄, hrest⟩ := Option.bind_eq_some_iff.mp h
      dsimp only at hrest
      split at hrest
      case isTrue => nomatch hrest
      case isFalse hnew =>
        obtain ⟨hl, rfl⟩ := word_eq_some.mp h₁
        obtain ⟨hb, rfl⟩ := word_eq_some.mp h₂
        obtain ⟨rfl, rfl⟩ := takeBytes_eq_some.mp h₃
        obtain ⟨rfl, rfl⟩ := takeBytes_eq_some.mp h₄
        exact ⟨name, data, r₄, rfl, hl, hb, hname, hnew, hrest⟩
  · rintro ⟨name, data, after, rfl, hl, hb, hname, hnew, h⟩
    rw [decodeInputs, word_eq_some.mpr ⟨hl, rfl⟩]
    simp only [Option.bind_eq_bind, Option.bind_some]
    rw [word_eq_some.mpr ⟨hb, rfl⟩, Option.bind_some, takeBytes_eq_some.mpr ⟨rfl, rfl⟩,
      Option.bind_some, if_pos hname, takeBytes_eq_some.mpr ⟨rfl, rfl⟩, Option.bind_some,
      if_neg hnew, h]

/-- The names that have been decoded are valid and different. -/
theorem decodeInputs_spec (h : decodeInputs n files rest = some (files', rest'))
    (hn : (files.map InputFile.name).Nodup) (hv : ∀ f ∈ files, fileNameValid f.name false) :
    (files'.map InputFile.name).Nodup ∧ (∀ f ∈ files', fileNameValid f.name false) ∧
      files'.length = files.length + n := by
  induction n generalizing files rest with
  | zero =>
      cases h
      exact ⟨hn, hv, rfl⟩
  | succ n ih =>
      obtain ⟨name, data, after, -, -, -, hname, hnew, h⟩ := decodeInputs_succ_eq_some.mp h
      obtain ⟨hnodup, hvalid, hlength⟩ := ih h (by
        rw [List.map_append, List.map_singleton]
        exact hn.append (List.nodup_singleton name) (List.disjoint_singleton.mpr hnew)) (by
        rw [List.forall_mem_append, List.forall_mem_singleton]
        exact ⟨hv, hname⟩)
      refine ⟨hnodup, hvalid, hlength.trans ?_⟩
      rw [List.length_append, List.length_singleton, Nat.add_assoc, Nat.add_comm 1]

/-- The files of an envelope have valid and different names, and there are not too many. -/
theorem decodeFiles_spec (h : decodeFiles data = some e) :
    (e.files.map InputFile.name).Nodup ∧ (∀ f ∈ e.files, fileNameValid f.name false) ∧
      e.files.length ≤ filesMax := by
  unfold decodeFiles at h
  split at h
  case isFalse => nomatch h
  case isTrue =>
    obtain ⟨⟨count, r₁⟩, -, h⟩ := Option.bind_eq_some_iff.mp h
    obtain ⟨⟨main, r₂⟩, -, h⟩ := Option.bind_eq_some_iff.mp h
    obtain ⟨⟨roots, r₃⟩, -, h⟩ := Option.bind_eq_some_iff.mp h
    dsimp only at h
    split at h
    case isTrue => nomatch h
    case isFalse hcount =>
      obtain ⟨⟨unique, r₄⟩, -, h⟩ := Option.bind_eq_some_iff.mp h
      obtain ⟨⟨files, r₅⟩, hfiles, h⟩ := Option.bind_eq_some_iff.mp h
      dsimp only at h
      split at h
      case isFalse => nomatch h
      case isTrue =>
        cases h
        obtain ⟨hnodup, hvalid, hlength⟩ :=
          decodeInputs_spec hfiles List.nodup_nil (List.forall_mem_nil _)
        exact ⟨hnodup, hvalid, by
          rw [hlength, List.length_nil]
          omega⟩

end Decoded

/-! ## What has been written -/

section Encoded

variable {n main : Nat} {data rest rest' : Bytes} {unique unique' roots : List Bytes}
  {files files' : List InputFile} {e : Envelope}

/-- A length and as many bytes. -/
def encodeName (name : Bytes) : Bytes := ofWord name.length ++ name

def encodeInput (f : InputFile) : Bytes :=
  ofWord f.name.length ++ (ofWord f.data.length ++ (f.name ++ f.data))

/-- The packet with the files. -/
def encodeFiles (main : Nat) (roots : List Bytes) (files : List InputFile) : Bytes :=
  filesMagic ++ (ofWord files.length ++ (ofWord main ++ (ofWord roots.length ++
    (roots.flatMap encodeName ++ files.flatMap encodeInput))))

/-- The counts and the names are as `cc_files_decode` wants them. -/
structure FilesOk (main : Nat) (roots : List Bytes) (files : List InputFile) : Prop where
  count : files.length ≤ filesMax
  main_lt : main < files.length
  roots_le : roots.length ≤ rootsMax
  roots : ∀ root ∈ roots, fileNameValid root true
  names : ∀ f ∈ files, fileNameValid f.name false
  nodup : (files.map InputFile.name).Nodup
  size_lt : ∀ f ∈ files, f.data.length < 2 ^ 32

/-- A root that has not been found yet. -/
def addRoot (unique : List Bytes) (name : Bytes) : List Bytes :=
  if name ∈ unique then unique else unique ++ [name]

theorem length_le_of_valid {name : Bytes} {root : Bool} (h : fileNameValid name root) :
    name.length ≤ 4096 := by
  unfold fileNameValid at h
  split at h
  case isTrue hempty =>
    rw [hempty]
    exact Nat.zero_le _
  case isFalse =>
    split at h
    · nomatch h
    case isFalse hname => exact Nat.not_lt.mp fun hlong ↦ hname (.inl hlong)

theorem decodeRoots_eq_some : decodeRoots n unique rest = some (unique', rest') ↔
    ∃ roots : List Bytes, roots.length = n ∧ (∀ root ∈ roots, fileNameValid root true) ∧
      rest = roots.flatMap encodeName ++ rest' ∧ unique' = roots.foldl addRoot unique := by
  induction n generalizing unique rest with
  | zero =>
      constructor
      · intro h
        cases h
        exact ⟨[], rfl, List.forall_mem_nil _, rfl, rfl⟩
      · rintro ⟨roots, hlength, -, rfl, rfl⟩
        rw [List.length_eq_zero_iff.mp hlength]
        rfl
  | succ n ih =>
      constructor
      · intro h
        obtain ⟨⟨length, r₁⟩, h₁, h⟩ := Option.bind_eq_some_iff.mp h
        obtain ⟨⟨name, r₂⟩, h₂, hrest⟩ := Option.bind_eq_some_iff.mp h
        dsimp only at h₂ hrest
        split at hrest
        case isFalse => nomatch hrest
        case isTrue hname =>
          obtain ⟨-, rfl⟩ := word_eq_some.mp h₁
          obtain ⟨rfl, rfl⟩ := takeBytes_eq_some.mp h₂
          obtain ⟨roots, rfl, hroots, rfl, rfl⟩ := ih.mp hrest
          refine ⟨name :: roots, rfl, List.forall_mem_cons.mpr ⟨hname, hroots⟩, ?_, rfl⟩
          rw [List.flatMap_cons, encodeName, List.append_assoc, List.append_assoc]
      · rintro ⟨roots, hlength, hroots, rfl, rfl⟩
        obtain ⟨name, roots, rfl⟩ := List.exists_cons_of_length_eq_add_one hlength
        obtain ⟨hname, hroots⟩ := List.forall_mem_cons.mp hroots
        have hlt := length_le_of_valid hname
        rw [decodeRoots, List.flatMap_cons, encodeName, List.append_assoc, List.append_assoc,
          word_eq_some.mpr ⟨by omega, rfl⟩]
        simp only [Option.bind_eq_bind, Option.bind_some]
        rw [takeBytes_eq_some.mpr ⟨rfl, rfl⟩, Option.bind_some, if_pos hname]
        exact ih.mpr ⟨roots, Nat.succ.inj hlength, hroots, rfl, rfl⟩

theorem nodup_names_nil : (([] : List InputFile).map InputFile.name).Nodup := List.nodup_nil

theorem decodeInputs_eq_some (hn : (files.map InputFile.name).Nodup) :
    decodeInputs n files rest = some (files', rest') ↔
      ∃ new : List InputFile, new.length = n ∧ files' = files ++ new ∧
        rest = new.flatMap encodeInput ++ rest' ∧ (∀ f ∈ new, fileNameValid f.name false) ∧
          (∀ f ∈ new, f.data.length < 2 ^ 32) ∧ (files'.map InputFile.name).Nodup := by
  induction n generalizing files rest with
  | zero =>
      constructor
      · intro h
        cases h
        exact ⟨[], rfl, (List.append_nil _).symm, rfl, List.forall_mem_nil _,
          List.forall_mem_nil _, hn⟩
      · rintro ⟨new, hlength, rfl, rfl, -⟩
        rw [List.length_eq_zero_iff.mp hlength, List.append_nil]
        rfl
  | succ n ih =>
      have hnodup : ∀ name data, name ∉ files.map InputFile.name →
          ((files ++ [InputFile.mk name data]).map InputFile.name).Nodup := fun name data hnew ↦ by
        rw [List.map_append, List.map_singleton]
        exact hn.append (List.nodup_singleton name) (List.disjoint_singleton.mpr hnew)
      rw [decodeInputs_succ_eq_some]
      constructor
      · rintro ⟨name, data, after, rfl, -, hdata, hname, hnew, h⟩
        obtain ⟨new, rfl, rfl, rfl, hnames, hsizes, hall⟩ := (ih (hnodup name data hnew)).mp h
        refine ⟨⟨name, data⟩ :: new, rfl, ?_, ?_, List.forall_mem_cons.mpr ⟨hname, hnames⟩,
          List.forall_mem_cons.mpr ⟨hdata, hsizes⟩, hall⟩
        · rw [List.append_assoc, List.singleton_append]
        · simp only [List.flatMap_cons, encodeInput, List.append_assoc]
      · rintro ⟨new, hlength, rfl, rfl, hnames, hsizes, hall⟩
        obtain ⟨⟨name, data⟩, new, rfl⟩ := List.exists_cons_of_length_eq_add_one hlength
        obtain ⟨hname, hnames⟩ := List.forall_mem_cons.mp hnames
        obtain ⟨hdata, hsizes⟩ := List.forall_mem_cons.mp hsizes
        have hlt : name.length ≤ 4096 := length_le_of_valid hname
        have hnew : name ∉ files.map InputFile.name := by
          rw [List.map_append, List.map_cons] at hall
          exact fun hmem ↦ (List.nodup_append.mp hall).2.2 name hmem name List.mem_cons_self rfl
        refine ⟨name, data, new.flatMap encodeInput ++ rest', ?_, by omega, hdata, hname, hnew, ?_⟩
        · simp only [List.flatMap_cons, encodeInput, List.append_assoc]
        · refine (ih (hnodup name data hnew)).mpr ⟨new, Nat.succ.inj hlength, ?_, rfl, hnames,
            hsizes, hall⟩
          rw [List.append_assoc, List.singleton_append]

/-- Exactly the packets that can be written are decoded. -/
theorem decodeFiles_eq_some : decodeFiles data = some e ↔ ∃ roots,
    data = encodeFiles e.main roots e.files ∧ FilesOk e.main roots e.files ∧
      e.roots = roots.foldl addRoot [] := by
  unfold decodeFiles
  constructor
  · intro h
    split at h
    case isFalse => nomatch h
    case isTrue hmagic =>
      obtain ⟨after, rfl⟩ := List.isPrefixOf_iff_prefix.mp hmagic
      obtain ⟨⟨count, r₁⟩, h₁, h⟩ := Option.bind_eq_some_iff.mp h
      obtain ⟨⟨main, r₂⟩, h₂, h⟩ := Option.bind_eq_some_iff.mp h
      obtain ⟨⟨roots, r₃⟩, h₃, h⟩ := Option.bind_eq_some_iff.mp h
      dsimp only at h₂ h₃ h
      split at h
      · nomatch h
      case isFalse hcounts =>
        obtain ⟨⟨unique, r₄⟩, h₄, h⟩ := Option.bind_eq_some_iff.mp h
        obtain ⟨⟨files, r₅⟩, h₅, h⟩ := Option.bind_eq_some_iff.mp h
        dsimp only at h₅ h
        split at h
        case isFalse => nomatch h
        case isTrue hend =>
          cases h
          obtain ⟨-, hr₀⟩ := word_eq_some.mp h₁
          obtain ⟨-, rfl⟩ := word_eq_some.mp h₂
          obtain ⟨-, rfl⟩ := word_eq_some.mp h₃
          obtain ⟨roots, rfl, hroots, rfl, rfl⟩ := decodeRoots_eq_some.mp h₄
          obtain ⟨files, rfl, rfl, rfl, hnames, hsizes, hnodup⟩ :=
            (decodeInputs_eq_some nodup_names_nil).mp h₅
          rw [show (filesMagic ++ after).drop 9 = after from List.drop_left' rfl] at hr₀
          have hcount : files.length ≤ filesMax := by omega
          have hmain : main < files.length := by omega
          refine ⟨roots, ?_, ⟨hcount, hmain, by omega, hroots, hnames, hnodup, hsizes⟩, rfl⟩
          rw [hr₀, hend, List.append_nil]
          rfl
  · rintro ⟨roots, rfl, hok, hunique⟩
    have hcount := hok.count
    have hmain := hok.main_lt
    have hle := hok.roots_le
    unfold filesMax at hcount
    unfold rootsMax at hle
    rw [encodeFiles, if_pos (List.isPrefixOf_iff_prefix.mpr (List.prefix_append _ _)),
      show ∀ l, (filesMagic ++ l).drop 9 = l from fun l ↦ List.drop_left' rfl,
      word_eq_some.mpr ⟨by omega, rfl⟩]
    simp only [Option.bind_eq_bind, Option.bind_some]
    rw [word_eq_some.mpr ⟨by omega, rfl⟩, Option.bind_some, word_eq_some.mpr ⟨by omega, rfl⟩,
      Option.bind_some, if_neg (by unfold filesMax rootsMax; omega),
      decodeRoots_eq_some.mpr ⟨roots, rfl, hok.roots, rfl, rfl⟩, Option.bind_some,
      (decodeInputs_eq_some nodup_names_nil).mpr ⟨e.files, rfl, rfl, (List.append_nil _).symm,
        hok.names, hok.size_lt, hok.nodup⟩, Option.bind_some, if_pos rfl, ← hunique]
    rfl

end Encoded

end CopySpace.Gcc
