import Mathlib.Data.List.Dedup
import Mathlib.Data.String.Basic
import CopySpace.Lib.Utf8
import CopySpace.Gcc.Job

/-!
# `job_format.py`: packets written and read in Python

Python's strings are encoded in UTF-8.  What `pack_job` writes is read by `unpack_job` and by
`cs_gcc_job_decode`, and where the bytes are those of strings the two accept the same packets.
-/

namespace CopySpace.Gcc

open Bytes Files Utf8

/-- A dictionary from names to contents. -/
structure Dictionary where
  items : List (String × Bytes)
  nodup : (items.map Prod.fst).Nodup

namespace Dictionary

theorem ext {d d' : Dictionary} (h : d.items = d'.items) : d = d' := by
  cases d
  cases d'
  cases h
  rfl

def empty : Dictionary := ⟨[], List.nodup_nil⟩

/-- A name that is not in the dictionary is added to it. -/
def add (d : Dictionary) (name : String) (data : Bytes) (h : name ∉ d.items.map Prod.fst) :
    Dictionary where
  items := d.items ++ [(name, data)]
  nodup := by
    rw [List.map_append, List.map_singleton]
    exact d.nodup.append (List.nodup_singleton name) (List.disjoint_singleton.mpr h)

/-- The files with the names as bytes. -/
def inputs (d : Dictionary) : List InputFile := d.items.map fun item ↦ ⟨encode item.1, item.2⟩

end Dictionary

/-- `_path`. -/
def path (name : String) (root : Bool) : Option Bytes :=
  let data := encode name
  if data.length > 4096 ∨ 0 ∈ data ∨ name.toList.head? = some '/' ∨ (name = "" ∧ root = false) ∨
      (name ≠ "" ∧ ∃ p ∈ name.toList.splitOn '/', p ∈ [[], ['.'], ['.', '.']]) then none
  else some data

/-! ## Writing -/

/-- The loop over the arguments. -/
def packArguments : Bool → List String → Option Bytes
  | _, [] => some []
  | first, arg :: argv =>
      let data := encode arg
      if data.length > 4096 ∨ 0 ∈ data ∨ (first ∧ data = []) then none
      else do
        let rest ← packArguments false argv
        some (ofWord data.length ++ data ++ rest)

/-- `name.rsplit('/', 1)[0]`, where there is a slash. -/
def folder (name : String) : Option String :=
  if '/' ∈ name.toList then
    some (String.ofList ((name.toList.reverse.dropWhile (· ≠ '/')).drop 1).reverse)
  else none

/-- The loop over the roots. -/
def packRoots : List String → Option Bytes
  | [] => some []
  | root :: roots => do
      let data ← path root true
      let rest ← packRoots roots
      some (ofWord data.length ++ data ++ rest)

/-- The loop over the files. -/
def packFiles : List (String × Bytes) → Option Bytes
  | [] => some []
  | (name, data) :: items => do
      let name ← path name false
      if data.length > jobMax then none
      else do
        let rest ← packFiles items
        some (ofWord name.length ++ ofWord data.length ++ name ++ data ++ rest)

/-- `pack_job`. -/
def packJob (argv : List String) (files : Dictionary) : Option Bytes :=
  if ¬ (1 ≤ argv.length ∧ argv.length ≤ 256) ∨
      ¬ (1 ≤ files.items.length ∧ files.items.length ≤ 1024) then none
  else do
    let arguments ← packArguments true argv
    let roots := ((files.items.filterMap fun item ↦ folder item.1).dedup).mergeSort
      fun a b ↦ decide (a ≤ b)
    if roots.length > 32 then none
    else do
      let packedRoots ← packRoots roots
      let packedFiles ← packFiles files.items
      let payload := filesMagic ++ (ofWord files.items.length ++ (ofWord 0 ++
        (ofWord roots.length ++ (packedRoots ++ packedFiles))))
      let result := jobMagic ++ (ofWord argv.length ++
        (ofWord payload.length ++ (arguments ++ payload)))
      if result.length > jobMax then none else some result

/-! ## Reading -/

/-- The loop over the arguments. -/
def unpackArguments : Nat → Bool → Bytes → Option (List String × Bytes)
  | 0, _, rest => some ([], rest)
  | n + 1, first, rest => do
      let (length, rest) ← word rest
      if length > 4096 ∨ (first ∧ length = 0) then none
      else do
        let (arg, rest) ← takeBytes length rest
        if 0 ∈ arg then none
        else do
          let arg ← decode arg
          let (argv, rest) ← unpackArguments n false rest
          some (arg :: argv, rest)

/-- The loop over the roots. -/
def unpackRoots : Nat → Bytes → Option Bytes
  | 0, rest => some rest
  | n + 1, rest => do
      let (length, rest) ← word rest
      let (root, rest) ← takeBytes length rest
      let root ← decode root
      let _ ← path root true
      unpackRoots n rest

/-- The loop over the files. -/
def unpackFiles : Nat → Dictionary → Bytes → Option (Dictionary × Bytes)
  | 0, files, rest => some (files, rest)
  | k + 1, files, rest => do
      let (length, rest) ← word rest
      let (n, rest) ← word rest
      let (name, rest) ← takeBytes length rest
      let name ← decode name
      let _ ← path name false
      if h : name ∈ files.items.map Prod.fst then none
      else do
        let (data, rest) ← takeBytes n rest
        unpackFiles k (files.add name data h) rest

/-- `unpack_job`. -/
def unpackJob (data : Bytes) : Option (List String × Dictionary) :=
  if ¬ (16 ≤ data.length ∧ data.length ≤ jobMax) then none
  else do
    let (magic, rest) ← takeBytes 8 data
    if magic ≠ jobMagic then none
    else do
      let (count, rest) ← word rest
      let (size, rest) ← word rest
      if ¬ (1 ≤ count ∧ count ≤ 256) then none
      else do
        let (argv, rest) ← unpackArguments count true rest
        let (blob, rest) ← takeBytes size rest
        if rest ≠ [] then none
        else do
          let (magic, blob) ← takeBytes 9 blob
          if magic ≠ filesMagic then none
          else do
            let (count, blob) ← word blob
            let (primary, blob) ← word blob
            let (roots, blob) ← word blob
            if ¬ (1 ≤ count ∧ count ≤ 1024) ∨ primary ≥ count ∨ roots > 32 then none
            else do
              let blob ← unpackRoots roots blob
              let (files, blob) ← unpackFiles count .empty blob
              if blob ≠ [] then none else some (argv, files)

/-! ## Paths -/

section Paths

variable {name : String} {root : Bool} {data : Bytes}

theorem encode_eq_nil : encode name = [] ↔ name = "" := by
  refine ⟨fun h ↦ encode_injective (h.trans rfl), fun h ↦ by rw [h]; rfl⟩

theorem componentOk_encodeChars (p : List Char) :
    componentOk (encodeChars p) ↔ p ∉ [[], ['.'], ['.', '.']] := by
  have hnil : encodeChars p = [] ↔ p = [] := encodeChars_injective.eq_iff (b := [])
  have hdot : encodeChars p = [dot] ↔ p = ['.'] := encodeChars_injective.eq_iff (b := ['.'])
  have hdots : encodeChars p = [dot, dot] ↔ p = ['.', '.'] :=
    encodeChars_injective.eq_iff (b := ['.', '.'])
  unfold componentOk
  simp only [ne_eq, hnil, hdot, hdots, Bool.and_eq_true, decide_eq_true_eq, List.mem_cons,
    List.not_mem_nil, or_false, not_or, and_assoc]

/-- `_path` accepts the names that `cc_file_name_valid` accepts. -/
theorem path_eq_some : path name root = some data ↔
    data = encode name ∧ fileNameValid data root := by
  have hparts : (∀ p ∈ (encode name).splitOn slash, componentOk p) ↔
      ¬ ∃ p ∈ name.toList.splitOn '/', p ∈ [[], ['.'], ['.', '.']] := by
    have hsplit := splitOn_encodeChars (c := '/') (by decide) name.toList
    rw [encode_eq, show slash = UInt8.ofNat '/'.toNat from rfl, hsplit]
    simp only [List.forall_mem_map, componentOk_encodeChars, not_exists, not_and]
  have hhead : name.toList.head? = some '/' → [] ∈ name.toList.splitOn '/' := fun h ↦ by
    obtain ⟨rest, hrest⟩ := List.head?_eq_some_iff.mp h
    rw [hrest, List.splitOn_cons_eq_if_modifyHead, if_pos (beq_self_eq_true _)]
    exact List.mem_cons_self
  have hiff : fileNameValid (encode name) root ↔ ¬ ((encode name).length > 4096 ∨
      0 ∈ encode name ∨ name.toList.head? = some '/' ∨ (name = "" ∧ root = false) ∨
        (name ≠ "" ∧ ∃ p ∈ name.toList.splitOn '/', p ∈ [[], ['.'], ['.', '.']])) := by
    rw [fileNameValid_iff, hparts, ne_eq, encode_eq_nil]
    by_cases hempty : name = ""
    · subst hempty
      cases root <;> simp [encode]
    · constructor
      · rintro (h | ⟨-, hlength, hzero, hgood⟩)
        · exact absurd h.1 hempty
        · rintro (h | h | h | h | h)
          · omega
          · exact hzero h
          · exact hgood ⟨[], hhead h, List.mem_cons_self⟩
          · exact hempty h.1
          · exact hgood h.2
      · intro h
        simp only [not_or] at h
        exact .inr ⟨hempty, Nat.not_lt.mp h.1, h.2.1, fun hbad ↦ h.2.2.2.2 ⟨hempty, hbad⟩⟩
  unfold path
  dsimp only
  by_cases hvalid : fileNameValid (encode name) root
  · rw [if_neg (hiff.mp hvalid)]
    constructor
    · intro h
      cases h
      exact ⟨rfl, hvalid⟩
    · rintro ⟨rfl, -⟩
      rfl
  · rw [if_pos (not_not.mp fun h ↦ hvalid (hiff.mpr h))]
    constructor
    · rintro ⟨⟩
    · rintro ⟨rfl, h⟩
      exact absurd h hvalid

end Paths

/-! ## What is read -/

section Unpack

variable {n : Nat} {first : Bool} {argv : List String} {rest rest' data : Bytes}
  {files files' : Dictionary}

/-- The arguments that are read are strings, and as `cs_gcc_job_decode` wants them. -/
theorem unpackArguments_eq_some : unpackArguments n first rest = some (argv, rest') ↔
    argv.length = n ∧ rest = (argv.map encode).flatMap encodeName ++ rest' ∧
      ArgumentsOk first (argv.map encode) := by
  induction n generalizing first rest argv with
  | zero =>
      constructor
      · intro h
        cases h
        exact ⟨rfl, rfl, List.forall_mem_nil _, nofun⟩
      · rintro ⟨hlength, rfl, -⟩
        rw [List.length_eq_zero_iff.mp hlength]
        rfl
  | succ n ih =>
      constructor
      · intro h
        obtain ⟨⟨length, r₁⟩, h₁, hrest⟩ := Option.bind_eq_some_iff.mp h
        dsimp only at hrest
        split at hrest
        · nomatch hrest
        case isFalse hlength =>
          obtain ⟨⟨arg, r₂⟩, h₂, hlater⟩ := Option.bind_eq_some_iff.mp hrest
          dsimp only at hlater
          split at hlater
          · nomatch hlater
          case isFalse hzero =>
            obtain ⟨arg, h₃, hend⟩ := Option.bind_eq_some_iff.mp hlater
            obtain ⟨⟨args, r₃⟩, h₄, hsome⟩ := Option.bind_eq_some_iff.mp hend
            obtain ⟨rfl, rfl⟩ := Prod.mk.inj (Option.some.inj hsome)
            obtain ⟨-, rfl⟩ := word_eq_some.mp h₁
            obtain ⟨rfl, rfl⟩ := takeBytes_eq_some.mp h₂
            cases decode_eq_some.mp h₃
            obtain ⟨rfl, rfl, hok⟩ := ih.mp h₄
            simp only [not_or] at hlength
            refine ⟨rfl, ?_, argumentsOk_cons.mpr ⟨⟨by omega, hzero, fun hf he ↦
              hlength.2 ⟨hf, List.length_eq_zero_iff.mpr he⟩⟩, hok⟩⟩
            rw [List.map_cons, List.flatMap_cons, encodeName, List.append_assoc, List.append_assoc]
      · rintro ⟨hlength, rfl, hok⟩
        obtain ⟨arg, argv, rfl⟩ := List.exists_cons_of_length_eq_add_one hlength
        obtain ⟨⟨hle, hzero, hne⟩, hok⟩ := argumentsOk_cons.mp hok
        rw [unpackArguments, List.map_cons, List.flatMap_cons, encodeName, List.append_assoc,
          List.append_assoc, word_eq_some.mpr ⟨by omega, rfl⟩]
        simp only [Option.bind_eq_bind, Option.bind_some]
        rw [if_neg, takeBytes_eq_some.mpr ⟨rfl, rfl⟩, Option.bind_some, if_neg hzero,
          decode_encode, Option.bind_some, ih.mpr ⟨Nat.succ.inj hlength, rfl, hok⟩,
          Option.bind_some]
        rintro (hlong | hempty)
        · omega
        · exact hne hempty.1 (List.length_eq_zero_iff.mp hempty.2)

/-- The roots that are read are strings with valid names. -/
theorem unpackRoots_eq_some : unpackRoots n rest = some rest' ↔
    ∃ roots : List String, roots.length = n ∧ rest = (roots.map encode).flatMap encodeName ++ rest' ∧
      ∀ root ∈ roots.map encode, fileNameValid root true := by
  induction n generalizing rest with
  | zero =>
      constructor
      · intro h
        cases h
        exact ⟨[], rfl, rfl, List.forall_mem_nil _⟩
      · rintro ⟨roots, hlength, rfl, -⟩
        rw [List.length_eq_zero_iff.mp hlength]
        rfl
  | succ n ih =>
      constructor
      · intro h
        obtain ⟨⟨length, r₁⟩, h₁, h₁'⟩ := Option.bind_eq_some_iff.mp h
        obtain ⟨⟨bytes, r₂⟩, h₂, h₂'⟩ := Option.bind_eq_some_iff.mp h₁'
        obtain ⟨root, h₃, h₃'⟩ := Option.bind_eq_some_iff.mp h₂'
        obtain ⟨data, h₄, h₄'⟩ := Option.bind_eq_some_iff.mp h₃'
        obtain ⟨-, rfl⟩ := word_eq_some.mp h₁
        obtain ⟨rfl, rfl⟩ := takeBytes_eq_some.mp h₂
        cases decode_eq_some.mp h₃
        obtain ⟨rfl, hvalid⟩ := path_eq_some.mp h₄
        obtain ⟨roots, rfl, rfl, hroots⟩ := ih.mp h₄'
        refine ⟨root :: roots, rfl, ?_, List.forall_mem_cons.mpr ⟨hvalid, hroots⟩⟩
        rw [List.map_cons, List.flatMap_cons, encodeName, List.append_assoc, List.append_assoc]
      · rintro ⟨roots, hlength, rfl, hroots⟩
        obtain ⟨root, roots, rfl⟩ := List.exists_cons_of_length_eq_add_one hlength
        obtain ⟨hroot, hroots⟩ := List.forall_mem_cons.mp hroots
        have hle : (encode root).length ≤ 4096 := length_le_of_valid hroot
        rw [unpackRoots, List.map_cons, List.flatMap_cons, encodeName, List.append_assoc,
          List.append_assoc, word_eq_some.mpr ⟨by omega, rfl⟩]
        simp only [Option.bind_eq_bind, Option.bind_some]
        rw [takeBytes_eq_some.mpr ⟨rfl, rfl⟩, Option.bind_some, decode_encode, Option.bind_some,
          path_eq_some.mpr ⟨rfl, hroot⟩, Option.bind_some]
        exact ih.mpr ⟨roots, Nat.succ.inj hlength, rfl, hroots⟩

theorem mem_inputs {name : String} : encode name ∈ files.inputs.map InputFile.name ↔
    name ∈ files.items.map Prod.fst := by
  simp only [Dictionary.inputs, List.map_map, List.mem_map, Function.comp_apply]
  constructor
  · rintro ⟨item, hitem, he⟩
    exact ⟨item, hitem, encode_injective he⟩
  · rintro ⟨item, hitem, rfl⟩
    exact ⟨item, hitem, rfl⟩

theorem inputs_add {name : String} {data : Bytes} (h : name ∉ files.items.map Prod.fst) :
    (files.add name data h).inputs = files.inputs ++ [⟨encode name, data⟩] := by
  simp only [Dictionary.inputs, Dictionary.add, List.map_append, List.map_singleton]

theorem inputs_nodup (files : Dictionary) : (files.inputs.map InputFile.name).Nodup := by
  have hnames : files.inputs.map InputFile.name = (files.items.map Prod.fst).map encode := by
    simp only [Dictionary.inputs, List.map_map]
    rfl
  rw [hnames]
  exact files.nodup.map encode_injective

/-- The files that are read have strings as names, and are those that `cc_files_decode` reads. -/
theorem unpackFiles_eq_some : unpackFiles n files rest = some (files', rest') ↔
    decodeInputs n files.inputs rest = some (files'.inputs, rest') ∧
      files.items <+: files'.items := by
  induction n generalizing files rest with
  | zero =>
      constructor
      · intro h
        cases h
        exact ⟨rfl, List.prefix_rfl⟩
      · rintro ⟨h, hbelow⟩
        obtain ⟨hinputs, rfl⟩ := Prod.mk.inj (Option.some.inj h)
        have hlength : files.items.length = files'.items.length := by
          have hl := congrArg List.length hinputs
          simpa only [Dictionary.inputs, List.length_map] using hl
        rw [Dictionary.ext (hbelow.eq_of_length hlength)]
        rfl
  | succ n ih =>
      rw [decodeInputs_succ_eq_some]
      constructor
      · intro h
        obtain ⟨⟨length, r₁⟩, h₁, h₁'⟩ := Option.bind_eq_some_iff.mp h
        obtain ⟨⟨bytes, r₂⟩, h₂, h₂'⟩ := Option.bind_eq_some_iff.mp h₁'
        obtain ⟨⟨name, r₃⟩, h₃, h₃'⟩ := Option.bind_eq_some_iff.mp h₂'
        obtain ⟨name, h₄, h₄'⟩ := Option.bind_eq_some_iff.mp h₃'
        obtain ⟨bytes', h₅, h₅'⟩ := Option.bind_eq_some_iff.mp h₄'
        dsimp only at h₂ h₃ h₅'
        split at h₅'
        · nomatch h₅'
        case isFalse hnew =>
          obtain ⟨⟨data, r₄⟩, h₆, h₆'⟩ := Option.bind_eq_some_iff.mp h₅'
          obtain ⟨hl, rfl⟩ := word_eq_some.mp h₁
          obtain ⟨hb, rfl⟩ := word_eq_some.mp h₂
          obtain ⟨rfl, rfl⟩ := takeBytes_eq_some.mp h₃
          obtain ⟨rfl, rfl⟩ := takeBytes_eq_some.mp h₆
          cases decode_eq_some.mp h₄
          obtain ⟨rfl, hvalid⟩ := path_eq_some.mp h₅
          obtain ⟨hdecode, hbelow⟩ := ih.mp h₆'
          rw [inputs_add] at hdecode
          refine ⟨⟨encode name, data, r₄, rfl, hl, hb, hvalid,
            fun hmem ↦ hnew (mem_inputs.mp hmem), hdecode⟩, ?_⟩
          exact (List.prefix_append _ _).trans hbelow
      · rintro ⟨⟨name, data, after, rfl, hl, hb, hvalid, hnew, h⟩, hbelow⟩
        -- the next item of the dictionary has been decoded from these bytes
        obtain ⟨items, hitems⟩ := hbelow
        obtain ⟨new, -, hinputs, -⟩ := (decodeInputs_eq_some (by
          rw [List.map_append, List.map_singleton]
          exact (inputs_nodup files).append (List.nodup_singleton name)
            (List.disjoint_singleton.mpr hnew))).mp h
        rw [Dictionary.inputs, ← hitems, List.map_append, List.append_assoc] at hinputs
        have hmore := List.append_cancel_left hinputs
        obtain ⟨item, items, rfl⟩ : ∃ item more, items = item :: more :=
          List.exists_cons_of_ne_nil fun hnil ↦ by
            rw [hnil] at hmore
            nomatch hmore
        obtain ⟨string, data'⟩ := item
        obtain ⟨hname, -⟩ := List.cons.inj hmore
        obtain ⟨rfl, rfl⟩ := InputFile.mk.inj hname
        have hfresh : string ∉ files.items.map Prod.fst := fun hmem ↦ hnew (mem_inputs.mpr hmem)
        have hrest : unpackFiles n (files.add string data' hfresh) after = some (files', rest') :=
          ih.mpr ⟨by rw [inputs_add]; exact h, ⟨items, by
            rw [← hitems]
            exact List.append_assoc _ _ _⟩⟩
        rw [unpackFiles, word_eq_some.mpr ⟨hl, rfl⟩]
        simp only [Option.bind_eq_bind, Option.bind_some]
        rw [word_eq_some.mpr ⟨hb, rfl⟩, Option.bind_some, takeBytes_eq_some.mpr ⟨rfl, rfl⟩,
          Option.bind_some, decode_encode, Option.bind_some, path_eq_some.mpr ⟨rfl, hvalid⟩,
          Option.bind_some, dif_neg hfresh, takeBytes_eq_some.mpr ⟨rfl, rfl⟩, Option.bind_some]
        exact hrest

/-- The envelope that is read. -/
theorem unpackFiles_empty : unpackFiles n .empty rest = some (files, []) ↔
    files.inputs.length = n ∧ rest = files.inputs.flatMap encodeInput ∧
      (∀ f ∈ files.inputs, fileNameValid f.name false) ∧ ∀ f ∈ files.inputs, f.data.length < 2 ^ 32 := by
  rw [unpackFiles_eq_some, decodeInputs_eq_some (inputs_nodup .empty)]
  constructor
  · rintro ⟨⟨new, hlength, hnew, hrest, hnames, hsizes, -⟩, -⟩
    rw [show Dictionary.empty.inputs = [] from rfl, List.nil_append] at hnew
    rw [List.append_nil] at hrest
    exact ⟨hnew ▸ hlength, hnew ▸ hrest, hnew ▸ hnames, hnew ▸ hsizes⟩
  · rintro ⟨hlength, hrest, hnames, hsizes⟩
    exact ⟨⟨files.inputs, hlength, rfl, by rw [List.append_nil, hrest], hnames, hsizes,
      inputs_nodup files⟩, List.nil_prefix⟩

/-- Exactly the well-formed packets are read whose arguments and paths are strings. -/
theorem unpackJob_eq_some : unpackJob data = some (argv, files) ↔
    ∃ (p : Packet) (roots : List String), p.WellFormed ∧ p.encode = data ∧
      p.argv = argv.map encode ∧ p.roots = roots.map encode ∧ p.files = files.inputs := by
  unfold unpackJob
  constructor
  · intro h
    split at h
    · nomatch h
    case isFalse hlength =>
      obtain ⟨⟨magic, r₁⟩, h₁, h⟩ := Option.bind_eq_some_iff.mp h
      dsimp only at h
      split at h
      · nomatch h
      case isFalse hmagic =>
        obtain ⟨⟨argc, r₂⟩, h₂, h⟩ := Option.bind_eq_some_iff.mp h
        obtain ⟨⟨size, r₃⟩, h₃, h⟩ := Option.bind_eq_some_iff.mp h
        dsimp only at h₃ h
        split at h
        · nomatch h
        case isFalse hargc =>
          obtain ⟨⟨args, r₄⟩, h₄, h⟩ := Option.bind_eq_some_iff.mp h
          obtain ⟨⟨blob, r₅⟩, h₅, h⟩ := Option.bind_eq_some_iff.mp h
          dsimp only at h₅ h
          split at h
          · nomatch h
          case isFalse hend =>
            obtain ⟨⟨magic', b₁⟩, h₆, h⟩ := Option.bind_eq_some_iff.mp h
            dsimp only at h
            split at h
            · nomatch h
            case isFalse hmagic' =>
              obtain ⟨⟨count, b₂⟩, h₇, h⟩ := Option.bind_eq_some_iff.mp h
              obtain ⟨⟨main, b₃⟩, h₈, h⟩ := Option.bind_eq_some_iff.mp h
              obtain ⟨⟨rootCount, b₄⟩, h₉, h⟩ := Option.bind_eq_some_iff.mp h
              dsimp only at h₈ h₉ h
              split at h
              · nomatch h
              case isFalse hcounts =>
                obtain ⟨b₅, h₁₀, h⟩ := Option.bind_eq_some_iff.mp h
                obtain ⟨⟨files', b₆⟩, h₁₁, h⟩ := Option.bind_eq_some_iff.mp h
                dsimp only at h
                split at h
                · nomatch h
                case isFalse htrailing =>
                  cases h
                  obtain rfl := not_not.mp hmagic
                  obtain rfl := not_not.mp hmagic'
                  obtain rfl := not_not.mp hend
                  obtain rfl := not_not.mp htrailing
                  obtain ⟨-, rfl⟩ := takeBytes_eq_some.mp h₁
                  obtain ⟨-, rfl⟩ := word_eq_some.mp h₂
                  obtain ⟨-, rfl⟩ := word_eq_some.mp h₃
                  obtain ⟨rfl, rfl, hok⟩ := unpackArguments_eq_some.mp h₄
                  obtain ⟨rfl, rfl⟩ := takeBytes_eq_some.mp h₅
                  obtain ⟨-, rfl⟩ := takeBytes_eq_some.mp h₆
                  obtain ⟨-, rfl⟩ := word_eq_some.mp h₇
                  obtain ⟨-, rfl⟩ := word_eq_some.mp h₈
                  obtain ⟨-, rfl⟩ := word_eq_some.mp h₉
                  obtain ⟨roots, rfl, rfl, hroots⟩ := unpackRoots_eq_some.mp h₁₀
                  obtain ⟨rfl, rfl, hnames, hsizes⟩ := unpackFiles_empty.mp h₁₁
                  simp only [not_or, not_not, Nat.not_lt, Nat.not_le] at hlength hargc hcounts
                  refine ⟨⟨argv.map encode, main, roots.map encode, files.inputs⟩, roots,
                    ⟨hok, ?_, ⟨hcounts.1.2, hcounts.2.1, ?_, hroots, hnames, inputs_nodup files,
                      hsizes⟩, ?_⟩, ?_, rfl, rfl, rfl⟩
                  · rw [List.length_map]
                    exact hargc
                  · rw [List.length_map]
                    exact hcounts.2.2
                  · simpa only [Packet.encode, encodeFiles, List.length_map, List.append_nil]
                      using hlength.2
                  · simp only [Packet.encode, encodeFiles, List.length_map, List.append_nil]
  · rintro ⟨⟨argv', main, roots', inputs⟩, roots, hp, rfl, rfl, rfl, rfl⟩
    have hlength : 16 ≤ (Packet.encode ⟨argv.map encode, main, roots.map encode,
        files.inputs⟩).length := by
      simp only [Packet.encode, jobMagic, List.length_append, length_ofWord, List.length_cons,
        List.length_nil]
      omega
    have hsize := hp.size
    have hcount := hp.count
    have hok := hp.files
    have hmain := hok.main_lt
    have hfileCount := hok.count
    have hrootCount := hok.roots_le
    have hinputs : unpackFiles files.inputs.length .empty (files.inputs.flatMap encodeInput) =
        some (files, []) := unpackFiles_empty.mpr ⟨rfl, rfl, hok.names, hok.size_lt⟩
    have hmax : jobMax = 16777216 := rfl
    have hfilesMax : filesMax = 1024 := rfl
    have hrootsMax : rootsMax = 32 := rfl
    dsimp only at hcount hmain hfileCount hrootCount
    have hblob : (encodeFiles main (roots.map encode) files.inputs).length < 2 ^ 32 := by
      simp only [Packet.encode, jobMagic, List.length_append, length_ofWord, List.length_cons,
        List.length_nil] at hsize
      omega
    rw [if_neg (not_not.mpr ⟨hlength, hsize⟩), Packet.encode,
      takeBytes_append (show jobMagic.length = 8 from rfl)]
    simp only [Option.bind_eq_bind, Option.bind_some]
    rw [if_neg (not_not.mpr rfl), word_eq_some.mpr ⟨by omega, rfl⟩, Option.bind_some,
      word_eq_some.mpr ⟨hblob, rfl⟩, Option.bind_some, if_neg (not_not.mpr hcount),
      unpackArguments_eq_some.mpr ⟨(List.length_map encode).symm, rfl, hp.arguments⟩,
      Option.bind_some, takeBytes_eq_some.mpr ⟨rfl, (List.append_nil _).symm⟩, Option.bind_some,
      if_neg (not_not.mpr rfl), encodeFiles,
      takeBytes_append (show filesMagic.length = 9 from rfl), Option.bind_some, if_neg (not_not.mpr rfl), word_eq_some.mpr ⟨by omega, rfl⟩, Option.bind_some,
      word_eq_some.mpr ⟨by omega, rfl⟩, Option.bind_some, word_eq_some.mpr ⟨by omega, rfl⟩,
      Option.bind_some, if_neg (by omega),
      unpackRoots_eq_some.mpr ⟨roots, (List.length_map encode).symm, rfl, hok.roots⟩,
      Option.bind_some, hinputs, Option.bind_some, if_neg (not_not.mpr rfl)]

end Unpack

/-! ## What is written -/

section Pack

variable {first : Bool} {argv roots : List String} {items : List (String × Bytes)}
  {bytes packet : Bytes} {files : Dictionary}

theorem packArguments_eq_some (h : packArguments first argv = some bytes) :
    bytes = (argv.map encode).flatMap encodeName ∧ ArgumentsOk first (argv.map encode) := by
  induction argv generalizing first bytes with
  | nil =>
      cases h
      exact ⟨rfl, List.forall_mem_nil _, nofun⟩
  | cons arg argv ih =>
      unfold packArguments at h
      dsimp only at h
      split at h
      · nomatch h
      case isFalse hgood =>
        obtain ⟨rest, hrest, hsome⟩ := Option.bind_eq_some_iff.mp h
        cases hsome
        obtain ⟨rfl, hok⟩ := ih hrest
        simp only [not_or, not_and] at hgood
        exact ⟨rfl, argumentsOk_cons.mpr
          ⟨⟨Nat.not_lt.mp hgood.1, hgood.2.1, fun hf ↦ hgood.2.2 hf⟩, hok⟩⟩

theorem packRoots_eq_some (h : packRoots roots = some bytes) :
    bytes = (roots.map encode).flatMap encodeName ∧
      ∀ root ∈ roots.map encode, fileNameValid root true := by
  induction roots generalizing bytes with
  | nil =>
      cases h
      exact ⟨rfl, List.forall_mem_nil _⟩
  | cons root roots ih =>
      obtain ⟨data, hroot, hlater⟩ := Option.bind_eq_some_iff.mp h
      obtain ⟨rest, hrest, hsome⟩ := Option.bind_eq_some_iff.mp hlater
      cases hsome
      obtain ⟨rfl, hvalid⟩ := path_eq_some.mp hroot
      obtain ⟨rfl, hroots⟩ := ih hrest
      exact ⟨rfl, List.forall_mem_cons.mpr ⟨hvalid, hroots⟩⟩

theorem packFiles_eq_some (h : packFiles items = some bytes) :
    bytes = (items.map fun item ↦ InputFile.mk (encode item.1) item.2).flatMap encodeInput ∧
      ∀ f ∈ items.map fun item ↦ InputFile.mk (encode item.1) item.2,
        fileNameValid f.name false ∧ f.data.length ≤ jobMax := by
  induction items generalizing bytes with
  | nil =>
      cases h
      exact ⟨rfl, List.forall_mem_nil _⟩
  | cons item items ih =>
      obtain ⟨name, data⟩ := item
      obtain ⟨packed, hname, hlater⟩ := Option.bind_eq_some_iff.mp h
      split at hlater
      · nomatch hlater
      case isFalse hsize =>
        obtain ⟨rest, hrest, hsome⟩ := Option.bind_eq_some_iff.mp hlater
        cases hsome
        obtain ⟨rfl, hvalid⟩ := path_eq_some.mp hname
        obtain ⟨rfl, hitems⟩ := ih hrest
        refine ⟨?_, List.forall_mem_cons.mpr ⟨⟨hvalid, Nat.not_lt.mp hsize⟩, hitems⟩⟩
        simp only [List.map_cons, List.flatMap_cons, encodeInput, List.append_assoc]

/-- What is written is read. -/
theorem unpackJob_packJob (h : packJob argv files = some packet) :
    unpackJob packet = some (argv, files) := by
  unfold packJob at h
  split at h
  · nomatch h
  case isFalse hcounts =>
    obtain ⟨arguments, harguments, h⟩ := Option.bind_eq_some_iff.mp h
    generalize ((files.items.filterMap fun item ↦ folder item.1).dedup).mergeSort
      (fun a b ↦ decide (a ≤ b)) = roots at h
    dsimp only at h
    split at h
    · nomatch h
    case isFalse hroots =>
      obtain ⟨packedRoots, hpackedRoots, h⟩ := Option.bind_eq_some_iff.mp h
      obtain ⟨packedFiles, hpackedFiles, h⟩ := Option.bind_eq_some_iff.mp h
      split at h
      · nomatch h
      case isFalse hsize =>
        cases h
        obtain ⟨rfl, hok⟩ := packArguments_eq_some harguments
        obtain ⟨rfl, hvalid⟩ := packRoots_eq_some hpackedRoots
        obtain ⟨rfl, hfiles⟩ := packFiles_eq_some hpackedFiles
        simp only [not_or, not_not] at hcounts
        have hlength : files.inputs.length = files.items.length := List.length_map _
        have hencode : Packet.encode ⟨argv.map encode, 0, roots.map encode, files.inputs⟩ =
            jobMagic ++ (ofWord argv.length ++ (ofWord (encodeFiles 0 (roots.map encode)
              files.inputs).length ++ ((argv.map encode).flatMap encodeName ++
                encodeFiles 0 (roots.map encode) files.inputs))) := by
          rw [Packet.encode, List.length_map]
        have hpayload : encodeFiles 0 (roots.map encode) files.inputs =
            filesMagic ++ (ofWord files.items.length ++ (ofWord 0 ++ (ofWord roots.length ++
              ((roots.map encode).flatMap encodeName ++ files.inputs.flatMap encodeInput)))) := by
          rw [encodeFiles, List.length_map, hlength]
        rw [hpayload] at hencode
        refine unpackJob_eq_some.mpr ⟨⟨argv.map encode, 0, roots.map encode, files.inputs⟩, roots,
          ⟨hok, ?_, ⟨?_, ?_, ?_, hvalid, fun f hf ↦ (hfiles f hf).1, inputs_nodup files,
            fun f hf ↦ ?_⟩, ?_⟩, hencode, rfl, rfl, rfl⟩
        · rw [List.length_map]
          exact hcounts.1
        · exact hlength ▸ hcounts.2.2
        · exact hlength ▸ hcounts.2.1
        · rw [List.length_map]
          exact Nat.not_lt.mp hroots
        · have hle := (hfiles f hf).2
          unfold jobMax at hle
          omega
        · rw [hencode]
          exact Nat.not_lt.mp hsize

end Pack

/-! ## One format -/

section Agree

variable {s t : Files} {memory : Nat → Bool} {packet : Bytes} {argv : List String}
  {files : Dictionary}

/-- The files are the linked files, with their contents. -/
def Files.Holds (s : Files) (files : List InputFile) : Prop :=
  ∀ f, f ∈ files ↔ ∃ i, s.Named f.name i ∧ (s.objects i).contents = f.data

/-- The mounted files are those of the envelope. -/
theorem holds_mounted {inputs : List InputFile} (hcount : inputs.length ≤ filesMax) :
    (mounted s inputs).Holds inputs := by
  have hobject : ∀ (i : Fin filesMax) (f : InputFile), inputs[i.val]? = some f →
      (mounted s inputs).objects i = ⟨some f.name, f.data, f.data.length, 0, true, true⟩ :=
    fun i f hi ↦ objects_mounted_some hi
  have hcontents : ∀ f : InputFile, File.contents
      ⟨some f.name, f.data, f.data.length, 0, true, true⟩ = f.data := fun f ↦ List.take_length
  intro f
  constructor
  · intro hf
    obtain ⟨k, hk, hget⟩ := List.getElem_of_mem hf
    have hi := hobject ⟨k, by omega⟩ f (List.getElem?_eq_some_iff.mpr ⟨hk, hget⟩)
    refine ⟨⟨k, by omega⟩, ?_, ?_⟩
    · unfold Files.Named
      rw [hi]
      exact ⟨rfl, rfl⟩
    · rw [hi]
      exact hcontents f
  · rintro ⟨i, hnamed, hdata⟩
    cases hi : inputs[i.val]? with
    | some g =>
        rw [Files.Named, hobject i g hi] at hnamed
        rw [hobject i g hi, hcontents] at hdata
        have hname := Option.some.inj hnamed.1
        have hg : g = f := by
          cases g
          cases f
          cases hname
          cases hdata
          rfl
        exact hg ▸ List.mem_of_getElem? hi
    | none =>
        obtain ⟨hname, -⟩ := hnamed
        rw [objects_mounted_none hi] at hname
        split at hname
        case isTrue hnone => cases hnone.symm.trans hname
        case isFalse => cases hname

/-- The arguments and the paths of the packet are strings. -/
def Packet.Utf8 (p : Packet) : Prop :=
  ∀ b ∈ p.argv ++ p.roots ++ p.files.map InputFile.name, ∃ string, decode b = some string

/-- The arguments and paths of a packet that is accepted are strings. -/
def TextUtf8 (packet : Bytes) : Prop :=
  ∀ p : Packet, p.WellFormed → p.encode = packet → p.Utf8

theorem map_encode_of_utf8 {texts : List Bytes} (h : ∀ b ∈ texts, ∃ string, decode b = some string) :
    ∃ strings : List String, texts = strings.map encode := by
  induction texts with
  | nil => exact ⟨[], rfl⟩
  | cons b texts ih =>
      obtain ⟨⟨string, hb⟩, htexts⟩ := List.forall_mem_cons.mp h
      obtain ⟨strings, rfl⟩ := ih htexts
      exact ⟨string :: strings, by rw [decode_eq_some.mp hb]; rfl⟩

/-- Files with strings as names are a dictionary. -/
theorem inputs_of_utf8 {inputs : List InputFile} (hnodup : (inputs.map InputFile.name).Nodup)
    (h : ∀ b ∈ inputs.map InputFile.name, ∃ string, decode b = some string) :
    ∃ files : Dictionary, files.inputs = inputs := by
  obtain ⟨names, hnames⟩ := map_encode_of_utf8 h
  have hlength : names.length = inputs.length := by
    have hl := congrArg List.length hnames
    simpa only [List.length_map] using hl.symm
  have hfst : (names.zip (inputs.map InputFile.data)).map Prod.fst = names :=
    List.map_fst_zip (by rw [List.length_map, hlength])
  have hnodup' : names.Nodup := (hnames ▸ hnodup).of_map
  refine ⟨⟨names.zip (inputs.map InputFile.data), hfst.symm ▸ hnodup'⟩, ?_⟩
  refine List.ext_getElem (by simp [Dictionary.inputs, hlength]) fun k hk hk' ↦ ?_
  have hkn : k < names.length := by omega
  have hname : encode names[k] = inputs[k].name := by
    have hget := congrArg (·[k]?) hnames
    simpa [hk', hlength] using hget.symm
  simp only [Dictionary.inputs, List.getElem_map, List.getElem_zip]
  rw [hname]

/-- What is read in Python is decoded in C. -/
theorem jobDecode_of_unpackJob (hs : Idle s) (hmemory : ∀ k, memory k = true)
    (h : unpackJob packet = some (argv, files)) :
    ∃ t, jobDecode memory s packet = (.ok (argv.map encode), t) ∧ t.Holds files.inputs := by
  obtain ⟨p, roots, hp, hencode, hargv, -, hfiles⟩ := unpackJob_eq_some.mp h
  refine ⟨mounted s files.inputs, (jobDecode_ok hs hmemory).mpr
    ⟨p, hp, hencode, hargv, by rw [hfiles]⟩, ?_⟩
  exact holds_mounted (hfiles ▸ hp.files.count)

/-- What is decoded in C is read in Python if its arguments and paths are strings. -/
theorem unpackJob_of_jobDecode (hs : Idle s) (hmemory : ∀ k, memory k = true) {args : List Bytes}
    (htext : TextUtf8 packet) (h : (jobDecode memory s packet).1 = .ok args) :
    ∃ r, unpackJob packet = some r := by
  obtain ⟨p, hp, hencode, -, -⟩ := (jobDecode_ok hs hmemory).mp (Prod.ext h rfl)
  have hutf8 := htext p hp hencode
  obtain ⟨argv, hargv⟩ := map_encode_of_utf8 fun b hb ↦
    hutf8 b (List.mem_append_left _ (List.mem_append_left _ hb))
  obtain ⟨roots, hroots⟩ := map_encode_of_utf8 fun b hb ↦
    hutf8 b (List.mem_append_left _ (List.mem_append_right _ hb))
  obtain ⟨files, hfiles⟩ := inputs_of_utf8 hp.files.nodup fun b hb ↦
    hutf8 b (List.mem_append_right _ hb)
  exact ⟨(argv, files), unpackJob_eq_some.mpr ⟨p, roots, hp, hencode, hargv, hroots, hfiles.symm⟩⟩

end Agree

/-- The format has one meaning.  What is packed is read and decoded with the same arguments and
files.  Packets of strings are read if and only if they are decoded, with the same result.  What
is decoded is well formed and has been written from end to end. -/
theorem job_format {s : Files} {memory : Nat → Bool} (hs : Idle s)
    (hmemory : ∀ k, memory k = true) :
    (∀ argv files packet, packJob argv files = some packet →
      unpackJob packet = some (argv, files) ∧
        ∃ t, jobDecode memory s packet = (.ok (argv.map encode), t) ∧ t.Holds files.inputs) ∧
    (∀ packet, TextUtf8 packet →
      ((∃ r, unpackJob packet = some r) ↔ ∃ args, (jobDecode memory s packet).1 = .ok args)) ∧
    (∀ packet argv files, unpackJob packet = some (argv, files) →
      ∃ t, jobDecode memory s packet = (.ok (argv.map encode), t) ∧ t.Holds files.inputs) ∧
    (∀ packet args, (jobDecode memory s packet).1 = .ok args →
      ∃ p : Packet, p.WellFormed ∧ p.encode = packet ∧ p.argv = args) := by
  refine ⟨fun argv files packet h ↦ ?_, fun packet htext ↦ ⟨?_, ?_⟩,
    fun packet argv files h ↦ jobDecode_of_unpackJob hs hmemory h, fun packet args h ↦ ?_⟩
  · have hunpack := unpackJob_packJob h
    exact ⟨hunpack, jobDecode_of_unpackJob hs hmemory hunpack⟩
  · rintro ⟨⟨argv, files⟩, h⟩
    obtain ⟨t, ht, -⟩ := jobDecode_of_unpackJob hs hmemory h
    exact ⟨argv.map encode, congrArg Prod.fst ht⟩
  · rintro ⟨args, h⟩
    exact unpackJob_of_jobDecode hs hmemory htext h
  · obtain ⟨p, hp, hencode, hargv, -⟩ := (jobDecode_ok hs hmemory).mp (Prod.ext h rfl)
    exact ⟨p, hp, hencode, hargv⟩

theorem idle_empty : Idle .empty := ⟨fun _ _ ↦ rfl, rfl⟩

/-- One file, in no directory. -/
def sampleFiles : Dictionary := ⟨[("a.c", [59])], List.nodup_singleton _⟩

def samplePacket : Bytes :=
  jobMagic ++ ([1, 0, 0, 0, 33, 0, 0, 0, 3, 0, 0, 0, 99, 99, 49] ++
    (filesMagic ++ [1, 0, 0, 0, 0, 0, 0, 0, 0, 0, 0, 0, 3, 0, 0, 0, 1, 0, 0, 0, 97, 46, 99, 59]))

theorem packJob_sample : packJob ["cc1"] sampleFiles = some samplePacket := by
  with_unfolding_all decide

theorem job_format_sample : unpackJob samplePacket = some (["cc1"], sampleFiles) ∧
    ∃ t, jobDecode (fun _ ↦ true) .empty samplePacket = (.ok (["cc1"].map encode), t) ∧
      t.Holds sampleFiles.inputs :=
  (job_format idle_empty fun _ ↦ rfl).1 ["cc1"] sampleFiles samplePacket packJob_sample

end CopySpace.Gcc
