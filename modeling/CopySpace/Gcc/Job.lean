import CopySpace.Gcc.Steps

/-!
# `job.c`: the packet of a job

A job is a packet with the arguments of the program, each behind its length, and the envelope of
the files.  `jobDecode` checks all lengths before it copies the arguments and mounts the files.
-/

namespace CopySpace.Gcc

open Bytes Files

/-- `CS_GCC_JOB_MAX`. -/
def jobMax : Nat := 16 * 1024 * 1024

/-- `"GCCJOB1"`, with its zero. -/
def jobMagic : Bytes := [71, 67, 67, 74, 79, 66, 49, 0]

/-- The loop that checks the arguments, up to the envelope. -/
def validArguments : Nat → Bool → Bytes → Bool
  | 0, _, rest => rest = []
  | n + 1, first, rest => match word rest with
    | none => false
    | some (length, rest) =>
        if length > 4096 ∨ length > rest.length ∨ (first ∧ length = 0) ∨ 0 ∈ rest.take length then
          false
        else validArguments n false (rest.drop length)

/-- The loop that copies the arguments. -/
def copyArguments : Nat → Bytes → List Bytes
  | 0, _ => []
  | n + 1, rest => match word rest with
    | none => []
    | some (length, rest) => rest.take length :: copyArguments n (rest.drop length)

/-- `cs_gcc_job_decode` of a packet into an empty job.  The array of the arguments and every
argument take an allocation. -/
def jobDecode (memory : Nat → Bool) (s : Files) (packet : Bytes) : Outcome (List Bytes) :=
  if packet.length < 16 ∨ packet.length > jobMax ∨ packet.take 8 ≠ jobMagic then
    (.error .EINVAL, s)
  else match word (packet.drop 8), word (packet.drop 12) with
    | some (argc, _), some (files, rest) =>
        if argc = 0 ∨ argc > 256 ∨ files > packet.length - 16 then (.error .EINVAL, s)
        else
          let arguments := rest.take (rest.length - files)
          if validArguments argc true arguments = false then (.error .EINVAL, s)
          else if (List.range (argc + 1)).any fun k ↦ !memory k then (.error .ENOMEM, s)
          else
            let result := mount (fun k ↦ memory (argc + 1 + k)) s
              (rest.drop (rest.length - files))
            (result.1.map fun _ ↦ copyArguments argc arguments, result.2)
    | _, _ => (.error .EINVAL, s)

/-! ## Packets -/

/-- What is in a packet. -/
structure Packet where
  argv : List Bytes
  main : Nat
  roots : List Bytes
  files : List InputFile

/-- No argument is too long or has a zero, and the name of the program is not empty. -/
structure ArgumentsOk (first : Bool) (argv : List Bytes) : Prop where
  arguments : ∀ arg ∈ argv, arg.length ≤ 4096 ∧ 0 ∉ arg
  program : first = true → argv.head? ≠ some []

namespace Packet

def encode (p : Packet) : Bytes :=
  jobMagic ++ (ofWord p.argv.length ++
    (ofWord (encodeFiles p.main p.roots p.files).length ++
      (p.argv.flatMap encodeName ++ encodeFiles p.main p.roots p.files)))

/-- The packet keeps the limits. -/
structure WellFormed (p : Packet) : Prop where
  arguments : ArgumentsOk true p.argv
  count : 1 ≤ p.argv.length ∧ p.argv.length ≤ 256
  files : FilesOk p.main p.roots p.files
  size : p.encode.length ≤ jobMax

end Packet

section Arguments

variable {n : Nat} {first : Bool} {rest : Bytes} {arg : Bytes} {argv : List Bytes}

theorem argumentsOk_cons : ArgumentsOk first (arg :: argv) ↔
    (arg.length ≤ 4096 ∧ 0 ∉ arg ∧ (first = true → arg ≠ [])) ∧ ArgumentsOk false argv := by
  constructor
  · intro h
    obtain ⟨⟨hlength, hzero⟩, hargs⟩ := List.forall_mem_cons.mp h.arguments
    exact ⟨⟨hlength, hzero, fun hfirst he ↦ h.program hfirst (congrArg some he)⟩, hargs, nofun⟩
  · rintro ⟨⟨hlength, hzero, hne⟩, hargs⟩
    exact ⟨List.forall_mem_cons.mpr ⟨⟨hlength, hzero⟩, hargs.arguments⟩,
      fun hfirst he ↦ hne hfirst (Option.some.inj he)⟩

/-- Exactly the arguments that can be written are accepted. -/
theorem validArguments_iff : validArguments n first rest ↔
    ∃ argv : List Bytes, argv.length = n ∧ rest = argv.flatMap encodeName ∧
      ArgumentsOk first argv := by
  induction n generalizing first rest with
  | zero =>
      constructor
      · intro h
        exact ⟨[], rfl, of_decide_eq_true h, List.forall_mem_nil _, nofun⟩
      · rintro ⟨argv, hlength, rfl, -⟩
        rw [List.length_eq_zero_iff.mp hlength]
        rfl
  | succ n ih =>
      constructor
      · intro h
        unfold validArguments at h
        split at h
        · nomatch h
        case h_2 length after hword =>
          obtain ⟨-, rfl⟩ := word_eq_some.mp hword
          split at h
          · nomatch h
          case isFalse hgood =>
            simp only [not_or] at hgood
            obtain ⟨hlong, hshort, hfirst, hzero⟩ := hgood
            obtain ⟨argv, rfl, hafter, hok⟩ := ih.mp h
            have htake : (after.take length).length = length :=
              List.length_take_of_le (Nat.not_lt.mp hshort)
            refine ⟨after.take length :: argv, rfl, ?_, argumentsOk_cons.mpr
              ⟨⟨by omega, hzero, fun hf he ↦ hfirst ⟨hf, ?_⟩⟩, hok⟩⟩
            · rw [List.flatMap_cons, ← hafter, encodeName, htake, List.append_assoc,
                List.take_append_drop]
            · rw [← htake, he]
              rfl
      · rintro ⟨argv, hlength, rfl, hok⟩
        obtain ⟨arg, argv, rfl⟩ := List.exists_cons_of_length_eq_add_one hlength
        obtain ⟨⟨hle, hzero, hne⟩, hok⟩ := argumentsOk_cons.mp hok
        have hword : word ((arg :: argv).flatMap encodeName) =
            some (arg.length, arg ++ argv.flatMap encodeName) :=
          word_eq_some.mpr ⟨by omega, by rw [List.flatMap_cons, encodeName, List.append_assoc]⟩
        unfold validArguments
        rw [hword]
        dsimp only
        rw [List.take_left, List.drop_left, if_neg]
        · exact ih.mpr ⟨argv, Nat.succ.inj hlength, rfl, hok⟩
        · rw [List.length_append]
          rintro (hlong | hshort | hempty | hmem)
          · omega
          · omega
          · exact hne hempty.1 (List.length_eq_zero_iff.mp hempty.2)
          · exact hzero hmem

/-- The arguments are copied as they have been written. -/
theorem copyArguments_flatMap (h : ArgumentsOk first argv) :
    copyArguments argv.length (argv.flatMap encodeName) = argv := by
  induction argv generalizing first with
  | nil => rfl
  | cons arg argv ih =>
      obtain ⟨⟨hle, -, -⟩, hok⟩ := argumentsOk_cons.mp h
      have hword : word ((arg :: argv).flatMap encodeName) =
          some (arg.length, arg ++ argv.flatMap encodeName) :=
        word_eq_some.mpr ⟨by omega, by rw [List.flatMap_cons, encodeName, List.append_assoc]⟩
      rw [List.length_cons, copyArguments, hword]
      dsimp only
      rw [List.take_left, List.drop_left, ih hok]

end Arguments

section Decode

variable {s t : Files} {memory : Nat → Bool} {packet : Bytes} {argv : List Bytes}

/-- Nothing is open. -/
structure Idle (s : Files) : Prop where
  handles : ∀ fd : Fin fdCount, 3 ≤ fd.val → s.handles fd = none
  directories : s.openDirectories = 0

/-- With memory, and nothing open, everything that is decoded is mounted. -/
theorem mount_iff (hs : Idle s) (hmemory : ∀ k, memory k = true) {blob : Bytes}
    (hsize : blob.length ≤ intMax) :
    mount memory s blob = (.ok (), t) ↔ ∃ e, decodeFiles blob = some e ∧ t = mounted s e.files := by
  have hall : ∀ n, ¬ ((List.range n).any fun k ↦ !memory k) = true := fun n h ↦ by
    obtain ⟨k, -, hk⟩ := List.any_eq_true.mp h
    rw [hmemory] at hk
    nomatch hk
  unfold mount
  rw [if_neg (not_not.mpr hs.directories), if_neg fun ⟨fd, hfd, hne⟩ ↦ hne (hs.handles fd hfd)]
  split
  case h_1 hnone =>
    constructor
    · intro h
      nomatch h
    · rintro ⟨e, he, -⟩
      rw [hnone] at he
      nomatch he
  case h_2 e he =>
    have hfits : ¬ ∃ f ∈ e.files, f.data.length > intMax := by
      rintro ⟨f, hf, hlong⟩
      obtain ⟨roots, rfl, -, -⟩ := decodeFiles_eq_some.mp he
      have hle : f.data.length ≤ (e.files.flatMap encodeInput).length := by
        obtain ⟨before, after, hsplit⟩ := List.append_of_mem hf
        rw [hsplit, List.flatMap_append, List.flatMap_cons]
        simp only [encodeInput, List.length_append]
        omega
      simp only [encodeFiles, List.length_append] at hsize
      omega
    rw [if_neg hfits, if_neg (hall _)]
    constructor
    · intro h
      exact ⟨e, he, (congrArg Prod.snd h).symm⟩
    · rintro ⟨e', he', rfl⟩
      cases he.symm.trans he'
      rfl

/-- What is decoded after the magic and the two words. -/
def decodeBody (memory : Nat → Bool) (s : Files) (argc files : Nat) (rest : Bytes) :
    Outcome (List Bytes) :=
  let arguments := rest.take (rest.length - files)
  if validArguments argc true arguments = false then (.error .EINVAL, s)
  else if (List.range (argc + 1)).any fun k ↦ !memory k then (.error .ENOMEM, s)
  else
    let result := mount (fun k ↦ memory (argc + 1 + k)) s (rest.drop (rest.length - files))
    (result.1.map fun _ ↦ copyArguments argc arguments, result.2)

theorem jobDecode_header (argc files : Nat) (rest : Bytes) (hargc : argc < 2 ^ 32)
    (hfiles : files < 2 ^ 32) :
    jobDecode memory s (jobMagic ++ (ofWord argc ++ (ofWord files ++ rest))) =
      if rest.length + 16 > jobMax ∨ argc = 0 ∨ argc > 256 ∨ files > rest.length then
        (.error .EINVAL, s)
      else decodeBody memory s argc files rest := by
  have hlength : (jobMagic ++ (ofWord argc ++ (ofWord files ++ rest))).length =
      rest.length + 16 := by
    simp only [List.length_append, length_ofWord, jobMagic, List.length_cons, List.length_nil]
    omega
  have htake : (jobMagic ++ (ofWord argc ++ (ofWord files ++ rest))).take 8 = jobMagic :=
    List.take_left' rfl
  have hcount : word ((jobMagic ++ (ofWord argc ++ (ofWord files ++ rest))).drop 8) =
      some (argc, ofWord files ++ rest) := word_eq_some.mpr ⟨hargc, List.drop_left' rfl⟩
  have hsize : word ((jobMagic ++ (ofWord argc ++ (ofWord files ++ rest))).drop 12) =
      some (files, rest) := by
    rw [← List.append_assoc]
    exact word_eq_some.mpr ⟨hfiles, List.drop_left' rfl⟩
  unfold jobDecode
  rw [hlength, htake, hcount, hsize]
  dsimp only
  by_cases hlong : rest.length + 16 > jobMax
  · rw [if_pos (.inr (.inl hlong)), if_pos (.inl hlong)]
  · rw [if_neg (by rintro (h | h | h) <;> [omega; exact hlong h; exact h rfl])]
    by_cases hbad : argc = 0 ∨ argc > 256 ∨ files > rest.length
    · rw [if_pos (by rwa [Nat.add_sub_cancel]), if_pos (.inr hbad)]
    · rw [if_neg (by rwa [Nat.add_sub_cancel]), if_neg (not_or.mpr ⟨hlong, hbad⟩)]
      rfl

/-- An accepted packet has the magic and two words. -/
theorem header_of_jobDecode (h : (jobDecode memory s packet).1 = .ok argv) :
    ∃ argc files rest, argc < 2 ^ 32 ∧ files < 2 ^ 32 ∧
      packet = jobMagic ++ (ofWord argc ++ (ofWord files ++ rest)) := by
  unfold jobDecode at h
  split at h
  · nomatch h
  case isFalse hmagic =>
    simp only [not_or, not_not] at hmagic
    split at h
    case h_2 => nomatch h
    case h_1 argc r₁ files rest hcount hsize =>
      obtain ⟨hargc, hr₁⟩ := word_eq_some.mp hcount
      obtain ⟨hfiles, hrest⟩ := word_eq_some.mp hsize
      have hsplit : packet = jobMagic ++ packet.drop 8 := by
        rw [← hmagic.2.2, List.take_append_drop]
      have hr₁' : r₁ = ofWord files ++ rest := by
        rw [← hrest, show 12 = 8 + 4 from rfl, ← List.drop_drop, hr₁]
        exact (List.drop_left' (length_ofWord argc)).symm
      exact ⟨argc, files, rest, hargc, hfiles, by rw [hsplit, hr₁, hr₁']⟩

theorem decodeBody_ok (hs : Idle s) (hmemory : ∀ k, memory k = true) {argc files : Nat}
    {rest : Bytes} (hfiles : files ≤ rest.length) (hsize : rest.length ≤ intMax) :
    decodeBody memory s argc files rest = (.ok argv, t) ↔
      ∃ main roots inputs, rest = argv.flatMap encodeName ++ encodeFiles main roots inputs ∧
        files = (encodeFiles main roots inputs).length ∧ argv.length = argc ∧
          ArgumentsOk true argv ∧ FilesOk main roots inputs ∧ t = mounted s inputs := by
  have hall : ¬ ((List.range (argc + 1)).any fun k ↦ !memory k) = true := fun h ↦ by
    obtain ⟨k, -, hk⟩ := List.any_eq_true.mp h
    rw [hmemory] at hk
    nomatch hk
  have hdrop : (rest.drop (rest.length - files)).length = files := by
    rw [List.length_drop]
    omega
  unfold decodeBody
  dsimp only
  constructor
  · intro h
    split at h
    · nomatch h
    case isFalse hvalid =>
      obtain ⟨argv', hargc, htake, hok⟩ :=
        validArguments_iff.mp (Bool.of_not_eq_false hvalid)
      rw [htake, ← hargc, copyArguments_flatMap hok] at h
      obtain ⟨hresult, hstate⟩ := Prod.mk.inj h
      cases hmount : (mount (fun k ↦ memory (argv'.length + 1 + k)) s
          (rest.drop (rest.length - files))).1 with
      | error e =>
          rw [hmount] at hresult
          nomatch hresult
      | ok u =>
          rw [hmount] at hresult
          cases hresult
          obtain ⟨e, he, rfl⟩ := (mount_iff hs (fun k ↦ hmemory _)
            (by rw [hdrop]; omega)).mp (Prod.ext hmount hstate)
          obtain ⟨roots, hblob, hfilesOk, -⟩ := decodeFiles_eq_some.mp he
          refine ⟨e.main, roots, e.files, ?_, ?_, hargc, hok, hfilesOk, rfl⟩
          · rw [← htake, ← hblob, List.take_append_drop]
          · rw [← hblob, hdrop]
  · rintro ⟨main, roots, inputs, rfl, rfl, hargc, hok, hfilesOk, rfl⟩
    have hlength : (argv.flatMap encodeName ++ encodeFiles main roots inputs).length -
        (encodeFiles main roots inputs).length = (argv.flatMap encodeName).length := by
      rw [List.length_append]
      omega
    rw [hlength, List.take_left, List.drop_left,
      if_neg (Bool.not_eq_false _ ▸ validArguments_iff.mpr ⟨argv, hargc, rfl, hok⟩), if_neg hall]
    have hmount : mount (fun k ↦ memory (argc + 1 + k)) s (encodeFiles main roots inputs) =
        (.ok (), mounted s inputs) := by
      refine (mount_iff hs (fun k ↦ hmemory _) (by omega)).mpr
        ⟨⟨inputs, roots.foldl addRoot [], main⟩, ?_, rfl⟩
      exact decodeFiles_eq_some.mpr ⟨roots, rfl, hfilesOk, rfl⟩
    rw [hmount, ← hargc, copyArguments_flatMap hok]
    rfl

/-- With memory, and nothing open, exactly the well-formed packets are accepted. -/
theorem jobDecode_ok (hs : Idle s) (hmemory : ∀ k, memory k = true) :
    jobDecode memory s packet = (.ok argv, t) ↔
      ∃ p : Packet, p.WellFormed ∧ p.encode = packet ∧ p.argv = argv ∧ t = mounted s p.files := by
  constructor
  · intro h
    obtain ⟨argc, files, rest, hargc, hfiles, rfl⟩ :=
      header_of_jobDecode (congrArg Prod.fst h)
    rw [jobDecode_header argc files rest hargc hfiles] at h
    split at h
    · nomatch h
    case isFalse hgood =>
      simp only [not_or, Nat.not_lt] at hgood
      obtain ⟨hsize, hpos, hmany, hfit⟩ := hgood
      have hint : rest.length ≤ intMax := by
        unfold jobMax at hsize
        unfold intMax
        omega
      obtain ⟨main, roots, inputs, rfl, rfl, rfl, hok, hfilesOk, rfl⟩ :=
        (decodeBody_ok hs hmemory hfit hint).mp h
      refine ⟨⟨argv, main, roots, inputs⟩, ⟨hok, ⟨Nat.pos_of_ne_zero hpos, hmany⟩, hfilesOk, ?_⟩,
        rfl, rfl, rfl⟩
      simp only [Packet.encode, jobMagic, List.length_append, length_ofWord, List.length_cons,
        List.length_nil] at hsize ⊢
      omega
  · rintro ⟨p, hp, rfl, rfl, rfl⟩
    have hsize := hp.size
    have hcount := hp.count
    simp only [Packet.encode, jobMagic, List.length_append, length_ofWord, List.length_cons,
      List.length_nil] at hsize
    have hmax : jobMax = 16777216 := rfl
    have hintMax : intMax = 2147483647 := rfl
    have hlength : (p.argv.flatMap encodeName ++
        encodeFiles p.main p.roots p.files).length = (p.argv.flatMap encodeName).length +
          (encodeFiles p.main p.roots p.files).length := List.length_append
    rw [Packet.encode, jobDecode_header _ _ _ (by omega) (by omega), if_neg (by omega)]
    exact (decodeBody_ok hs hmemory (by omega) (by omega)).mpr
      ⟨p.main, p.roots, p.files, rfl, rfl, rfl, hp.arguments, hp.files, rfl⟩

end Decode

end CopySpace.Gcc
