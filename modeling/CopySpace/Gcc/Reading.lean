import CopySpace.Gcc.JobFormat

/-!
# `job.c`: reading a job

A job comes from a reader that gives some bytes of a stream at every call.  `jobRead` asks for the
header, then for each argument behind its length, then for the envelope, and decodes what it has
put together.  It reads the one packet at the front of the stream that is accepted, if there is
one, and no byte more.
-/

namespace CopySpace.Gcc

open Bytes Files

/-! ## The calls -/

/-- `struct cs_gcc_job`. -/
structure Job where
  argc : Nat
  argv : Option (List Bytes)
deriving DecidableEq

/-- What a call can change. -/
structure JobState where
  storage : Option Bytes
  job : Job
  files : Files

/-- The job is as it has been initialized. -/
def JobState.Initial (st : JobState) : Prop := st.job.argc = 0 ∧ st.job.argv = none

instance (st : JobState) : Decidable st.Initial := inferInstanceAs (Decidable (_ ∧ _))

/-- `cs_gcc_job_decode`. -/
def jobDecodeInto (memory : Nat → Bool) (st : JobState) (packet : Bytes) :
    Except Errno Unit × JobState :=
  if ¬ st.Initial then (.error .EINVAL, st)
  else match jobDecode memory st.files packet with
    | (.error e, files) => (.error e, { st with files := files })
    | (.ok argv, files) =>
        (.ok (), { st with job := ⟨argv.length, some argv⟩, files := files })

/-- `int (*reader)(void *, unsigned)`: the count, the bytes that it has written, and what it will
read from next. -/
abbrev Reader (σ : Type) := σ → Nat → Int × Bytes × σ

section Calls

variable {σ : Type}

/-- `read_exact`. -/
def readExact (reader : Reader σ) (s : σ) (size : Nat) : Except Errno Bytes × σ :=
  if size = 0 then (.ok [], s)
  else if _h : (reader s size).1 ≤ 0 ∨ (reader s size).1.toNat > size then
    (.error .EIOerr, (reader s size).2.2)
  else
    let rest := readExact reader (reader s size).2.2 (size - (reader s size).1.toNat)
    (rest.1.map ((reader s size).2.1 ++ ·), rest.2)
termination_by size
decreasing_by
  simp only [not_or, not_le] at _h
  omega

/-- What the buffer grows from: the reader, and the number of times that it has been allocated. -/
structure Source (σ : Type) where
  stream : σ
  allocated : Nat

/-- `append`. -/
def append (reader : Reader σ) (room : Nat → Bool) (packet : Bytes) (src : Source σ)
    (extra : Nat) : Except Errno Bytes × Source σ :=
  if extra > jobMax - packet.length then (.error .EFBIG, src)
  else if extra = 0 then (.ok packet, src)
  else if room src.allocated = false then (.error .ENOMEM, ⟨src.stream, src.allocated + 1⟩)
  else
    let result := readExact reader src.stream extra
    (result.1.map (packet ++ ·), ⟨result.2, src.allocated + 1⟩)

/-- The loop of `cs_gcc_job_read` over the arguments. -/
def readArguments (reader : Reader σ) (room : Nat → Bool) :
    Nat → Bytes → Source σ → Except Errno Bytes × Source σ
  | 0, packet, src => (.ok packet, src)
  | n + 1, packet, src => match append reader room packet src 4 with
    | (.error e, src) => (.error e, src)
    | (.ok packet, src) => match word (packet.drop (packet.length - 4)) with
      | none => (.error .EINVAL, src)
      | some (length, _) =>
          if length > 4096 then (.error .EINVAL, src)
          else match append reader room packet src length with
            | (.error e, src) => (.error e, src)
            | (.ok packet, src) => readArguments reader room n packet src

/-- What `cs_gcc_job_read` reads. -/
def readPacket (reader : Reader σ) (room : Nat → Bool) (s : σ) :
    Except Errno Bytes × Source σ :=
  match append reader room [] ⟨s, 0⟩ 16 with
  | (.error e, src) => (.error e, src)
  | (.ok packet, src) => match word (packet.drop 8), word (packet.drop 12) with
    | some (argc, _), some (files, _) =>
        if packet.take 8 ≠ jobMagic ∨ argc = 0 ∨ argc > 256 then (.error .EINVAL, src)
        else match readArguments reader room argc packet src with
          | (.error e, src) => (.error e, src)
          | (.ok packet, src) => append reader room packet src files
    | _, _ => (.error .EINVAL, src)

/-- `cs_gcc_job_read`: its buffer is allocated by `room`, the rest by `memory`. -/
def jobRead (reader : Reader σ) (room memory : Nat → Bool) (st : JobState) (s : σ) :
    Except Errno Unit × JobState × σ :=
  if st.storage ≠ none ∨ ¬ st.Initial then (.error .EINVAL, st, s)
  else match readPacket reader room s with
    | (.error e, src) => (.error e, st, src.stream)
    | (.ok packet, src) => match jobDecodeInto memory st packet with
      | (.error e, st) => (.error e, st, src.stream)
      | (.ok (), st) => (.ok (), { st with storage := some packet }, src.stream)

end Calls

/-! ## Failures -/

section Failures

variable {memory : Nat → Bool} {st : JobState} {s : Files} {packet : Bytes} {e : Errno}

/-- Nothing is mounted by a decoding that fails. -/
theorem jobDecode_error (h : (jobDecode memory s packet).1 = .error e) :
    (jobDecode memory s packet).2 = s := by
  unfold jobDecode at h ⊢
  split
  · rfl
  case isFalse hheader =>
    rw [if_neg hheader] at h
    split
    case h_2 => rfl
    case h_1 argc r₁ files rest hargc hfiles =>
      rw [hargc, hfiles] at h
      dsimp only at h ⊢
      split
      · rfl
      case isFalse hcounts =>
        rw [if_neg hcounts] at h
        split
        · rfl
        case isFalse hvalid =>
          rw [if_neg hvalid] at h
          split
          · rfl
          case isFalse hmemory =>
            rw [if_neg hmemory] at h
            rcases mount_eq (fun k ↦ memory (argc + 1 + k)) s
              (rest.drop (rest.length - files)) with ⟨envelope, -, -, -, hmount⟩ | ⟨e', hmount⟩
            · rw [hmount] at h
              nomatch h
            · rw [hmount]

/-- A decoding that fails changes nothing. -/
theorem jobDecodeInto_error (h : (jobDecodeInto memory st packet).1 = .error e) :
    (jobDecodeInto memory st packet).2 = st := by
  unfold jobDecodeInto at h ⊢
  split
  · rfl
  case isFalse hinitial =>
    rw [if_neg hinitial] at h
    cases hdecode : jobDecode memory st.files packet with
    | mk result files =>
        rw [hdecode] at h
        cases result with
        | ok argv => nomatch h
        | error e' =>
            have hfiles : files = st.files := by
              rw [← jobDecode_error (congrArg Prod.fst hdecode), hdecode]
            rw [hfiles]

/-- A reading that fails changes nothing. -/
theorem jobRead_error {σ : Type} {reader : Reader σ} {room : Nat → Bool} {r : σ}
    (h : (jobRead reader room memory st r).1 = .error e) :
    (jobRead reader room memory st r).2.1 = st := by
  unfold jobRead at h ⊢
  split
  · rfl
  case isFalse hstart =>
    rw [if_neg hstart] at h
    split
    · rfl
    case h_2 packet src hread =>
      rw [hread] at h
      dsimp only at h ⊢
      cases hdecode : jobDecodeInto memory st packet with
      | mk result st' =>
          rw [hdecode] at h
          cases result with
          | ok => nomatch h
          | error e' =>
              rw [← jobDecodeInto_error (congrArg Prod.fst hdecode), hdecode]

end Failures

/-! ## What is read -/

/-- The reader gives some bytes of the stream, not more than are asked for, until it ends. -/
structure Delivers {σ : Type} (reader : Reader σ) (stream : σ → Bytes) : Prop where
  bytes : ∀ s size, 0 < size → stream s ≠ [] → ∃ n : Nat, 0 < n ∧ n ≤ size ∧
    n ≤ (stream s).length ∧ (reader s size).1 = n ∧ (reader s size).2.1 = (stream s).take n ∧
      stream (reader s size).2.2 = (stream s).drop n
  short : ∀ s size, 0 < size → stream s = [] → (reader s size).1 ≤ 0

section Stream

variable {σ : Type} {reader : Reader σ} {stream : σ → Bytes} {room : Nat → Bool}
  {packet packet' data : Bytes} {src src' : Source σ} {extra n : Nat}

/-- What has been read stood at the front of the stream. -/
theorem readExact_ok (hreader : Delivers reader stream) {s s' : σ} {size : Nat}
    (h : readExact reader s size = (.ok data, s')) :
    stream s = data ++ stream s' ∧ data.length = size := by
  induction size using Nat.strong_induction_on generalizing s s' data with
  | _ size ih =>
      unfold readExact at h
      split at h
      case isTrue hzero =>
        cases h
        exact ⟨rfl, hzero.symm⟩
      case isFalse hzero =>
        split at h
        · nomatch h
        case isFalse hcount =>
          have hne : stream s ≠ [] := fun hs ↦
            hcount (.inl (hreader.short s size (Nat.pos_of_ne_zero hzero) hs))
          obtain ⟨n, hpos, hle, hstream, hn, hbytes, hnext⟩ :=
            hreader.bytes s size (Nat.pos_of_ne_zero hzero) hne
          rw [hn, Int.toNat_natCast, hbytes] at h
          obtain ⟨hresult, hs'⟩ := Prod.mk.inj h
          cases hrest : (readExact reader (reader s size).2.2 (size - n)).1 with
          | error e =>
              rw [hrest] at hresult
              nomatch hresult
          | ok rest =>
              rw [hrest] at hresult
              cases hresult
              obtain ⟨hafter, hlength⟩ := ih (size - n) (by omega) (Prod.ext hrest hs')
              constructor
              · rw [List.append_assoc, ← hafter, hnext, List.take_append_drop]
              · rw [List.length_append, hlength, List.length_take_of_le hstream]
                omega

/-- As many bytes as the stream has can be read. -/
theorem readExact_append (hreader : Delivers reader stream) {s : σ} {rest : Bytes}
    (h : stream s = data ++ rest) :
    ∃ s', readExact reader s data.length = (.ok data, s') ∧ stream s' = rest := by
  induction hsize : data.length using Nat.strong_induction_on generalizing s data with
  | _ size ih =>
      unfold readExact
      split
      case isTrue hzero =>
        rw [hzero, List.length_eq_zero_iff] at hsize
        exact ⟨s, by rw [hsize], by rw [h, hsize, List.nil_append]⟩
      case isFalse hzero =>
        have hne : stream s ≠ [] := fun hs ↦ by
          rw [h] at hs
          exact hzero (by rw [← hsize, (List.append_eq_nil_iff.mp hs).1, List.length_nil])
        obtain ⟨n, hpos, hle, hstream, hn, hbytes, hnext⟩ :=
          hreader.bytes s size (Nat.pos_of_ne_zero hzero) hne
        rw [h, List.take_append_of_le_length (by omega)] at hbytes
        rw [h, List.drop_append_of_le_length (by omega)] at hnext
        obtain ⟨s', hrest, hs'⟩ := ih (size - n) (by omega) hnext (by rw [List.length_drop, hsize])
        refine ⟨s', ?_, hs'⟩
        rw [dif_neg (by rw [hn]; omega), hn, Int.toNat_natCast, hrest, hbytes]
        change (Except.ok (data.take n ++ data.drop n), s') = _
        rw [List.take_append_drop]

/-- The buffer is longer by what has been read. -/
theorem append_ok (hreader : Delivers reader stream)
    (h : append reader room packet src extra = (.ok packet', src')) :
    ∃ data, packet' = packet ++ data ∧ stream src.stream = data ++ stream src'.stream ∧
      data.length = extra := by
  unfold append at h
  split at h
  · nomatch h
  split at h
  case isTrue hzero =>
    cases h
    exact ⟨[], (List.append_nil _).symm, rfl, hzero.symm⟩
  split at h
  · nomatch h
  obtain ⟨hresult, hsrc⟩ := Prod.mk.inj h
  cases hread : (readExact reader src.stream extra).1 with
  | error e =>
      rw [hread] at hresult
      nomatch hresult
  | ok data =>
      rw [hread] at hresult
      cases hresult
      subst hsrc
      exact ⟨data, rfl, readExact_ok hreader (Prod.ext hread rfl)⟩

/-- What fits into a job is appended. -/
theorem append_append (hreader : Delivers reader stream) (hroom : ∀ k, room k = true)
    (packet : Bytes) {rest : Bytes} (hsize : (packet ++ data).length ≤ jobMax)
    (h : stream src.stream = data ++ rest) :
    ∃ src', append reader room packet src data.length = (.ok (packet ++ data), src') ∧
      stream src'.stream = rest := by
  rw [List.length_append] at hsize
  unfold append
  rw [if_neg (by omega)]
  split
  case isTrue hzero =>
    rw [List.length_eq_zero_iff] at hzero
    exact ⟨src, by rw [hzero, List.append_nil], by rw [h, hzero, List.nil_append]⟩
  · rw [if_neg (by rw [hroom]; exact Bool.noConfusion)]
    obtain ⟨s', hread, hs'⟩ := readExact_append hreader h
    exact ⟨⟨s', src.allocated + 1⟩, by rw [hread]; rfl, hs'⟩

theorem readArguments_ok (hreader : Delivers reader stream)
    (h : readArguments reader room n packet src = (.ok packet', src')) :
    ∃ data, packet' = packet ++ data ∧ stream src.stream = data ++ stream src'.stream := by
  induction n generalizing packet src with
  | zero =>
      cases h
      exact ⟨[], (List.append_nil _).symm, rfl⟩
  | succ n ih =>
      unfold readArguments at h
      split at h
      · nomatch h
      case h_2 packet₁ src₁ hlength =>
        split at h
        · nomatch h
        split at h
        · nomatch h
        split at h
        · nomatch h
        case h_2 packet₂ src₂ hargument =>
          obtain ⟨data₁, rfl, hs₁, -⟩ := append_ok hreader hlength
          obtain ⟨data₂, rfl, hs₂, -⟩ := append_ok hreader hargument
          obtain ⟨data₃, rfl, hs₃⟩ := ih h
          exact ⟨data₁ ++ (data₂ ++ data₃), by simp only [List.append_assoc],
            by rw [hs₁, hs₂, hs₃]; simp only [List.append_assoc]⟩

/-- All arguments at the front of the stream are read. -/
theorem readArguments_append (hreader : Delivers reader stream) (hroom : ∀ k, room k = true)
    {argv : List Bytes} {rest : Bytes} (hargv : ∀ arg ∈ argv, arg.length ≤ 4096) (packet : Bytes)
    (hsize : (packet ++ argv.flatMap encodeName).length ≤ jobMax)
    (h : stream src.stream = argv.flatMap encodeName ++ rest) :
    ∃ src', readArguments reader room argv.length packet src =
      (.ok (packet ++ argv.flatMap encodeName), src') ∧ stream src'.stream = rest := by
  induction argv generalizing packet src with
  | nil => exact ⟨src, by rw [List.flatMap_nil, List.append_nil]; rfl, h⟩
  | cons arg argv ih =>
      obtain ⟨harg, hargv⟩ := List.forall_mem_cons.mp hargv
      have hflat : (arg :: argv).flatMap encodeName =
          ofWord arg.length ++ (arg ++ argv.flatMap encodeName) := by
        rw [List.flatMap_cons, encodeName, List.append_assoc]
      rw [hflat] at hsize h ⊢
      simp only [List.length_append] at hsize
      simp only [List.append_assoc] at h
      obtain ⟨src₁, hlength, hs₁⟩ := append_append hreader hroom packet
        (by rw [List.length_append]; omega) h
      obtain ⟨src₂, hargument, hs₂⟩ := append_append hreader hroom
        (packet ++ ofWord arg.length) (by simp only [List.length_append]; omega) hs₁
      obtain ⟨src₃, hrest, hs₃⟩ := ih hargv (packet ++ ofWord arg.length ++ arg)
        (by simp only [List.length_append]; omega) hs₂
      have hword : word ((packet ++ ofWord arg.length).drop
          ((packet ++ ofWord arg.length).length - 4)) = some (arg.length, []) := by
        rw [List.length_append, length_ofWord, Nat.add_sub_cancel, List.drop_left]
        exact word_eq_some.mpr ⟨by omega, (List.append_nil _).symm⟩
      refine ⟨src₃, ?_, hs₃⟩
      rw [length_ofWord] at hlength
      rw [List.length_cons, readArguments, hlength]
      dsimp only
      rw [hword]
      dsimp only
      rw [if_neg (Nat.not_lt.mpr harg), hargument]
      dsimp only
      rw [hrest]
      simp only [List.append_assoc]

end Stream

/-! ## The packet at the front of the stream -/

section Packets

variable {σ : Type} {reader : Reader σ} {stream : σ → Bytes} {room memory : Nat → Bool}
  {packet packet' : Bytes} {src : Source σ} {s : σ} {st st' : JobState}

/-- What the reader looks for: a header, arguments that are not too long, and as many bytes as the
header says. -/
structure Framed (packet : Bytes) : Prop where
  parts : ∃ (argv : List Bytes) (blob : Bytes), (argv ≠ [] ∧ argv.length ≤ 256) ∧
    (∀ arg ∈ argv, arg.length ≤ 4096) ∧ blob.length < 2 ^ 32 ∧
      packet = jobMagic ++ (ofWord argv.length ++ (ofWord blob.length ++
        (argv.flatMap encodeName ++ blob)))
  size : packet.length ≤ jobMax

/-- What is decoded has the right form, also where the allocations or the mount fail afterwards. -/
theorem framed_of_jobDecode {files : Files} {argv : List Bytes}
    (h : (jobDecode memory files packet).1 = .ok argv) : Framed packet := by
  obtain ⟨argc, size, rest, hargc, hsize, rfl⟩ := header_of_jobDecode h
  rw [jobDecode_header argc size rest hargc hsize] at h
  split at h
  · nomatch h
  case isFalse hgood =>
    simp only [not_or, Nat.not_lt] at hgood
    obtain ⟨hmax, hpos, hmany, hfit⟩ := hgood
    unfold decodeBody at h
    dsimp only at h
    split at h
    · nomatch h
    case isFalse hvalid =>
      obtain ⟨argv', rfl, htake, hok⟩ := validArguments_iff.mp (Bool.of_not_eq_false hvalid)
      have hblob : (rest.drop (rest.length - size)).length = size := by
        rw [List.length_drop]
        omega
      refine ⟨⟨argv', rest.drop (rest.length - size), ⟨?_, hmany⟩,
        fun arg harg ↦ (hok.arguments arg harg).1, by rwa [hblob], ?_⟩, ?_⟩
      · rintro rfl
        exact hpos rfl
      · rw [hblob, ← htake, List.take_append_drop]
      · simp only [List.length_append, length_ofWord, jobMagic, List.length_cons, List.length_nil]
        omega

/-- The packet at the front of the stream is read, and no byte more. -/
theorem readPacket_append (hreader : Delivers reader stream) (hroom : ∀ k, room k = true)
    {rest : Bytes} (hpacket : Framed packet) (h : stream s = packet ++ rest) :
    ∃ src, readPacket reader room s = (.ok packet, src) ∧ stream src.stream = rest := by
  obtain ⟨⟨argv, blob, ⟨hne, hmany⟩, hargv, hblob, rfl⟩, hsize⟩ := hpacket
  have hpos := List.length_pos_of_ne_nil hne
  have hheader : (jobMagic ++ (ofWord argv.length ++ ofWord blob.length)).length = 16 := rfl
  simp only [List.length_append, length_ofWord] at hsize
  have hmagic : jobMagic.length = 8 := rfl
  obtain ⟨src₁, hread₁, hs₁⟩ := @append_append _ _ _ _ _ ⟨s, 0⟩ hreader hroom []
    (argv.flatMap encodeName ++ (blob ++ rest))
    (by rw [List.nil_append, hheader]; exact Nat.le_of_ble_eq_true rfl)
    (by rw [h]; simp only [List.append_assoc])
  obtain ⟨src₂, hread₂, hs₂⟩ := readArguments_append hreader hroom hargv
    (jobMagic ++ (ofWord argv.length ++ ofWord blob.length))
    (by rw [List.length_append, hheader]; omega) hs₁
  obtain ⟨src₃, hread₃, hs₃⟩ := append_append hreader hroom
    (jobMagic ++ (ofWord argv.length ++ ofWord blob.length) ++ argv.flatMap encodeName)
    (by rw [List.length_append, List.length_append, hheader]; omega) hs₂
  refine ⟨src₃, ?_, hs₃⟩
  have hcount : word ((jobMagic ++ (ofWord argv.length ++ ofWord blob.length)).drop 8) =
      some (argv.length, ofWord blob.length) := word_eq_some.mpr ⟨by omega, rfl⟩
  have hfiles : word ((jobMagic ++ (ofWord argv.length ++ ofWord blob.length)).drop 12) =
      some (blob.length, []) := word_eq_some.mpr ⟨hblob, rfl⟩
  have hgood : ¬ ((jobMagic ++ (ofWord argv.length ++ ofWord blob.length)).take 8 ≠ jobMagic ∨
      argv.length = 0 ∨ argv.length > 256) := by
    rintro (hmagic | hzero | hlong)
    · exact hmagic (List.take_left' rfl)
    · omega
    · omega
  rw [hheader, List.nil_append] at hread₁
  unfold readPacket
  rw [hread₁]
  dsimp only
  rw [hcount, hfiles]
  dsimp only
  rw [if_neg hgood, hread₂]
  dsimp only
  rw [hread₃]
  simp only [List.append_assoc]

/-- What has been put together stood at the front of the stream. -/
theorem readPacket_ok (hreader : Delivers reader stream)
    (h : readPacket reader room s = (.ok packet, src)) :
    stream s = packet ++ stream src.stream := by
  unfold readPacket at h
  split at h
  · nomatch h
  case h_2 header src₁ hheader =>
    obtain ⟨data₁, rfl, hs₁, -⟩ := append_ok hreader hheader
    split at h
    case h_2 => nomatch h
    split at h
    · nomatch h
    split at h
    · nomatch h
    case h_2 arguments src₂ harguments =>
      obtain ⟨data₂, rfl, hs₂⟩ := readArguments_ok hreader harguments
      obtain ⟨data₃, rfl, hs₃, -⟩ := append_ok hreader h
      change stream s = header ++ stream src₁.stream at hs₁
      rw [hs₁, hs₂, hs₃]
      simp only [List.append_assoc]

theorem jobDecodeInto_ok (h : (jobDecodeInto memory st packet).1 = .ok ()) :
    st.Initial ∧ ∃ argv, jobDecode memory st.files packet =
        (.ok argv, (jobDecodeInto memory st packet).2.files) ∧
      (jobDecodeInto memory st packet).2.job = ⟨argv.length, some argv⟩ := by
  unfold jobDecodeInto at h ⊢
  split
  case isTrue hinitial =>
    rw [if_pos hinitial] at h
    nomatch h
  case isFalse hinitial =>
    rw [if_neg hinitial] at h
    refine ⟨not_not.mp hinitial, ?_⟩
    cases hdecode : jobDecode memory st.files packet with
    | mk result files =>
        rw [hdecode] at h
        cases result with
        | error e => nomatch h
        | ok argv => exact ⟨argv, rfl, rfl⟩

/-- A reader that gives one byte at a time. -/
def bytewise : Reader Bytes
  | [], _ => (0, [], [])
  | b :: bytes, _ => (1, [b], bytes)

theorem delivers_bytewise : Delivers bytewise id where
  bytes
    | [], _, _, hne => absurd rfl hne
    | b :: bytes, _, hpos, _ => ⟨1, Nat.one_pos, hpos, Nat.succ_pos _, rfl, rfl, rfl⟩
  short s _ _ hs := by
    cases hs
    exact le_rfl

/-- Not more than one packet at the front of a stream is accepted. -/
theorem accepted_unique {bytes : Bytes} {memory' : Nat → Bool} {t t' : Files}
    {argv argv' : List Bytes} (hpacket : packet <+: bytes) (hpacket' : packet' <+: bytes)
    (h : (jobDecode memory t packet).1 = .ok argv)
    (h' : (jobDecode memory' t' packet').1 = .ok argv') : packet = packet' := by
  -- a reader finds either of them
  obtain ⟨rest, rfl⟩ := hpacket
  obtain ⟨rest', hrest⟩ := hpacket'
  obtain ⟨src, hread, -⟩ := readPacket_append delivers_bytewise
    (fun _ ↦ rfl : ∀ k, (fun _ ↦ true : Nat → Bool) k = true) (framed_of_jobDecode h) (s := packet ++ rest) rfl
  obtain ⟨src', hread', -⟩ := readPacket_append delivers_bytewise
    (fun _ ↦ rfl : ∀ k, (fun _ ↦ true : Nat → Bool) k = true) (framed_of_jobDecode h') (s := packet ++ rest) hrest.symm
  rw [hread] at hread'
  exact Except.ok.inj (congrArg Prod.fst hread')

/-- A reading that succeeds has decoded what it has read. -/
theorem jobRead_ok (hreader : Delivers reader stream)
    (h : (jobRead reader room memory st s).1 = .ok ()) :
    st.storage = none ∧ ∃ packet, stream s = packet ++
        stream (jobRead reader room memory st s).2.2 ∧
      (jobDecodeInto memory st packet).1 = .ok () ∧
      (jobRead reader room memory st s).2.1 =
        { (jobDecodeInto memory st packet).2 with storage := some packet } := by
  unfold jobRead at h ⊢
  split
  case isTrue hstart =>
    rw [if_pos hstart] at h
    nomatch h
  case isFalse hstart =>
    rw [if_neg hstart] at h
    refine ⟨not_not.mp (not_or.mp hstart).1, ?_⟩
    split
    case h_1 e src hread =>
      rw [hread] at h
      nomatch h
    case h_2 packet src hread =>
      rw [hread] at h
      dsimp only at h
      refine ⟨packet, ?_⟩
      cases hdecode : jobDecodeInto memory st packet with
      | mk result st' =>
          rw [hdecode] at h
          cases result with
          | error e => nomatch h
          | ok => exact ⟨readPacket_ok hreader hread, rfl, rfl⟩

/-- An accepted packet at the front of the stream is read. -/
theorem jobRead_of_prefix (hreader : Delivers reader stream) (hroom : ∀ k, room k = true)
    (hstorage : st.storage = none) (hpacket : packet <+: stream s)
    (h : (jobDecodeInto memory st packet).1 = .ok ()) :
    (jobRead reader room memory st s).1 = .ok () := by
  obtain ⟨hinitial, argv, hdecode, -⟩ := jobDecodeInto_ok h
  obtain ⟨rest, hrest⟩ := hpacket
  obtain ⟨src, hread, -⟩ := readPacket_append hreader hroom
    (framed_of_jobDecode (congrArg Prod.fst hdecode)) hrest.symm
  unfold jobRead
  rw [if_neg (not_or.mpr ⟨not_not.mpr hstorage, not_not.mpr hinitial⟩), hread]
  dsimp only
  cases hresult : jobDecodeInto memory st packet with
  | mk result st' =>
      rw [hresult] at h
      cases h
      rfl

end Packets

/-! ## Reading and decoding -/

/-- Reading a job from a stream is decoding the one packet at its front that is accepted.  A
failure, of the reader, of an allocation or of the decoding, changes neither the job nor the
storage nor the files. -/
theorem job_reading {σ : Type} {reader : Reader σ} {stream : σ → Bytes}
    (hreader : Delivers reader stream) (room memory : Nat → Bool) (st : JobState) (s : σ) :
    (∀ packet packet', packet <+: stream s → packet' <+: stream s →
      (jobDecodeInto memory st packet).1 = .ok () → (jobDecodeInto memory st packet').1 = .ok () →
        packet = packet') ∧
    (st.storage = none → (∀ k, room k = true) →
      ((jobRead reader room memory st s).1 = .ok () ↔
        ∃ packet, packet <+: stream s ∧ (jobDecodeInto memory st packet).1 = .ok ())) ∧
    ((jobRead reader room memory st s).1 = .ok () →
      ∃ packet, stream s = packet ++ stream (jobRead reader room memory st s).2.2 ∧
        (jobDecodeInto memory st packet).1 = .ok () ∧
        (jobRead reader room memory st s).2.1 =
          { (jobDecodeInto memory st packet).2 with storage := some packet }) ∧
    (∀ e, (jobRead reader room memory st s).1 = .error e →
      (jobRead reader room memory st s).2.1 = st) ∧
    ∀ packet e, (jobDecodeInto memory st packet).1 = .error e →
      (jobDecodeInto memory st packet).2 = st := by
  refine ⟨fun packet packet' hpacket hpacket' h h' ↦ ?_, fun hstorage hroom ↦ ⟨fun h ↦ ?_, ?_⟩,
    fun h ↦ (jobRead_ok hreader h).2, fun e ↦ jobRead_error, fun packet e ↦ jobDecodeInto_error⟩
  · obtain ⟨-, argv, hdecode, -⟩ := jobDecodeInto_ok h
    obtain ⟨-, argv', hdecode', -⟩ := jobDecodeInto_ok h'
    exact accepted_unique hpacket hpacket' (congrArg Prod.fst hdecode) (congrArg Prod.fst hdecode')
  · obtain ⟨-, packet, hstream, hdecode, -⟩ := jobRead_ok hreader h
    exact ⟨packet, ⟨_, hstream.symm⟩, hdecode⟩
  · rintro ⟨packet, hpacket, h⟩
    exact jobRead_of_prefix hreader hroom hstorage hpacket h

/-- The sample packet is read from a stream that goes on behind it. -/
theorem job_reading_sample :
    (jobRead bytewise (fun _ ↦ true) (fun _ ↦ true) ⟨none, ⟨0, none⟩, .empty⟩
      (samplePacket ++ [7])).1 = .ok () := by
  obtain ⟨-, hiff, -⟩ := job_reading delivers_bytewise (fun _ ↦ true) (fun _ ↦ true)
    ⟨none, ⟨0, none⟩, .empty⟩ (samplePacket ++ [7])
  refine (hiff rfl fun _ ↦ rfl).mpr ⟨samplePacket, List.prefix_append _ _, ?_⟩
  obtain ⟨t, hdecode, -⟩ := jobDecode_of_unpackJob idle_empty (fun _ ↦ rfl)
    (unpackJob_packJob packJob_sample)
  unfold jobDecodeInto
  rw [if_neg (not_not.mpr ⟨rfl, rfl⟩), hdecode]

end CopySpace.Gcc
