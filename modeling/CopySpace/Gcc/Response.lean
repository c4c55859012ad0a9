import CopySpace.Gcc.Consistent

/-!
# `response.c`: the answer of a job

What the program writes to its descriptors 1 and 2 is captured in two buffers that share one limit.
The answer has the exit status, the two captured texts and a file, with their lengths in front.  It
goes to a writer that may take a part of what it is given.
-/

namespace CopySpace.Gcc

open Bytes Files

/-- `CAPTURE_LIMIT`. -/
def captureLimit : Nat := 16 * 1024 * 1024

/-- `"GCCOUT1"`, with its zero. -/
def responseMagic : Bytes := [71, 67, 67, 79, 85, 84, 49, 0]

/-! ## Captured streams -/

/-- `struct captured`: what has been written of a buffer with a capacity. -/
structure Captured where
  data : Bytes
  capacity : Nat

def Captured.size (c : Captured) : Nat := c.data.length

/-- `streams`. -/
structure Streams where
  out : Captured
  err : Captured

namespace Streams

/-- `cs_gcc_capture_reset`. -/
def reset : Streams := ⟨⟨[], 0⟩, ⟨[], 0⟩⟩

/-- The stream of the descriptor 1, or 2. -/
def stream (c : Streams) (fd : Int) : Captured := if fd = 1 then c.out else c.err

def setStream (c : Streams) (fd : Int) (stream : Captured) : Streams :=
  if fd = 1 then { c with out := stream } else { c with err := stream }

end Streams

/-- The loop that doubles a capacity.  As it is never zero, as many steps as there are required
bytes are enough. -/
def grown : Nat → Nat → Nat → Nat
  | 0, _, capacity => capacity
  | fuel + 1, required, capacity =>
      if capacity < required then grown fuel required (capacity * 2) else capacity

/-- A call of `cs_gcc_capture_write`. -/
structure Write where
  /-- `realloc` gets memory. -/
  memory : Bool
  fd : Int
  null : Bool
  data : Bytes

/-- `cs_gcc_capture_write`. -/
def captureWrite (c : Streams) (w : Write) : Except Errno Nat × Streams :=
  if w.fd ≠ 1 ∧ w.fd ≠ 2 then (.error .EBADF, c)
  else if w.data ≠ [] ∧ w.null then (.error .EFAULT, c)
  else
    let total := c.out.size + c.err.size
    if w.data.length > captureLimit - total then (.error .EFBIG, c)
    else
      let stream := c.stream w.fd
      let required := stream.size + w.data.length
      if required > stream.capacity then
        let capacity := grown required required (if stream.capacity ≠ 0 then stream.capacity else 256)
        if w.memory then
          (.ok w.data.length, c.setStream w.fd ⟨stream.data ++ w.data, capacity⟩)
        else (.error .ENOMEM, c)
      else (.ok w.data.length, c.setStream w.fd ⟨stream.data ++ w.data, stream.capacity⟩)

/-- The streams after some writes. -/
def captureRun (c : Streams) (writes : List Write) : Streams :=
  writes.foldl (fun c w ↦ (captureWrite c w).2) c

/-! ## The answer -/

section Send

variable {σ : Type}

/-- The loop of `send`, and what the writer takes.  It takes a byte at least, so as many steps as
there are bytes are enough. -/
def sendLoop (writer : σ → Bytes → Int × σ) : Nat → Bytes → σ → Except Errno Unit × Bytes × σ
  | 0, data, w => (if data = [] then .ok () else .error .EIOerr, [], w)
  | fuel + 1, data, w =>
      if data = [] then (.ok (), [], w)
      else
        let (count, w) := writer w data
        if count ≤ 0 ∨ count.toNat > data.length then (.error .EIOerr, [], w)
        else
          let (result, sent, w) := sendLoop writer fuel (data.drop count.toNat) w
          (result, data.take count.toNat ++ sent, w)

/-- `send`. -/
def send (writer : σ → Bytes → Int × σ) (data : Bytes) (w : σ) : Except Errno Unit × Bytes × σ :=
  sendLoop writer data.length data w

/-- The parts are sent until one fails. -/
def sendAll (writer : σ → Bytes → Int × σ) : List Bytes → σ → Except Errno Unit × Bytes × σ
  | [], w => (.ok (), [], w)
  | data :: parts, w => match send writer data w with
    | (.error e, sent, w) => (.error e, sent, w)
    | (.ok (), sent, w) =>
        let (result, later, w) := sendAll writer parts w
        (result, sent ++ later, w)

/-- The file that is sent. -/
def responseFile (s : Files) (status : Int32) (outputName : Option Bytes) : Except Errno Bytes :=
  match outputName with
  | none => .ok []
  | some name => if status = 0 then outputFile s (some name) else .ok []

/-- `cs_gcc_response`: the result, what has been sent, and the writer. -/
def response (s : Files) (c : Streams) (status : Int32) (outputName : Option Bytes)
    (writer : σ → Bytes → Int × σ) (w : σ) : Except Errno Unit × Bytes × σ :=
  match responseFile s status outputName with
  | .error e => (.error e, [], w)
  | .ok file =>
      let header := responseMagic ++ (ofWord status.toUInt32.toNat ++ (ofWord c.out.size ++
        (ofWord c.err.size ++ ofWord file.length)))
      sendAll writer [header, c.out.data, c.err.data, file] w

end Send

/-- `struct cs_gcc_result`. -/
structure Result where
  status : Nat
  out : Bytes
  err : Bytes
  file : Bytes
deriving DecidableEq

/-- `read_word` of the bytes at the front. -/
def readWord (data : Bytes) : Nat := ((word data).map Prod.fst).getD 0

/-- `cs_gcc_response_decode`. -/
def responseDecode (packet : Bytes) : Option Result :=
  if packet.length < 24 then none
  else if packet.take 8 ≠ responseMagic then none
  else
    let status := readWord (packet.drop 8)
    let outSize := readWord (packet.drop 12)
    let errSize := readWord (packet.drop 16)
    let fileSize := readWord (packet.drop 20)
    let left := packet.length - 24
    if outSize > left ∨ outSize > captureLimit then none
    else
      let left := left - outSize
      if errSize > left ∨ errSize > captureLimit - outSize then none
      else
        let left := left - errSize
        if fileSize ≠ left ∨ (status ≠ 0 ∧ fileSize ≠ 0) then none
        else
          let data := packet.drop 24
          some ⟨status, data.take outSize, (data.drop outSize).take errSize,
            ((data.drop outSize).drop errSize).take fileSize⟩

/-! ## What is captured -/

section Capture

variable {c : Streams} {w : Write} {writes : List Write}

/-- A write that is accepted. -/
def Accepts (c : Streams) (w : Write) : Prop := (captureWrite c w).1 = .ok w.data.length

instance (c : Streams) (w : Write) : Decidable (Accepts c w) :=
  decidable_of_iff (∃ n, (captureWrite c w).1.toOption = some n ∧ n = w.data.length) (by
    unfold Accepts
    cases (captureWrite c w).1 with
    | error e => simp [Except.toOption]
    | ok n => simp [Except.toOption])

/-- The bytes of the accepted writes to a descriptor, in their order. -/
def accepted (fd : Int) : Streams → List Write → Bytes
  | _, [] => []
  | c, w :: writes =>
      (if w.fd = fd ∧ Accepts c w then w.data else []) ++ accepted fd (captureWrite c w).2 writes

/-- Both streams keep the limit, and their buffers have room. -/
structure Limited (c : Streams) : Prop where
  total : c.out.size + c.err.size ≤ captureLimit
  out : c.out.size ≤ c.out.capacity
  err : c.err.size ≤ c.err.capacity

theorem limited_reset : Limited .reset := ⟨Nat.zero_le _, le_rfl, le_rfl⟩

/-- The capacity is doubled until it is enough. -/
theorem grown_enough {fuel required capacity : Nat} (hpos : 0 < capacity)
    (hfuel : required ≤ capacity + fuel) : required ≤ grown fuel required capacity := by
  induction fuel generalizing capacity with
  | zero => exact hfuel
  | succ fuel ih =>
      unfold grown
      split
      · exact ih (by omega) (by omega)
      · omega

/-- A write is refused and changes nothing, or its bytes are appended to the stream of its
descriptor. -/
theorem captureWrite_cases (c : Streams) (w : Write) :
    (∃ e, captureWrite c w = (.error e, c)) ∨
      ∃ capacity, (w.fd = 1 ∨ w.fd = 2) ∧ c.out.size + c.err.size + w.data.length ≤
          max captureLimit (c.out.size + c.err.size) ∧
        ((c.stream w.fd).size ≤ (c.stream w.fd).capacity →
          (c.stream w.fd).size + w.data.length ≤ capacity) ∧
        captureWrite c w = (.ok w.data.length,
          c.setStream w.fd ⟨(c.stream w.fd).data ++ w.data, capacity⟩) := by
  unfold captureWrite
  split
  · exact .inl ⟨_, rfl⟩
  case isFalse hfd =>
    split
    · exact .inl ⟨_, rfl⟩
    dsimp only
    split
    · exact .inl ⟨_, rfl⟩
    case isFalse hsize =>
      have hdescriptor : w.fd = 1 ∨ w.fd = 2 := by omega
      have htotal : c.out.size + c.err.size + w.data.length ≤
          max captureLimit (c.out.size + c.err.size) := by omega
      split
      case isTrue hgrow =>
        split
        · refine .inr ⟨_, hdescriptor, htotal, fun _ ↦ ?_, rfl⟩
          refine grown_enough ?_ (by omega)
          split <;> omega
        · exact .inl ⟨_, rfl⟩
      case isFalse hroom =>
        exact .inr ⟨_, hdescriptor, htotal, fun _ ↦ Nat.not_lt.mp hroom, rfl⟩

/-- A refused write changes neither stream. -/
theorem captureWrite_error {e : Errno} (h : (captureWrite c w).1 = .error e) :
    (captureWrite c w).2 = c := by
  rcases captureWrite_cases c w with ⟨e', heq⟩ | ⟨capacity, -, -, -, heq⟩
  · rw [heq]
  · rw [heq] at h
    nomatch h

theorem Limited.write (h : Limited c) (w : Write) : Limited (captureWrite c w).2 := by
  rcases captureWrite_cases c w with ⟨e, heq⟩ | ⟨capacity, hfd, htotal, hroom, heq⟩
  · rw [heq]
    exact h
  · rw [heq, max_eq_left h.total] at *
    have hout := h.out
    have herr := h.err
    rcases hfd with hfd | hfd
    · simp only [hfd, Streams.stream, Streams.setStream, if_pos] at hroom ⊢
      refine ⟨?_, ?_, herr⟩
      · simp only [Captured.size, List.length_append] at htotal ⊢
        omega
      · simp only [Captured.size, List.length_append] at hroom hout ⊢
        exact hroom hout
    · simp only [hfd, Streams.stream, Streams.setStream] at hroom ⊢
      refine ⟨?_, hout, ?_⟩
      · simp only [Captured.size] at htotal ⊢
        change c.out.data.length + (c.err.data ++ w.data).length ≤ _
        rw [List.length_append]
        omega
      · simp only [Captured.size] at hroom herr ⊢
        change (c.err.data ++ w.data).length ≤ _
        rw [List.length_append]
        exact hroom herr

theorem Limited.run (h : Limited c) (writes : List Write) : Limited (captureRun c writes) := by
  induction writes generalizing c with
  | nil => exact h
  | cons w writes ih => exact ih (h.write w)

/-- One write appends what it accepts. -/
theorem stream_captureWrite {fd : Int} (hfd : fd = 1 ∨ fd = 2) (c : Streams) (w : Write) :
    ((captureWrite c w).2.stream fd).data =
      (c.stream fd).data ++ if w.fd = fd ∧ Accepts c w then w.data else [] := by
  rcases captureWrite_cases c w with ⟨e, heq⟩ | ⟨capacity, hw, -, -, heq⟩
  · have hrefused : ¬ (w.fd = fd ∧ Accepts c w) := fun h ↦ by
      have haccepts := h.2
      unfold Accepts at haccepts
      rw [heq] at haccepts
      nomatch haccepts
    rw [if_neg hrefused, heq, List.append_nil]
  · have haccepts : Accepts c w := by
      unfold Accepts
      rw [heq]
    rw [heq]
    rcases hfd with rfl | rfl <;> rcases hw with hw | hw <;>
      simp [hw, haccepts, Streams.stream, Streams.setStream]

/-- The streams hold the accepted writes, one behind the other. -/
theorem stream_captureRun {fd : Int} (hfd : fd = 1 ∨ fd = 2) (c : Streams) (writes : List Write) :
    ((captureRun c writes).stream fd).data = (c.stream fd).data ++ accepted fd c writes := by
  induction writes generalizing c with
  | nil => exact (List.append_nil _).symm
  | cons w writes ih =>
      change ((captureRun (captureWrite c w).2 writes).stream fd).data = _
      rw [ih, stream_captureWrite hfd, List.append_assoc]
      rfl

end Capture

/-! ## What is sent -/

section Sent

variable {σ : Type} {writer : σ → Bytes → Int × σ}

/-- The writer takes some of what it is given. -/
def Accepting (writer : σ → Bytes → Int × σ) : Prop :=
  ∀ w data, data ≠ [] → 0 < (writer w data).1 ∧ (writer w data).1 ≤ data.length

/-- Everything is sent. -/
theorem sendLoop_ok (h : Accepting writer) {fuel : Nat} {data : Bytes} (hfuel : data.length ≤ fuel)
    (w : σ) : ∃ w', sendLoop writer fuel data w = (.ok (), data, w') := by
  induction fuel generalizing data w with
  | zero =>
      obtain rfl := List.length_eq_zero_iff.mp (Nat.le_zero.mp hfuel)
      exact ⟨w, rfl⟩
  | succ fuel ih =>
      unfold sendLoop
      by_cases hdata : data = []
      · subst hdata
        exact ⟨w, rfl⟩
      · obtain ⟨hpos, hle⟩ := h w data hdata
        rw [if_neg hdata]
        dsimp only
        rw [if_neg (by omega)]
        have hrest : (data.drop (writer w data).1.toNat).length ≤ fuel := by
          rw [List.length_drop]
          omega
        obtain ⟨w', hw'⟩ := ih hrest (writer w data).2
        rw [hw']
        exact ⟨w', by rw [List.take_append_drop]⟩

theorem sendAll_ok (h : Accepting writer) (parts : List Bytes) (w : σ) :
    ∃ w', sendAll writer parts w = (.ok (), parts.flatten, w') := by
  induction parts generalizing w with
  | nil => exact ⟨w, rfl⟩
  | cons data parts ih =>
      obtain ⟨w₁, h₁⟩ := sendLoop_ok h (le_refl data.length) w
      obtain ⟨w₂, h₂⟩ := ih w₁
      refine ⟨w₂, ?_⟩
      unfold sendAll send
      rw [h₁]
      dsimp only
      rw [h₂]
      rfl

end Sent

/-! ## What is decoded -/

section Decoded

variable {packet : Bytes} {r : Result}

/-- The answer with a result. -/
def Result.encode (r : Result) : Bytes :=
  responseMagic ++ (ofWord r.status ++ (ofWord r.out.length ++ (ofWord r.err.length ++
    (ofWord r.file.length ++ (r.out ++ (r.err ++ r.file))))))

/-- The lengths keep the limits, and there is a file for the status zero only. -/
structure Result.Ok (r : Result) : Prop where
  status_lt : r.status < 2 ^ 32
  captured : r.out.length + r.err.length ≤ captureLimit
  file_lt : r.file.length < 2 ^ 32
  file : r.status ≠ 0 → r.file = []

theorem readWord_ofWord {n : Nat} {rest : Bytes} (hn : n < 2 ^ 32) :
    readWord (ofWord n ++ rest) = n := by
  unfold readWord
  rw [word_eq_some.mpr ⟨hn, rfl⟩]
  rfl

/-- Exactly the packets are accepted whose lengths add up to their size, within the limit, and
without a file where the status is not zero. -/
theorem responseDecode_isSome : (∃ r, responseDecode packet = some r) ↔
    24 ≤ packet.length ∧ packet.take 8 = responseMagic ∧
      24 + readWord (packet.drop 12) + readWord (packet.drop 16) + readWord (packet.drop 20) =
        packet.length ∧
      readWord (packet.drop 12) + readWord (packet.drop 16) ≤ captureLimit ∧
      (readWord (packet.drop 8) ≠ 0 → readWord (packet.drop 20) = 0) := by
  unfold responseDecode
  dsimp only
  constructor
  · rintro ⟨r, h⟩
    split at h
    · nomatch h
    split at h
    · nomatch h
    case isFalse hmagic =>
      split at h
      · nomatch h
      split at h
      · nomatch h
      split at h
      · nomatch h
      · exact ⟨by omega, not_not.mp hmagic, by omega, by omega, by omega⟩
  · rintro ⟨hlength, hmagic, hsum, hlimit, hfile⟩
    rw [if_neg (by omega), if_neg (not_not.mpr hmagic), if_neg (by omega), if_neg (by omega),
      if_neg (by omega)]
    exact ⟨_, rfl⟩

/-- What is sent is decoded. -/
theorem responseDecode_encode (h : r.Ok) : responseDecode r.encode = some r := by
  have hcaptured := h.captured
  have hlimit : captureLimit = 16777216 := rfl
  have hlength : r.encode.length = 24 + r.out.length + r.err.length + r.file.length := by
    simp only [Result.encode, responseMagic, List.length_append, length_ofWord, List.length_cons,
      List.length_nil]
    omega
  have h8 : r.encode.drop 8 = ofWord r.status ++ (ofWord r.out.length ++ (ofWord r.err.length ++
      (ofWord r.file.length ++ (r.out ++ (r.err ++ r.file))))) := List.drop_left' rfl
  have h12 : r.encode.drop 12 = ofWord r.out.length ++ (ofWord r.err.length ++
      (ofWord r.file.length ++ (r.out ++ (r.err ++ r.file)))) := by
    rw [show 12 = 8 + 4 from rfl, ← List.drop_drop, h8, List.drop_left' (length_ofWord _)]
  have h16 : r.encode.drop 16 = ofWord r.err.length ++ (ofWord r.file.length ++
      (r.out ++ (r.err ++ r.file))) := by
    rw [show 16 = 12 + 4 from rfl, ← List.drop_drop, h12, List.drop_left' (length_ofWord _)]
  have h20 : r.encode.drop 20 = ofWord r.file.length ++ (r.out ++ (r.err ++ r.file)) := by
    rw [show 20 = 16 + 4 from rfl, ← List.drop_drop, h16, List.drop_left' (length_ofWord _)]
  have h24 : r.encode.drop 24 = r.out ++ (r.err ++ r.file) := by
    rw [show 24 = 20 + 4 from rfl, ← List.drop_drop, h20, List.drop_left' (length_ofWord _)]
  have hfile : r.status ≠ 0 → r.file.length = 0 := fun hs ↦ by rw [h.file hs]; rfl
  have htake : r.encode.take 8 = responseMagic := List.take_left' rfl
  unfold responseDecode
  dsimp only
  rw [h8, h12, h16, h20, h24, readWord_ofWord h.status_lt, readWord_ofWord (by omega),
    readWord_ofWord (by omega), readWord_ofWord h.file_lt, hlength, if_neg (by omega),
    if_neg (not_not.mpr htake), if_neg (by omega), if_neg (by omega), if_neg (by omega),
    List.take_left, List.drop_left, List.take_left, List.drop_left, List.take_length]

end Decoded

section RoundTrip

variable {σ : Type} {writer : σ → Bytes → Int × σ} {s : Files} {c : Streams} {status : Int32}
  {name : Option Bytes} {file : Bytes} {w : σ}

/-- The answer is sent and decodes to the result. -/
def Answers (s : Files) (c : Streams) (status : Int32) (name : Option Bytes)
    (writer : σ → Bytes → Int × σ) (w : σ) (r : Result) : Prop :=
  ∃ sent w', response s c status name writer w = (.ok (), sent, w') ∧ responseDecode sent = some r

/-- A file that is sent is not too long. -/
theorem responseFile_length (hs : Consistent s) (h : responseFile s status name = .ok file) :
    file.length ≤ intMax := by
  unfold responseFile at h
  split at h
  · cases h
    exact Nat.zero_le _
  split at h
  case isFalse =>
    cases h
    exact Nat.zero_le _
  case isTrue =>
    unfold outputFile at h
    split at h
    · nomatch h
    split at h
    · nomatch h
    case h_2 i _ =>
      cases h
      refine (List.length_take_le _ _).trans ?_
      exact (hs.size_le i).trans (hs.capacity_le i)

theorem responseFile_of_status (h : responseFile s status name = .ok file) (hstatus : status ≠ 0) :
    file = [] := by
  unfold responseFile at h
  split at h
  · cases h
    rfl
  · rw [if_neg hstatus] at h
    cases h
    rfl

/-- What is answered has the status, the streams and the file. -/
theorem answers_of_responseFile (hwriter : Accepting writer) (hs : Consistent s) (hc : Limited c)
    (h : responseFile s status name = .ok file) :
    Answers s c status name writer w ⟨status.toUInt32.toNat, c.out.data, c.err.data, file⟩ := by
  have hlength := responseFile_length hs h
  have hintMax : intMax = 2147483647 := rfl
  obtain ⟨w', hw'⟩ := sendAll_ok hwriter [responseMagic ++ (ofWord status.toUInt32.toNat ++
    (ofWord c.out.size ++ (ofWord c.err.size ++ ofWord file.length))), c.out.data, c.err.data,
      file] w
  refine ⟨Result.encode ⟨status.toUInt32.toNat, c.out.data, c.err.data, file⟩, w', ?_, ?_⟩
  · unfold response
    rw [h]
    dsimp only
    rw [hw']
    simp only [Result.encode, Captured.size, List.flatten_cons, List.flatten_nil, List.append_nil,
      List.append_assoc]
  · have hlt : file.length < 2 ^ 32 := by omega
    refine responseDecode_encode ⟨status.toUInt32.toNat_lt, hc.total, hlt, fun hne ↦ ?_⟩
    refine responseFile_of_status h fun hzero ↦ hne ?_
    rw [hzero]
    rfl

end RoundTrip

/-- The answer decodes to the status, to the accepted writes of each descriptor and to the file.
A refused write changes nothing, and exactly the packets are decoded whose lengths add up. -/
theorem response_round_trip {σ : Type} (writer : σ → Bytes → Int × σ) (hwriter : Accepting writer)
    (calls : List Call) (writes : List Write) (status : Int32) (name : Option Bytes) (w : σ) :
    let s := run .empty calls
    let c := captureRun .reset writes
    (∀ path file, status = 0 → name = some path → outputFile s (some path) = .ok file →
      Answers s c status name writer w ⟨status.toUInt32.toNat, accepted 1 .reset writes,
        accepted 2 .reset writes, file⟩) ∧
    (status ≠ 0 ∨ name = none →
      Answers s c status name writer w ⟨status.toUInt32.toNat, accepted 1 .reset writes,
        accepted 2 .reset writes, []⟩) ∧
    (∀ write e, (captureWrite c write).1 = .error e → (captureWrite c write).2 = c) ∧
    ∀ packet, (∃ r, responseDecode packet = some r) ↔
      24 ≤ packet.length ∧ packet.take 8 = responseMagic ∧
        24 + readWord (packet.drop 12) + readWord (packet.drop 16) + readWord (packet.drop 20) =
          packet.length ∧
        readWord (packet.drop 12) + readWord (packet.drop 16) ≤ captureLimit ∧
        (readWord (packet.drop 8) ≠ 0 → readWord (packet.drop 20) = 0) := by
  dsimp only
  have hs : Consistent (run .empty calls) := consistent_empty.run calls
  have hc : Limited (captureRun .reset writes) := limited_reset.run writes
  have hout : (captureRun .reset writes).out.data = accepted 1 .reset writes :=
    stream_captureRun (.inl rfl) .reset writes
  have herr : (captureRun .reset writes).err.data = accepted 2 .reset writes :=
    stream_captureRun (.inr rfl) .reset writes
  refine ⟨fun path file hstatus hname hfile ↦ ?_, fun hnone ↦ ?_,
    fun write e h ↦ captureWrite_error h, fun packet ↦ responseDecode_isSome⟩
  · rw [← hout, ← herr]
    refine answers_of_responseFile hwriter hs hc ?_
    rw [hname, responseFile, if_pos hstatus, hfile]
  · rw [← hout, ← herr]
    refine answers_of_responseFile hwriter hs hc ?_
    unfold responseFile
    split
    · rfl
    · rcases hnone with hne | hnil
      · rw [if_neg hne]
      · nomatch hnil

/-- A writer that takes three bytes at most. -/
def threeBytes (_ : Unit) (data : Bytes) : Int × Unit := (min 3 data.length, ())

theorem accepting_threeBytes : Accepting threeBytes := fun _ data h ↦ by
  have hpos := List.length_pos_iff.mpr h
  unfold threeBytes
  dsimp only
  omega

/-- The descriptors in turn, and a null pointer. -/
def sampleWrites : List Write :=
  [⟨true, 1, false, [97, 98]⟩, ⟨true, 2, false, [99]⟩, ⟨true, 1, true, [100]⟩, ⟨true, 1, false, [101]⟩]

theorem response_round_trip_threeBytes :
    accepted 1 .reset sampleWrites = [97, 98, 101] ∧ accepted 2 .reset sampleWrites = [99] ∧
      Answers (run .empty []) (captureRun .reset sampleWrites) 1 none threeBytes ()
        ⟨(1 : Int32).toUInt32.toNat, accepted 1 .reset sampleWrites,
          accepted 2 .reset sampleWrites, []⟩ :=
  ⟨by decide, by decide,
    (response_round_trip threeBytes accepting_threeBytes [] sampleWrites 1 none ()).2.1 (.inr rfl)⟩

end CopySpace.Gcc
