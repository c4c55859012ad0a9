import CopySpace.Lib.Words

/-!
# Strings and their bytes

A string is encoded in UTF-8.  An ASCII character is a byte of its own and occurs in the encoding of
no other character, so that a string can be split there before or after it is encoded.
-/

namespace CopySpace.Utf8

variable {s t : String} {b : Bytes} {l : List Char} {c d : Char}

/-- The bytes of a string. -/
def encode (s : String) : Bytes := s.toByteArray.data.toList

/-- The string with the bytes. -/
def decode (b : Bytes) : Option String := String.fromUTF8? ⟨b.toArray⟩

/-- The bytes of some characters. -/
def encodeChars (l : List Char) : Bytes := l.flatMap String.utf8EncodeChar

theorem encode_eq (s : String) : encode s = encodeChars s.toList := by
  obtain ⟨l, rfl⟩ := s.exists_eq_ofList
  rw [encode, String.toByteArray_ofList, String.toList_ofList, List.utf8Encode]
  simp [encodeChars]

theorem encode_ofList (l : List Char) : encode (String.ofList l) = encodeChars l := by
  rw [encode_eq, String.toList_ofList]

theorem encode_injective : Function.Injective encode := fun s t h ↦ by
  refine String.toByteArray_inj.mp (ByteArray.ext ?_)
  exact Array.toList_inj.mp h

/-- What is decoded is what has been encoded. -/
theorem decode_eq_some : decode b = some s ↔ b = encode s := by
  unfold decode String.fromUTF8?
  constructor
  · intro h
    split at h
    case isTrue =>
      cases h
      rfl
    case isFalse => nomatch h
  · rintro rfl
    have hbytes : ByteArray.mk (encode s).toArray = s.toByteArray := ByteArray.ext rfl
    rw [dif_pos (hbytes ▸ s.isValidUTF8)]
    refine congrArg some (String.toByteArray_inj.mp ?_)
    exact hbytes

@[simp] theorem decode_encode (s : String) : decode (encode s) = some s := decode_eq_some.mpr rfl

theorem encodeChars_injective : Function.Injective encodeChars := fun l l' h ↦ by
  rw [← encode_ofList, ← encode_ofList] at h
  exact String.ofList_injective (encode_injective h)

/-! ## ASCII characters -/

theorem utf8EncodeChar_ascii (hc : c.toNat < 128) :
    String.utf8EncodeChar c = [UInt8.ofNat c.toNat] := by
  have hle : c.val.toNat ≤ 0x7f := Nat.le_of_lt_succ hc
  unfold String.utf8EncodeChar
  dsimp only
  rw [if_pos hle]
  rfl

/-- A byte below 128 stands for itself. -/
theorem eq_of_mem_utf8EncodeChar {x : UInt8} (hx : x ∈ String.utf8EncodeChar d)
    (hascii : x.toNat < 128) : d.toNat = x.toNat := by
  have hhigh : ∀ n k, 128 ≤ k → k + n < 256 → (UInt8.ofNat (n + k)).toNat ≠ x.toNat := by
    intro n k hk hn
    rw [UInt8.toNat_ofNat']
    omega
  unfold String.utf8EncodeChar at hx
  dsimp only at hx
  split at hx
  case isTrue h =>
    rw [List.mem_singleton.mp hx, UInt8.toNat_ofNat']
    change d.toNat ≤ 127 at h
    change _ = d.toNat % 2 ^ 8
    omega
  · exfalso
    split at hx
    · simp only [List.mem_cons, List.not_mem_nil, or_false] at hx
      rcases hx with h | h
      · exact hhigh _ _ (by omega) (by omega) (congrArg UInt8.toNat h.symm)
      · exact hhigh _ _ (by omega) (by omega) (congrArg UInt8.toNat h.symm)
    split at hx
    · simp only [List.mem_cons, List.not_mem_nil, or_false] at hx
      rcases hx with h | h | h
      · exact hhigh _ _ (by omega) (by omega) (congrArg UInt8.toNat h.symm)
      · exact hhigh _ _ (by omega) (by omega) (congrArg UInt8.toNat h.symm)
      · exact hhigh _ _ (by omega) (by omega) (congrArg UInt8.toNat h.symm)
    · simp only [List.mem_cons, List.not_mem_nil, or_false] at hx
      rcases hx with h | h | h | h
      · exact hhigh _ _ (by omega) (by omega) (congrArg UInt8.toNat h.symm)
      · exact hhigh _ _ (by omega) (by omega) (congrArg UInt8.toNat h.symm)
      · exact hhigh _ _ (by omega) (by omega) (congrArg UInt8.toNat h.symm)
      · exact hhigh _ _ (by omega) (by omega) (congrArg UInt8.toNat h.symm)

/-- Other characters are encoded without the byte of an ASCII character. -/
theorem notMem_utf8EncodeChar (hc : c.toNat < 128) (hne : d ≠ c) :
    UInt8.ofNat c.toNat ∉ String.utf8EncodeChar d := fun hmem ↦ by
  have hbyte : (UInt8.ofNat c.toNat).toNat = c.toNat := by
    rw [UInt8.toNat_ofNat']
    omega
  have heq := eq_of_mem_utf8EncodeChar hmem (by rwa [hbyte])
  exact hne (Char.toNat_inj.mp (heq.trans hbyte))

/-- A prefix without the separator goes to the first part. -/
theorem splitOn_append_of_notMem {α : Type} [DecidableEq α] {a : α} {u : List α} (v : List α)
    (hu : a ∉ u) : (u ++ v).splitOn a = (v.splitOn a).modifyHead (u ++ ·) := by
  induction u with
  | nil =>
      rw [List.nil_append]
      cases hv : v.splitOn a with
      | nil => exact absurd hv (List.splitOn_ne_nil a v)
      | cons part parts => rfl
  | cons x u ih =>
      obtain ⟨hx, hu⟩ := not_or.mp (fun h ↦ hu (List.mem_cons.mpr h))
      rw [List.cons_append, List.splitOn_cons_eq_if_modifyHead,
        if_neg (fun h ↦ hx (eq_of_beq h).symm), ih hu]
      cases hv : v.splitOn a with
      | nil => exact absurd hv (List.splitOn_ne_nil a v)
      | cons part parts => rfl

/-- A string can be split at an ASCII character before or after it is encoded. -/
theorem splitOn_encodeChars (hc : c.toNat < 128) (l : List Char) :
    (encodeChars l).splitOn (UInt8.ofNat c.toNat) = (l.splitOn c).map encodeChars := by
  induction l with
  | nil => rfl
  | cons d l ih =>
      change (String.utf8EncodeChar d ++ encodeChars l).splitOn _ = _
      rw [List.splitOn_cons_eq_if_modifyHead]
      by_cases hd : d = c
      · subst hd
        rw [utf8EncodeChar_ascii hc, List.singleton_append, List.splitOn_cons_eq_if_modifyHead,
          if_pos (beq_self_eq_true _), if_pos (beq_self_eq_true _), ih]
        rfl
      · rw [if_neg (fun h ↦ hd (eq_of_beq h)),
          splitOn_append_of_notMem _ (notMem_utf8EncodeChar hc hd), ih]
        cases hl : l.splitOn c with
        | nil => exact absurd hl (List.splitOn_ne_nil c l)
        | cons part parts => rfl

end CopySpace.Utf8
