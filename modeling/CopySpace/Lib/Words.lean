import Mathlib.Algebra.Group.Nat.Defs
import Mathlib.Data.List.Basic

/-!
# Bytes and little-endian words

Packets are lists of bytes.  A reader takes a value off the front of a list and returns the rest;
`word_eq_some` and `takeBytes_eq_some` say that such a reader has found exactly what the writer
would have put there.
-/

namespace CopySpace

/-- The bytes of a buffer, or a C string. -/
abbrev Bytes := List UInt8

namespace Bytes

variable {n length : Nat} {data rest chunk : Bytes}

/-- The four bytes of a word, the lowest first. -/
def ofWord (n : Nat) : Bytes :=
  [UInt8.ofNat n, UInt8.ofNat (n / 2 ^ 8), UInt8.ofNat (n / 2 ^ 16), UInt8.ofNat (n / 2 ^ 24)]

/-- The word at the front of a list. -/
def word : Bytes → Option (Nat × Bytes)
  | a :: b :: c :: d :: rest =>
      some (a.toNat + 2 ^ 8 * b.toNat + 2 ^ 16 * c.toNat + 2 ^ 24 * d.toNat, rest)
  | _ => none

/-- The next bytes of a list, if there are as many. -/
def takeBytes (n : Nat) (data : Bytes) : Option (Bytes × Bytes) :=
  if n > data.length then none else some (data.take n, data.drop n)

@[simp] theorem length_ofWord (n : Nat) : (ofWord n).length = 4 := rfl

/-- What is written is read. -/
theorem word_ofWord (n : Nat) (rest : Bytes) :
    word (ofWord n ++ rest) = some (n % 2 ^ 32, rest) := by
  refine congrArg (fun k ↦ some (k, rest)) ?_
  simp only [UInt8.toNat_ofNat']
  omega

theorem ofNat_eq {a : UInt8} (h : n % 2 ^ 8 = a.toNat) : UInt8.ofNat n = a :=
  UInt8.toNat_inj.mp (UInt8.toNat_ofNat'.trans h)

/-- The bytes are determined by the word that is read from them. -/
theorem ofWord_of_bytes (a b c d : UInt8) :
    ofWord (a.toNat + 2 ^ 8 * b.toNat + 2 ^ 16 * c.toNat + 2 ^ 24 * d.toNat) = [a, b, c, d] := by
  have ha := a.toNat_lt
  have hb := b.toNat_lt
  have hc := c.toNat_lt
  have hd := d.toNat_lt
  rw [ofWord, ofNat_eq (a := a) (by omega), ofNat_eq (a := b) (by omega),
    ofNat_eq (a := c) (by omega), ofNat_eq (a := d) (by omega)]

theorem word_eq_some : word data = some (n, rest) ↔ n < 2 ^ 32 ∧ data = ofWord n ++ rest := by
  refine ⟨fun h ↦ ?_, fun ⟨hn, h⟩ ↦ by rw [h, word_ofWord, Nat.mod_eq_of_lt hn]⟩
  rcases data with _ | ⟨a, _ | ⟨b, _ | ⟨c, _ | ⟨d, data⟩⟩⟩⟩ <;> cases h
  have ha := a.toNat_lt
  have hb := b.toNat_lt
  have hc := c.toNat_lt
  have hd := d.toNat_lt
  exact ⟨by omega, by rw [ofWord_of_bytes]; rfl⟩

theorem takeBytes_eq_some : takeBytes n data = some (chunk, rest) ↔
    chunk.length = n ∧ data = chunk ++ rest := by
  unfold takeBytes
  constructor
  · intro h
    split at h
    · nomatch h
    case isFalse hn =>
      cases h
      exact ⟨List.length_take_of_le (Nat.not_lt.mp hn), (List.take_append_drop n data).symm⟩
  · rintro ⟨rfl, rfl⟩
    rw [if_neg (by rw [List.length_append]; omega), List.take_left, List.drop_left]

theorem takeBytes_append (h : chunk.length = n) : takeBytes n (chunk ++ rest) = some (chunk, rest) :=
  takeBytes_eq_some.mpr ⟨h, rfl⟩

end Bytes

end CopySpace
