import CopySpace.Preprocess.Lexer

/-!
# `preprocess_condition.h`: escape sequences

What stands behind a backslash in a literal, up to three octal digits, `x` with hexadecimal
digits, or one byte, is one character.
-/

namespace CopySpace.Preprocess

/-- `cc_pp_hex`. -/
def hex (c : Char) : Nat :=
  if isDigit c then c.toNat - '0'.toNat
  else if 'a' ≤ c ∧ c ≤ 'f' then c.toNat - 'a'.toNat + 10
  else if 'A' ≤ c ∧ c ≤ 'F' then c.toNat - 'A'.toNat + 10
  else 99

def isOctal (c : Char) : Bool := '0' ≤ c && c ≤ '7'

/-- The octal digits that follow the first one. -/
def octalRest : Nat → Nat → Text → Nat × Text
  | _, value, [] => (value, [])
  | 0, value, s => (value, s)
  | n + 1, value, c :: s =>
      if isOctal c then octalRest n (value * 8 + (c.toNat - '0'.toNat)) s else (value, c :: s)

/-- The digits after `\x`, in 32 bits. -/
def hexRest : Nat → Text → Nat × Text
  | value, [] => (value, [])
  | value, c :: s => if hex c < 16 then hexRest ((value * 16 + hex c) % 2 ^ 32) s else (value, c :: s)

/-- The byte that one letter stands for; others stand for themselves. -/
def simpleEscape (c : Char) : Nat :=
  if c = 'a' then 7 else if c = 'b' then 8 else if c = 'e' then 27 else if c = 'f' then 12
  else if c = 'n' then 10 else if c = 'r' then 13 else if c = 't' then 9 else if c = 'v' then 11
  else c.toNat

/-- What follows a backslash, and what is left after it. -/
def escape : Text → Option (Nat × Text)
  | [] => none
  | c :: s =>
      if isOctal c then some (octalRest 2 (c.toNat - '0'.toNat) s)
      else if c = 'x' then
        if s.head?.any fun d ↦ hex d < 16 then some (hexRest 0 s) else none
      else if c = 'u' ∨ c = 'U' then none
      else some (simpleEscape c, s)

section

variable {s rest : Text} {c : Char} {n value code : Nat}

theorem hex_of_isOctal (h : isOctal c = true) : hex c < 16 := by
  obtain ⟨hlow, hhigh⟩ := Bool.and_eq_true_iff.mp h
  have hdigit : isDigit c = true := by
    rw [isDigit, Bool.and_eq_true]
    exact ⟨hlow, decide_eq_true (Char.le_trans (of_decide_eq_true hhigh) (by decide : '7' ≤ '9'))⟩
  rw [hex, if_pos hdigit]
  have hle : c.toNat ≤ '7'.toNat := of_decide_eq_true hhigh
  have hseven : '7'.toNat = 55 := rfl
  have hzero : '0'.toNat = 48 := rfl
  omega

theorem octalRest_split (n value : Nat) (s : Text) :
    ∃ digits, s = digits ++ (octalRest n value s).2 ∧ ∀ d ∈ digits, hex d < 16 := by
  fun_induction octalRest n value s with
  | case1 | case2 | case4 => exact ⟨[], rfl, nofun⟩
  | case3 value n c s hc ih =>
    obtain ⟨digits, hs, hdigits⟩ := ih
    exact ⟨c :: digits, congrArg (c :: ·) hs, List.forall_mem_cons.mpr ⟨hex_of_isOctal hc, hdigits⟩⟩

theorem hexRest_split (value : Nat) (s : Text) :
    ∃ digits, s = digits ++ (hexRest value s).2 ∧ ∀ d ∈ digits, hex d < 16 := by
  fun_induction hexRest value s with
  | case1 | case3 => exact ⟨[], rfl, nofun⟩
  | case2 value c s hc ih =>
    obtain ⟨digits, hs, hdigits⟩ := ih
    exact ⟨c :: digits, congrArg (c :: ·) hs, List.forall_mem_cons.mpr ⟨hc, hdigits⟩⟩

/-- An escape sequence is a byte, and digits behind it. -/
theorem escape_split (h : escape (c :: s) = some (code, rest)) :
    ∃ digits, s = digits ++ rest ∧ ∀ d ∈ digits, hex d < 16 := by
  rw [escape] at h
  split at h
  · have hs := octalRest_split 2 (c.toNat - '0'.toNat) s
    rwa [Option.some.inj h] at hs
  split at h
  · split at h
    · have hs := hexRest_split 0 s
      rwa [Option.some.inj h] at hs
    · cases h
  split at h
  · cases h
  · cases h
    exact ⟨[], rfl, nofun⟩

theorem escape_length (h : escape s = some (code, rest)) : rest.length < s.length := by
  obtain _ | ⟨c, s⟩ := s
  · cases h
  · obtain ⟨digits, rfl, -⟩ := escape_split h
    simp only [List.length_cons, List.length_append]
    omega

end

end CopySpace.Preprocess
