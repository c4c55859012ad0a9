import Mathlib.Algebra.Group.Nat.Defs
import Mathlib.Data.List.Basic

/-!
# `copy_link.c`: texts

Assembly is a text without NUL bytes, taken apart into statements.  A C string is the list of
its characters; a character stands for the byte with its code, and every character that
matters is ASCII.  Pointers into a buffer are the rests of its text.
-/

namespace CopySpace.Link

/-- The bytes of a buffer, or a C string. -/
abbrev Text := List Char

def uint32Max : Nat := 2 ^ 32 - 1

def whitespace (c : Char) : Bool := c = ' ' || c = '\t' || c = '\r'

def isDigit (c : Char) : Bool := '0' ≤ c && c ≤ '9'

def digit (c : Char) : Nat := c.toNat - '0'.toNat

def trim (s : Text) : Text :=
  ((s.dropWhile whitespace).reverse.dropWhile whitespace).reverse

/-- `strchr`: what stands before the first such character, and after it. -/
def strchr (c : Char) : Text → Option (Text × Text)
  | [] => none
  | a :: s => if a = c then some ([], s) else (strchr c s).map fun (before, after) ↦ (a :: before, after)

/-! ## Numbers -/

def decimalLoop (n : Nat) : Text → Option (Text × Nat)
  | [] => some ([], n)
  | c :: s =>
      if isDigit c then
        if n > (uint32Max - digit c) / 10 then none else decimalLoop (n * 10 + digit c) s
      else some (c :: s, n)

/-- `decimal_label`: where the digits end, and their number. -/
def decimalLabel : Text → Option (Text × Nat)
  | [] => none
  | c :: s => if isDigit c then decimalLoop 0 (c :: s) else none

def regBase : Nat := 32768

def regDigits (n digits : Nat) : Text → Option Nat
  | [] => if digits = 0 ∨ n > 13 then none else some (regBase + 32 * (n + 2))
  | c :: s => if ¬ isDigit c ∨ digits + 1 > 2 then none else regDigits (n * 10 + digit c) (digits + 1) s

/-- `reg`: the address of a register. -/
def reg (s : Text) : Option Nat :=
  if s = "$fp".toList then some regBase
  else if s = "$sp".toList then some (regBase + 32)
  else match s with
    | '$' :: 'r' :: s => regDigits 0 0 s
    | _ => none

def hexDigit (c : Char) : Option Nat :=
  if isDigit c then some (c.toNat - '0'.toNat)
  else if 'a' ≤ c ∧ c ≤ 'f' then some (c.toNat - 'a'.toNat + 10)
  else if 'A' ≤ c ∧ c ≤ 'F' then some (c.toNat - 'A'.toNat + 10)
  else none

def integerLoop (base n : Nat) : Text → Option Nat
  | [] => some n
  | c :: s => match hexDigit c with
    | none => none
    | some d => if d ≥ base ∨ n > (uint32Max - d) / base then none else integerLoop base (n * base + d) s

/-- The signs before a number: `negative`, how many there are, and the rest. -/
def integerSigns (negative : Bool) (signs : Nat) : Text → Option (Bool × Text)
  | c :: s =>
      if c = '+' ∨ c = '-' then
        if signs + 1 > 2 then none else integerSigns (negative ^^ decide (c = '-')) (signs + 1) s
      else some (negative, c :: s)
  | [] => some (negative, [])

def integer (s : Text) : Option Nat := do
  let (negative, s) ← integerSigns false 0 s
  let (base, s) := match s with
    | '0' :: 'x' :: s => (16, s)
    | '0' :: 'X' :: s => (16, s)
    | '0' :: c :: s => (8, '0' :: c :: s)
    | s => (10, s)
  if s = [] then none
  let n ← integerLoop base 0 s
  if negative ∧ n > 0x80000000 then none
  some (if negative then (2 ^ 32 - n) % 2 ^ 32 else n)

/-! ## Statements -/

/-- `statement_end`: the statement at the front of a text, and where the next one begins. -/
def statementEnd (quoted escaped : Bool) : Text → Text × Text
  | [] => ([], [])
  | c :: s =>
      let onward (quoted escaped : Bool) : Text × Text :=
        let (statement, next) := statementEnd quoted escaped s
        (c :: statement, next)
      if c = '\n' then ([], s)
      else if escaped then onward quoted false
      else if quoted && c = '\\' then onward quoted true
      else if c = '"' then onward (!quoted) false
      else if quoted then onward quoted false
      else if c = '#' then ([], (s.dropWhile (· ≠ '\n')).drop 1)
      else if c = ';' then ([], s)
      else if c = ':' then ([':'], if s.head? = some '\n' then s.tail else s)
      else onward quoted false

def stripComment (quoted escaped : Bool) : Text → Text
  | [] => []
  | c :: s =>
      if escaped then c :: stripComment quoted false s
      else if quoted && c = '\\' then c :: stripComment quoted true s
      else if c = '"' then c :: stripComment (!quoted) false s
      else if !quoted && c = '#' then []
      else c :: stripComment quoted false s

theorem length_dropWhile_le (f : Char → Bool) (s : Text) : (s.dropWhile f).length ≤ s.length :=
  (List.dropWhile_suffix f).length_le

/-- A statement takes at least one character. -/
theorem length_statementEnd (quoted escaped : Bool) (s : Text) :
    (statementEnd quoted escaped s).2.length ≤ s.length - 1 := by
  induction s generalizing quoted escaped with
  | nil => exact Nat.le_refl 0
  | cons c s ih =>
      have honward : ∀ quoted escaped,
          (statementEnd quoted escaped s).2.length ≤ (c :: s).length - 1 := fun quoted escaped ↦
        Nat.le_trans (ih quoted escaped) (Nat.sub_le _ _)
      have hcomment : ((s.dropWhile (· ≠ '\n')).drop 1).length ≤ (c :: s).length - 1 := by
        rw [List.length_drop, List.length_cons, Nat.add_sub_cancel]
        exact Nat.le_trans (Nat.sub_le _ _) (length_dropWhile_le _ s)
      rw [statementEnd]
      split
      · exact Nat.le_refl _
      split
      · exact honward _ _
      split
      · exact honward _ _
      split
      · exact honward _ _
      split
      · exact honward _ _
      split
      · exact hcomment
      split
      · exact Nat.le_refl _
      split
      · split
        · simp
        · exact Nat.le_refl _
      · exact honward _ _

/-- The statements of a text, without comments: what `object_line` delivers one by one.  Every
statement takes a character, so as many steps as there are characters are enough. -/
def linesFrom : Nat → Text → List Text
  | 0, _ => []
  | _ + 1, [] => []
  | fuel + 1, c :: s =>
      let statement := statementEnd false false (c :: s)
      stripComment false false statement.1 :: linesFrom fuel statement.2

def lines (text : Text) : List Text := linesFrom text.length text

theorem linesFrom_eq {fuel : Nat} {text : Text} (h : text.length ≤ fuel) :
    linesFrom fuel text = lines text := by
  induction fuel using Nat.strongRecOn generalizing text with
  | _ fuel ih =>
      cases text with
      | nil => cases fuel <;> rfl
      | cons c s =>
          obtain ⟨fuel, rfl⟩ := Nat.exists_eq_add_of_le' (Nat.zero_lt_of_lt h)
          have hnext := length_statementEnd false false (c :: s)
          rw [List.length_cons] at h hnext
          rw [lines, List.length_cons, linesFrom, linesFrom, ih fuel (Nat.lt_succ_self fuel) (by omega),
            ih s.length (by omega) (by omega)]

/-- One round of the loop over the statements. -/
theorem lines_cons (c : Char) (s : Text) : lines (c :: s) =
    stripComment false false (statementEnd false false (c :: s)).1 ::
      lines (statementEnd false false (c :: s)).2 := by
  have hnext := length_statementEnd false false (c :: s)
  rw [List.length_cons, Nat.add_sub_cancel] at hnext
  rw [lines, List.length_cons, linesFrom]
  exact congrArg _ (linesFrom_eq hnext)

end CopySpace.Link
