import Mathlib.Algebra.Group.Nat.Defs
import Mathlib.Data.Finset.Basic
import Mathlib.Data.Fintype.Basic

/-!
# `preprocess_macros.h`: tokens and their reader

A text is the list of its bytes, each written as the character with its code, and a reader is
the rest of its text.  Reading yields a token and the rest, no token at the end, or fails.
-/

namespace CopySpace.Preprocess

/-- The bytes of a source or of a token. -/
abbrev Text := List Char

/-- `CC_PP_MACROS`. -/
def macrosMax : Nat := 512

/-- What `kind` tells of a token; the kind of a punctuator is its first byte. -/
inductive Kind
  | punctuator (first : Char)
  | ident
  | number
  | literal
  | header
  deriving DecidableEq, Repr

/-- `cc_pp_token`.  The hide set is the set itself instead of its number in the table of interned
sets; a token of kind 0, which ends a text or stands for an empty piece, is an absent one. -/
structure Token where
  text : Text
  kind : Kind
  hidden : Finset (Fin macrosMax)
  space : Bool
  deriving DecidableEq

/-- `cc_pp_is`. -/
def Token.is (t : Token) (text : String) : Bool := t.text = text.toList

theorem is_iff {t : Token} {text : String} : t.is text ↔ t.text = text.toList := decide_eq_true_iff

theorem not_is_of_is {t : Token} {text text' : String} (hne : text.toList ≠ text'.toList)
    (h : t.is text) : t.is text' = false := by
  refine Bool.eq_false_of_not_eq_true fun h' ↦ hne ?_
  rw [← is_iff.mp h, ← is_iff.mp h']

def Token.newline (t : Token) : Bool := t.kind = .punctuator '\n'

def isName (c : Char) : Bool :=
  ('a' ≤ c && c ≤ 'z') || ('A' ≤ c && c ≤ 'Z') || c = '_' || c = '$'

def isDigit (c : Char) : Bool := '0' ≤ c && c ≤ '9'

def isBlank (c : Char) : Bool := c = ' ' || c = '\t' || c = '\x0b' || c = '\x0c'

def isQuote (c : Char) : Bool := c = '"' || c = '\''

/-! ## Blanks and comments -/

/-- What is being skipped: blanks, a comment up to its line's end, or one up to `*/`. -/
inductive Skip
  | blank
  | line
  | block

/-- The first loop of `cc_pp_next`. -/
def skipBlanks : Skip → Text → Option Text
  | .blank, '/' :: '/' :: s => skipBlanks .line s
  | .blank, '/' :: '*' :: s => skipBlanks .block s
  | .blank, c :: s => if isBlank c then skipBlanks .blank s else some (c :: s)
  | .blank, [] => some []
  | .line, c :: s => if c = '\n' then some (c :: s) else skipBlanks .line s
  | .line, [] => some []
  | .block, '*' :: '/' :: s => skipBlanks .blank s
  | .block, c :: d :: s => if c = '\x00' then none else skipBlanks .block (d :: s)
  | .block, _ => none

/-! ## The kinds of tokens -/

/-- The opening of a literal with its encoding prefix, its delimiter, and what follows. -/
def literalStart : Text → Option (Text × Char × Text)
  | 'u' :: '8' :: '"' :: s => some (['u', '8', '"'], '"', s)
  | p :: q :: s =>
      if (p = 'L' || p = 'u' || p = 'U') && isQuote q then some ([p, q], q, s)
      else if isQuote p then some ([p], p, q :: s) else none
  | [q] => if isQuote q then some ([q], q, []) else none
  | [] => none

/-- A literal after its opening, and what follows it.  In a skipped group an unfinished literal
ends with its line. -/
def literalRest (skipping : Bool) (delimiter : Char) : Text → Option (Text × Text)
  | [] => if skipping then some ([], []) else none
  | c :: s =>
      if c = delimiter then some ([c], s)
      else if c = '\x00' then none
      else if c = '\n' then if skipping then some ([], c :: s) else none
      else if c = '\\' then
        match s with
        | [] => if skipping then some ([c], []) else none
        | d :: s =>
            if d = '\x00' then none
            else (literalRest skipping delimiter s).map fun (t, rest) ↦ (c :: d :: t, rest)
      else (literalRest skipping delimiter s).map fun (t, rest) ↦ (c :: t, rest)

/-- The rest of an identifier. -/
def identRest (s : Text) : Text × Text := s.span fun c ↦ isName c || isDigit c

/-- The rest of a number after one of its bytes. -/
def numberRest (previous : Char) : Text → Text × Text
  | [] => ([], [])
  | c :: s =>
      if isName c || isDigit c || c = '.' ||
          ((c = '+' || c = '-') &&
            (previous = 'e' || previous = 'E' || previous = 'p' || previous = 'P')) then
        let (t, rest) := numberRest c s
        (c :: t, rest)
      else ([], c :: s)

/-- `pairs`: the punctuators of two bytes. -/
def pairs : List String :=
  ["++", "--", "->", "<<", ">>", "<=", ">=", "==", "!=", "&&", "||",
    "+=", "-=", "*=", "/=", "%=", "&=", "|=", "^=", "##"]

local instance lawfulText : LawfulBEq (List Char) := inferInstance

/-- A punctuator and what follows it. -/
def punctuator : Text → Text × Text
  | '.' :: '.' :: '.' :: s => (['.', '.', '.'], s)
  | '<' :: '<' :: '=' :: s => (['<', '<', '='], s)
  | '>' :: '>' :: '=' :: s => (['>', '>', '='], s)
  | a :: b :: s => if [a, b] ∈ pairs.map String.toList then ([a, b], s) else ([a], b :: s)
  | s => (s, [])

/-- What a token that starts here says, its kind, and what follows it. -/
def lexeme (skipping : Bool) (c : Char) (s : Text) : Option (Text × Kind × Text) :=
  match literalStart (c :: s) with
  | some (opening, delimiter, rest) =>
      (literalRest skipping delimiter rest).map fun (t, rest) ↦ (opening ++ t, .literal, rest)
  | none =>
      if isName c then
        let (t, rest) := identRest s
        some (c :: t, .ident, rest)
      else if isDigit c || (c = '.' && s.head?.any isDigit) then
        let (t, rest) := numberRest c s
        some (c :: t, .number, rest)
      else if c = '\x00' then none
      else
        let (t, rest) := punctuator (c :: s)
        some (t, .punctuator c, rest)

/-- `cc_pp_next`. -/
def next (skipping : Bool) (s : Text) : Option (Option Token × Text) :=
  match skipBlanks .blank s with
  | none => none
  | some [] => some (none, [])
  | some (c :: start) =>
      (lexeme skipping c start).map fun (text, kind, rest) ↦
        (some ⟨text, kind, ∅, start.length + 1 ≠ s.length⟩, rest)

example : next false " /* */u8\"a\\\"\" b".toList =
    some (some ⟨"u8\"a\\\"\"".toList, .literal, ∅, true⟩, " b".toList) := by decide +kernel

example : next false "1e+5+x".toList =
    some (some ⟨"1e+5".toList, .number, ∅, false⟩, "+x".toList) := by decide

end CopySpace.Preprocess
