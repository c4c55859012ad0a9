import CopySpace.Assembler.Source

/-!
# The listing of a program

What a source says, read without the buffers of the assembler: its lines, their tokens, and the
values of its expressions, which are integers.  `Ordinary` sources fit the buffers.
-/

namespace CopySpace.Assembler

/-! ## Syntax -/

/-- The lines of a text, each with its newline. -/
def textLines : Text → List Text
  | [] => []
  | c :: s =>
      if c = '\n' then [c] :: textLines s
      else match textLines s with
        | [] => [[c]]
        | l :: ls => (c :: l) :: ls

/-- The token at the beginning of a text and what stands behind it. -/
def nextToken (s : Text) : Text × Text :=
  match s.dropWhile isSpace with
  | '"' :: s => (s.takeWhile (· ≠ '"'), (s.dropWhile (· ≠ '"')).drop 1)
  | s => (s.takeWhile (!isSpace ·), s.dropWhile (!isSpace ·))

/-- The first tokens of a text, until an empty one. -/
def tokens : Nat → Text → List Text
  | 0, _ => []
  | n + 1, s => if (nextToken s).1 = [] then [] else (nextToken s).1 :: tokens n (nextToken s).2

/-- The tokens of a line before its comment: no line has more than five. -/
def lineTokens (line : Text) : List Text := tokens 5 (line.takeWhile (· ≠ ';'))

/-- What a line says. -/
inductive Line where
  | blank
  | inclusion (name : Text)
  | assignment (name expr : Text)
  | row (n dst src : Text)
deriving DecidableEq

/-- A token begins like a name. -/
def StartsName (token : Text) : Prop := (token.head?.map isNameStart).getD false = true

instance (token : Text) : Decidable (StartsName token) := inferInstanceAs (Decidable (_ = true))

/-- The line that has the tokens. -/
def parseTokens : List Text → Option Line
  | [] => some .blank
  | t :: ts =>
      if t = "include".toList then ts.head?.map .inclusion
      else if t = "copy".toList then
        match ts with
        | [a, b, c] => some (.row a b c)
        | _ => none
      else
        match ts with
        | [e] => if StartsName t then some (.assignment t e) else none
        | [b, c] => some (.row t b c)
        | _ => none

/-- What a line says, if it says anything. -/
def parseLine (line : Text) : Option Line := parseTokens (lineTokens line)

/-! ## Meaning -/

/-- The values of the symbols in force at a line. -/
abbrev Env := Text → Option Int

namespace Env

variable (env : Env)

/-- The value of a number or of a symbol. -/
def atom (token : Text) : Option Int :=
  if (token.head?.map isDigit).getD false then (literal token).map Nat.cast else env token

/-- The value of an operand is added or subtracted. -/
def operand (value : Int) (x : Char × Text) : Option Int :=
  (env.atom x.2).map fun v ↦ if x.1 = '+' then value + v else value - v

/-- The value of an expression, from left to right. -/
def expression (expr : Text) : Option Int :=
  (env.atom (operands expr).1).bind fun value ↦ (operands expr).2.foldlM env.operand value

/-- A value is assigned to a symbol. -/
def assign (name : Text) (value : Int) : Env := Function.update env name (some value)

end Env

/-- The values of the expressions of a row. -/
structure ListedRow where
  n : Int
  dst : Int
  src : Int
deriving DecidableEq

/-- A value modulo `2 ^ 32`, cut to a field. -/
def cutValue (w : Nat) (value : Int) : Nat := (value % 2 ^ 32).toNat % 2 ^ w

/-- The row with the values cut to its fields. -/
def ListedRow.cut (cfg : Config) (row : ListedRow) : Instruction :=
  ⟨cutValue cfg.nSize row.n, cutValue cfg.addressSize row.dst, cutValue cfg.addressSize row.src⟩

/-- What the lines so far say. -/
structure Listing where
  env : Env
  rows : List ListedRow

/-- What a row says. -/
def Listing.addRow (l : Listing) (a b c : Text) : Option Listing :=
  (l.env.expression a).bind fun n ↦ (l.env.expression b).bind fun dst ↦
    (l.env.expression c).map fun src ↦ { l with rows := l.rows ++ [⟨n, dst, src⟩] }

section

variable (cfg : Config) (files : Text → Option Text)

/-- A line is read, when the reading of an included file is given. -/
def listLine (listFile : Text → Text → Listing → Option Listing) (path : Text) (l : Listing)
    (line : Text) : Option Listing :=
  (parseLine line).bind fun
    | .blank => some l
    | .inclusion name =>
        (openInclude files path name).bind fun (path, text) ↦ listFile path text l
    | .assignment name expr =>
        (l.env.expression expr).map fun value ↦ { l with env := l.env.assign name value }
    | .row a b c => l.addRow a b c

/-- A file is read, if no more than `depth` files are read within each other. -/
def listFile : Nat → Text → Text → Listing → Option Listing
  | 0, _, _, _ => none
  | depth + 1, path, text, l => (textLines text).foldlM (listLine files (listFile depth) path) l

/-- The rows of a program. -/
def listing (depth : Nat) (text : Text) : Option (List ListedRow) :=
  (listFile files depth "<stdin>".toList text
    ⟨fun name ↦ (findSymbol (predefined cfg) name).map Nat.cast, []⟩).map (·.rows)

/-! ## Ordinary sources -/

/-- A line that fits the buffers of the assembler and has no byte 0. -/
structure OrdinaryLine (line : Text) : Prop where
  length_lt : line.length < maxLine
  notMem : '\x00' ∉ line
  token_le : ∀ t ∈ lineTokens line, t.length ≤ 255
  name_le : ∀ name expr, parseLine line = some (.assignment name expr) → name.length ≤ 63

/-- All lines of a text, and of the files that it includes, are ordinary. -/
def Ordinary : Nat → Text → Text → Prop
  | 0, _, _ => True
  | depth + 1, path, text => ∀ line ∈ textLines text, OrdinaryLine line ∧
      ∀ name, parseLine line = some (.inclusion name) → ∀ file,
        openInclude files path name = some file → Ordinary depth file.1 file.2

end

end CopySpace.Assembler
