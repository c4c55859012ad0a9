import CopySpace.Core.Config
import CopySpace.Space.Row

/-!
# `assembler.c`

A text is the list of its bytes, each written as the character with its code.  `none` is `fail`.
-/

namespace CopySpace.Assembler

/-- The bytes of a source, of a line or of a token. -/
abbrev Text := List Char

/-- `MAX_LINE` -/
def maxLine : Nat := 1024

/-- `MAX_SYMBOLS` -/
def maxSymbols : Nat := 2048

/-! ## Lines and tokens -/

/-- `isspace` -/
def isSpace (c : Char) : Bool :=
  c = ' ' || c = '\t' || c = '\n' || c = '\x0b' || c = '\x0c' || c = '\x0d'

/-- `isdigit` -/
def isDigit (c : Char) : Bool := '0' ≤ c && c ≤ '9'

/-- `isalpha` -/
def isAlpha (c : Char) : Bool := ('a' ≤ c && c ≤ 'z') || ('A' ≤ c && c ≤ 'Z')

/-- `is_name_start` -/
def isNameStart (c : Char) : Bool := isAlpha c || c = '_'

/-- What `fgets` reads, call after call, with `size` bytes for a line and room for `room` more in
this one: a line may have several parts. -/
def sourceLines (size : Nat) : Nat → Text → List Text
  | _, [] => []
  | room, c :: s =>
      if c = '\n' ∨ room = 1 then [c] :: sourceLines size size s
      else match sourceLines size (room - 1) s with
        | [] => [[c]]
        | l :: ls => (c :: l) :: ls

/-- The string in a buffer ends at the first byte 0, and for `strip_comment` at a semicolon. -/
def stripComment (line : Text) : Text :=
  (line.takeWhile (· ≠ '\x00')).takeWhile (· ≠ ';')

/-- The bytes before one where the token stops, at most as many as its buffer holds. -/
def takeToken (stop : Char → Bool) : Nat → Text → Text × Text
  | 0, s => ([], s)
  | _ + 1, [] => ([], [])
  | n + 1, c :: s =>
      if stop c then ([], c :: s)
      else
        let (token, rest) := takeToken stop n s
        (c :: token, rest)

/-- `read_token` for a token of at most `size` bytes; no token is an empty one. -/
def readToken (size : Nat) (s : Text) : Text × Text :=
  match s.dropWhile isSpace with
  | '"' :: s =>
      match takeToken (· = '"') size s with
      | (token, '"' :: rest) => (token, rest)
      | (token, rest) => (token, rest)
  | s => takeToken isSpace size s

/-! ## Symbols and numbers -/

/-- `symbols`: an `unsigned long` for each name. -/
abbrev Symbols := List (Text × Nat)

/-- `find_symbol` -/
def findSymbol (symbols : Symbols) (name : Text) : Option Nat :=
  (symbols.find? (·.1 = name)).map Prod.snd

/-- The value of the first symbol with the name is replaced. -/
def setSymbol (name : Text) (value : Nat) : Symbols → Symbols
  | [] => []
  | s :: symbols =>
      if s.1 = name then (name, value) :: symbols else s :: setSymbol name value symbols

/-- `define_symbol`: a new name is kept in 64 bytes. -/
def defineSymbol (symbols : Symbols) (name : Text) (value : Nat) : Option Symbols :=
  if (findSymbol symbols name).isSome then some (setSymbol name value symbols)
  else if symbols.length ≥ maxSymbols then none
  else some (symbols ++ [(name.take 63, value)])

/-- The value of a digit. -/
def digitValue (c : Char) : Option Nat :=
  if isDigit c then some (c.toNat - '0'.toNat)
  else if 'a' ≤ c && c ≤ 'f' then some (c.toNat - 'a'.toNat + 10)
  else if 'A' ≤ c && c ≤ 'F' then some (c.toNat - 'A'.toNat + 10)
  else none

/-- A number in a radix, all of whose bytes are digits. -/
def digits (radix : Nat) (s : Text) : Option Nat :=
  s.foldlM (fun value c ↦ (digitValue c).bind fun d ↦
    if d < radix then some (value * radix + d) else none) 0

/-- The number that a token stands for: the radix is told by how it begins. -/
def literal (token : Text) : Option Nat :=
  match token with
  | '0' :: 'b' :: s => digits 2 s
  | '0' :: x :: d :: s => if x = 'x' ∨ x = 'X' then digits 16 (d :: s) else digits 8 (x :: d :: s)
  | '0' :: s => digits 8 s
  | s => digits 10 s

section

variable (cfg : Config) (longBits : Nat)

/-- `parse_number`: the loop over binary digits shifts others out, and `strtoul` refuses a number
that is too large. -/
def parseNumber (token : Text) : Option Nat :=
  (literal token).bind fun value ↦
    match token with
    | '0' :: 'b' :: _ => some (value % 2 ^ longBits)
    | _ => if value < 2 ^ longBits then some value else none

/-- `atom_value` -/
def atomValue (symbols : Symbols) (token : Text) : Option Nat :=
  match token with
  | c :: _ => if isDigit c then parseNumber longBits token else findSymbol symbols token
  | [] => findSymbol symbols token

/-- The atoms of an expression, each but the first one with its operator. -/
def operands : Text → Text × List (Char × Text)
  | [] => ([], [])
  | c :: s =>
      let (atom, rest) := operands s
      if c = '+' ∨ c = '-' then ([], (c, atom) :: rest) else (c :: atom, rest)

/-- An atom in its buffer. -/
def bufferedAtom (symbols : Symbols) (atom : Text) : Option Nat :=
  if atom.length ≥ 128 then none else atomValue longBits symbols atom

/-- The loop of `eval_expr` over the atoms behind the first one. -/
def evalRest (symbols : Symbols) : Nat → List (Char × Text) → Option Nat
  | value, [] => some value
  | value, (op, atom) :: rest =>
      if atom = [] ∧ rest = [] then none
      else (bufferedAtom longBits symbols atom).bind fun v ↦
        evalRest symbols
          (if op = '+' then u32 (value + v) else u32 (value + 2 ^ longBits - v)) rest

/-- `eval_expr` -/
def evalExpr (symbols : Symbols) (expr : Text) : Option Nat :=
  if expr = [] then none
  else (bufferedAtom longBits symbols (operands expr).1).bind fun value ↦
    evalRest longBits symbols value (operands expr).2

/-! ## Rows -/

/-- The state of the assembler: `symbols`, `instruction_n` and `space`. -/
structure Assembly where
  symbols : Symbols
  instructionN : Nat
  space : Bits

/-- `init_predefined_symbols` -/
def predefined : Symbols :=
  [("SPACE_SIZE".toList, cfg.spaceSize), ("PROCESSOR_N".toList, cfg.processorN),
    ("PROCESSOR_START".toList, processorStart), ("INSTRUCTION_SIZE".toList, cfg.instructionSize),
    ("N_SIZE".toList, cfg.nSize), ("ADDRESS_SIZE".toList, cfg.addressSize),
    ("PROCESSOR_BITS".toList, cfg.processorBits), ("CORE_LAYER_BITS".toList, cfg.coreLayerBits),
    ("CORE_INPUT_BITS".toList, cfg.coreInputBits),
    ("CORE_BUFFER_START".toList, cfg.coreBufferStart),
    ("CORE_RESTART_START".toList, cfg.coreRestartStart)]

/-- `write_code` -/
def writeCode (m : Bits) (i : Nat) (row : Instruction) : Bits :=
  ((m.putField (u32 (cfg.instructionSize * i + cfg.o 0)) (cfg.s 0) row.n).putField
    (u32 (cfg.instructionSize * i + cfg.o 1)) (cfg.s 1) row.dst).putField
    (u32 (cfg.instructionSize * i + cfg.o 2)) (cfg.s 2) row.src

/-- `emit_instruction` -/
def emitInstruction (st : Assembly) (a b c : Nat) : Option Assembly :=
  if st.instructionN ≥ cfg.processorN then none
  else some { st with
    instructionN := st.instructionN + 1
    space := writeCode cfg st.space st.instructionN ⟨a, b, c⟩ }

/-- A row of three expressions in `compile_line`. -/
def emitRow (st : Assembly) (a b c : Text) : Option Assembly :=
  (evalExpr longBits st.symbols a).bind fun a ↦
    (evalExpr longBits st.symbols b).bind fun b ↦
      (evalExpr longBits st.symbols c).bind fun c ↦ emitInstruction cfg st (u32 a) (u32 b) (u32 c)

/-- `open_include`: the path and the text of the file. -/
def openInclude (files : Text → Option Text) (base name : Text) : Option (Text × Text) :=
  let dir := (base.reverse.dropWhile (· ≠ '/')).reverse
  let plain := name.take 1023
  if dir ≠ [] ∧ dir.length + name.length + 1 < 1024 then
    match files (dir ++ name) with
    | some text => some (dir ++ name, text)
    | none => (files plain).map (plain, ·)
  else (files plain).map (plain, ·)

/-- `compile_line`, when the reading of an included file is given. -/
def compileLine (files : Text → Option Text)
    (compileFile : Text → Text → Assembly → Option Assembly) (path : Text) (st : Assembly)
    (line : Text) : Option Assembly :=
  let (t0, s) := readToken 255 (stripComment line)
  let (t1, s) := readToken 255 s
  if t0 = [] then some st
  else if t0 = "include".toList then
    if t1 = [] then none
    else (openInclude files path t1).bind fun (path, text) ↦ compileFile path text st
  else
    let (t2, s) := readToken 255 s
    if t0 = "copy".toList then
      let (t3, s) := readToken 255 s
      let (extra, _) := readToken 255 s
      if t1 = [] ∨ t2 = [] ∨ t3 = [] ∨ extra ≠ [] then none else emitRow cfg longBits st t1 t2 t3
    else if t1 = [] then none
    else if t2 = [] then
      if (t0.head?.map isNameStart).getD false then
        (evalExpr longBits st.symbols t1).bind fun value ↦
          (defineSymbol st.symbols t0 value).map fun symbols ↦ { st with symbols }
      else none
    else
      let (extra, _) := readToken 255 s
      if extra ≠ [] then none else emitRow cfg longBits st t0 t1 t2

/-- `compile_file`, if no more than `depth` files are read within each other. -/
def compileFile (files : Text → Option Text) : Nat → Text → Text → Assembly → Option Assembly
  | 0, _, _, _ => none
  | depth + 1, path, text, st =>
      (sourceLines (maxLine - 1) (maxLine - 1) text).foldlM
        (compileLine cfg longBits files (compileFile files depth) path) st

/-- `main`: the bytes that are written. -/
def assemble (files : Text → Option Text) (depth : Nat) (text : Text) : Option (List Byte) :=
  (compileFile cfg longBits files depth "<stdin>".toList text
    ⟨predefined cfg, 0, fun _ ↦ false⟩).map fun st ↦
      st.space.bytes 0 ((cfg.instructionSize * st.instructionN + 7) / 8)

end

end CopySpace.Assembler
