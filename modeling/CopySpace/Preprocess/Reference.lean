import CopySpace.Preprocess.Rescan

/-!
# The substitution of a macro's arguments as the language defines it

The arguments of a call are taken apart at its commas, the body is read as operands between which
`##` may stand, every operand is replaced, and then the operators join their neighbours from left
to right.  Only what is written of a token matters.
-/

namespace CopySpace.Preprocess

/-- What is written of a token. -/
structure Word where
  text : Text
  kind : Kind
  deriving DecidableEq

def Token.word (t : Token) : Word := ⟨t.text, t.kind⟩

/-! ## Arguments -/

/-- The nesting of parentheses after a token. -/
def nest (depth : Nat) (t : Token) : Nat :=
  if t.kind = .punctuator '(' then depth + 1
  else if t.kind = .punctuator ')' then depth - 1
  else depth

/-- What stands in a call before the parenthesis that closes it, that one, and what follows. -/
def callTokens (depth : Nat) : List Node → Option (List Token × Node × List Node)
  | [] => none
  | node :: rest =>
      if node.token.kind = .punctuator ')' ∧ depth = 0 then some ([], node, rest)
      else (callTokens (nest depth node.token) rest).map fun (inside, closing, after) ↦
        (node.token :: inside, closing, after)

/-- The deepest nesting of parentheses. -/
def deepest (depth : Nat) : List Token → Nat
  | [] => depth
  | t :: tokens => max depth (deepest (nest depth t) tokens)

/-- The pieces between the first commas outside of parentheses. -/
def splitCommas (limit depth : Nat) (current : List Token) : List Token → List (List Token)
  | [] => [current]
  | t :: tokens =>
      if t.kind = .punctuator ',' ∧ depth = 0 ∧ limit ≠ 0 then
        current :: splitCommas (limit - 1) 0 [] tokens
      else splitCommas limit (nest depth t) (current ++ [t]) tokens

/-- There must be an argument for every parameter.  A call without arguments has one that is
empty, and the last argument of a variadic macro may be missing. -/
def matchCount (m : Macro) (arguments : List (List Token)) : Option (List (List Token)) :=
  if m.parameters = [] then if arguments = [[]] then some [] else none
  else if arguments.length = m.parameters.length then some arguments
  else if m.variadic ∧ arguments.length + 1 = m.parameters.length then some (arguments ++ [[]])
  else none

/-- The arguments of a call.  The last one of a variadic macro keeps its commas. -/
def matchArguments (m : Macro) (inside : List Token) : Option (List (List Token)) :=
  let commas := if m.variadic then m.parameters.length - 1 else inside.length
  matchCount m ((splitCommas commas 0 [] inside).map (rawTokens false))

/-! ## Operands -/

/-- An operand of the body: a token that stands for itself, a parameter, or one behind `#`. -/
inductive Item
  | word (w : Word)
  | argument (i : Nat)
  | string (i : Nat)

/-- An operand, and whether `##` stands in front of it. -/
structure Part where
  joined : Bool
  item : Item

/-- The operands of a body.  A token behind an operator is an operand whatever it is; with `runs`
a run of operators counts as one. -/
def parts (runs : Bool) (m : Macro) (joined : Bool) : List Token → Option (List Part)
  | [] => if joined then none else some []
  | token :: rest =>
      if token.is "##" ∧ (runs ∨ ¬ joined) then parts runs m true rest
      else if token.is "#" then
        match rest with
        | [] => none
        | operand :: rest =>
            (m.parameterIndex operand).bind fun i ↦
              (parts runs m false rest).map (⟨joined, .string i⟩ :: ·)
      else
        (parts runs m false rest).map
          (⟨joined, (m.parameterIndex token).elim (.word token.word) .argument⟩ :: ·)

/-- One string literal with the spellings of the tokens, and a space where there was one between
them. -/
def stringLiteral (tokens : List Token) : Word where
  text := '"' :: (tokens.zipIdx.flatMap fun (t, i) ↦
    (if i ≠ 0 ∧ t.space then [' '] else []) ++ t.escaped) ++ ['"']
  kind := .literal

section

variable (raw : Nat → List Token) (expanded : Nat → Option (List Token))

/-- What replaces an operand: next to an operator an argument stays as it was written, with a
placemarker for an empty one, and elsewhere it is expanded. -/
def Item.words (adjacent : Bool) : Item → Option (List (Option Word))
  | .word w => some [some w]
  | .string i => some [some (stringLiteral (raw i))]
  | .argument i =>
      if adjacent then
        some (if raw i = [] then [none] else (raw i).map fun t ↦ some t.word)
      else (expanded i).map (·.map fun t ↦ some t.word)

/-- A word, a placemarker, or an operator. -/
inductive Element
  | operator
  | word (w : Option Word)

/-- The next operand stands behind an operator. -/
def nextJoined (others : List Part) : Bool := others.head?.any (·.joined)

/-- The body with its operands replaced. -/
def elements : List Part → Option (List Element)
  | [] => some []
  | part :: others => do
      let words ← part.item.words raw expanded (part.joined || nextJoined others)
      let rest ← elements others
      some ((if part.joined then [.operator] else []) ++ words.map .word ++ rest)

end

/-! ## Operators -/

/-- A text that is exactly one token. -/
def oneToken (skipping : Bool) (s : Text) : Option Word :=
  match next skipping s with
  | some (some t, rest) => if t.text = s ∧ rest = [] then some t.word else none
  | _ => none

/-- `##` between two words; a placemarker gives way. -/
def joinWords (skipping : Bool) : Option Word → Option Word → Option (Option Word)
  | none, right => some right
  | some left, none => some (some left)
  | some left, some right => (oneToken skipping (left.text ++ right.text)).map some

/-- From left to right every operator joins the last word so far with the next one. -/
def joinAll (skipping : Bool) : List (Option Word) → List Element → Option (List (Option Word))
  | words, [] => some words
  | words, .word w :: rest => joinAll skipping (words ++ [w]) rest
  | words, .operator :: .word right :: rest => do
      let left ← words.getLast?
      let joined ← joinWords skipping left right
      joinAll skipping (words.dropLast ++ [joined]) rest
  | _, .operator :: _ => none

/-! ## Calls -/

/-- What becomes of operands behind the words that are already there. -/
def finish (skipping : Bool) (raw : Nat → List Token) (expanded : Nat → Option (List Token))
    (words : List (Option Word)) (operands : List Part) : Option (List (Option Word)) :=
  (elements raw expanded operands).bind (joinAll skipping words)

/-- The words that replace a call with these arguments; the placemarkers are removed. -/
def substituteWords (skipping runs : Bool) (expand : List Token → Option (List Token)) (m : Macro)
    (arguments : List (List Token)) : Option (List Word) :=
  let raw (i : Nat) := arguments.getD i []
  ((parts runs m false m.body).bind (finish skipping raw (fun i ↦ expand (raw i)) [])).map
    (List.filterMap id)

/-- What replaces a call, from what follows its opening parenthesis, the parenthesis that closes
it, and what follows that. -/
def reference (skipping runs : Bool) (expand : List Token → Option (List Token)) (m : Macro)
    (rest : List Node) : Option (List Word × Node × List Node) :=
  (callTokens 0 rest).bind fun (inside, closing, after) ↦
    (matchArguments m inside).bind fun arguments ↦
      (substituteWords skipping runs expand m arguments).map (·, closing, after)

end CopySpace.Preprocess
