import Mathlib.Data.Finset.Lattice.Basic
import CopySpace.Preprocess.Lexer

/-!
# `preprocess_macros.h`: replacing the parameters of a macro

`cc_pp_substitute` with the two operators it applies to tokens.  The text buffer and the output
array have no capacity here.
-/

namespace CopySpace.Preprocess

/-! ## Operators on tokens -/

/-- `cc_pp_paste`: the two spellings must read as exactly one token. -/
def Token.paste (skipping : Bool) (a b : Token) : Option Token :=
  match next skipping (a.text ++ b.text) with
  | some (some result, rest) =>
      if result.text.length ≠ (a.text ++ b.text).length then none
      else match next skipping rest with
        | some (none, _) => some { result with hidden := a.hidden ∩ b.hidden, space := a.space }
        | _ => none
  | _ => none

/-- The spelling of a token inside a string literal. -/
def Token.escaped (t : Token) : Text :=
  t.text.flatMap fun byte ↦
    if t.kind = .literal && (byte = '"' || byte = '\\') then ['\\', byte] else [byte]

/-- The loop of `cc_pp_stringify_tokens`. -/
def stringifyLoop : Bool → Bool → List Token → Text
  | _, _, [] => []
  | previous, space, t :: tokens =>
      if t.newline then stringifyLoop previous true tokens
      else (if previous && (space || t.space) then [' '] else []) ++ t.escaped ++
        stringifyLoop true false tokens

/-- `cc_pp_stringify_tokens`. -/
def stringify (tokens : List Token) : Token where
  text := '"' :: stringifyLoop false false tokens ++ ['"']
  kind := .literal
  hidden := ∅
  space := false

/-! ## Macros -/

/-- `cc_pp_macro` with the names of its parameters and the tokens of its body.  A variadic macro
has a parameter for the rest of the arguments. -/
structure Macro where
  name : Text
  present : Bool
  function : Bool
  variadic : Bool
  parameters : List Text
  body : List Token
  variadic_ne : variadic = true → parameters ≠ []
  deriving DecidableEq

/-- `cc_pp_parameter_index`. -/
def Macro.parameterIndex (m : Macro) (t : Token) : Option Nat :=
  if t.kind ≠ .ident then none else m.parameters.findIdx? (t.text = ·)

/-- The parameter for the rest of the arguments. -/
def Macro.isLast (m : Macro) (i : Nat) : Bool := m.variadic && i + 1 = m.parameters.length

/-- The loop of `cc_pp_va_opt_end` after the opening parenthesis: what stands inside, and what
follows the closing one. -/
def vaOptLoop (depth : Nat) : List Token → Option (List Token × List Token)
  | [] => none
  | t :: body =>
      if t.is "__VA_OPT__" then none
      else if t.kind = .punctuator '(' then
        (vaOptLoop (depth + 1) body).map fun (inside, after) ↦ (t :: inside, after)
      else if t.kind = .punctuator ')' then
        if depth = 1 then some ([], body)
        else (vaOptLoop (depth - 1) body).map fun (inside, after) ↦ (t :: inside, after)
      else (vaOptLoop depth body).map fun (inside, after) ↦ (t :: inside, after)

/-- `cc_pp_va_opt_end`, from what follows `__VA_OPT__`. -/
def vaOptEnd : List Token → Option (List Token × List Token)
  | [] => none
  | t :: body => if t.kind = .punctuator '(' then vaOptLoop 1 body else none

theorem vaOptLoop_length {depth : Nat} {body inside after : List Token}
    (h : vaOptLoop depth body = some (inside, after)) :
    inside.length + after.length < body.length := by
  induction body generalizing depth inside after with
  | nil => cases h
  | cons t body ih =>
    have further {depth' : Nat}
        (h : ((vaOptLoop depth' body).map fun (inside, after) ↦ (t :: inside, after)) =
          some (inside, after)) : inside.length + after.length < (t :: body).length := by
      obtain ⟨⟨i, a⟩, hrest, heq⟩ := Option.map_eq_some_iff.mp h
      obtain ⟨rfl, rfl⟩ := Prod.mk.inj heq
      have := ih hrest
      simp only [List.length_cons]
      omega
    rw [vaOptLoop] at h
    split_ifs at h
    · exact further h
    · obtain ⟨rfl, rfl⟩ := Prod.mk.inj (Option.some.inj h)
      simp
    · exact further h
    · exact further h

theorem vaOptEnd_length {body inside after : List Token}
    (h : vaOptEnd body = some (inside, after)) :
    inside.length < body.length ∧ after.length < body.length := by
  cases body with
  | nil => cases h
  | cons t body =>
    rw [vaOptEnd] at h
    split_ifs at h
    have := vaOptLoop_length h
    simp only [List.length_cons]
    omega

/-! ## Substitution -/

/-- `cc_pp_argument`, as `cc_pp_function_replace` fills it in: the view of the argument's
spelling stays empty. -/
structure Argument where
  raw : List Token
  expanded : List Token
  omitted : Bool

instance : Inhabited Argument := ⟨⟨[], [], false⟩⟩

/-- The variables of `cc_pp_substitute`.  The output is reversed: what `output[used-1]` is stands
in front.  An absent token is the empty piece next to `##`. -/
structure Substitution where
  output : List (Option Token)
  paste : Bool
  gap : Bool
  commaPaste : Bool

def Substitution.start : Substitution := ⟨[], false, false, false⟩

/-- The left operand of `##` is replaced by the result. -/
def pasteInto (skipping : Bool) (left right : Option Token) : Option (Option Token) :=
  match left, right with
  | none, right => some right
  | some left, none => some (some left)
  | some left, some right => (left.paste skipping right).map some

/-- The first element of a piece that is not pasted takes the space in front of it. -/
def spaced (space : Bool) : List (Option Token) → List (Option Token)
  | [] => []
  | t :: piece => t.map (fun t ↦ { t with space }) :: piece

/-- The end of the loop's body: the piece joins the output. -/
def Substitution.join (skipping leading : Bool) (piece : List (Option Token))
    (s : Substitution) : Option Substitution :=
  if s.paste then
    match piece, s.output with
    | right :: piece, left :: output =>
        (pasteInto skipping left right).map fun joined ↦
          { s with output := piece.reverse ++ joined :: output, paste := false }
    | _, _ => none
  else match piece with
    | [] => some { s with gap := s.gap || leading }
    | _ :: _ =>
        some { s with output := (spaced (leading || s.gap) piece).reverse ++ s.output, gap := false }

/-- An empty piece next to `##` is one absent token. -/
def orEmpty (adjacent : Bool) (piece : List Token) : List (Option Token) :=
  if adjacent && piece.isEmpty then [none] else piece.map some

def startsPaste : List Token → Bool
  | [] => false
  | t :: _ => t.is "##"

/-- A comma before `##` and the parameter for the rest of the arguments. -/
def Macro.commaBefore (m : Macro) (token : Token) (rest : List Token) : Bool :=
  m.variadic && token.kind = .punctuator ',' &&
    match rest with
    | operator :: parameter :: _ =>
        operator.is "##" && m.parameterIndex parameter = some (m.parameters.length - 1)
    | _ => false

section

variable (skipping : Bool) (m : Macro) (arguments : List Argument)

/-- The argument for the parameter that takes the rest. -/
def Macro.lastArgument : Argument := arguments.getD (m.parameters.length - 1) default

/-- The loop of `cc_pp_substitute` from a token of the body on. -/
def substituteLoop (body : List Token) (s : Substitution) : Option Substitution :=
  match body with
  | [] => some s
  | token :: rest =>
      if token.is "##" then
        if s.commaPaste then substituteLoop rest { s with commaPaste := false }
        else if s.output.isEmpty || rest.isEmpty then none
        else substituteLoop rest { s with paste := true }
      else
        let comma := m.commaBefore token rest
        let s := { s with commaPaste := s.commaPaste || comma }
        if comma && (m.lastArgument arguments).omitted then substituteLoop rest s
        else if token.is "#" then
          match rest with
          | [] => none
          | operand :: rest =>
              if m.variadic && operand.is "__VA_OPT__" then
                match _h : vaOptEnd rest with
                | none => none
                | some (inside, after) => do
                    let option ←
                      if (m.lastArgument arguments).expanded.isEmpty then some []
                      else (substituteLoop inside .start).map fun s ↦
                        s.output.reverse.filterMap id
                    let s ← s.join skipping token.space [some (stringify option)]
                    substituteLoop after s
              else match m.parameterIndex operand with
                | none => none
                | some i => do
                    let s ← s.join skipping token.space
                      [some (stringify (arguments.getD i default).raw)]
                    substituteLoop rest s
        else if m.variadic && token.is "__VA_OPT__" then
          match _h : vaOptEnd rest with
          | none => none
          | some (inside, after) => do
              let option ←
                if (m.lastArgument arguments).expanded.isEmpty then some []
                else (substituteLoop inside .start).map fun s ↦ s.output.reverse.filterMap id
              let s ← s.join skipping token.space
                (orEmpty (s.paste || startsPaste after) option)
              substituteLoop after s
        else do
          let adjacent := s.paste || startsPaste rest
          let piece := match m.parameterIndex token with
            | some i =>
                let argument := arguments.getD i default
                orEmpty adjacent (if adjacent then argument.raw else argument.expanded)
            | none => [some token]
          let s ← s.join skipping token.space piece
          substituteLoop rest s
termination_by body.length
decreasing_by
  all_goals simp only [List.length_cons]
  all_goals first
    | omega
    | have := vaOptEnd_length ‹_›
      omega

/-- `cc_pp_substitute`. -/
def substitute : Option (List Token) :=
  (substituteLoop skipping m arguments m.body .start).map fun s ↦ s.output.reverse.filterMap id

end

end CopySpace.Preprocess
