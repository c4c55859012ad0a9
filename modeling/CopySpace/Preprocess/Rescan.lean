import Mathlib.Algebra.Order.Group.Nat
import CopySpace.Preprocess.Substitute

/-!
# `preprocess_macros.h`: replacing macros until nothing is left to replace

`cc_pp_rescan_depth` walks a list of nodes, and what replaces a macro is walked again.  It calls
itself on the arguments of a macro and of a query; a number bounds the turns of its loop and the
calls in a row, and running out of it is not a result of the source.  The nodes, the texts and
the interned hide sets are not limited.
-/

namespace CopySpace.Preprocess

/-- Why there is no result: the bound ran out, or the source reports a failure. -/
inductive Stop
  | fuel
  | failed
  deriving DecidableEq

/-- `cc_pp_node`.  A call that a directive interrupts keeps the macro it was read with. -/
structure Node where
  token : Token
  frozen : Option (Fin macrosMax × Macro)

def Node.fresh (t : Token) : Node := ⟨t, none⟩

/-- The state of the preprocessor while a list is rescanned, and the answer of the header
lookup, from whether it is `__has_include_next`, the name and whether it is quoted; no answer is
the failure of `__has_include_next` in the last directory. -/
structure Tables where
  macros : List Macro
  macros_le : macros.length ≤ macrosMax
  queryEnabled : Nat → Bool
  inCondition : Bool
  allowIncomplete : Bool
  skipping : Bool
  headers : Bool → Text → Bool → Option Bool

/-- `cc_pp_find`. -/
def Tables.find (env : Tables) (name : Token) : Option (Fin macrosMax × Macro) :=
  match h : env.macros.findIdx? (·.name = name.text) with
  | none => none
  | some i =>
      have hi : i < env.macros.length := (List.findIdx?_eq_some_iff_findIdx_eq.mp h).1
      some (⟨i, hi.trans_le env.macros_le⟩, env.macros.get ⟨i, hi⟩)

/-! ## The call of a function-like macro -/

/-- `cc_pp_argument_view`: the tokens it spans, newlines included. -/
structure View where
  tokens : List Token
  omitted : Bool

/-- The loop of `cc_pp_call_views`: the views, the closing parenthesis and what follows it. -/
def callLoop (m : Macro) (views : List View) (current : List Token) (any : Bool) (depth : Nat) :
    List Node → Option (List View × Node × List Node)
  | [] => none
  | node :: rest =>
      if node.token.newline then callLoop m views (current ++ [node.token]) any depth rest
      else
        let closing := node.token.kind = .punctuator ')' ∧ depth = 0
        let separator := node.token.kind = .punctuator ',' ∧ depth = 0
        if closing ∧ ¬ any ∧ views = [] ∧ m.parameters = [] then some ([], node, rest)
        else if closing ∨ (separator ∧ ¬ m.isLast views.length) then
          if views.length ≥ m.parameters.length then none
          else if closing then
            let views :=
              if m.isLast (views.length + 1) then views ++ [⟨current, false⟩, ⟨[], true⟩]
              else if m.variadic && m.parameters.length = 1 && !any then [⟨current, true⟩]
              else views ++ [⟨current, false⟩]
            if views.length = m.parameters.length then some (views, node, rest) else none
          else callLoop m (views ++ [⟨current, false⟩]) [] false 0 rest
        else if node.token.kind = .punctuator '(' then
          if depth = 64 then none
          else callLoop m views (current ++ [node.token]) true (depth + 1) rest
        else if node.token.kind = .punctuator ')' then
          callLoop m views (current ++ [node.token]) true (depth - 1) rest
        else callLoop m views (current ++ [node.token]) true depth rest

/-- `cc_pp_call_views`, from what follows the opening parenthesis. -/
def callViews (m : Macro) (rest : List Node) : Option (List View × Node × List Node) :=
  if m.parameters.length > 128 then none else callLoop m [] [] false 0 rest

/-- The tokens of a view without the newlines, which leave a space. -/
def rawTokens (space : Bool) : List Token → List Token
  | [] => []
  | t :: tokens =>
      if t.newline then rawTokens true tokens
      else { t with space := t.space || space } :: rawTokens false tokens

/-- The loop that finds out whether an argument must be expanded, with the two tokens before. -/
def neededLoop (m : Macro) (i : Nat) (before₂ before : Option Token) : List Token → Bool
  | [] => false
  | token :: rest =>
      (m.isLast i && token.is "__VA_OPT__") ||
      if token.is "#" then
        match rest with
        | [] => false
        | operand :: rest =>
            (m.isLast i && operand.is "__VA_OPT__") ||
              neededLoop m i (some token) (some operand) rest
      else
        (m.parameterIndex token = some i &&
          !(before.any (·.is "##") &&
            !(m.isLast i && before₂.any (·.kind = .punctuator ','))) &&
          !startsPaste rest) ||
        neededLoop m i before (some token) rest

/-- The variable `needed` after its loop. -/
def needed (m : Macro) (i : Nat) : Bool := neededLoop m i none none m.body

/-- What an argument expands to where that is needed. -/
def expandArgument (expand : List Token → Except Stop (List Token)) (m : Macro) (i : Nat)
    (raw : List Token) : Except Stop (List Token) :=
  if needed m i then expand raw else pure raw

/-- The arguments of a call, expanded where they must be. -/
def fillArguments (expand : List Token → Except Stop (List Token)) (m : Macro) (i : Nat) :
    List View → Except Stop (List Argument)
  | [] => pure []
  | view :: views => do
      let raw := rawTokens false view.tokens
      let expanded ← expandArgument expand m i raw
      let arguments ← fillArguments expand m (i + 1) views
      pure (⟨raw, expanded, view.omitted⟩ :: arguments)

/-- A failure of the source. -/
def orFailed {α : Type} : Option α → Except Stop α
  | some a => pure a
  | none => .error .failed

/-- `cc_pp_function_replace`, from what follows the opening parenthesis: the tokens of the
replacement, the closing parenthesis and what follows it. -/
def functionReplace (skipping : Bool) (expand : List Token → Except Stop (List Token))
    (depth : Nat) (m : Macro) (rest : List Node) :
    Except Stop (List Token × Node × List Node) := do
  let (views, closing, after) ← orFailed (callViews m rest)
  if depth = 64 then .error .failed
  else do
    let arguments ← fillArguments expand m 0 views
    let output ← orFailed (substitute skipping m arguments)
    pure (output, closing, after)

/-! ## The replacement of an object-like macro -/

/-- The body from a token on, which the operators after it join with what follows. -/
def objectLoop (skipping : Bool) (token : Token) (paste : Bool) : List Token → Option (List Token)
  | [] => if paste then none else some [token]
  | t :: body =>
      if t.is "##" then objectLoop skipping token true body
      else if paste then do
        let joined ← token.paste skipping t
        objectLoop skipping joined false body
      else (objectLoop skipping t false body).map (token :: ·)

def objectReplace (skipping : Bool) : List Token → Option (List Token)
  | [] => some []
  | t :: body => objectLoop skipping t false body

/-! ## Queries -/

/-- `cc_pp_query_symbol`. -/
def querySymbol (t : Token) : Nat :=
  if t.kind ≠ .ident then 0
  else if t.is "__has_include" then 1
  else if t.is "__has_include_next" then 2
  else if t.is "__has_attribute" then 3
  else if t.is "__has_builtin" then 4
  else if t.is "__COPYSPACE__" then 5
  else 0

/-- `cc_pp_query_kind`. -/
def Tables.queryKind (env : Tables) (t : Token) : Nat :=
  if querySymbol t ≠ 0 ∧ env.queryEnabled (querySymbol t - 1) ∧
      ¬ (env.find t).any (fun found ↦ found.2.present) then querySymbol t
  else 0

/-- The loop of `cc_pp_query_expand` to the closing parenthesis. -/
def queryTokens (nesting : Nat) : List Node → Option (List Token × List Node)
  | [] => none
  | node :: rest =>
      if node.token.is ")" then
        if nesting = 0 then some ([], rest)
        else (queryTokens (nesting - 1) rest).map fun (ts, rest) ↦ (node.token :: ts, rest)
      else
        (queryTokens (if node.token.is "(" then nesting + 1 else nesting) rest).map
          fun (ts, rest) ↦ (node.token :: ts, rest)

/-- `cc_pp_header_byte` for the bytes of a text. -/
def headerBytes (name text : Text) : Option Text :=
  if name.length + text.length > 4096 ∨ '\x00' ∈ text ∨ '\n' ∈ text then none
  else some (name ++ text)

/-- A header name between angle brackets, after the first of them. -/
def headerAngle (name : Text) : List Token → Option Text
  | [] => none
  | t :: tokens =>
      if t.is ">" then if tokens = [] then some name else none
      else do
        let name ← headerBytes name ((if t.space then [' '] else []) ++ t.text)
        headerAngle name tokens

/-- The name in a literal or a header token. -/
def headerQuoted (t : Token) : Option (Text × Bool) :=
  let quote := t.text.head? = some '"'
  if (t.kind = .literal ∨ t.kind = .header) ∧ t.text.length ≥ 2 ∧
      (quote ∨ (t.kind = .header ∧ t.text.head? = some '<')) ∧
      t.text.getLast? = some (if quote then '"' else '>') then
    (headerBytes [] (t.text.drop 1).dropLast).map fun name ↦ (name, quote)
  else none

/-- `cc_pp_header_tokens`: the name of a header, and whether it is quoted. -/
def headerTokens (tokens : List Token) : Option (Text × Bool) := do
  let (name, quote) ← match tokens with
    | [] => none
    | t :: tokens =>
        if tokens = [] ∧ (headerQuoted t).isSome then headerQuoted t
        else if t.is "<" then (headerAngle [] tokens).map fun name ↦ (name, false)
        else none
  if name = [] then none else some (name, quote)

/-- `__has_attribute`. -/
def attributeQuery : List Token → Option Bool
  | [] => none
  | t :: tokens =>
      let known (t : Token) : Bool :=
        t.is "packed" || t.is "__packed__" || t.is "aligned" || t.is "__aligned__"
      let scope := t.is "gnu" || t.is "__gnu__"
      let within : List Token → Option Bool
        | [named] => if named.kind = .ident then some (scope && known named) else none
        | _ => none
      if t.kind ≠ .ident then none
      else match tokens with
        | [] => some (known t)
        | colon :: tokens =>
            if colon.is "::" then within tokens
            else if colon.is ":" then
              match tokens with
              | [] => none
              | second :: tokens => if second.is ":" then within tokens else none
            else none

/-- `__has_builtin`. -/
def builtinQuery : List Token → Option Bool
  | [t] =>
      if t.kind = .ident then
        some (t.is "__builtin_offsetof" || t.is "__builtin_types_compatible_p" ||
          t.is "__builtin_expect" || t.is "__builtin_va_start" || t.is "__builtin_va_copy" ||
          t.is "__builtin_va_end")
      else none
  | _ => none

/-- The answer of a query to its operand. -/
def Tables.answer (env : Tables) (kind : Nat) (tokens : List Token) : Option Bool :=
  if kind = 3 then attributeQuery tokens
  else if kind = 4 then builtinQuery tokens
  else do
    let (name, quote) ← headerTokens tokens
    env.headers (kind = 2) name quote

def number (text : String) : Token := ⟨text.toList, .number, ∅, false⟩

/-- The operand of a query, expanded unless it begins a header name. -/
def queryOperand (expand : List Token → Except Stop (List Token)) :
    List Token → Except Stop (List Token)
  | [] => .error .failed
  | t :: tokens =>
      if t.kind = .header ∨ t.is "<" then pure (t :: tokens) else expand (t :: tokens)

/-- `cc_pp_query_expand` for a query with what follows it: the number that replaces it, and the
rest. -/
def queryExpand (env : Tables) (expand : List Token → Except Stop (List Token)) (depth kind : Nat)
    (rest : List Node) : Except Stop (Token × List Node) :=
  if depth ≥ 64 then .error .failed
  else if kind = 5 then pure (number "1", rest)
  else match rest with
    | [] => .error .failed
    | opening :: rest =>
        if opening.token.is "(" then do
          let (tokens, after) ← orFailed (queryTokens 0 rest)
          let tokens ← queryOperand expand tokens
          let found ← orFailed (env.answer kind tokens)
          pure (number (if found then "1" else "0"), after)
        else .error .failed

/-! ## The walk -/

/-- What one turn of the loop does: the cursor moves past the node, stays in front of other
nodes, or stops at a call that a directive interrupts. -/
inductive Step
  | skip
  | replace (nodes : List Node)
  | blocked (nodes : List Node)

/-- The parentheses that `balance` counts are closed. -/
def balanced (balance : Nat) : List Node → Bool
  | [] => false
  | node :: rest =>
      if node.token.kind = .punctuator '(' then balanced (balance + 1) rest
      else if node.token.kind = .punctuator ')' then balance = 1 || balanced (balance - 1) rest
      else balanced balance rest

/-- The nodes of a replacement hide what the macro's name and its closing parenthesis both hid,
and the macro. -/
def replacement (hidden : Finset (Fin macrosMax)) (space : Bool) : List Token → List Node
  | [] => []
  | t :: tokens =>
      ⟨{ t with hidden := t.hidden ∪ hidden, space }, none⟩ ::
        tokens.map fun t ↦ ⟨{ t with hidden := t.hidden ∪ hidden }, none⟩

/-- A replacement takes the place of a call; an empty one leaves its space. -/
def splice (space : Bool) (new rest : List Node) : List Node :=
  match new, rest with
  | [], node :: rest =>
      { node with token := { node.token with space := node.token.space || space } } :: rest
  | new, rest => new ++ rest

/-- `cc_pp_freeze` for a node in front of the others. -/
def freeze (index : Fin macrosMax) (m : Macro) (before : List Node) (node : Node)
    (rest : List Node) : Except Stop Node :=
  if node.frozen.isSome then pure node
  else if (before ++ rest).countP (·.frozen.isSome) ≥ 64 then .error .failed
  else pure { node with frozen := some (index, m) }

/-- One turn of the loop of `cc_pp_rescan_depth`. -/
def advance (env : Tables) (expand : List Token → Except Stop (List Token)) (depth : Nat)
    (before : List Node) (node : Node) (rest : List Node) : Except Stop Step :=
  let query := env.queryKind node.token
  if query ≠ 0 then
    if query ≤ 2 ∧ ¬ env.inCondition then .error .failed
    else do
      let (token, rest) ← queryExpand env expand depth query rest
      pure (.replace ({ node with token } :: rest))
  else match node.frozen <|> (if node.token.kind = .ident then env.find node.token else none) with
    | none => pure .skip
    | some (index, m) =>
        if ¬ m.present ∨ index ∈ node.token.hidden then pure .skip
        else if m.function then
          match rest.dropWhile (·.token.newline) with
          | [] => pure .skip
          | opening :: inside =>
              if opening.token.kind ≠ .punctuator '(' then pure .skip
              else if env.allowIncomplete ∧ depth = 0 ∧ ¬ balanced 1 inside then do
                let node ← freeze index m before node rest
                pure (.blocked (node :: rest))
              else do
                let (output, closing, after) ←
                  functionReplace env.skipping expand depth m inside
                let hidden := insert index (node.token.hidden ∩ closing.token.hidden)
                let new := replacement hidden node.token.space output
                pure (.replace (splice node.token.space new after))
        else do
          let output ← orFailed (objectReplace env.skipping m.body)
          let new := replacement (insert index node.token.hidden) node.token.space output
          pure (.replace (splice node.token.space new rest))

/-- `cc_pp_rescan_depth` with the nodes before the cursor: all nodes at the end, or those before
a blocked call and the call with what follows it. -/
def rescan (env : Tables) : Nat → Nat → List Node → List Node →
    Except Stop (List Node × List Node)
  | 0, _, _, _ => .error .fuel
  | _ + 1, _, before, [] => pure (before, [])
  | n + 1, depth, before, node :: rest => do
      let expand (tokens : List Token) : Except Stop (List Token) := do
        let (before, rest) ← rescan env n (depth + 1) [] (tokens.map Node.fresh)
        pure ((before ++ rest).map Node.token)
      match ← advance env expand depth before node rest with
      | .skip => rescan env n depth (before ++ [node]) rest
      | .replace nodes => rescan env n depth before nodes
      | .blocked nodes => pure (before, nodes)

end CopySpace.Preprocess
