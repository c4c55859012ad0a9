import CopySpace.Preprocess.Constants
import CopySpace.Preprocess.Output

/-!
# `preprocess_condition.h`: the evaluation of a condition

Tokens are read one by one, an operand first and then operators as long as they bind tightly
enough.  What is not evaluated is read all the same.  The text of a condition is refused unless it
is read to its end; so its tokens are read first, and the flag for a failure is the absence of a
result.
-/

namespace CopySpace.Preprocess

/-- `ops` and `levels`. -/
def operators : List (String × Nat) :=
  [(",", 1), ("?", 2), ("||", 3), ("&&", 4), ("|", 5), ("^", 6), ("&", 7), ("==", 8), ("!=", 8),
    ("<", 9), ("<=", 9), (">", 9), (">=", 9), ("<<", 10), (">>", 10), ("+", 11), ("-", 11),
    ("*", 12), ("/", 12), ("%", 12)]

/-- `cc_pp_precedence`. -/
def precedence (t : Token) : Nat :=
  match operators.find? fun op ↦ t.is op.1 with
  | some (_, level) => level
  | none => 0

/-- `cc_pp_binary`. -/
def binary (op : Token) (a b : Value) (run : Bool) : Option Value :=
  let unsign := a.unsign || b.unsign
  if op.is "," then some b
  else
    let boolean := precedence op = 8 || precedence op = 9 || op.is "&&" || op.is "||"
    let sign := if boolean then false
      else if op.is "<<" || op.is ">>" then a.unsign else unsign
    let value (bits : BitVec 64) : Option Value := some ⟨bits, sign⟩
    let truth (b : Bool) : Option Value := value (if b then 1 else 0)
    if !run then value 0
    else if op.is "+" then value (a.bits + b.bits)
    else if op.is "-" then value (a.bits - b.bits)
    else if op.is "*" then value (a.bits * b.bits)
    else if op.is "&" then value (a.bits &&& b.bits)
    else if op.is "|" then value (a.bits ||| b.bits)
    else if op.is "^" then value (a.bits ^^^ b.bits)
    else if op.is "&&" then truth (a.bits ≠ 0 && b.bits ≠ 0)
    else if op.is "||" then truth (a.bits ≠ 0 || b.bits ≠ 0)
    else if op.is "==" then truth (a.bits = b.bits)
    else if op.is "!=" then truth (a.bits ≠ b.bits)
    else if op.is "<<" || op.is ">>" then
      if b.bits.toNat ≥ 64 then none
      else if op.is "<<" then value (a.bits <<< b.bits.toNat)
      else if a.unsign then value (a.bits >>> b.bits.toNat)
      else value (a.bits.sshiftRight b.bits.toNat)
    else if op.is "/" || op.is "%" then
      if b.bits = 0 || (!unsign && a.bits = BitVec.intMin 64 && b.bits = BitVec.allOnes 64) then none
      else if unsign then value (if op.is "/" then a.bits / b.bits else a.bits % b.bits)
      else value (if op.is "/" then a.bits.sdiv b.bits else a.bits.srem b.bits)
    else
      let less := if unsign then a.bits.ult b.bits else a.bits.slt b.bits
      if op.is "<" then truth less
      else if op.is "<=" then truth (less || a.bits = b.bits)
      else if op.is ">" then truth (!less && a.bits ≠ b.bits)
      else if op.is ">=" then truth (!less)
      else none

/-- What `cc_pp_unary` makes of an operand. -/
def unaryValue (op : Token) (run : Bool) (v : Value) : Value :=
  if op.is "!" then ⟨if run && v.bits = 0 then 1 else 0, false⟩
  else if run && op.is "-" then ⟨0 - v.bits, v.unsign⟩
  else if run && op.is "~" then ⟨~~~v.bits, v.unsign⟩
  else v

/-- How the calls read an operand: the lowest level, whether it is evaluated, and the tokens. -/
abbrev Operand := Nat → Bool → List Token → Option (Value × List Token)

/-- The loop of `cc_pp_evaluate`.  No operand is empty, so that fewer tokens are left each time. -/
def climb (operand : Operand) (minimum : Nat) (run : Bool) (v : Value) (tokens : List Token) :
    Option (Value × List Token) :=
  match tokens with
  | [] => some (v, [])
  | op :: tail =>
      if precedence op < minimum then some (v, op :: tail)
      else if op.is "?" then
        let selected := v.bits ≠ 0
        if tail.head?.any (·.is ":") then none
        else match operand 1 (run && selected) tail with
          | some (a, colon :: rest) =>
              if colon.is ":" then
                match operand (precedence op) (run && !selected) rest with
                | some (b, rest) =>
                    if _h : rest.length ≤ tail.length then
                      climb operand minimum run
                        ⟨if selected then a.bits else b.bits, a.unsign || b.unsign⟩ rest
                    else none
                | none => none
              else none
          | _ => none
      else
        let right := if op.is "&&" && v.bits = 0 then false
          else if op.is "||" && v.bits ≠ 0 then false else run
        match operand (precedence op + 1) right tail with
        | some (b, rest) =>
            match binary op v b run with
            | some v =>
                if _h : rest.length ≤ tail.length then climb operand minimum run v rest else none
            | none => none
        | none => none
termination_by tokens.length
decreasing_by all_goals exact Nat.lt_succ_of_le ‹_›

mutual

/-- `cc_pp_unary`, with the number of calls that may still be nested. -/
def unary (query : Text → Bool) : Nat → Bool → List Token → Option (Value × List Token)
  | 0, _, _ => none
  | _ + 1, _, [] => none
  | left + 1, run, t :: rest =>
      if t.is "(" then
        match evaluate query left 1 run rest with
        | some (v, closing :: rest) => if closing.is ")" then some (v, rest) else none
        | _ => none
      else if t.is "+" || t.is "-" || t.is "!" || t.is "~" then
        (unary query left run rest).map fun (v, rest) ↦ (unaryValue t run v, rest)
      else (constant query t).map fun v ↦ (if run then v else ⟨0, v.unsign⟩, rest)

/-- `cc_pp_evaluate`. -/
def evaluate (query : Text → Bool) : Nat → Operand
  | 0, _, _, _ => none
  | left + 1, minimum, run, tokens =>
      (unary query left run tokens).bind fun (v, rest) ↦
        climb (evaluate query left) minimum run v rest

end

/-- The deepest nesting of calls. -/
def depthMax : Nat := 64

/-- The value of a condition's tokens, as `cc_pp_condition_line_run` asks for it: nothing may be
left behind the expression. -/
def conditionValue (query : Text → Bool) (tokens : List Token) : Option Value :=
  match evaluate query depthMax 1 true tokens with
  | some (v, []) => some v
  | _ => none

/-- The value of a condition's text. -/
def conditionText (query : Text → Bool) (s : Text) : Option Value :=
  (readTokens false s).bind (conditionValue query)

end CopySpace.Preprocess
