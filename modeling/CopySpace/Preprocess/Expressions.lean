import CopySpace.Lib.Integers
import CopySpace.Preprocess.Constants

/-!
# Conditional expressions of the language

The grammar gives every operator its place by levels, from the comma to the unary operators.  An
expression stands for an integer of 64 bits with or without a sign; an operand that is not evaluated
only takes part in the choice of the sign.
-/

namespace CopySpace.Preprocess

open Integers

/-! ## Operators -/

inductive UnaryOp
  | plus | minus | not | complement
  deriving DecidableEq

inductive BinaryOp
  | comma | or | and | bitOr | bitXor | bitAnd | eq | ne | lt | le | gt | ge
  | shl | shr | add | sub | mul | div | mod
  deriving DecidableEq

def UnaryOp.text : UnaryOp → String
  | plus => "+" | minus => "-" | not => "!" | complement => "~"

namespace BinaryOp

def text : BinaryOp → String
  | comma => "," | or => "||" | and => "&&" | bitOr => "|" | bitXor => "^" | bitAnd => "&"
  | eq => "==" | ne => "!=" | lt => "<" | le => "<=" | gt => ">" | ge => ">="
  | shl => "<<" | shr => ">>" | add => "+" | sub => "-" | mul => "*" | div => "/" | mod => "%"

/-- The level of the grammar whose expressions the operator makes; the second one is that of the
conditional operator, and the thirteenth that of the unary operators. -/
def level : BinaryOp → Nat
  | comma => 1 | or => 3 | and => 4 | bitOr => 5 | bitXor => 6 | bitAnd => 7
  | eq | ne => 8 | lt | le | gt | ge => 9 | shl | shr => 10 | add | sub => 11
  | mul | div | mod => 12

end BinaryOp

/-! ## Expressions -/

inductive Expr
  | constant (v : Value)
  | paren (e : Expr)
  | unary (op : UnaryOp) (e : Expr)
  | binary (op : BinaryOp) (a b : Expr)
  | conditional (c a b : Expr)

/-- The grammar: the tokens of an expression of a level. -/
inductive Derives (isConstant : Token → Value → Prop) : Nat → List Token → Expr → Prop
  | constant {t : Token} {v : Value} : isConstant t v → Derives isConstant 13 [t] (.constant v)
  | paren {left right : Token} {tokens : List Token} {e : Expr} : left.is "(" → right.is ")" →
      Derives isConstant 1 tokens e →
        Derives isConstant 13 (left :: (tokens ++ [right])) (.paren e)
  | unary {op : UnaryOp} {t : Token} {tokens : List Token} {e : Expr} : t.is op.text →
      Derives isConstant 13 tokens e → Derives isConstant 13 (t :: tokens) (.unary op e)
  | binary {op : BinaryOp} {t : Token} {left right : List Token} {a b : Expr} : t.is op.text →
      Derives isConstant op.level left a → Derives isConstant (op.level + 1) right b →
        Derives isConstant op.level (left ++ t :: right) (.binary op a b)
  | conditional {question colon : Token} {condition left right : List Token} {c a b : Expr} :
      question.is "?" → colon.is ":" → Derives isConstant 3 condition c →
        Derives isConstant 1 left a → Derives isConstant 2 right b →
          Derives isConstant 2 (condition ++ question :: (left ++ colon :: right))
            (.conditional c a b)
  | tighter {level : Nat} {tokens : List Token} {e : Expr} : 1 ≤ level → level < 13 →
      Derives isConstant (level + 1) tokens e → Derives isConstant level tokens e

/-! ## Their meaning -/

def ofBool (b : Bool) : BitVec 64 := if b then 1 else 0

/-- The value of a unary operator. -/
def UnaryOp.apply (unsign : Bool) (x : BitVec 64) : UnaryOp → BitVec 64
  | plus => x
  | minus => BitVec.ofInt 64 (-asInt unsign x)
  | not => ofBool (asInt unsign x = 0)
  | complement => BitVec.ofInt 64 (-asInt unsign x - 1)

/-- An operator whose operands are both evaluated fails on them: division by zero, a quotient that
does not fit, or a shift by a count outside the word. -/
def BinaryOp.Fails (op : BinaryOp) (unsign unsign' : Bool) (x y : BitVec 64) : Prop :=
  match op with
  | div | mod => asInt (unsign || unsign') y = 0 ∨ (unsign || unsign') = false ∧
      asInt false x = -2 ^ 63 ∧ asInt false y = -1
  | shl | shr => ¬ (0 ≤ asInt unsign' y ∧ asInt unsign' y < 64)
  | _ => False

instance (op : BinaryOp) (unsign unsign' : Bool) (x y : BitVec 64) :
    Decidable (op.Fails unsign unsign' x y) :=
  match op with
  | .div | .mod => inferInstanceAs (Decidable (_ ∨ _ ∧ _ ∧ _))
  | .shl | .shr => inferInstanceAs (Decidable (¬ (_ ∧ _)))
  | .comma | .or | .and | .bitOr | .bitXor | .bitAnd | .eq | .ne | .lt | .le | .gt | .ge
  | .add | .sub | .mul => inferInstanceAs (Decidable False)

/-- The value of an operator whose operands are both evaluated.  They are converted to a common
type, which is unsigned if one of them is; the count of a shift is not. -/
def BinaryOp.apply (op : BinaryOp) (unsign unsign' : Bool) (x y : BitVec 64) : BitVec 64 :=
  let a := asInt (unsign || unsign') x
  let b := asInt (unsign || unsign') y
  match op with
  | comma => y
  | or => ofBool (x ≠ 0 ∨ y ≠ 0)
  | and => ofBool (x ≠ 0 ∧ y ≠ 0)
  | bitOr => x ||| y
  | bitXor => x ^^^ y
  | bitAnd => x &&& y
  | eq => ofBool (a = b)
  | ne => ofBool (a ≠ b)
  | lt => ofBool (a < b)
  | le => ofBool (a ≤ b)
  | gt => ofBool (a > b)
  | ge => ofBool (a ≥ b)
  | shl => BitVec.ofInt 64 (asInt unsign x * 2 ^ (asInt unsign' y).toNat)
  | shr => BitVec.ofInt 64 (asInt unsign x / 2 ^ (asInt unsign' y).toNat)
  | add => BitVec.ofInt 64 (a + b)
  | sub => BitVec.ofInt 64 (a - b)
  | mul => BitVec.ofInt 64 (a * b)
  | div => BitVec.ofInt 64 (a.tdiv b)
  | mod => BitVec.ofInt 64 (a.tmod b)

/-- Whether the value of an operator is unsigned. -/
def BinaryOp.unsign (op : BinaryOp) (unsign unsign' : Bool) : Bool :=
  match op with
  | comma => unsign'
  | or | and | eq | ne | lt | le | gt | ge => false
  | shl | shr => unsign
  | _ => unsign || unsign'

namespace Expr

/-- Whether the value of an expression is unsigned; this does not depend on what is evaluated. -/
def unsign : Expr → Bool
  | constant v => v.unsign
  | paren e => e.unsign
  | unary .not _ => false
  | unary _ e => e.unsign
  | binary op a b => op.unsign a.unsign b.unsign
  | conditional _ a b => a.unsign || b.unsign

/-- The value of an expression, if no operand that is evaluated fails. -/
def bits : Expr → Option (BitVec 64)
  | constant v => some v.bits
  | paren e => e.bits
  | unary op e => e.bits.map (op.apply e.unsign ·)
  | binary op a b => a.bits.bind fun x ↦
      if op = .and ∧ x = 0 then some 0
      else if op = .or ∧ x ≠ 0 then some 1
      else b.bits.bind fun y ↦
        if op.Fails a.unsign b.unsign x y then none else some (op.apply a.unsign b.unsign x y)
  | conditional c a b => c.bits.bind fun x ↦ if x ≠ 0 then a.bits else b.bits

/-- How deep the calls of the source go for an expression: a parenthesis takes two, and so do the
operands on the right. -/
def height : Expr → Nat
  | constant _ => 1
  | paren e => e.height + 2
  | unary _ e => e.height + 1
  | binary _ a b => max a.height (b.height + 1)
  | conditional c a b => max c.height (max (a.height + 1) (b.height + 1))

end Expr

end CopySpace.Preprocess
