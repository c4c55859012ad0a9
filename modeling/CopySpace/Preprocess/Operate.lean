import CopySpace.Preprocess.Evaluate
import CopySpace.Preprocess.Expressions

/-!
# The operators of a condition compute what the language says

What `cc_pp_precedence` and `cc_pp_binary` do for a token is compared with the operator that it
spells.
-/

namespace CopySpace.Preprocess

open Integers

variable {t u : Token} {op : BinaryOp} {a b : Value} {run unsign unsign' : Bool}
  {x y : BitVec 64}

/-- The token of an operator. -/
def Token.spell (text : String) : Token := ⟨text.toList, .punctuator ' ', ∅, false⟩

theorem precedence_congr (h : t.text = u.text) : precedence t = precedence u := by
  unfold precedence Token.is
  rw [h]

theorem binary_congr (h : t.text = u.text) : binary t a b run = binary u a b run := by
  unfold binary
  rw [precedence_congr h]
  unfold Token.is
  rw [h]

theorem precedence_of_is (h : t.is op.text) : precedence t = op.level := by
  rw [precedence_congr (u := .spell op.text) (is_iff.mp h)]
  cases op <;> decide

theorem precedence_question (h : t.is "?") : precedence t = 2 := by
  rw [precedence_congr (u := .spell "?") (is_iff.mp h)]
  decide

theorem precedence_closing (h : t.is ")") : precedence t = 0 := by
  rw [precedence_congr (u := .spell ")") (is_iff.mp h)]
  decide

theorem precedence_colon (h : t.is ":") : precedence t = 0 := by
  rw [precedence_congr (u := .spell ":") (is_iff.mp h)]
  decide

/-- A token with a level is the conditional operator or a binary one. -/
theorem precedence_cases (t : Token) : precedence t = 0 ∨ t.is "?" ∨
    ∃ op : BinaryOp, t.is op.text ∧ precedence t = op.level := by
  cases h : operators.find? fun op ↦ t.is op.1 with
  | none =>
    left
    rw [precedence, h]
  | some entry =>
    have his := List.find?_some h
    have hmem := List.mem_of_find?_eq_some h
    have hop (op : BinaryOp) (hop : entry.1 = op.text) :
        ∃ op : BinaryOp, t.is op.text ∧ precedence t = op.level :=
      ⟨op, hop ▸ his, precedence_of_is (hop ▸ his)⟩
    right
    simp only [operators, List.mem_cons, List.not_mem_nil, or_false] at hmem
    rcases hmem with rfl | rfl | rfl | rfl | rfl | rfl | rfl | rfl | rfl | rfl | rfl | rfl | rfl |
      rfl | rfl | rfl | rfl | rfl | rfl | rfl
    · exact .inr (hop .comma rfl)
    · exact .inl his
    · exact .inr (hop .or rfl)
    · exact .inr (hop .and rfl)
    · exact .inr (hop .bitOr rfl)
    · exact .inr (hop .bitXor rfl)
    · exact .inr (hop .bitAnd rfl)
    · exact .inr (hop .eq rfl)
    · exact .inr (hop .ne rfl)
    · exact .inr (hop .lt rfl)
    · exact .inr (hop .le rfl)
    · exact .inr (hop .gt rfl)
    · exact .inr (hop .ge rfl)
    · exact .inr (hop .shl rfl)
    · exact .inr (hop .shr rfl)
    · exact .inr (hop .add rfl)
    · exact .inr (hop .sub rfl)
    · exact .inr (hop .mul rfl)
    · exact .inr (hop .div rfl)
    · exact .inr (hop .mod rfl)

theorem level_le (op : BinaryOp) : 1 ≤ op.level ∧ op.level ≤ 12 ∧ op.level ≠ 2 := by
  cases op <;> decide

theorem precedence_le (t : Token) : precedence t ≤ 12 := by
  rcases precedence_cases t with h | h | ⟨op, -, h⟩
  · omega
  · rw [precedence_question h]
    decide
  · rw [h]
    exact (level_le op).2.1

/-- An operand that is not evaluated only gives its sign. -/
theorem binary_idle (h : t.is op.text) (hb : b.bits = 0) :
    binary t a b false = some ⟨0, op.unsign a.unsign b.unsign⟩ := by
  rw [binary_congr (u := .spell op.text) (is_iff.mp h)]
  obtain ⟨bits, unsign⟩ := b
  subst hb
  cases op <;> rfl

theorem ofBool_decide {p q : Prop} [Decidable p] [Decidable q] (h : p ↔ q) :
    ofBool (decide p) = if decide q then 1 else 0 := by
  rw [ofBool, decide_eq_decide.mpr h]

theorem asInt_le (unsign : Bool) (x y : BitVec 64) : asInt unsign x ≤ asInt unsign y ↔
    ((if unsign then x.ult y else x.slt y) = true ∨ x = y) := by
  rw [le_iff_lt_or_eq, asInt_lt, asInt_inj]

/-- The count of a shift is in the word if it is as a number without a sign. -/
theorem shift_count (unsign : Bool) (y : BitVec 64) :
    (0 ≤ asInt unsign y ∧ asInt unsign y < 64 ↔ y.toNat < 64) ∧
      (y.toNat < 64 → (asInt unsign y).toNat = y.toNat) := by
  unfold asInt
  split
  · omega
  · rw [BitVec.toInt_eq_toNat_cond]
    have := y.isLt
    split <;> omega

/-- Division fails on the two words that it is asked for. -/
theorem division_fails (unsign : Bool) (x y : BitVec 64) :
    (asInt unsign y = 0 ∨ unsign = false ∧ asInt false x = -2 ^ 63 ∧ asInt false y = -1) ↔
      (y = 0 || (!unsign && x = BitVec.intMin 64 && y = BitVec.allOnes 64)) = true := by
  have hmin : asInt false x = -2 ^ 63 ↔ x = BitVec.intMin 64 := by
    rw [show (-2 ^ 63 : Int) = asInt false (BitVec.intMin 64) from rfl, asInt_inj]
  have hones : asInt false y = -1 ↔ y = BitVec.allOnes 64 := by
    rw [show (-1 : Int) = asInt false (BitVec.allOnes 64) from rfl, asInt_inj]
  simp only [asInt_eq_zero, hmin, hones, Bool.or_eq_true, Bool.and_eq_true, Bool.not_eq_true',
    decide_eq_true_eq, and_assoc]
  rfl

/-- An operator computes what the language says. -/
theorem binary_run (h : t.is op.text) : binary t ⟨x, unsign⟩ ⟨y, unsign'⟩ true =
    if op.Fails unsign unsign' x y then none
    else some ⟨op.apply unsign unsign' x y, op.unsign unsign unsign'⟩ := by
  rw [binary_congr (u := .spell op.text) (is_iff.mp h)]
  have hlt := asInt_lt (unsign || unsign') x y
  have hle := asInt_le (unsign || unsign') x y
  have hgt : asInt (unsign || unsign') x > asInt (unsign || unsign') y ↔
      ¬ ((if (unsign || unsign') = true then x.ult y else x.slt y) = true ∨ x = y) := by
    rw [← hle, not_le]
  have hge : asInt (unsign || unsign') x ≥ asInt (unsign || unsign') y ↔
      ¬ (if (unsign || unsign') = true then x.ult y else x.slt y) = true := by
    rw [← hlt, not_lt]
  cases op with
  | comma | bitOr | bitXor | bitAnd => rfl
  | or =>
    change _ = some (Value.mk (ofBool (decide (x ≠ 0 ∨ y ≠ 0))) false)
    rw [Bool.decide_or]
    rfl
  | and =>
    change _ = some (Value.mk (ofBool (decide (x ≠ 0 ∧ y ≠ 0))) false)
    rw [Bool.decide_and]
    rfl
  | eq =>
    rw [BinaryOp.apply, ofBool_decide (asInt_inj (unsign || unsign') x y)]
    rfl
  | ne =>
    rw [BinaryOp.apply, ofBool_decide (asInt_inj (unsign || unsign') x y).not]
    rfl
  | lt =>
    rw [BinaryOp.apply, ofBool_decide hlt]
    rw [Bool.decide_eq_true]
    rfl
  | le =>
    rw [BinaryOp.apply, ofBool_decide hle, Bool.decide_or, Bool.decide_eq_true]
    rfl
  | gt =>
    rw [BinaryOp.apply, ofBool_decide hgt, decide_not, Bool.decide_or, Bool.decide_eq_true,
      Bool.not_or, ← decide_not]
    rfl
  | ge =>
    rw [BinaryOp.apply, ofBool_decide hge, decide_not, Bool.decide_eq_true]
    rfl
  | shl =>
    obtain ⟨hcount, hasInt⟩ := shift_count unsign' y
    change (if y.toNat ≥ 64 then none else some (Value.mk (x <<< y.toNat) unsign)) =
      if ¬ (0 ≤ asInt unsign' y ∧ asInt unsign' y < 64) then none
      else some ⟨BitVec.ofInt 64 (asInt unsign x * 2 ^ (asInt unsign' y).toNat), unsign⟩
    by_cases hy : y.toNat < 64
    · rw [if_neg (Nat.not_le.mpr hy), if_neg (not_not.mpr (hcount.mpr hy)), hasInt hy, ofInt_shiftLeft]
    · rw [if_pos (Nat.not_lt.mp hy), if_pos (hcount.not.mpr hy)]
  | shr =>
    obtain ⟨hcount, hasInt⟩ := shift_count unsign' y
    change (if y.toNat ≥ 64 then none else if unsign = true then some (Value.mk (x >>> y.toNat) unsign)
        else some ⟨x.sshiftRight y.toNat, unsign⟩) =
      if ¬ (0 ≤ asInt unsign' y ∧ asInt unsign' y < 64) then none
      else some ⟨BitVec.ofInt 64 (asInt unsign x / 2 ^ (asInt unsign' y).toNat), unsign⟩
    by_cases hy : y.toNat < 64
    · rw [if_neg (Nat.not_le.mpr hy), if_neg (not_not.mpr (hcount.mpr hy)), hasInt hy, ofInt_shiftRight]
      cases unsign <;> rfl
    · rw [if_pos (Nat.not_lt.mp hy), if_pos (hcount.not.mpr hy)]
  | add =>
    rw [BinaryOp.apply, ofInt_add]
    rfl
  | sub =>
    rw [BinaryOp.apply, ofInt_sub]
    rfl
  | mul =>
    rw [BinaryOp.apply, ofInt_mul]
    rfl
  | div =>
    change (if _ = true then none else if (unsign || unsign') = true then
        some (Value.mk (x / y) (unsign || unsign')) else some ⟨x.sdiv y, unsign || unsign'⟩) =
      if asInt (unsign || unsign') y = 0 ∨ (unsign || unsign') = false ∧
          asInt false x = -2 ^ 63 ∧ asInt false y = -1 then none
      else some ⟨BitVec.ofInt 64 ((asInt (unsign || unsign') x).tdiv (asInt (unsign || unsign') y)),
        unsign || unsign'⟩
    rw [ofInt_tdiv]
    by_cases hfails : (y = 0 || (!(unsign || unsign') && x = BitVec.intMin 64 &&
        y = BitVec.allOnes 64)) = true
    · rw [if_pos hfails, if_pos ((division_fails _ x y).mpr hfails)]
    · rw [if_neg hfails, if_neg ((division_fails _ x y).not.mpr hfails)]
      split <;> rfl
  | mod =>
    change (if _ = true then none else if (unsign || unsign') = true then
        some (Value.mk (x % y) (unsign || unsign')) else some ⟨x.srem y, unsign || unsign'⟩) =
      if asInt (unsign || unsign') y = 0 ∨ (unsign || unsign') = false ∧
          asInt false x = -2 ^ 63 ∧ asInt false y = -1 then none
      else some ⟨BitVec.ofInt 64 ((asInt (unsign || unsign') x).tmod (asInt (unsign || unsign') y)),
        unsign || unsign'⟩
    rw [ofInt_tmod]
    by_cases hfails : (y = 0 || (!(unsign || unsign') && x = BitVec.intMin 64 &&
        y = BitVec.allOnes 64)) = true
    · rw [if_pos hfails, if_pos ((division_fails _ x y).mpr hfails)]
    · rw [if_neg hfails, if_neg ((division_fails _ x y).not.mpr hfails)]
      split <;> rfl

/-! ## Values of expressions -/

/-- The value that is read for an expression: where it is not evaluated only its sign counts. -/
def Expr.valueOf (run : Bool) (e : Expr) : Option Value :=
  if run then e.bits.map (⟨·, e.unsign⟩) else some ⟨0, e.unsign⟩

theorem unaryValue_eq {op : UnaryOp} (h : t.is op.text) (run : Bool) (e : Expr) :
    (e.valueOf run).map (unaryValue t run) = (Expr.unary op e).valueOf run := by
  have hcongr (v : Value) : unaryValue t run v = unaryValue (.spell op.text) run v := by
    unfold unaryValue Token.is
    rw [is_iff.mp h]
    rfl
  have hvalue (x : BitVec 64) : unaryValue (.spell op.text) true ⟨x, e.unsign⟩ =
      ⟨op.apply e.unsign x, (Expr.unary op e).unsign⟩ := by
    cases op with
    | plus => rfl
    | minus =>
      rw [UnaryOp.apply, ofInt_neg, ← BitVec.zero_sub]
      rfl
    | not =>
      rw [UnaryOp.apply, ofBool_decide (asInt_eq_zero e.unsign x)]
      rfl
    | complement =>
      rw [UnaryOp.apply, Int.sub_eq_add_neg, BitVec.ofInt_add, ofInt_neg, BitVec.neg_eq_not_add,
        BitVec.add_assoc, show 1#64 + BitVec.ofInt 64 (-1) = 0#64 from rfl, BitVec.add_zero]
      rfl
  rw [funext hcongr]
  cases run with
  | false => cases op <;> rfl
  | true =>
    rw [Expr.valueOf, if_pos rfl, Expr.valueOf, if_pos rfl, Expr.bits, Option.map_map,
      Option.map_map]
    exact Option.map_congr fun x _ ↦ hvalue x

/-- Whether the right operand is evaluated. -/
def rightRun (t : Token) (run : Bool) (v : Value) : Bool :=
  if t.is "&&" && v.bits = 0 then false else if t.is "||" && v.bits ≠ 0 then false else run

theorem rightRun_congr (h : t.text = u.text) {v : Value} :
    rightRun t run v = rightRun u run v := by
  unfold rightRun Token.is
  rw [h]

/-- An operand on the right that is not evaluated decides nothing. -/
theorem binary_short (h : t.is op.text) (x : BitVec 64) (unsign unsign' : Bool) :
    ((op = .and ∧ x = 0) → rightRun t true ⟨x, unsign⟩ = false ∧
      binary t ⟨x, unsign⟩ ⟨0, unsign'⟩ true = some ⟨0, op.unsign unsign unsign'⟩) ∧
    ((op = .or ∧ x ≠ 0) → rightRun t true ⟨x, unsign⟩ = false ∧
      binary t ⟨x, unsign⟩ ⟨0, unsign'⟩ true = some ⟨1, op.unsign unsign unsign'⟩) ∧
    (¬ (op = .and ∧ x = 0) → ¬ (op = .or ∧ x ≠ 0) → rightRun t true ⟨x, unsign⟩ = true) := by
  rw [rightRun_congr (u := .spell op.text) (is_iff.mp h),
    binary_congr (u := .spell op.text) (is_iff.mp h)]
  refine ⟨?_, ?_, ?_⟩
  · rintro ⟨rfl, rfl⟩
    exact ⟨rfl, rfl⟩
  · rintro ⟨rfl, hx⟩
    constructor
    · change (if (true && decide (x ≠ 0)) = true then false else true) = false
      rw [Bool.true_and, if_pos (decide_eq_true hx)]
    · change some (Value.mk (if (decide (x ≠ 0) || decide ((0 : BitVec 64) ≠ 0)) = true then 1 else 0)
        false) = some ⟨1, false⟩
      rw [decide_eq_true hx, Bool.true_or, if_pos rfl]
  · intro hand hor
    cases op with
    | and =>
      change (if (true && decide (x = 0)) = true then false else true) = true
      rw [Bool.true_and, if_neg (by simpa using hand)]
    | or =>
      change (if (true && decide (x ≠ 0)) = true then false else true) = true
      rw [Bool.true_and, if_neg (by simpa using hor)]
    | _ => rfl

/-- What is read for an operator comes from what is read for its operands. -/
theorem valueOf_binary (h : t.is op.text) (run : Bool) (a b : Expr) :
    (Expr.binary op a b).valueOf run =
      (a.valueOf run).bind fun v ↦ (b.valueOf (rightRun t run v)).bind fun w ↦
        binary t v w run := by
  cases run with
  | false =>
    have hright (v : Value) : rightRun t false v = false := by
      unfold rightRun
      split_ifs <;> rfl
    rw [Expr.valueOf, if_neg Bool.false_ne_true, Expr.valueOf, if_neg Bool.false_ne_true,
      Option.bind_some, hright, Expr.valueOf, if_neg Bool.false_ne_true, Option.bind_some,
      binary_idle h rfl]
    rfl
  | true =>
    rw [Expr.valueOf, if_pos rfl, Expr.valueOf, if_pos rfl, Expr.bits]
    cases a.bits with
    | none => rfl
    | some x =>
      obtain ⟨hand, hor, hrun⟩ := binary_short h x a.unsign b.unsign
      rw [Option.bind_some, Option.map_some, Option.bind_some]
      split_ifs with hshort hshort'
      · obtain ⟨hright, hvalue⟩ := hand hshort
        rw [hright, Expr.valueOf, if_neg Bool.false_ne_true, Option.bind_some, hvalue]
        rfl
      · obtain ⟨hright, hvalue⟩ := hor hshort'
        rw [hright, Expr.valueOf, if_neg Bool.false_ne_true, Option.bind_some, hvalue]
        rfl
      · rw [hrun hshort hshort', Expr.valueOf, if_pos rfl]
        cases b.bits with
        | none => rfl
        | some y =>
          rw [Option.bind_some, Option.map_some, Option.bind_some, binary_run h]
          split <;> rfl

theorem valueOf_conditional (run : Bool) (c a b : Expr) :
    (Expr.conditional c a b).valueOf run =
      (c.valueOf run).bind fun v ↦ (a.valueOf (run && v.bits ≠ 0)).bind fun w ↦
        (b.valueOf (run && !decide (v.bits ≠ 0))).bind fun w' ↦
          some ⟨if v.bits ≠ 0 then w.bits else w'.bits, w.unsign || w'.unsign⟩ := by
  cases run with
  | false => rfl
  | true =>
    rw [Expr.valueOf, if_pos rfl, Expr.valueOf, if_pos rfl, Expr.bits]
    cases c.bits with
    | none => rfl
    | some x =>
      rw [Option.bind_some, Option.map_some, Option.bind_some, Bool.true_and, Bool.true_and]
      by_cases hx : x ≠ 0
      · rw [if_pos hx, decide_eq_true hx, Expr.valueOf, if_pos rfl]
        cases a.bits with
        | none => rfl
        | some y =>
          change _ = some (Value.mk (if x ≠ 0 then y else 0) (a.unsign || b.unsign))
          rw [if_pos hx]
          rfl
      · rw [if_neg hx, decide_eq_false hx]
        change _ = (b.valueOf true).bind _
        rw [Expr.valueOf, if_pos rfl]
        cases b.bits with
        | none => rfl
        | some y =>
          change _ = some (Value.mk (if x ≠ 0 then 0 else y) (a.unsign || b.unsign))
          rw [if_neg hx]
          rfl

end CopySpace.Preprocess
