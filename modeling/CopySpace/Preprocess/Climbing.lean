import CopySpace.Preprocess.Operate

/-!
# Conditions are read by the grammar

The calls of `cc_pp_evaluate` are compared with the derivations of the grammar.  A derivation of a
level is read by a call that stops below this level or a lower one; on the way the loop holds the
value of what has been derived so far.
-/

namespace CopySpace.Preprocess

/-! ## The loop -/

section Climb

variable {operand : Operand} {minimum : Nat} {run : Bool} {v : Value} {t : Token}
  {tokens tail rest : List Token} {op : BinaryOp}

/-- The loop ends before a token that does not bind tightly enough. -/
theorem climb_stop (h : ∀ t ∈ tokens.head?, precedence t < minimum) :
    climb operand minimum run v tokens = some (v, tokens) := by
  rw [climb.eq_def]
  rcases tokens with _ | ⟨t, tail⟩
  · rfl
  · exact if_pos (h t rfl)

theorem climb_binary {o : Option Value} (run : Bool) (v : Value) (ht : t.is op.text) (hlevel : minimum ≤ op.level)
    (hoperand : operand (op.level + 1) (rightRun t run v) tail = o.map (·, rest))
    (hrest : rest.length ≤ tail.length) :
    climb operand minimum run v (t :: tail) = o.bind fun b ↦ (binary t v b run).bind fun v ↦
      climb operand minimum run v rest := by
  have hquestion : t.is "?" = false := by
    refine not_is_of_is ?_ ht
    cases op <;> decide
  rw [climb]
  dsimp only
  rw [precedence_of_is ht, if_neg (Nat.not_lt.mpr hlevel), if_neg (by rw [hquestion]; decide)]
  unfold rightRun at hoperand
  rw [hoperand]
  cases o with
  | none => rfl
  | some b =>
    rw [Option.map_some, Option.bind_some]
    dsimp only
    cases binary t v b run with
    | none => rfl
    | some v' => exact dif_pos hrest

theorem climb_conditional {question colon : Token} {mid : List Token} {oa ob : Option Value}
    (run : Bool) (v : Value) (hquestion : question.is "?") (hcolon : colon.is ":") (hlevel : minimum ≤ 2)
    (hhead : ∀ t ∈ tail.head?, t.is ":" = false)
    (ha : operand 1 (run && v.bits ≠ 0) tail = oa.map (·, colon :: mid))
    (hb : operand 2 (run && !decide (v.bits ≠ 0)) mid = ob.map (·, rest))
    (hrest : rest.length ≤ tail.length) :
    climb operand minimum run v (question :: tail) = oa.bind fun a ↦ ob.bind fun b ↦
      climb operand minimum run ⟨if v.bits ≠ 0 then a.bits else b.bits, a.unsign || b.unsign⟩ rest := by
  have hany : ¬ (tail.head?.any (·.is ":")) = true := by
    rw [Option.any_eq_true]
    rintro ⟨t, ht, hc⟩
    rw [hhead t ht] at hc
    nomatch hc
  rw [climb]
  dsimp only
  rw [precedence_question hquestion, if_neg (Nat.not_lt.mpr hlevel), if_pos hquestion,
    if_neg hany, ha]
  cases oa with
  | none => rfl
  | some a =>
    rw [Option.map_some, Option.bind_some]
    dsimp only
    rw [if_pos hcolon, hb]
    cases ob with
    | none => rfl
    | some b => exact dif_pos hrest

end Climb

/-! ## Operands -/

section Operands

variable {query : Text → Bool} {p q : Token → Value → Prop} {level minimum left : Nat} {run : Bool}
  {v : Value} {t : Token} {tokens rest : List Token} {e : Expr}

/-- A token that stands for a value. -/
def Accepted (query : Text → Bool) (t : Token) (v : Value) : Prop :=
  IsToken t.text t.kind ∧ constant query t = some v

/-- No constant is spelled like an operator. -/
theorem Accepted.not_is (h : Accepted query t v) {text : String}
    (htext : text ∈ ["(", "+", "-", "!", "~", ":"]) : t.is text = false := by
  obtain ⟨htoken, hconstant⟩ := h
  have hhead : ∃ c ∈ t.text.head?, c ∉ ['(', '+', '-', '!', '~', ':'] := by
    generalize t.text = text', hkind : t.kind = kind at htoken
    cases htoken with
    | @literal opening s _ _ _ delimiter hstart =>
      have hquote := isQuote_iff.mp (isQuote_of_literalStart hstart)
      rcases literalStart_cases hstart with ⟨rfl, -⟩ | ⟨p, hp, rfl⟩ | rfl
      · exact ⟨'u', rfl, by decide⟩
      · exact ⟨p, rfl, by rcases hp with rfl | rfl | rfl <;> decide⟩
      · exact ⟨delimiter, rfl, by rcases hquote with rfl | rfl <;> decide⟩
    | @ident c _ hname =>
      have hall : ['(', '+', '-', '!', '~', ':'].all (!isName ·) := by decide
      refine ⟨c, rfl, fun hc ↦ ?_⟩
      have hno := List.all_eq_true.mp hall c hc
      rw [hname] at hno
      cases hno
    | @number c _ _ hdigit =>
      have hall : ['(', '+', '-', '!', '~', ':'].all fun c ↦ isDigit c = false ∧ c ≠ '.' := by
        decide
      refine ⟨c, rfl, fun hc ↦ ?_⟩
      obtain ⟨hno, hdot⟩ := List.all_iff_forall_prop.mp hall c hc
      rw [hno, decide_eq_false hdot] at hdigit
      cases hdigit
    | punctuator =>
      rw [constant, hkind] at hconstant
      cases hconstant
  obtain ⟨c, hc, hnot⟩ := hhead
  have hall : ∀ text ∈ ["(", "+", "-", "!", "~", ":"],
      text.toList.head?.all (· ∈ ['(', '+', '-', '!', '~', ':']) := by decide
  have hmem := (Option.all_eq_true _ _).mp (hall text htext) c
  refine Bool.eq_false_of_not_eq_true fun his ↦ hnot (of_decide_eq_true (hmem ?_))
  rwa [← is_iff.mp his]

/-- A derivation only asks for the constants among its tokens. -/
theorem Derives.imp (h : Derives p level tokens e) (hpq : ∀ t ∈ tokens, ∀ v, p t v → q t v) :
    Derives q level tokens e := by
  induction h with
  | constant hv => exact .constant (hpq _ (List.mem_singleton_self _) _ hv)
  | paren hleft hright _ ih =>
    exact .paren hleft hright (ih fun t ht ↦ hpq t (by simp [ht]))
  | unary ht _ ih => exact .unary ht (ih fun t ht ↦ hpq t (List.mem_cons_of_mem _ ht))
  | binary ht _ _ iha ihb =>
    exact .binary ht (iha fun t ht ↦ hpq t (by simp [ht])) (ihb fun t ht ↦ hpq t (by simp [ht]))
  | conditional hquestion hcolon _ _ _ ihc iha ihb =>
    exact .conditional hquestion hcolon (ihc fun t ht ↦ hpq t (by simp [ht]))
      (iha fun t ht ↦ hpq t (by simp [ht])) (ihb fun t ht ↦ hpq t (by simp [ht]))
  | tighter hone hlt _ ih => exact .tighter hone hlt (ih hpq)

theorem Derives.level_pos (h : Derives p level tokens e) : 1 ≤ level ∧ level ≤ 13 := by
  cases h with
  | constant | paren | unary | conditional => decide
  | @binary op =>
    have := level_le op
    omega
  | tighter hone hlt => omega

/-- An expression of a level is one of every lower level. -/
theorem Derives.lower (h : Derives p level tokens e) (hone : 1 ≤ minimum) (hle : minimum ≤ level) :
    Derives p minimum tokens e := by
  induction level, hle using Nat.le_induction with
  | base => exact h
  | succ level hle ih =>
    have := h.level_pos
    exact ih (.tighter (hone.trans hle) (by omega) h)

/-- No expression begins with a colon. -/
theorem Derives.head (h : Derives (Accepted query) level tokens e) :
    ∃ t tail, tokens = t :: tail ∧ t.is ":" = false := by
  induction h with
  | constant hv => exact ⟨_, _, rfl, hv.not_is (by decide)⟩
  | paren hleft => exact ⟨_, _, rfl, not_is_of_is (by decide) hleft⟩
  | @unary op _ _ _ ht => exact ⟨_, _, rfl, not_is_of_is (by cases op <;> decide) ht⟩
  | binary _ _ _ iha =>
    obtain ⟨t, tail, rfl, ht⟩ := iha
    exact ⟨t, _, rfl, ht⟩
  | conditional _ _ _ _ _ ihc =>
    obtain ⟨t, tail, rfl, ht⟩ := ihc
    exact ⟨t, _, rfl, ht⟩
  | tighter _ _ _ ih => exact ih

/-- What follows an expression of a level leaves it as it is. -/
def Follows (level : Nat) (rest : List Token) : Prop :=
  ∀ t ∈ rest.head?, precedence t ≤ level ∧ (level = 2 → precedence t < 2)

/-- An expression is read by `cc_pp_unary`, if the calls may be nested so deep. -/
def ReadUnary (query : Text → Bool) (tokens : List Token) (e : Expr) : Prop :=
  ∀ left run rest, unary query left run (tokens ++ rest) =
    if e.height ≤ left then (e.valueOf run).map (·, rest) else none

/-- An expression of a level is read by `cc_pp_evaluate`, whose loop then goes on with it. -/
def ReadLevel (query : Text → Bool) (level : Nat) (tokens : List Token) (e : Expr) : Prop :=
  ∀ left minimum run rest, 1 ≤ minimum → minimum ≤ level → Follows level rest →
    evaluate query (left + 1) minimum run (tokens ++ rest) =
      if e.height ≤ left then
        (e.valueOf run).bind fun v ↦ climb (evaluate query left) minimum run v rest
      else none

theorem ReadUnary.readLevel (h : ReadUnary query tokens e) : ReadLevel query level tokens e := by
  intro left minimum run rest _ _ _
  rw [evaluate, h]
  split_ifs
  · rw [Option.bind_map]
    rfl
  · rfl

/-- A call that stops behind the expression gives its value. -/
theorem ReadLevel.stop (h : ReadLevel query level tokens e) (hlevel : 1 ≤ level)
    {rest : List Token} (hrest : ∀ t ∈ rest.head?, precedence t < level) (left : Nat) (run : Bool) :
    evaluate query left level run (tokens ++ rest) =
      (if e.height + 1 ≤ left then e.valueOf run else none).map (·, rest) := by
  cases left with
  | zero =>
    rw [evaluate, if_neg (Nat.not_succ_le_zero _)]
    rfl
  | succ left =>
    rw [h left level run rest hlevel le_rfl fun t ht ↦ ⟨(hrest t ht).le, fun h2 ↦ h2 ▸ hrest t ht⟩]
    simp only [climb_stop hrest, Nat.add_le_add_iff_right]
    split_ifs
    · exact (Option.map_eq_bind ..).symm
    · rfl

end Operands

/-! ## Every expression is read -/

section Complete

variable {query : Text → Bool} {level : Nat} {t : Token} {tokens : List Token} {e : Expr}

theorem readUnary_constant {v : Value} (h : Accepted query t v) :
    ReadUnary query [t] (.constant v) := by
  intro left run rest
  cases left with
  | zero => rfl
  | succ left =>
    rw [List.singleton_append, unary, h.not_is (by decide), if_neg Bool.false_ne_true,
      h.not_is (by decide), h.not_is (by decide), h.not_is (by decide), h.not_is (by decide),
      if_neg (by decide), h.2,
      if_pos (show (Expr.constant v).height ≤ left + 1 from Nat.succ_le_succ (Nat.zero_le _))]
    cases run <;> rfl

theorem readUnary_paren {opening closing : Token} (hopening : opening.is "(")
    (hclosing : closing.is ")") (h : ReadLevel query 1 tokens e) :
    ReadUnary query (opening :: (tokens ++ [closing])) (.paren e) := by
  intro left run rest
  cases left with
  | zero => rfl
  | succ left =>
    have hstop (t : Token) (ht : t ∈ (closing :: rest).head?) : precedence t < 1 := by
      obtain rfl : closing = t := Option.some.inj ht
      rw [precedence_closing hclosing]
      decide
    rw [List.cons_append, List.append_assoc, List.singleton_append, unary, if_pos hopening,
      h.stop le_rfl hstop, show (Expr.paren e).valueOf run = e.valueOf run from rfl]
    by_cases hheight : e.height + 1 ≤ left
    · rw [if_pos hheight, if_pos (show (Expr.paren e).height ≤ left + 1 from Nat.succ_le_succ hheight)]
      cases e.valueOf run with
      | none => rfl
      | some v => exact if_pos hclosing
    · rw [if_neg hheight, if_neg (show ¬ (Expr.paren e).height ≤ left + 1 from
        fun h ↦ hheight (Nat.le_of_succ_le_succ h))]
      rfl

theorem readUnary_unary {op : UnaryOp} (ht : t.is op.text) (h : ReadUnary query tokens e) :
    ReadUnary query (t :: tokens) (.unary op e) := by
  intro left run rest
  have hparen : t.is "(" = false := not_is_of_is (by cases op <;> decide) ht
  have hop : (t.is "+" || t.is "-" || t.is "!" || t.is "~") = true := by
    cases op with
    | plus => rw [show t.is "+" = true from ht]; rfl
    | minus => rw [show t.is "-" = true from ht, Bool.or_true]; rfl
    | not => rw [show t.is "!" = true from ht, Bool.or_true]; rfl
    | complement => rw [show t.is "~" = true from ht, Bool.or_true]
  cases left with
  | zero => rfl
  | succ left =>
    rw [List.cons_append, unary, hparen, if_neg Bool.false_ne_true, if_pos hop, h, Expr.height,
      ← unaryValue_eq ht]
    simp only [Nat.add_le_add_iff_right]
    split_ifs
    · rw [Option.map_map, Option.map_map]
      rfl
    · rfl

theorem readLevel_binary {op : BinaryOp} {left right : List Token} {a b : Expr}
    (ht : t.is op.text) (ha : ReadLevel query op.level left a)
    (hb : ReadLevel query (op.level + 1) right b) :
    ReadLevel query op.level (left ++ t :: right) (.binary op a b) := by
  intro depth minimum run rest hone hle hrest
  obtain ⟨-, -, htwo⟩ := level_le op
  have hfollows : Follows op.level (t :: (right ++ rest)) := by
    rintro _ ⟨⟩
    exact ⟨(precedence_of_is ht).le, fun h ↦ absurd h htwo⟩
  have hstop (u : Token) (hu : u ∈ rest.head?) : precedence u < op.level + 1 :=
    Nat.lt_succ_of_le (hrest u hu).1
  rw [List.append_assoc, List.cons_append, ha depth minimum run _ hone hle hfollows,
    valueOf_binary ht]
  have hclimb (v : Value) := climb_binary run v ht hle
    (hb.stop (Nat.le_add_left 1 _) hstop depth (rightRun t run v))
    (by rw [List.length_append]; exact Nat.le_add_left _ _)
  have hheight : (Expr.binary op a b).height ≤ depth ↔ a.height ≤ depth ∧ b.height + 1 ≤ depth :=
    max_le_iff
  simp only [hheight, hclimb]
  by_cases hdeep : b.height + 1 ≤ depth
  · simp only [hdeep, and_true, if_true, Option.bind_assoc]
  · simp only [hdeep, and_false, if_false, Option.bind_none, Option.bind_fun_none, ite_self]

theorem readLevel_conditional {question colon : Token} {condition left right : List Token}
    {c a b : Expr} (hquestion : question.is "?") (hcolon : colon.is ":")
    (hc : ReadLevel query 3 condition c) (hhead : ∃ t tail, left = t :: tail ∧ t.is ":" = false)
    (ha : ReadLevel query 1 left a) (hb : ReadLevel query 2 right b) :
    ReadLevel query 2 (condition ++ question :: (left ++ colon :: right)) (.conditional c a b) := by
  intro depth minimum run rest hone hle hrest
  have hfollows : Follows 3 (question :: ((left ++ colon :: right) ++ rest)) := by
    rintro _ ⟨⟩
    rw [precedence_question hquestion]
    decide
  have hstop (u : Token) (hu : u ∈ (colon :: (right ++ rest)).head?) : precedence u < 1 := by
    obtain rfl : colon = u := Option.some.inj hu
    rw [precedence_colon hcolon]
    decide
  have hstop' (u : Token) (hu : u ∈ rest.head?) : precedence u < 2 := (hrest u hu).2 rfl
  rw [List.append_assoc, List.cons_append, hc depth minimum run _ hone (hle.trans (by decide)) hfollows,
    valueOf_conditional, List.append_assoc, List.cons_append]
  have hclimb (v : Value) := climb_conditional run v hquestion hcolon hle
    (by
      obtain ⟨t, tail, rfl, ht⟩ := hhead
      rintro _ ⟨⟩
      exact ht)
    (ha.stop le_rfl hstop depth (run && decide (v.bits ≠ 0)))
    (hb.stop (by decide) hstop' depth (run && !decide (v.bits ≠ 0)))
    (by rw [List.length_append, List.length_cons, List.length_append]; omega)
  have hheight : (Expr.conditional c a b).height ≤ depth ↔
      c.height ≤ depth ∧ a.height + 1 ≤ depth ∧ b.height + 1 ≤ depth :=
    max_le_iff.trans (and_congr_right' max_le_iff)
  simp only [hheight, hclimb]
  by_cases hdeep : a.height + 1 ≤ depth
  · by_cases hdeep' : b.height + 1 ≤ depth
    · simp only [hdeep, hdeep', and_true, if_true, Option.bind_assoc, Option.bind_some]
    · simp only [hdeep, hdeep', and_false, if_true, if_false, Option.bind_none,
        Option.bind_fun_none, ite_self]
  · simp only [hdeep, and_false, false_and, if_false, Option.bind_none, Option.bind_fun_none, ite_self]

/-- Every expression is read, and the loop of its level goes on with it. -/
theorem Derives.read (h : Derives (Accepted query) level tokens e) :
    (level = 13 → ReadUnary query tokens e) ∧ ReadLevel query level tokens e := by
  induction h with
  | constant hv => exact ⟨fun _ ↦ readUnary_constant hv, (readUnary_constant hv).readLevel⟩
  | paren hleft hright _ ih =>
    have hread := readUnary_paren hleft hright ih.2
    exact ⟨fun _ ↦ hread, hread.readLevel⟩
  | unary ht _ ih =>
    have hread := readUnary_unary ht (ih.1 rfl)
    exact ⟨fun _ ↦ hread, hread.readLevel⟩
  | @binary op _ _ _ _ _ ht _ _ iha ihb =>
    refine ⟨fun h ↦ ?_, readLevel_binary ht iha.2 ihb.2⟩
    have := level_le op
    omega
  | conditional hquestion hcolon _ ha _ ihc iha ihb =>
    exact ⟨nofun, readLevel_conditional hquestion hcolon ihc.2 ha.head iha.2 ihb.2⟩
  | @tighter level _ _ hone hlt _ ih =>
    refine ⟨fun h ↦ absurd h hlt.ne, fun left minimum run rest hmin hle hrest ↦ ?_⟩
    refine ih.2 left minimum run rest hmin (Nat.le_succ_of_le hle) fun t ht ↦ ?_
    have := hrest t ht
    exact ⟨by omega, fun _ ↦ by omega⟩

end Complete

end CopySpace.Preprocess
