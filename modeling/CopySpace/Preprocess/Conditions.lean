import CopySpace.Preprocess.Climbing

/-!
# Nothing but expressions is accepted

Whatever a call reads is derived at the level it was asked for; the loop carries the derivation of
what it has read so far.  Together with the reading of every expression this says what the value of
a condition is.
-/

namespace CopySpace.Preprocess

/-! ## What is read is derived -/

section Sound

variable {query : Text → Bool} {level minimum left : Nat} {run : Bool} {v v' : Value} {t : Token}
  {tokens pre rest : List Token} {e : Expr}

/-- The call has read an expression of its level up to a token that does not continue it. -/
def Reads (query : Text → Bool) (left level : Nat) (run : Bool) (tokens : List Token) (v : Value)
    (rest : List Token) : Prop :=
  ∃ pre e, tokens = pre ++ rest ∧ Derives (Accepted query) level pre e ∧ e.height ≤ left ∧
    e.valueOf run = some v ∧ ∀ t ∈ rest.head?, precedence t < level

/-- The operands of a loop are expressions. -/
def OperandReads (query : Text → Bool) (left : Nat) (operand : Operand) : Prop :=
  ∀ level run tokens v rest, 1 ≤ level → level ≤ 13 →
    (∀ t ∈ tokens, IsToken t.text t.kind) → operand level run tokens = some (v, rest) →
      ∃ deeper, left = deeper + 1 ∧ Reads query deeper level run tokens v rest

/-- What the loop does before an operator. -/
theorem climb_binary_cases {operand : Operand} {op : BinaryOp} (ht : t.is op.text)
    (hlevel : minimum ≤ op.level)
    (h : climb operand minimum run v (t :: tokens) = some (v', rest)) :
    ∃ b next w, operand (op.level + 1) (rightRun t run v) tokens = some (b, next) ∧
      binary t v b run = some w ∧ next.length ≤ tokens.length ∧
        climb operand minimum run w next = some (v', rest) := by
  have hquestion : t.is "?" = false := by
    refine not_is_of_is ?_ ht
    cases op <;> decide
  rw [climb.eq_def] at h
  dsimp only at h
  rw [precedence_of_is ht, if_neg (Nat.not_lt.mpr hlevel),
    if_neg (by rw [hquestion]; decide)] at h
  split at h
  case h_1 b next hoperand =>
    split at h
    case h_1 w hbinary =>
      split at h
      case isTrue hlength => exact ⟨b, next, w, hoperand, hbinary, hlength, h⟩
      case isFalse => cases h
    case h_2 => cases h
  case h_2 => cases h

theorem climb_conditional_cases {operand : Operand} (ht : t.is "?") (hlevel : minimum ≤ 2)
    (h : climb operand minimum run v (t :: tokens) = some (v', rest)) :
    ∃ a colon mid b next, operand 1 (run && decide (v.bits ≠ 0)) tokens = some (a, colon :: mid) ∧
      colon.is ":" ∧ operand 2 (run && !decide (v.bits ≠ 0)) mid = some (b, next) ∧
        next.length ≤ tokens.length ∧ climb operand minimum run
          ⟨if v.bits ≠ 0 then a.bits else b.bits, a.unsign || b.unsign⟩ next = some (v', rest) := by
  rw [climb.eq_def] at h
  dsimp only at h
  rw [precedence_question ht, if_neg (Nat.not_lt.mpr hlevel), if_pos ht] at h
  split at h
  case isTrue => cases h
  case isFalse =>
    split at h
    case h_1 a colon mid hleft =>
      split at h
      case isTrue hcolon =>
        split at h
        case h_1 b next hright =>
          split at h
          case isTrue hlength =>
            refine ⟨a, colon, mid, b, next, hleft, hcolon, hright, hlength, ?_⟩
            rw [← h]
          case isFalse => cases h
        case h_2 => cases h
      case isFalse => cases h
    case h_2 => cases h

/-- The loop goes on with the expression it has read. -/
theorem climb_reads {operand : Operand} (hoperand : OperandReads query left operand)
    (hmin : 1 ≤ minimum) (hle : minimum ≤ level) (hpre : Derives (Accepted query) level pre e)
    (hheight : e.height ≤ left) (hvalue : e.valueOf run = some v) (hfollows : Follows level tokens)
    (htokens : ∀ t ∈ tokens, IsToken t.text t.kind)
    (h : climb operand minimum run v tokens = some (v', rest)) :
    ∃ mid e', tokens = mid ++ rest ∧ Derives (Accepted query) minimum (pre ++ mid) e' ∧
      e'.height ≤ left ∧ e'.valueOf run = some v' ∧ ∀ t ∈ rest.head?, precedence t < minimum := by
  induction hlength : tokens.length using Nat.strong_induction_on
    generalizing level pre e v tokens with
  | _ length ih =>
    by_cases hstop : ∀ t ∈ tokens.head?, precedence t < minimum
    · rw [climb_stop hstop] at h
      cases h
      refine ⟨[], e, rfl, ?_, hheight, hvalue, hstop⟩
      rw [List.append_nil]
      exact hpre.lower hmin hle
    · rcases tokens with _ | ⟨t, tail⟩
      · exact absurd nofun hstop
      have hlow : minimum ≤ precedence t := by
        by_contra hlt
        refine hstop ?_
        rintro _ ⟨⟩
        exact Nat.lt_of_not_le hlt
      obtain ⟨hhigh, htwo⟩ := hfollows t rfl
      have htail := (List.forall_mem_cons.mp htokens).2
      rcases precedence_cases t with hzero | hquestion | ⟨op, hop, hprecedence⟩
      · omega
      · rw [precedence_question hquestion] at hlow hhigh htwo
        obtain ⟨a, colon, mid, b, next, hleft, hcolon, hright, hnext, hrest⟩ :=
          climb_conditional_cases hquestion hlow h
        obtain ⟨deeper, rfl, pre', e', rfl, hderives, hheight', hvalue', -⟩ :=
          hoperand 1 _ _ _ _ le_rfl (by decide) htail hleft
        have hmid : ∀ t ∈ mid, IsToken t.text t.kind := fun t ht ↦ htail t (by simp [ht])
        obtain ⟨deeper', heq, pre'', e'', rfl, hderives', hheight'', hvalue'', hbehind⟩ :=
          hoperand 2 _ _ _ _ (by decide) (by decide) hmid hright
        obtain rfl : deeper = deeper' := Nat.succ.inj heq
        have hcondition : Derives (Accepted query) 3 pre e := hpre.lower (by decide) (by omega)
        obtain ⟨mid', e₀, rfl, hresult⟩ := ih next.length (by simp at hlength; omega) hlow
          (.conditional hquestion hcolon hcondition hderives hderives')
          (max_le_iff.mpr ⟨hheight, max_le_iff.mpr ⟨Nat.succ_le_succ hheight',
            Nat.succ_le_succ hheight''⟩⟩)
          (by rw [valueOf_conditional, hvalue, Option.bind_some, hvalue', Option.bind_some, hvalue'']
              rfl)
          (fun t ht ↦ ⟨(hbehind t ht).le, fun _ ↦ hbehind t ht⟩)
          (fun t ht ↦ hmid t (List.mem_append_right _ ht)) hrest rfl
        refine ⟨t :: (pre' ++ colon :: (pre'' ++ mid')), e₀, by simp, ?_, hresult.2⟩
        simpa using hresult.1
      · rw [hprecedence] at hlow hhigh htwo
        obtain ⟨b, next, w, hright, hbinary, hnext, hrest⟩ := climb_binary_cases hop hlow h
        have hop' := level_le op
        obtain ⟨deeper, rfl, pre', e', rfl, hderives, hheight', hvalue', hbehind⟩ :=
          hoperand (op.level + 1) _ _ _ _ (by omega) (by omega) htail hright
        have hleft : Derives (Accepted query) op.level pre e := hpre.lower hop'.1 hhigh
        obtain ⟨mid', e₀, rfl, hresult⟩ := ih next.length (by simp at hlength; omega) hlow
          (.binary hop hleft hderives)
          (max_le_iff.mpr ⟨hheight, Nat.succ_le_succ hheight'⟩)
          (by rw [valueOf_binary hop, hvalue, Option.bind_some, hvalue', Option.bind_some, hbinary])
          (fun t ht ↦ ⟨Nat.le_of_lt_succ (hbehind t ht), fun h ↦ absurd h hop'.2.2⟩)
          (fun t ht ↦ htail t (List.mem_append_right _ ht)) hrest rfl
        refine ⟨t :: (pre' ++ mid'), e₀, by simp, ?_, hresult.2⟩
        simpa using hresult.1

/-- What a call of `cc_pp_unary` has read, and how deep its calls were nested. -/
def ReadsUnary (query : Text → Bool) (left : Nat) : Prop :=
  ∀ run tokens v rest, (∀ t ∈ tokens, IsToken t.text t.kind) →
    unary query left run tokens = some (v, rest) →
      ∃ pre e, tokens = pre ++ rest ∧ Derives (Accepted query) 13 pre e ∧ e.height ≤ left ∧
        e.valueOf run = some v

theorem unaryOp_of_is (h : (t.is "+" || t.is "-" || t.is "!" || t.is "~") = true) :
    ∃ op : UnaryOp, t.is op.text := by
  simp only [Bool.or_eq_true, or_assoc] at h
  rcases h with h | h | h | h
  · exact ⟨.plus, h⟩
  · exact ⟨.minus, h⟩
  · exact ⟨.not, h⟩
  · exact ⟨.complement, h⟩

theorem unary_reads (hevaluate : OperandReads query left (evaluate query left))
    (hunary : ReadsUnary query left) : ReadsUnary query (left + 1) := by
  intro run tokens v rest htokens h
  rcases tokens with _ | ⟨t, tail⟩
  · cases h
  obtain ⟨ht, htail⟩ := List.forall_mem_cons.mp htokens
  rw [unary] at h
  by_cases hparen : t.is "("
  · rw [if_pos hparen] at h
    split at h
    case h_1 w closing behind hinner =>
      split_ifs at h with hclosing
      cases h
      obtain ⟨deeper, rfl, pre, e, rfl, hderives, hheight, hvalue, -⟩ :=
        hevaluate 1 _ _ _ _ le_rfl (by decide) htail hinner
      exact ⟨t :: (pre ++ [closing]), .paren e, by simp, .paren hparen hclosing hderives,
        Nat.succ_le_succ (Nat.succ_le_succ hheight), hvalue⟩
    case h_2 => cases h
  rw [if_neg hparen] at h
  by_cases hop : (t.is "+" || t.is "-" || t.is "!" || t.is "~") = true
  · rw [if_pos hop] at h
    obtain ⟨⟨w, behind⟩, hinner, heq⟩ := Option.map_eq_some_iff.mp h
    cases heq
    obtain ⟨op, hop⟩ := unaryOp_of_is hop
    obtain ⟨pre, e, rfl, hderives, hheight, hvalue⟩ := hunary run tail w _ htail hinner
    refine ⟨t :: pre, .unary op e, rfl, .unary hop hderives, Nat.succ_le_succ hheight, ?_⟩
    rw [← unaryValue_eq hop, hvalue]
    rfl
  · rw [if_neg hop] at h
    obtain ⟨w, hconstant, heq⟩ := Option.map_eq_some_iff.mp h
    cases heq
    refine ⟨[t], .constant w, rfl, .constant ⟨ht, hconstant⟩, Nat.succ_le_succ (Nat.zero_le _), ?_⟩
    cases run <;> rfl

/-- What the calls read are expressions. -/
theorem evaluate_reads (query : Text → Bool) (left : Nat) :
    OperandReads query left (evaluate query left) ∧ ReadsUnary query left := by
  induction left with
  | zero =>
    constructor
    · intro level run tokens v rest _ _ _ h
      rw [evaluate] at h
      cases h
    · intro run tokens v rest _ h
      rw [unary] at h
      cases h
  | succ left ih =>
    obtain ⟨hevaluate, hunary⟩ := ih
    refine ⟨?_, unary_reads hevaluate hunary⟩
    intro level run tokens v rest hone hle htokens h
    rw [evaluate] at h
    obtain ⟨⟨w, behind⟩, hfirst, hloop⟩ := Option.bind_eq_some_iff.mp h
    obtain ⟨pre, e, rfl, hderives, hheight, hvalue⟩ := hunary run tokens w behind htokens hfirst
    have hfollows : Follows 13 behind := fun t _ ↦
      ⟨(precedence_le t).trans (by decide), fun h ↦ absurd h (by decide)⟩
    obtain ⟨mid, e', rfl, hderives', hheight', hvalue', hbehind⟩ :=
      climb_reads hevaluate hone hle hderives hheight hvalue hfollows
        (fun t ht ↦ htokens t (List.mem_append_right _ ht)) hloop
    exact ⟨left, rfl, pre ++ mid, e', (List.append_assoc ..).symm, hderives', hheight', hvalue',
      hbehind⟩

end Sound

/-! ## The value of a condition -/

section Condition

variable {query : Text → Bool} {tokens : List Token} {v : Value} {e : Expr}

/-- The tokens are an expression of the language, nested no deeper than the limit, whose value is
`v`. -/
def HasValue (isConstant : Token → Value → Prop) (tokens : List Token) (v : Value) : Prop :=
  ∃ e, Derives isConstant 1 tokens e ∧ e.height < depthMax ∧ e.bits = some v.bits ∧
    e.unsign = v.unsign

theorem valueOf_true : e.valueOf true = some v ↔ e.bits = some v.bits ∧ e.unsign = v.unsign := by
  obtain ⟨bits, unsign⟩ := v
  rw [Expr.valueOf, if_pos rfl, Option.map_eq_some_iff]
  constructor
  · rintro ⟨_, hbits, ⟨⟩⟩
    exact ⟨hbits, rfl⟩
  · rintro ⟨hbits, rfl⟩
    exact ⟨bits, hbits, rfl⟩

/-- The value of an expression is the one it is read with. -/
theorem conditionValue_derives (h : Derives (Accepted query) 1 tokens e) :
    conditionValue query tokens = if e.height < depthMax then e.valueOf true else none := by
  have hread := @ReadLevel.stop _ _ _ _ h.read.2 le_rfl [] nofun depthMax true
  rw [List.append_nil] at hread
  rw [conditionValue, hread]
  by_cases hheight : e.height < depthMax
  · rw [if_pos (Nat.succ_le_of_lt hheight), if_pos hheight]
    cases e.valueOf true <;> rfl
  · rw [if_neg fun h ↦ hheight (Nat.lt_of_succ_le h), if_neg hheight]
    rfl

/-- The values of conditions are those of the expressions over the constants that are accepted. -/
theorem conditionValue_iff (htokens : ∀ t ∈ tokens, IsToken t.text t.kind) :
    conditionValue query tokens = some v ↔
      HasValue (fun t v ↦ constant query t = some v) tokens v := by
  constructor
  · intro h
    rw [conditionValue] at h
    split at h
    case h_1 w heq =>
      cases h
      obtain ⟨deeper, hdepth, pre, e, rfl, hderives, hheight, hvalue, -⟩ :=
        (evaluate_reads query depthMax).1 1 _ _ _ _ le_rfl (by decide) htokens heq
      rw [List.append_nil]
      exact ⟨e, hderives.imp fun _ _ _ h ↦ h.2, by omega, valueOf_true.mp hvalue⟩
    case h_2 => cases h
  · rintro ⟨e, hderives, hheight, hvalue⟩
    rw [conditionValue_derives (hderives.imp fun t ht _ h ↦ ⟨htokens t ht, h⟩), if_pos hheight,
      valueOf_true.mpr hvalue]

/-- A token of an expression is a constant or an operator. -/
theorem Derives.mem {p : Token → Value → Prop} {level : Nat} (h : Derives p level tokens e)
    {t : Token} (ht : t ∈ tokens) :
    (∃ v, p t v) ∨ t.is "(" ∨ t.is ")" ∨ t.is "?" ∨ t.is ":" ∨ (∃ op : UnaryOp, t.is op.text) ∨
      ∃ op : BinaryOp, t.is op.text := by
  induction h with
  | constant hv => exact .inl ⟨_, List.mem_singleton.mp ht ▸ hv⟩
  | paren hleft hright _ ih =>
    simp only [List.mem_cons, List.mem_append, List.not_mem_nil, or_false] at ht
    rcases ht with rfl | ht | rfl
    · exact .inr (.inl hleft)
    · exact ih ht
    · exact .inr (.inr (.inl hright))
  | unary hop _ ih =>
    rcases List.mem_cons.mp ht with rfl | ht
    · exact .inr (.inr (.inr (.inr (.inr (.inl ⟨_, hop⟩)))))
    · exact ih ht
  | binary hop _ _ iha ihb =>
    simp only [List.mem_cons, List.mem_append] at ht
    rcases ht with ht | rfl | ht
    · exact iha ht
    · exact .inr (.inr (.inr (.inr (.inr (.inr ⟨_, hop⟩)))))
    · exact ihb ht
  | conditional hquestion hcolon _ _ _ ihc iha ihb =>
    simp only [List.mem_cons, List.mem_append] at ht
    rcases ht with ht | rfl | ht | rfl | ht
    · exact ihc ht
    · exact .inr (.inr (.inr (.inl hquestion)))
    · exact iha ht
    · exact .inr (.inr (.inr (.inr (.inl hcolon))))
    · exact ihb ht
  | tighter _ _ _ ih => exact ih ht

/-- No expression of the language has such a string. -/
theorem not_hasValue_of_quoted {t : Token} (ht : t ∈ tokens) (hquoted : Quoted t) :
    ¬ HasValue (IsConstant query) tokens v := by
  rintro ⟨e, hderives, -⟩
  have hoperator {text : String} (h : t.is text) : text.toList.take 2 = ['"', '\''] :=
    is_iff.mp h ▸ hquoted.2
  rcases hderives.mem ht with ⟨v, hv⟩ | h | h | h | h | ⟨op, h⟩ | ⟨op, h⟩
  · exact not_isConstant_of_quoted hquoted hv
  · exact absurd (hoperator h) (by decide)
  · exact absurd (hoperator h) (by decide)
  · exact absurd (hoperator h) (by decide)
  · exact absurd (hoperator h) (by decide)
  · exact absurd (hoperator h) (by cases op <;> decide)
  · exact absurd (hoperator h) (by cases op <;> decide)

theorem HasValue.imp {p q : Token → Value → Prop} (h : HasValue p tokens v)
    (hpq : ∀ t ∈ tokens, ∀ v, p t v → q t v) : HasValue q tokens v := by
  obtain ⟨e, hderives, hvalue⟩ := h
  exact ⟨e, hderives.imp hpq, hvalue⟩

theorem readTokens_isToken {s : Text} (h : readTokens false s = some tokens) :
    ∀ t ∈ tokens, IsToken t.text t.kind := by
  induction tokens generalizing s with
  | nil => exact nofun
  | cons t tokens ih =>
    rw [readTokens_eq] at h
    split at h
    · cases h
    · cases h
    case h_3 rest hnext =>
      obtain ⟨_, hrest, heq⟩ := Option.map_eq_some_iff.mp h
      cases heq
      exact List.forall_mem_cons.mpr ⟨next_isToken hnext, ih hrest⟩

/-- The value of a text is that of its tokens, as an expression over the constants of the language
and the strings that are taken for such. -/
theorem conditionText_iff {s : Text} : conditionText query s = some v ↔
    ∃ tokens, readTokens false s = some tokens ∧
      HasValue (IsConstantOrString query) tokens v := by
  rw [conditionText, Option.bind_eq_some_iff]
  refine exists_congr fun tokens ↦ and_congr_right fun htokens ↦ ?_
  have hall := readTokens_isToken htokens
  rw [conditionValue_iff hall]
  exact ⟨(·.imp fun t ht _ ↦ (constant_iff (hall t ht)).mp),
    (·.imp fun t ht _ ↦ (constant_iff (hall t ht)).mpr)⟩

end Condition

end CopySpace.Preprocess
