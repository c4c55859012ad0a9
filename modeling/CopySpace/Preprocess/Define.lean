import CopySpace.Preprocess.Substitute

/-!
# `preprocess_macros.h`: the definition of a macro

What a token and what is skipped before it take from a text, and the part of `cc_pp_directive`
that reads a `#define`.  Reading does not depend on what was read, so that the line is taken apart
first.
-/

namespace CopySpace.Preprocess

variable {skipping : Bool} {s rest text t : Text} {c delimiter : Char} {kind : Kind}

/-! ## What a token takes from a text -/

theorem skipBlanks_suffix {mode : Skip} {start : Text} (h : skipBlanks mode s = some start) :
    ∃ skipped, s = skipped ++ start := by
  have cons {c : Char} {s : Text} (h : ∃ skipped, s = skipped ++ start) :
      ∃ skipped, c :: s = skipped ++ start := by
    obtain ⟨skipped, rfl⟩ := h
    exact ⟨c :: skipped, rfl⟩
  fun_induction skipBlanks mode s with
  | case1 s ih => exact cons (cons (ih h))
  | case2 s ih => exact cons (cons (ih h))
  | case3 c s _ _ _ ih => exact cons (ih h)
  | case4 | case5 | case6 | case8 => exact ⟨[], Option.some.inj h⟩
  | case7 c s _ ih => exact cons (ih h)
  | case9 s ih => exact cons (cons (ih h))
  | case10 => cases h
  | case11 c d s _ _ ih => exact cons (ih h)
  | case12 => cases h

theorem literalStart_split {opening : Text} (h : literalStart s = some (opening, delimiter, rest)) :
    s = opening ++ rest ∧ opening ≠ [] := by
  unfold literalStart at h
  split at h
  · cases h
    exact ⟨rfl, List.cons_ne_nil _ _⟩
  · split_ifs at h
    · cases h
      exact ⟨rfl, List.cons_ne_nil _ _⟩
    · cases h
      exact ⟨rfl, List.cons_ne_nil _ _⟩
  · split_ifs at h
    cases h
    exact ⟨rfl, List.cons_ne_nil _ _⟩
  · cases h

theorem literalRest_split (h : literalRest skipping delimiter s = some (t, rest)) :
    s = t ++ rest := by
  fun_induction literalRest skipping delimiter s generalizing t rest with
  | case1 | case3 | case5 | case7 =>
    cases h
    rfl
  | case2 | case4 | case6 | case8 | case9 => cases h
  | case10 _ _ _ d s _ ih =>
    obtain ⟨⟨t', rest'⟩, hrest, heq⟩ := Option.map_eq_some_iff.mp h
    cases heq
    rw [ih hrest]
    rfl
  | case11 c s _ _ _ _ ih =>
    obtain ⟨⟨t', rest'⟩, hrest, heq⟩ := Option.map_eq_some_iff.mp h
    cases heq
    rw [ih hrest]
    rfl

theorem identRest_split (s : Text) : s = (identRest s).1 ++ (identRest s).2 := by
  rw [identRest, List.span_eq_takeWhile_dropWhile, List.takeWhile_append_dropWhile]

theorem numberRest_split (c : Char) (s : Text) :
    s = (numberRest c s).1 ++ (numberRest c s).2 := by
  fun_induction numberRest c s with
  | case1 => rfl
  | case2 c d s _ t rest heq ih =>
    rw [heq] at ih
    exact congrArg (d :: ·) ih
  | case3 => rfl

theorem punctuator_split (s : Text) (hne : s ≠ []) :
    s = (punctuator s).1 ++ (punctuator s).2 ∧ (punctuator s).1 ≠ [] := by
  unfold punctuator
  split
  · exact ⟨rfl, List.cons_ne_nil _ _⟩
  · exact ⟨rfl, List.cons_ne_nil _ _⟩
  · exact ⟨rfl, List.cons_ne_nil _ _⟩
  · split
    · exact ⟨rfl, List.cons_ne_nil _ _⟩
    · exact ⟨rfl, List.cons_ne_nil _ _⟩
  · exact ⟨(List.append_nil _).symm, hne⟩

theorem lexeme_split (h : lexeme skipping c s = some (text, kind, rest)) :
    c :: s = text ++ rest ∧ text ≠ [] := by
  unfold lexeme at h
  split at h
  case h_1 opening delimiter after hstart =>
    obtain ⟨⟨t, rest'⟩, hrest, heq⟩ := Option.map_eq_some_iff.mp h
    cases heq
    obtain ⟨hsplit, hne⟩ := literalStart_split hstart
    rw [hsplit, literalRest_split hrest, List.append_assoc]
    exact ⟨rfl, List.append_ne_nil_of_left_ne_nil hne _⟩
  case h_2 =>
    split_ifs at h
    · cases h
      exact ⟨congrArg (c :: ·) (identRest_split s), List.cons_ne_nil _ _⟩
    · cases h
      exact ⟨congrArg (c :: ·) (numberRest_split c s), List.cons_ne_nil _ _⟩
    · cases h
      exact punctuator_split (c :: s) (List.cons_ne_nil c s)

/-- **A token is a part of the text, after what is skipped and before what is left.** -/
theorem next_split {token : Token} (h : next skipping s = some (some token, rest)) :
    (∃ skipped, s = skipped ++ token.text ++ rest) ∧ token.text ≠ [] := by
  unfold next at h
  split at h
  · cases h
  · cases h
  next c start hstart =>
    obtain ⟨⟨text, kind, rest'⟩, hlexeme, heq⟩ := Option.map_eq_some_iff.mp h
    cases heq
    obtain ⟨skipped, rfl⟩ := skipBlanks_suffix hstart
    obtain ⟨hsplit, hne⟩ := lexeme_split hlexeme
    exact ⟨⟨skipped, by rw [hsplit, List.append_assoc]⟩, hne⟩

theorem next_length {token : Token} (h : next skipping s = some (some token, rest)) :
    rest.length < s.length := by
  obtain ⟨⟨skipped, rfl⟩, hne⟩ := next_split h
  have := List.length_pos_of_ne_nil hne
  simp only [List.length_append]
  omega

theorem lexeme_ident (h : lexeme skipping c s = some (text, .ident, rest)) :
    isName c ∧ text.head? = some c := by
  unfold lexeme at h
  split at h
  · obtain ⟨⟨t, rest'⟩, -, heq⟩ := Option.map_eq_some_iff.mp h
    cases heq
  · split_ifs at h with hname
    · cases h
      exact ⟨hname, rfl⟩
    · cases h
    · cases h

/-- No identifier is an operator. -/
theorem next_ident {token : Token} (h : next skipping s = some (some token, rest))
    (hpaste : token.is "##") : token.kind ≠ .ident := by
  intro hkind
  unfold next at h
  split at h
  · cases h
  · cases h
  next c start _ =>
    obtain ⟨⟨text, kind, rest'⟩, hlexeme, heq⟩ := Option.map_eq_some_iff.mp h
    cases heq
    obtain rfl : kind = .ident := hkind
    obtain ⟨hname, hhead⟩ := lexeme_ident hlexeme
    have htext : text = ['#', '#'] := by simpa [Token.is] using hpaste
    rw [htext, List.head?_cons, Option.some.injEq] at hhead
    subst hhead
    exact absurd hname (by decide)

/-! ## Definitions -/

/-- The tokens up to the end of the line. -/
def lineTokens (skipping : Bool) (s : Text) : Option (List Token) :=
  match _h : next skipping s with
  | none => none
  | some (none, _) => some []
  | some (some t, rest) =>
      if t.newline then some [] else (lineTokens skipping rest).map (t :: ·)
termination_by s.length
decreasing_by exact next_length ‹_›

local instance lawfulParameter : LawfulBEq (List Char) := inferInstance

/-- The parameters after those that were read: their names, whether the macro is variadic, and
what follows the closing parenthesis. -/
def readParametersLoop (names : List Text) : List Token → Option (List Text × Bool × List Token)
  | [] => none
  | token :: rest =>
      if token.is "..." then
        match rest with
        | closing :: rest =>
            if "__VA_ARGS__".toList ∉ names ∧ closing.kind = .punctuator ')' then
              some (names ++ ["__VA_ARGS__".toList], true, rest)
            else none
        | [] => none
      else if token.kind ≠ .ident ∨ token.text ∈ names then none
      else match rest with
        | [] => none
        | separator :: rest =>
            if separator.is "..." then
              match rest with
              | closing :: rest =>
                  if closing.kind = .punctuator ')' then some (names ++ [token.text], true, rest)
                  else none
              | [] => none
            else if separator.kind = .punctuator ')' then
              some (names ++ [token.text], false, rest)
            else if separator.kind = .punctuator ',' then
              readParametersLoop (names ++ [token.text]) rest
            else none

/-- `cc_pp_read_parameters`, after the opening parenthesis. -/
def readParameters : List Token → Option (List Text × Bool × List Token)
  | [] => none
  | token :: rest =>
      if token.kind = .punctuator ')' then some ([], false, rest)
      else readParametersLoop [] (token :: rest)

theorem readParametersLoop_ne {names names' : List Text} {tokens rest : List Token}
    (h : readParametersLoop names tokens = some (names', true, rest)) : names' ≠ [] := by
  fun_induction readParametersLoop names tokens with
  | case2 | case7 =>
    cases h
    simp
  | case11 names token _ _ separator rest _ _ _ ih => exact ih h
  | _ => cases h

theorem readParameters_ne {names : List Text} {variadic : Bool} {tokens rest : List Token}
    (h : readParameters tokens = some (names, variadic, rest)) : variadic = true → names ≠ [] := by
  rintro rfl
  cases tokens with
  | nil => cases h
  | cons token tokens =>
    rw [readParameters] at h
    split_ifs at h
    · cases h
    · exact readParametersLoop_ne h

theorem readParametersLoop_suffix {names names' : List Text} {variadic : Bool}
    {tokens rest : List Token} (h : readParametersLoop names tokens = some (names', variadic, rest)) :
    rest <:+ tokens := by
  fun_induction readParametersLoop names tokens with
  | case2 | case7 | case10 =>
    cases h
    simp [List.suffix_cons_iff]
  | case11 names token _ _ separator rest _ _ _ ih =>
    exact (ih h).trans ((List.suffix_cons separator rest).trans (List.suffix_cons token _))
  | _ => cases h

theorem readParameters_suffix {names : List Text} {variadic : Bool} {tokens rest : List Token}
    (h : readParameters tokens = some (names, variadic, rest)) : rest <:+ tokens := by
  cases tokens with
  | nil => cases h
  | cons token tokens =>
    rw [readParameters] at h
    split_ifs at h
    · cases h
      exact List.suffix_cons token _
    · exact readParametersLoop_suffix h

/-- Every `__VA_OPT__` has its parentheses, and no operator at an end inside. -/
def vaOptChecked (body : List Token) : Bool :=
  match body with
  | [] => true
  | t :: body =>
      if t.is "__VA_OPT__" then
        match _h : vaOptEnd body with
        | none => false
        | some (inside, after) =>
            !startsPaste inside && !inside.getLast?.any (·.is "##") && vaOptChecked after
      else vaOptChecked body
termination_by body.length
decreasing_by
  · exact (vaOptEnd_length ‹_›).2.trans (Nat.lt_succ_self _)
  · exact Nat.lt_succ_self _

/-- Every `#` has a parameter after it. -/
def stringsChecked (m : Macro) : List Token → Bool
  | [] => true
  | t :: body =>
      if t.is "#" then
        match body with
        | [] => false
        | operand :: body =>
            ((m.parameterIndex operand).isSome || (m.variadic && operand.is "__VA_OPT__")) &&
              stringsChecked m body
      else stringsChecked m body

/-- The checks of `cc_pp_directive` on a macro. -/
def accepts (m : Macro) : Bool :=
  !startsPaste m.body && !m.body.getLast?.any (·.is "##") &&
    (!m.function || ((!m.variadic || vaOptChecked m.body) && stringsChecked m m.body))

/-- The macro that follows `#define`. -/
def readMacro : List Token → Option Macro
  | [] => none
  | name :: tokens =>
      if name.kind ≠ .ident then none
      else match tokens with
        | [] => some ⟨name.text, true, false, false, [], [], nofun⟩
        | token :: tokens =>
            if token.kind = .punctuator '(' ∧ ¬ token.space then
              match h : readParameters tokens with
              | none => none
              | some (parameters, variadic, body) =>
                  some ⟨name.text, true, true, variadic, parameters, body, readParameters_ne h⟩
            else some ⟨name.text, true, false, false, [], token :: tokens, nofun⟩

/-- `cc_pp_directive` after `#define`: the macro, if the definition is accepted. -/
def define (skipping : Bool) (line : Text) : Option Macro := do
  let tokens ← lineTokens skipping line
  let m ← readMacro tokens
  if accepts m then some m else none

/-- No operator is the name of a parameter. -/
def Named (body : List Token) : Prop := ∀ t ∈ body, t.is "##" = true → t.kind ≠ .ident

theorem lineTokens_named {tokens : List Token} (h : lineTokens skipping s = some tokens) :
    Named tokens := by
  fun_induction lineTokens skipping s generalizing tokens with
  | case1 => cases h
  | case2 | case3 =>
    cases h
    exact fun t ht ↦ nomatch ht
  | case4 s t rest hnext _ ih =>
    obtain ⟨others, hothers, rfl⟩ := Option.map_eq_some_iff.mp h
    exact List.forall_mem_cons.mpr ⟨next_ident hnext, ih hothers⟩

theorem readMacro_body {m : Macro} {tokens : List Token} (h : readMacro tokens = some m) :
    ∀ t ∈ m.body, t ∈ tokens := by
  unfold readMacro at h
  split at h
  · cases h
  next name tokens =>
    split_ifs at h
    split at h
    · cases h
      exact fun t ht ↦ nomatch ht
    next token tokens =>
      split_ifs at h
      · split at h
        · cases h
        next parameters variadic body hparameters =>
          cases h
          intro t ht
          have hin := (readParameters_suffix hparameters).subset ht
          exact List.mem_cons_of_mem _ (List.mem_cons_of_mem _ hin)
      · cases h
        exact fun t ht ↦ List.mem_cons_of_mem _ ht

theorem define_named {m : Macro} (h : define skipping s = some m) : Named m.body := by
  obtain ⟨tokens, htokens, h⟩ := Option.bind_eq_some_iff.mp h
  obtain ⟨m', hm, h⟩ := Option.bind_eq_some_iff.mp h
  split_ifs at h
  cases h
  exact fun t ht ↦ lineTokens_named htokens t (readMacro_body hm t ht)

end CopySpace.Preprocess
