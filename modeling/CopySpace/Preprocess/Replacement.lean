import CopySpace.Preprocess.Arguments
import CopySpace.Preprocess.Define
import CopySpace.Preprocess.Termination

/-!
# A macro's arguments are substituted as the language defines it

The loop of `cc_pp_substitute` is compared with the operands and operators of the reference, and
the loop that finds out which arguments must be expanded with the operands that use an expanded
argument.  The one difference is a run of operators: the source takes it for one.
-/

namespace CopySpace.Preprocess

variable {skipping : Bool} {m : Macro} {arguments : List Argument} {body rest : List Token}

/-! ## Operators on words -/

theorem paste_word (a b : Token) :
    (a.paste skipping b).map Token.word = oneToken skipping (a.text ++ b.text) := by
  rw [Token.paste, oneToken]
  rcases hnext : next skipping (a.text ++ b.text) with - | ⟨- | t, rest⟩
  · rfl
  · rfl
  dsimp only
  obtain ⟨⟨skipped, hsplit⟩, -⟩ := next_split hnext
  by_cases hlength : t.text.length = (a.text ++ b.text).length
  · -- nothing is skipped and nothing is left
    have hsum := congrArg List.length hsplit
    simp only [List.length_append] at hsum hlength
    obtain rfl : skipped = [] := List.length_eq_zero_iff.mp (by omega)
    obtain rfl : rest = [] := List.length_eq_zero_iff.mp (by omega)
    have htext : t.text = a.text ++ b.text := by simpa using hsplit.symm
    simp [htext, next, skipBlanks, Token.word]
  · have htext : ¬ (t.text = a.text ++ b.text ∧ rest = []) := fun h ↦ hlength (congrArg _ h.1)
    rw [if_pos hlength, if_neg htext]
    rfl

/-- What the tokens of a piece say. -/
def wordsOf (piece : List (Option Token)) : List (Option Word) := piece.map (Option.map Token.word)

theorem pasteInto_word (left right : Option Token) :
    (pasteInto skipping left right).map (Option.map Token.word) =
      joinWords skipping (left.map Token.word) (right.map Token.word) := by
  cases left with
  | none => rfl
  | some left =>
    cases right with
    | none => rfl
    | some right =>
      rw [pasteInto, Option.map_some, Option.map_some, joinWords, Token.word, Token.word,
        ← paste_word, Option.map_map, Option.map_map]
      rfl

theorem stringifyLoop_eq (h : ∀ t ∈ rest, ¬ t.newline) (k : Nat) :
    stringifyLoop true false rest = (rest.zipIdx (k + 1)).flatMap fun (t, i) ↦
      (if i ≠ 0 ∧ t.space then [' '] else []) ++ t.escaped := by
  induction rest generalizing k with
  | nil => rfl
  | cons t rest ih =>
    obtain ⟨ht, hrest⟩ := List.forall_mem_cons.mp h
    rw [stringifyLoop, if_neg ht, ih hrest (k + 1)]
    simp

theorem stringify_word (h : ∀ t ∈ rest, ¬ t.newline) :
    (stringify rest).word = stringLiteral rest := by
  cases rest with
  | nil => rfl
  | cons t rest =>
    obtain ⟨ht, hrest⟩ := List.forall_mem_cons.mp h
    rw [stringify, stringLiteral, Token.word, stringifyLoop, if_neg ht, stringifyLoop_eq hrest 0]
    simp

/-! ## A piece joins the output -/

/-- What the output says. -/
def Substitution.words (s : Substitution) : List (Option Word) := wordsOf s.output.reverse

theorem joinAll_words (words new : List (Option Word)) (rest : List Element) :
    joinAll skipping words (new.map .word ++ rest) = joinAll skipping (words ++ new) rest := by
  induction new generalizing words with
  | nil => simp
  | cons w new ih =>
    rw [List.map_cons, List.cons_append, joinAll, ih]
    simp

theorem wordsOf_spaced (space : Bool) (piece : List (Option Token)) :
    wordsOf (spaced space piece) = wordsOf piece := by
  cases piece with
  | nil => rfl
  | cons t piece => cases t <;> rfl

/-- Joining a piece to the output is what the operator in front of it and its words do. -/
theorem join_words (skipping leading : Bool) {piece : List (Option Token)} {s : Substitution}
    (hne : s.paste = true → piece ≠ []) (rest : List Element) :
    joinAll skipping s.words
        ((if s.paste then [.operator] else []) ++ (wordsOf piece).map .word ++ rest) =
      (s.join skipping leading piece).bind fun s ↦ joinAll skipping s.words rest := by
  unfold Substitution.join
  cases hpaste : s.paste with
  | false =>
    rw [if_neg Bool.false_ne_true, if_neg Bool.false_ne_true, List.nil_append, joinAll_words]
    cases piece with
    | nil => simp [wordsOf, Substitution.words]
    | cons t piece =>
      have hspaced := wordsOf_spaced (leading || s.gap) (t :: piece)
      simp only [wordsOf] at hspaced
      simp [Substitution.words, wordsOf, hspaced]
  | true =>
    obtain ⟨right, piece, rfl⟩ := List.exists_cons_of_ne_nil (hne hpaste)
    rw [if_pos rfl, if_pos rfl]
    cases hout : s.output with
    | nil => simp [Substitution.words, wordsOf, hout, joinAll]
    | cons left output =>
      have hwords : s.words = wordsOf output.reverse ++ [left.map Token.word] := by
        simp [Substitution.words, wordsOf, hout]
      have hpiece : [Element.operator] ++ (wordsOf (right :: piece)).map .word ++ rest =
          .operator :: .word (right.map Token.word) :: ((wordsOf piece).map .word ++ rest) := rfl
      rw [hwords, hpiece, joinAll, List.getLast?_concat, List.dropLast_concat]
      dsimp only [Option.bind_eq_bind, Option.bind_some]
      rw [← pasteInto_word]
      cases pasteInto skipping left right with
      | none => rfl
      | some joined =>
        dsimp only [Option.map_some, Option.bind_some]
        rw [joinAll_words]
        simp [Substitution.words, wordsOf]

/-- What replaced the arguments so far, with what it says. -/
theorem join_paste {leading : Bool} {piece : List (Option Token)} {s s' : Substitution}
    (h : s.join skipping leading piece = some s') :
    s'.paste = false ∧ s'.commaPaste = s.commaPaste := by
  unfold Substitution.join at h
  split_ifs at h with hpaste
  · split at h
    · obtain ⟨joined, -, rfl⟩ := Option.map_eq_some_iff.mp h
      exact ⟨rfl, rfl⟩
    · cases h
  · split at h
    · cases h
      exact ⟨by simpa using hpaste, rfl⟩
    · cases h
      exact ⟨by simpa using hpaste, rfl⟩

/-! ## Operands -/

section Operands

variable {t operand : Token} {joined : Bool} {others : List Part}

theorem parts_paste (ht : t.is "##") : parts true m joined (t :: rest) = parts true m true rest := by
  conv_lhs => unfold parts
  rw [if_pos ⟨ht, .inl rfl⟩]

theorem parts_string_nil (ht : ¬ t.is "##") (hs : t.is "#") : parts true m joined [t] = none := by
  unfold parts
  rw [if_neg fun h ↦ ht h.1, if_pos hs]

theorem parts_string (ht : ¬ t.is "##") (hs : t.is "#") :
    parts true m joined (t :: operand :: rest) =
      (m.parameterIndex operand).bind fun i ↦
        (parts true m false rest).map (⟨joined, .string i⟩ :: ·) := by
  conv_lhs => unfold parts
  rw [if_neg fun h ↦ ht h.1, if_pos hs]

theorem parts_token (ht : ¬ t.is "##") (hs : ¬ t.is "#") :
    parts true m joined (t :: rest) = (parts true m false rest).map
      (⟨joined, (m.parameterIndex t).elim (.word t.word) .argument⟩ :: ·) := by
  conv_lhs => unfold parts
  rw [if_neg fun h ↦ ht h.1, if_neg hs]

/-- The first operand stands behind an operator if one was read before the body or begins it. -/
theorem nextJoined_eq (h : parts true m joined rest = some others) :
    nextJoined others = (joined || startsPaste rest) := by
  induction rest generalizing joined others with
  | nil =>
    cases joined with
    | true => cases h
    | false =>
      cases h
      rfl
  | cons t rest ih =>
    by_cases ht : t.is "##"
    · rw [parts_paste ht] at h
      rw [ih h]
      simp [startsPaste, ht]
    have hstart : (joined || startsPaste (t :: rest)) = joined := by simp [startsPaste, ht]
    rw [hstart]
    by_cases hs : t.is "#"
    · cases rest with
      | nil =>
        rw [parts_string_nil ht hs] at h
        cases h
      | cons operand rest =>
        rw [parts_string ht hs] at h
        obtain ⟨i, -, h⟩ := Option.bind_eq_some_iff.mp h
        obtain ⟨others, -, rfl⟩ := Option.map_eq_some_iff.mp h
        rfl
    · rw [parts_token ht hs] at h
      obtain ⟨others, -, rfl⟩ := Option.map_eq_some_iff.mp h
      rfl

end Operands

/-! ## The loop and the operands -/

/-- A body without `__VA_OPT__`, and without `##` between a comma and the parameter for the rest
of the arguments. -/
structure Plain (m : Macro) (body : List Token) : Prop where
  option : m.variadic = true → ∀ t ∈ body, ¬ t.is "__VA_OPT__"
  comma : ∀ before token rest, body = before ++ token :: rest → ¬ m.commaBefore token rest

theorem Plain.tail {t : Token} (h : Plain m (t :: body)) : Plain m body where
  option hvariadic t' ht' := h.option hvariadic t' (List.mem_cons_of_mem t ht')
  comma before token rest hbody := h.comma (t :: before) token rest (by rw [hbody]; rfl)

theorem Plain.suffix {before : List Token} (h : Plain m (before ++ body)) : Plain m body := by
  induction before with
  | nil => exact h
  | cons t before ih => exact ih h.tail

theorem Plain.head {t : Token} (h : Plain m (t :: body)) :
    (m.variadic && t.is "__VA_OPT__") = false ∧ m.commaBefore t body = false := by
  refine ⟨?_, by simpa using h.comma [] t body rfl⟩
  cases hvariadic : m.variadic with
  | false => rfl
  | true => simpa using h.option hvariadic t List.mem_cons_self

section Loop

variable {s : Substitution} {t operand : Token}

theorem substituteLoop_paste (hcomma : s.commaPaste = false) (ht : t.is "##") :
    substituteLoop skipping m arguments (t :: rest) s =
      if s.output.isEmpty || rest.isEmpty then none
      else substituteLoop skipping m arguments rest { s with paste := true } := by
  rw [substituteLoop]
  simp [ht, hcomma]

theorem substituteLoop_string_nil (hplain : Plain m [t]) (ht : ¬ t.is "##") (hs : t.is "#") :
    substituteLoop skipping m arguments [t] s = none := by
  rw [substituteLoop]
  simp [ht, hs, hplain.head.2]

theorem substituteLoop_string (hcomma : s.commaPaste = false)
    (hplain : Plain m (t :: operand :: rest)) (ht : ¬ t.is "##") (hs : t.is "#") :
    substituteLoop skipping m arguments (t :: operand :: rest) s =
      (m.parameterIndex operand).bind fun i ↦
        (s.join skipping t.space [some (stringify (arguments.getD i default).raw)]).bind
          (substituteLoop skipping m arguments rest) := by
  have hs' : ({ s with commaPaste := false } : Substitution) = s := by rw [← hcomma]
  rw [substituteLoop]
  simp only [ht, hs, hplain.head.2, hplain.tail.head.1, hcomma, hs', if_true, Bool.false_eq_true,
    if_false, Bool.or_self, Bool.false_and]
  cases m.parameterIndex operand with
  | none => rfl
  | some i => rfl

/-- What replaces an operand that is not behind `#`. -/
def pieceOf (m : Macro) (arguments : List Argument) (adjacent : Bool) (t : Token) :
    List (Option Token) :=
  match m.parameterIndex t with
  | some i =>
      let argument := arguments.getD i default
      orEmpty adjacent (if adjacent then argument.raw else argument.expanded)
  | none => [some t]

theorem substituteLoop_token (hcomma : s.commaPaste = false) (hplain : Plain m (t :: rest))
    (ht : ¬ t.is "##") (hs : ¬ t.is "#") :
    substituteLoop skipping m arguments (t :: rest) s =
      (s.join skipping t.space (pieceOf m arguments (s.paste || startsPaste rest) t)).bind
        (substituteLoop skipping m arguments rest) := by
  have hs' : ({ s with commaPaste := false } : Substitution) = s := by rw [← hcomma]
  rw [substituteLoop]
  simp only [ht, hs, hplain.head.1, hplain.head.2, hcomma, hs', Bool.false_eq_true, if_false,
    Bool.or_self, Bool.false_and]
  rfl

/-- The tokens of an argument, as written. -/
def rawOf (arguments : List Argument) (i : Nat) : List Token := (arguments.getD i default).raw

/-- The tokens of an argument after the expansion, if there was one. -/
def expandedOf (arguments : List Argument) (i : Nat) : List Token :=
  (arguments.getD i default).expanded

theorem orEmpty_true (tokens : List Token) :
    wordsOf (orEmpty true tokens) =
        (if tokens = [] then [none] else tokens.map fun t ↦ some t.word) ∧
      orEmpty true tokens ≠ [] := by
  cases tokens with
  | nil => exact ⟨rfl, List.cons_ne_nil _ _⟩
  | cons t tokens => exact ⟨by simp [orEmpty, wordsOf], List.cons_ne_nil _ _⟩

theorem orEmpty_false (tokens : List Token) :
    wordsOf (orEmpty false tokens) = tokens.map fun t ↦ some t.word := by
  simp [orEmpty, wordsOf]

variable (m arguments) in
theorem pieceOf_words (adjacent : Bool) (t : Token) :
    ((m.parameterIndex t).elim (.word t.word) .argument : Item).words (rawOf arguments)
        (some ∘ expandedOf arguments) adjacent = some (wordsOf (pieceOf m arguments adjacent t)) ∧
      (adjacent = true → pieceOf m arguments adjacent t ≠ []) := by
  rw [pieceOf]
  cases m.parameterIndex t with
  | none => exact ⟨rfl, fun _ ↦ List.cons_ne_nil _ _⟩
  | some i =>
    cases adjacent with
    | false => exact ⟨congrArg some (orEmpty_false _).symm, nofun⟩
    | true => exact ⟨congrArg some (orEmpty_true _).1.symm, fun _ ↦ (orEmpty_true _).2⟩

/-- One turn of the loop is one operand of the reference. -/
theorem join_finish {leading : Bool} {piece : List (Option Token)} {item : Item}
    {raw : Nat → List Token} {expanded : Nat → Option (List Token)}
    (hcomma : s.commaPaste = false)
    (hitem : item.words raw expanded (s.paste || startsPaste rest) = some (wordsOf piece))
    (hne : s.paste = true → piece ≠ [])
    (ih : ∀ s' : Substitution, s'.commaPaste = false → s'.paste = false →
      (substituteLoop skipping m arguments rest s').map Substitution.words =
        (parts true m false rest).bind (finish skipping raw expanded s'.words)) :
    ((s.join skipping leading piece).bind (substituteLoop skipping m arguments rest)).map
        Substitution.words =
      ((parts true m false rest).map (⟨s.paste, item⟩ :: ·)).bind
        (finish skipping raw expanded s.words) := by
  have hjoin := join_words skipping leading hne
  cases hs : s.join skipping leading piece with
  | none =>
    -- the operator has nothing to join, or what it joins is not one token
    simp only [hs, Option.bind_none] at hjoin ⊢
    cases hparts : parts true m false rest with
    | none => rfl
    | some others =>
      have hnext := nextJoined_eq hparts
      simp only [Bool.false_or] at hnext
      simp only [Option.map_some, Option.bind_some, finish, elements, hnext, hitem,
        Option.bind_eq_bind]
      cases elements raw expanded others with
      | none => rfl
      | some body => exact (hjoin body).symm
  | some s' =>
    obtain ⟨hpaste', hcomma'⟩ := join_paste hs
    rw [Option.bind_some, ih s' (hcomma'.trans hcomma) hpaste']
    cases hparts : parts true m false rest with
    | none => rfl
    | some others =>
      have hnext := nextJoined_eq hparts
      simp only [Bool.false_or] at hnext
      simp only [Option.map_some, Option.bind_some, finish, elements, hnext, hitem,
        Option.bind_eq_bind]
      cases elements raw expanded others with
      | none => rfl
      | some body =>
        simp only [Option.bind_some, hjoin body, hs]

/-- Without anything in front of it an operator has nothing to join. -/
theorem finish_nil {raw : Nat → List Token} {expanded : Nat → Option (List Token)} :
    (parts true m true rest).bind (finish skipping raw expanded []) = none := by
  cases hparts : parts true m true rest with
  | none => rfl
  | some operands =>
    have hjoined : nextJoined operands = true := by simpa using nextJoined_eq hparts
    cases operands with
    | nil => cases hjoined
    | cons part others =>
      have hpart : part.joined = true := by simpa [nextJoined] using hjoined
      simp only [Option.bind_some, finish, elements, hpart, Option.bind_eq_bind, if_true]
      cases part.item.words raw expanded (true || nextJoined others) with
      | none => rfl
      | some words =>
        cases elements raw expanded others with
        | none => rfl
        | some body =>
          cases words with
          | nil => cases body with
            | nil => rfl
            | cons e body => cases e <;> rfl
          | cons w words => rfl

/-- **The loop computes what the reference makes of the operands of the body.**  The induction is
over the body, which a `#` shortens by two tokens; a pending `paste` is an operator that was
read. -/
theorem substituteLoop_words (skipping : Bool) (hraw : ∀ i, ∀ t ∈ rawOf arguments i, ¬ t.newline)
    (hplain : Plain m body) (hcomma : s.commaPaste = false)
    (hpaste : s.paste = true → body ≠ []) :
    (substituteLoop skipping m arguments body s).map Substitution.words =
      (parts true m s.paste body).bind
        (finish skipping (rawOf arguments) (some ∘ expandedOf arguments) s.words) := by
  induction hn : body.length using Nat.strong_induction_on generalizing body s with
  | _ n ih =>
    subst hn
    have ih' (rest : List Token) (hlt : rest.length < body.length) (hplain : Plain m rest)
        (s' : Substitution) (hcomma : s'.commaPaste = false) (hpaste : s'.paste = false) :
        (substituteLoop skipping m arguments rest s').map Substitution.words =
          (parts true m false rest).bind
            (finish skipping (rawOf arguments) (some ∘ expandedOf arguments) s'.words) := by
      rw [ih _ hlt hplain hcomma (by simp [hpaste]) rfl, hpaste]
    cases body with
    | nil =>
      have hfalse : s.paste = false := by simpa using hpaste
      rw [substituteLoop, hfalse]
      simp [parts, finish, elements, joinAll]
    | cons t rest =>
      by_cases ht : t.is "##"
      · -- an operator
        rw [substituteLoop_paste hcomma ht, parts_paste ht]
        by_cases hout : s.output = []
        · have hwords : s.words = [] := by simp [Substitution.words, wordsOf, hout]
          rw [hwords, finish_nil]
          simp [hout]
        by_cases hrest : rest = []
        · simp [hrest, parts]
        · rw [if_neg (by simp [hout, hrest])]
          exact ih _ (Nat.lt_succ_self _) (s := { s with paste := true }) hplain.tail hcomma
            (fun _ ↦ hrest) rfl
      by_cases hs : t.is "#"
      · -- a string literal
        cases rest with
        | nil =>
          rw [substituteLoop_string_nil hplain ht hs, parts_string_nil ht hs]
          rfl
        | cons operand rest =>
          rw [substituteLoop_string hcomma hplain ht hs, parts_string ht hs]
          cases m.parameterIndex operand with
          | none => rfl
          | some i =>
            refine join_finish hcomma ?_ (fun _ ↦ List.cons_ne_nil _ _)
              (ih' rest (Nat.lt_succ_of_lt (Nat.lt_succ_self _)) hplain.tail.tail)
            exact congrArg (fun w ↦ some [some w]) (stringify_word (hraw i)).symm
      · -- a parameter or any other token
        rw [substituteLoop_token hcomma hplain ht hs, parts_token ht hs]
        obtain ⟨hitem, hne⟩ := pieceOf_words m arguments (s.paste || startsPaste rest) t
        exact join_finish hcomma hitem (fun hp ↦ hne (by simp [hp]))
          (ih' rest (Nat.lt_succ_self _) hplain.tail)

end Loop

/-! ## Which arguments are expanded -/

section Needed

variable {i : Nat} {t operand : Token} {before₂ before : Option Token} {joined : Bool}
  {operands : List Part}

/-- Some operand is the parameter away from all operators. -/
def usesExpanded (i : Nat) : List Part → Bool
  | [] => false
  | part :: others =>
      (match part.item with
        | .argument j => i = j && !part.joined && !nextJoined others
        | _ => false) || usesExpanded i others

theorem neededLoop_string (hs : t.is "#") :
    neededLoop m i before₂ before (t :: operand :: rest) =
      ((m.isLast i && t.is "__VA_OPT__") || ((m.isLast i && operand.is "__VA_OPT__") ||
        neededLoop m i (some t) (some operand) rest)) := by
  rw [neededLoop, if_pos hs]

theorem neededLoop_token (hs : ¬ t.is "#") :
    neededLoop m i before₂ before (t :: rest) =
      ((m.isLast i && t.is "__VA_OPT__") ||
        ((m.parameterIndex t = some i && !(before.any (·.is "##") &&
            !(m.isLast i && before₂.any (·.kind = .punctuator ','))) && !startsPaste rest) ||
          neededLoop m i before (some t) rest)) := by
  conv_lhs => unfold neededLoop
  rw [if_neg hs]

theorem neededLoop_lt (h : neededLoop m i before₂ before body = true) :
    i < m.parameters.length := by
  have hlast (h : m.isLast i = true) : i < m.parameters.length := by
    simp only [Macro.isLast, Bool.and_eq_true, decide_eq_true_eq] at h
    omega
  have hindex (t : Token) (h : m.parameterIndex t = some i) : i < m.parameters.length := by
    rw [Macro.parameterIndex] at h
    split_ifs at h
    exact (List.findIdx?_eq_some_iff_findIdx_eq.mp h).1
  induction hn : body.length using Nat.strong_induction_on generalizing body before₂ before with
  | _ n ih =>
    subst hn
    cases body with
    | nil => cases h
    | cons t rest =>
      by_cases hs : t.is "#"
      · cases rest with
        | nil =>
          simp only [neededLoop, hs, if_true, Bool.or_false, Bool.and_eq_true] at h
          exact hlast h.1
        | cons operand rest =>
          rw [neededLoop_string hs] at h
          simp only [Bool.or_eq_true, Bool.and_eq_true] at h
          rcases h with h | h | h
          · exact hlast h.1
          · exact hlast h.1
          · exact ih _ (Nat.lt_succ_of_lt (Nat.lt_succ_self _)) h rfl
      · rw [neededLoop_token hs] at h
        simp only [Bool.or_eq_true, Bool.and_eq_true, decide_eq_true_eq] at h
        rcases h with h | h | h
        · exact hlast h.1
        · exact hindex t h.1.1
        · exact ih _ (Nat.lt_succ_self _) h rfl

theorem parameterIndex_eq_none (hkind : t.kind ≠ .ident) : m.parameterIndex t = none := by
  rw [Macro.parameterIndex, if_pos hkind]

theorem not_string_of_paste (ht : t.is "##") : ¬ t.is "#" := by
  simp only [Token.is, decide_eq_true_eq] at ht ⊢
  rw [ht]
  decide

/-- The exemption of a comma in front of the operator does not apply. -/
theorem not_exempt (hplain : Plain m (before₂.toList ++ before.toList ++ t :: rest))
    (hindex : m.parameterIndex t = some i) (hbefore : before.any (·.is "##") = true) :
    (m.isLast i && before₂.any (·.kind = .punctuator ',')) = false := by
  cases before₂ with
  | none => simp
  | some comma =>
    cases before with
    | none => cases hbefore
    | some operator =>
      have hnone := hplain.comma [] comma (operator :: t :: rest) (by simp)
      by_contra hexempt
      simp only [Macro.isLast, Option.any_some, Bool.not_eq_false, Bool.and_eq_true,
        decide_eq_true_eq] at hexempt hbefore
      refine hnone ?_
      simp [Macro.commaBefore, hexempt.1.1, hexempt.2, hbefore, hindex, ← hexempt.1.2]

/-- **The two loops agree.**  An argument is expanded beforehand if and only if an operand away
from all operators will use it. -/
theorem neededLoop_eq (hparts : parts true m joined body = some operands) (hnamed : Named body)
    (hplain : Plain m (before₂.toList ++ before.toList ++ body))
    (hjoined : joined = before.any (·.is "##")) :
    neededLoop m i before₂ before body = usesExpanded i operands := by
  induction hn : body.length using Nat.strong_induction_on
    generalizing body before₂ before joined operands with
  | _ n ih =>
    subst hn
    have hoption (hvariadic : m.isLast i = true) :=
      hplain.option (by simp only [Macro.isLast, Bool.and_eq_true] at hvariadic; exact hvariadic.1)
    cases body with
    | nil =>
      cases joined with
      | true => cases hparts
      | false =>
        cases hparts
        rfl
    | cons t rest =>
      have hopt : (m.isLast i && t.is "__VA_OPT__") = false := by
        cases hlast : m.isLast i with
        | false => rfl
        | true => simpa using hoption hlast t (by simp)
      have hafter (t' : Token) (rest' : List Token) (h : t :: rest = t' :: rest') :
          Plain m (before.toList ++ (some t').toList ++ rest') := by
        rw [h, List.append_assoc] at hplain
        simpa using hplain.suffix
      obtain ⟨hname, hnamed'⟩ := List.forall_mem_cons.mp hnamed
      by_cases ht : t.is "##"
      · -- an operator
        rw [parts_paste ht] at hparts
        rw [neededLoop_token (not_string_of_paste ht), hopt, parameterIndex_eq_none (hname ht),
          ih _ (Nat.lt_succ_self _) hparts hnamed' (hafter t rest rfl) (by simp [ht]) rfl]
        simp
      by_cases hs : t.is "#"
      · -- a string literal
        cases rest with
        | nil =>
          rw [parts_string_nil ht hs] at hparts
          cases hparts
        | cons operand rest =>
          rw [parts_string ht hs] at hparts
          obtain ⟨j, hj, hparts⟩ := Option.bind_eq_some_iff.mp hparts
          obtain ⟨others, hothers, rfl⟩ := Option.map_eq_some_iff.mp hparts
          obtain ⟨hname', hnamed''⟩ := List.forall_mem_cons.mp hnamed'
          have hoperand : operand.is "##" = false := by
            by_contra hpaste
            have := parameterIndex_eq_none (m := m) (hname' (by simpa using hpaste))
            rw [hj] at this
            cases this
          have hopt' : (m.isLast i && operand.is "__VA_OPT__") = false := by
            cases hlast : m.isLast i with
            | false => rfl
            | true => simpa using hoption hlast operand (by simp)
          have hplain' : Plain m ((some t).toList ++ (some operand).toList ++ rest) := by
            simpa using hplain.suffix
          rw [neededLoop_string hs, hopt, hopt',
            ih _ (Nat.lt_succ_of_lt (Nat.lt_succ_self _)) hothers hnamed'' hplain' (by simp [hoperand]) rfl]
          simp [usesExpanded]
      · -- a parameter or any other token
        rw [parts_token ht hs] at hparts
        obtain ⟨others, hothers, rfl⟩ := Option.map_eq_some_iff.mp hparts
        have hnext := nextJoined_eq hothers
        simp only [Bool.false_or] at hnext
        rw [neededLoop_token hs, hopt,
          ih _ (Nat.lt_succ_self _) hothers hnamed' (hafter t rest rfl) (by simp [ht]) rfl,
          usesExpanded, hnext, hjoined, Bool.false_or]
        congr 1
        cases hindex : m.parameterIndex t with
        | none => simp
        | some j =>
          have hcomma := not_exempt hplain hindex
          by_cases hij : j = i
          · subst hij
            cases hany : before.any (·.is "##") with
            | false => simp
            | true => simp [hcomma hany]
          · simp [hij, Ne.symm hij]

end Needed

/-! ## Calls -/

section Calls

variable {raw : Nat → List Token} {expanded expanded' : Nat → Option (List Token)}
  {operands : List Part} {i : Nat}

/-- Only what an operand away from all operators expands to matters. -/
theorem elements_congr (h : ∀ i, usesExpanded i operands = true → expanded i = expanded' i) :
    elements raw expanded operands = elements raw expanded' operands := by
  induction operands with
  | nil => rfl
  | cons part others ih =>
    have hothers := ih fun i hi ↦ h i (by simp [usesExpanded, hi])
    have hpart : part.item.words raw expanded (part.joined || nextJoined others) =
        part.item.words raw expanded' (part.joined || nextJoined others) := by
      cases hitem : part.item with
      | word w => rfl
      | string i => rfl
      | argument i =>
        cases hadjacent : part.joined || nextJoined others with
        | true => rfl
        | false =>
          rw [Bool.or_eq_false_iff] at hadjacent
          have := h i (by simp [usesExpanded, hitem, hadjacent.1, hadjacent.2])
          simp [Item.words, this]
    rw [elements, elements, hothers, hpart]

/-- An argument that does not expand fails where it is used. -/
theorem elements_eq_none (huse : usesExpanded i operands = true) (h : expanded i = none) :
    elements raw expanded operands = none := by
  induction operands with
  | nil => cases huse
  | cons part others ih =>
    rw [usesExpanded, Bool.or_eq_true] at huse
    rw [elements]
    rcases huse with huse | huse
    · cases hitem : part.item with
      | word w => simp [hitem] at huse
      | string i => simp [hitem] at huse
      | argument j =>
        simp only [hitem, Bool.and_eq_true, decide_eq_true_eq, Bool.not_eq_true'] at huse
        obtain ⟨⟨rfl, hjoined⟩, hnext⟩ := huse
        simp [Item.words, hjoined, hnext, h]
    · rw [ih huse]
      cases part.item.words raw expanded (part.joined || nextJoined others) <;> rfl

variable {expand : List Token → Option (List Token)} {views : List View}

theorem expandArgument_ok {tokens tokens' : List Token} (hneeded : needed m i)
    (h : expandArgument (fun ts ↦ orFailed (expand ts)) m i tokens = .ok tokens') :
    expand tokens = some tokens' := by
  rw [expandArgument, if_pos hneeded] at h
  exact orFailed_eq_ok h

theorem expandArgument_error {tokens : List Token} {stop : Stop}
    (h : expandArgument (fun ts ↦ orFailed (expand ts)) m i tokens = .error stop) :
    stop = .failed ∧ needed m i ∧ expand tokens = none := by
  rw [expandArgument] at h
  split_ifs at h with hneeded
  · cases hexpand : expand tokens with
    | none =>
      rw [hexpand] at h
      cases h
      exact ⟨rfl, hneeded, rfl⟩
    | some tokens' =>
      rw [hexpand] at h
      cases h
  · cases h

/-- The arguments have the tokens of their views, and those that are needed are expanded. -/
theorem fillArguments_ok
    (h : fillArguments (fun ts ↦ orFailed (expand ts)) m i views = .ok arguments) :
    arguments.map Argument.raw = rawViews views ∧
      ∀ k < views.length, needed m (i + k) →
        expand ((rawViews views).getD k []) = some (expandedOf arguments k) := by
  induction views generalizing i arguments with
  | nil =>
    cases h
    exact ⟨rfl, fun k hk ↦ absurd hk (Nat.not_lt_zero k)⟩
  | cons view views ih =>
    obtain ⟨expanded, hexpanded, h⟩ := bind_eq_ok h
    obtain ⟨others, hothers, h⟩ := bind_eq_ok h
    cases h
    obtain ⟨hraw, hneeded⟩ := ih hothers
    refine ⟨by simp [hraw, rawViews], fun k hk hk' ↦ ?_⟩
    cases k with
    | zero => exact expandArgument_ok hk' hexpanded
    | succ k =>
      rw [Nat.add_comm k 1, ← Nat.add_assoc] at hk'
      exact hneeded k (Nat.lt_of_succ_lt_succ hk) hk'

/-- If the arguments cannot be expanded, one that is needed cannot. -/
theorem fillArguments_error {stop : Stop}
    (h : fillArguments (fun ts ↦ orFailed (expand ts)) m i views = .error stop) :
    stop = .failed ∧ ∃ k < views.length, needed m (i + k) ∧
      expand ((rawViews views).getD k []) = none := by
  induction views generalizing i with
  | nil => cases h
  | cons view views ih =>
    rw [fillArguments] at h
    cases hexpanded : expandArgument (fun ts ↦ orFailed (expand ts)) m i
        (rawTokens false view.tokens) with
    | error e =>
      rw [hexpanded] at h
      cases h
      obtain ⟨hstop, hneeded, hnone⟩ := expandArgument_error hexpanded
      exact ⟨hstop, 0, Nat.succ_pos _, hneeded, hnone⟩
    | ok expanded =>
      cases hothers : fillArguments (fun ts ↦ orFailed (expand ts)) m (i + 1) views with
      | error e =>
        rw [hexpanded, hothers] at h
        cases h
        obtain ⟨hstop, k, hk, hneeded, hnone⟩ := ih hothers
        refine ⟨hstop, k + 1, Nat.succ_lt_succ hk, ?_, hnone⟩
        rwa [Nat.add_comm k 1, ← Nat.add_assoc]
      | ok others =>
        rw [hexpanded, hothers] at h
        cases h

/-- What is written of a replacement. -/
def spell (call : List Token × Node × List Node) : List Word × Node × List Node :=
  (call.1.map Token.word, call.2)

theorem rawOf_eq {raws : List (List Token)} (h : arguments.map Argument.raw = raws) :
    rawOf arguments = fun i ↦ raws.getD i [] := by
  funext i
  subst h
  simp only [rawOf, List.getD_eq_getElem?_getD, List.getElem?_map]
  cases arguments[i]? <;> rfl

/-- The substitution of arguments that are expanded where that is needed. -/
theorem substitute_words (hnamed : Named m.body) (hplain : Plain m m.body)
    (hfill : fillArguments (fun ts ↦ orFailed (expand ts)) m 0 views = .ok arguments)
    (hlength : views.length = m.parameters.length) :
    (substitute skipping m arguments).map (List.map Token.word) =
      substituteWords skipping true expand m (rawViews views) := by
  obtain ⟨hraw, hneeded⟩ := fillArguments_ok hfill
  have hrawOf := rawOf_eq hraw
  have hlines (i : Nat) : ∀ t ∈ rawOf arguments i, ¬ t.newline := by
    rw [hrawOf]
    simp only [rawViews, List.getD_eq_getElem?_getD, List.getElem?_map]
    cases views[i]? with
    | none => exact fun t ht ↦ absurd ht List.not_mem_nil
    | some view => exact rawTokens_no_newline
  have hloop := substituteLoop_words (s := .start) skipping hlines hplain rfl (by rintro ⟨⟩)
  have hwritten : (substitute skipping m arguments).map (List.map Token.word) =
      ((substituteLoop skipping m arguments m.body .start).map Substitution.words).map
        (List.filterMap id) := by
    rw [substitute, Option.map_map, Option.map_map]
    congr 1
    funext s
    simp [Substitution.words, wordsOf, List.filterMap_map, List.map_filterMap]
  rw [hwritten, hloop, substituteWords]
  change ((parts true m false m.body).bind _).map _ = _
  cases hparts : parts true m false m.body with
  | none => rfl
  | some operands =>
    have hexpanded (i : Nat) (huse : usesExpanded i operands = true) :
        (some ∘ expandedOf arguments) i = expand ((rawViews views).getD i []) := by
      have hneed : needed m i = true := by
        rw [needed, neededLoop_eq hparts hnamed (by simpa using hplain) rfl, huse]
      have hlt : i < views.length := hlength ▸ neededLoop_lt hneed
      exact (hneeded i hlt (by rwa [Nat.zero_add])).symm
    simp only [Option.bind_some, finish, elements_congr hexpanded, hrawOf]
    rfl

variable (skipping) in
/-- Arguments that cannot be expanded are rejected. -/
theorem substituteWords_eq_none (hnamed : Named m.body) (hplain : Plain m m.body) {stop : Stop}
    (hfill : fillArguments (fun ts ↦ orFailed (expand ts)) m 0 views = .error stop) :
    stop = .failed ∧ substituteWords skipping true expand m (rawViews views) = none := by
  obtain ⟨hstop, k, -, hneeded, hnone⟩ := fillArguments_error hfill
  refine ⟨hstop, ?_⟩
  rw [substituteWords]
  cases hparts : parts true m false m.body with
  | none => rfl
  | some operands =>
    have huse : usesExpanded k operands = true := by
      rwa [Nat.zero_add, needed, neededLoop_eq hparts hnamed (by simpa using hplain) rfl] at hneeded
    have helements : elements (fun i ↦ (rawViews views).getD i [])
        (fun i ↦ expand ((rawViews views).getD i [])) operands = none :=
      elements_eq_none huse hnone
    simp only [Option.bind_some, finish, helements]
    rfl

/-- The views of a call that matches are as many as the parameters. -/
theorem matchCount_length {raws raws' : List (List Token)} (h : matchCount m raws = some raws') :
    raws'.length = m.parameters.length := by
  rw [matchCount] at h
  split_ifs at h with hzero hempty hcount hmissing
  · cases h
    rw [hzero]
    rfl
  · cases h
    exact hcount
  · cases h
    simpa using hmissing.2

theorem functionReplace_call {depth : Nat} {rest after : List Node} {closing : Node}
    (hcall : callViews m rest = some (views, closing, after)) (hdepth : depth ≠ 64)
    (expand : List Token → Except Stop (List Token)) :
    functionReplace skipping expand depth m rest =
      (fillArguments expand m 0 views).bind fun arguments ↦
        (orFailed (substitute skipping m arguments)).bind fun output ↦
          .ok (output, closing, after) := by
  rw [functionReplace, hcall]
  exact if_neg hdepth

/-- **`cc_pp_function_replace` is the substitution of the reference**, for any way of expanding an
argument. -/
theorem functionReplace_eq {depth : Nat} {rest : List Node} (hnamed : Named m.body)
    (hplain : Plain m m.body) (hdepth : depth ≠ 64) (hcount : m.parameters.length ≤ 128)
    (hnest : ∀ inside closing after, callTokens 0 rest = some (inside, closing, after) →
      deepest 0 inside ≤ 64) :
    (functionReplace skipping (fun ts ↦ orFailed (expand ts)) depth m rest).map spell =
      orFailed (reference skipping true expand m rest) := by
  have hviews := callViews_eq hcount hnest
  have hreference : reference skipping true expand m rest =
      ((callViews m rest).map rawCall).bind fun (arguments, closing, after) ↦
        (substituteWords skipping true expand m arguments).map (·, closing, after) := by
    rw [hviews, reference]
    rcases callTokens 0 rest with - | ⟨inside, closing, after⟩
    · rfl
    · simp only [Option.bind_some]
      cases matchArguments m inside <;> rfl
  rw [hreference]
  rcases hcall : callViews m rest with - | ⟨views, closing, after⟩
  · rw [functionReplace, hcall]
    rfl
  have hlength : views.length = m.parameters.length := by
    rw [hcall] at hviews
    obtain ⟨⟨inside, c, a⟩, -, hviews⟩ := Option.bind_eq_some_iff.mp hviews.symm
    obtain ⟨arguments, hmatch, heq⟩ := Option.map_eq_some_iff.mp hviews
    rw [← rawViews_length, ← matchCount_length hmatch, (Prod.mk.inj heq).1]
  rw [functionReplace_call hcall hdepth]
  change _ =
    orFailed ((substituteWords skipping true expand m (rawViews views)).map (·, closing, after))
  cases hfill : fillArguments (fun ts ↦ orFailed (expand ts)) m 0 views with
  | error stop =>
    obtain ⟨rfl, hnone⟩ := substituteWords_eq_none skipping hnamed hplain hfill
    rw [hnone]
    rfl
  | ok arguments =>
    rw [← substitute_words hnamed hplain hfill hlength]
    change Except.map spell ((orFailed (substitute skipping m arguments)).bind fun output ↦
      .ok (output, closing, after)) = _
    cases substitute skipping m arguments <;> rfl

end Calls

/-! ## Arguments expanded in isolation -/

section Isolated

variable {env : Tables} {depth : Nat} {views : List View} {i : Nat} {rest : List Node}

open Filter

variable (m env views i) in
theorem fillArguments_eventually (hle : depth ≤ 64) :
    ∀ᶠ n in atTop, fillArguments (expandAt env n depth) m i views =
      fillArguments (fun ts ↦ orFailed (isolated env depth ts)) m i views := by
  induction views generalizing i with
  | nil => exact Eventually.of_forall fun _ ↦ rfl
  | cons view views ih =>
    filter_upwards [ih (i + 1),
      expandAt_eventually env hle (rawTokens false view.tokens)] with n hothers htokens
    rw [fillArguments, fillArguments, hothers, expandArgument, expandArgument, htokens]

theorem functionReplace_eventually (hle : depth < 64) :
    ∀ᶠ n in atTop, functionReplace skipping (expandAt env n (depth + 1)) depth m rest =
      functionReplace skipping (fun ts ↦ orFailed (isolated env (depth + 1) ts)) depth m rest := by
  rcases hcall : callViews m rest with - | ⟨views, closing, after⟩
  · refine Eventually.of_forall fun n ↦ ?_
    rw [functionReplace, functionReplace, hcall]
    rfl
  · filter_upwards [fillArguments_eventually m env views 0 hle]
      with n hn
    rw [functionReplace_call hcall hle.ne, functionReplace_call hcall hle.ne, hn]

/-- **Macro substitution is that of the language, with a run of `##` counting as one.**  For every
accepted macro without `__VA_OPT__` and without the extension for a comma, and every call within
the limits, the words of the replacement are those of the reference with arguments that are
expanded in isolation; what the reference rejects is rejected. -/
theorem substitution_correct (env : Tables) {line : Text} (hdefine : define false line = some m)
    (hplain : Plain m m.body) (hdepth : depth < 64) (hcount : m.parameters.length ≤ 128)
    (rest : List Node)
    (hnest : ∀ inside closing after, callTokens 0 rest = some (inside, closing, after) →
      deepest 0 inside ≤ 64) :
    ∃ n, ∀ k ≥ n,
      (functionReplace env.skipping (expandAt env k (depth + 1)) depth m rest).map spell =
        orFailed (reference env.skipping true (isolated env (depth + 1)) m rest) := by
  rw [← eventually_atTop (p := fun k ↦
    (functionReplace env.skipping (expandAt env k (depth + 1)) depth m rest).map spell = _)]
  filter_upwards [functionReplace_eventually hdepth] with n hn
  rw [hn, functionReplace_eq (define_named hdefine) hplain hdepth.ne hcount hnest]

end Isolated

/-! ## A run of operators -/

/-- `#define F(x) x ## ## b`. -/
def doubled : Macro where
  name := ['F']
  present := true
  function := true
  variadic := false
  parameters := [['x']]
  body := [⟨['x'], .ident, ∅, true⟩, ⟨['#', '#'], .punctuator '#', ∅, true⟩,
    ⟨['#', '#'], .punctuator '#', ∅, true⟩, ⟨['b'], .ident, ∅, true⟩]
  variadic_ne := nofun

/-- What follows the parenthesis in `F(a)`. -/
def doubledCall : List Node :=
  [.fresh ⟨['a'], .ident, ∅, false⟩, .fresh ⟨[')'], .punctuator ')', ∅, false⟩]

/-- Nothing is defined. -/
def noMacros : Tables where
  macros := []
  macros_le := Nat.zero_le _
  queryEnabled _ := true
  inCondition := false
  allowIncomplete := false
  skipping := false
  headers _ _ _ := none

theorem doubled_plain : Plain doubled doubled.body where
  option := nofun
  comma _ _ _ _ := Bool.false_ne_true

theorem substitution_correct_doubled :
    ∃ n, ∀ k ≥ n, (functionReplace false (expandAt noMacros k 1) 0 doubled doubledCall).map spell =
      orFailed (reference false true (isolated noMacros 1) doubled doubledCall) := by
  have hdefine : define false "F(x) x ## ## b".toList = some doubled := by decide +kernel
  refine substitution_correct noMacros hdefine doubled_plain (by decide) (by decide) doubledCall ?_
  intro inside closing after hcall
  cases hcall
  decide

/-- Two operators in a row are taken for one, although the first of them and what it would join
are not one token. -/
theorem doubled_operator :
    define false "F(x) x ## ## b".toList = some doubled ∧ Plain doubled doubled.body ∧
      (∀ k, (functionReplace false (expandAt noMacros k 1) 0 doubled doubledCall).map
        (fun call ↦ call.1.map Token.word) = .ok [⟨['a', 'b'], .ident⟩]) ∧
      reference false false (isolated noMacros 1) doubled doubledCall = none := by
  refine ⟨by decide +kernel, doubled_plain, fun k ↦ ?_, rfl⟩
  have hcall : callViews doubled doubledCall =
      some ([⟨[⟨['a'], .ident, ∅, false⟩], false⟩],
        .fresh ⟨[')'], .punctuator ')', ∅, false⟩, []) := rfl
  have harguments : fillArguments (expandAt noMacros k 1) doubled 0
      [⟨[⟨['a'], .ident, ∅, false⟩], false⟩] =
        .ok [⟨[⟨['a'], .ident, ∅, false⟩], [⟨['a'], .ident, ∅, false⟩], false⟩] := rfl
  have hsubstitute : substitute false doubled
      [⟨[⟨['a'], .ident, ∅, false⟩], [⟨['a'], .ident, ∅, false⟩], false⟩] =
        some [⟨['a', 'b'], .ident, ∅, true⟩] := by with_unfolding_all decide
  rw [functionReplace_call hcall (by decide), harguments]
  change Except.map _ ((orFailed (substitute false doubled _)).bind _) = _
  rw [hsubstitute]
  rfl

end CopySpace.Preprocess
