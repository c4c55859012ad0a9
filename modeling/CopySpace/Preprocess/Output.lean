import CopySpace.Preprocess.Delimited
import CopySpace.Preprocess.Reference

/-!
# `preprocess_macros.h`: the text of the output

Every token is written with a blank behind it, except a line break.  What has been read, or pasted,
is read again from what is written: no two tokens grow together, and none is taken apart.
-/

namespace CopySpace.Preprocess

/-- `CC_PP_OUTPUT`. -/
def outputMax : Nat := 1048576

/-- `cc_pp_emit`. -/
def Token.emit (output : Text) (t : Token) : Option Text :=
  let separator := if t.newline then 0 else 1
  if t.text.length > outputMax - output.length ∨
      separator > outputMax - output.length - t.text.length then none
  else some (output ++ t.text ++ if t.newline then [] else [' '])

/-- The tokens of a list are written one after the other, as `cc_pp_flush` does. -/
def emitAll : Text → List Token → Option Text
  | output, [] => some output
  | output, t :: tokens => (t.emit output).bind fun output ↦ emitAll output tokens

/-- All tokens of a text. -/
def readTokens (skipping : Bool) (s : Text) : Option (List Token) :=
  match _h : next skipping s with
  | none => none
  | some (none, _) => some []
  | some (some t, rest) => (readTokens skipping rest).map (t :: ·)
termination_by s.length
decreasing_by exact next_length ‹_›

/-- All words of a text. -/
def readWords (skipping : Bool) (s : Text) : Option (List Word) :=
  (readTokens skipping s).map (·.map Token.word)

/-- The word has been read outside skipped groups, or two tokens have been pasted to it. -/
def Produced (w : Word) : Prop :=
  ∃ t : Token, t.word = w ∧
    ((∃ s rest, next false s = some (some t, rest)) ∨ ∃ a b : Token, a.paste false b = some t)

section

variable {skipping : Bool} {s rest output output' : Text} {t : Token} {w : Word}
  {tokens : List Token}

theorem Produced.isToken (h : Produced w) : IsToken w.text w.kind := by
  obtain ⟨t, rfl, ⟨s, rest, hnext⟩ | ⟨a, b, hpaste⟩⟩ := h
  · exact next_isToken hnext
  · unfold Token.paste at hpaste
    split at hpaste
    case h_1 result rest hnext =>
      split at hpaste
      · cases hpaste
      · split at hpaste
        · cases hpaste
          exact (next_isToken hnext : IsToken result.text result.kind)
        · cases hpaste
    case h_2 => cases hpaste

theorem readTokens_eq (s : Text) : readTokens skipping s = match next skipping s with
    | none => none
    | some (none, _) => some []
    | some (some t, rest) => (readTokens skipping rest).map (t :: ·) := by
  rw [readTokens]
  split
  case h_1 h | h_2 h | h_3 h => rw [h]

theorem readWords_eq (s : Text) : readWords skipping s = match next skipping s with
    | none => none
    | some (none, _) => some []
    | some (some t, rest) => (readWords skipping rest).map (t.word :: ·) := by
  rw [readWords, readTokens_eq]
  split
  · rfl
  · rfl
  · rw [Option.map_map, readWords, Option.map_map]
    rfl

/-- A blank in front of a text does not change its words. -/
theorem readWords_blank (s : Text) : readWords skipping (' ' :: s) = readWords skipping s := by
  have hskip : skipBlanks .blank (' ' :: s) = skipBlanks .blank s := by
    rw [skipBlanks.eq_def]
    rfl
  rw [readWords_eq, readWords_eq s, next, next, hskip]
  rcases skipBlanks .blank s with _ | ⟨_ | ⟨c, start⟩⟩
  · rfl
  · rfl
  · dsimp only
    cases lexeme skipping c start <;> rfl

theorem IsToken.newline_text {text : Text} (h : IsToken text (.punctuator '\n')) :
    text = ['\n'] := by
  cases h with
  | punctuator hpunct =>
    generalize htext : '\n' :: _ = text at hpunct
    cases hpunct with
    | single => 
      cases htext
      rfl
    | pair hpair =>
      have hall : ∀ x ∈ pairs.map String.toList, x.head? ≠ some '\n' := by decide
      cases htext
      exact absurd rfl (hall _ hpair)
    | triple hmem =>
      have hall : ∀ x ∈ ["...", "<<=", ">>="].map String.toList, x.head? ≠ some '\n' := by decide
      cases htext
      exact absurd rfl (hall _ hmem)

/-- What is written for a token. -/
def Token.written (t : Token) : Text := t.text ++ if t.newline then [] else [' ']

theorem emit_eq_some (h : t.emit output = some output') : output' = output ++ t.written := by
  simp only [Token.emit, Option.ite_none_left_eq_some, Option.some.injEq] at h
  rw [← h.2, Token.written, List.append_assoc]

theorem emitAll_eq_some (h : emitAll output tokens = some output') :
    output' = output ++ tokens.flatMap Token.written := by
  induction tokens generalizing output with
  | nil =>
    cases h
    rw [List.flatMap_nil, List.append_nil]
  | cons t tokens ih =>
    obtain ⟨next, hnext, hrest⟩ := Option.bind_eq_some_iff.mp h
    rw [ih hrest, emit_eq_some hnext, List.flatMap_cons, List.append_assoc]

/-- What is written for a token is read again as this token, before whatever follows. -/
theorem readWords_written (h : IsToken t.text t.kind) (tail : Text) :
    readWords skipping (t.written ++ tail) = (readWords skipping tail).map (t.word :: ·) := by
  by_cases hnewline : t.kind = .punctuator '\n'
  · have htext := (hnewline ▸ h).newline_text
    have hwritten : t.written = ['\n'] := by
      rw [Token.written, htext, Token.newline, hnewline, if_pos (decide_eq_true rfl),
        List.append_nil]
    rw [hwritten, List.singleton_append, readWords_eq, next_newline, Token.word, htext, hnewline]
    rfl
  · have hwritten : t.written ++ tail = t.text ++ ' ' :: tail := by
      rw [Token.written, Token.newline, decide_eq_false hnewline, if_neg Bool.false_ne_true,
        List.append_assoc, List.singleton_append]
    rw [hwritten, readWords_eq, h.next_blank]
    dsimp only
    rw [readWords_blank]
    rfl

end

/-- **The words of the output are the words that have been written to it.** -/
theorem emitted_words {tokens : List Token} {output output' : Text}
    (h : emitAll output tokens = some output') (htokens : ∀ t ∈ tokens, Produced t.word)
    (skipping : Bool) :
    ∃ written, output' = output ++ written ∧
      readWords skipping written = some (tokens.map Token.word) := by
  refine ⟨_, emitAll_eq_some h, ?_⟩
  clear h
  induction tokens with
  | nil =>
    rw [readWords_eq]
    rfl
  | cons t tokens ih =>
    obtain ⟨ht, htokens⟩ := List.forall_mem_cons.mp htokens
    rw [List.flatMap_cons, readWords_written ht.isToken, ih htokens]
    rfl

/-- A division and a product do not become a comment. -/
theorem emitted_words_slash : ∃ written, "/ * ".toList = [] ++ written ∧
    readWords false written = some [⟨['/'], .punctuator '/'⟩, ⟨['*'], .punctuator '*'⟩] :=
  @emitted_words [⟨['/'], .punctuator '/', ∅, false⟩, ⟨['*'], .punctuator '*', ∅, false⟩] [] _
    (by decide) (List.forall_mem_cons.mpr
      ⟨⟨_, rfl, .inl ⟨['/'], [], by decide⟩⟩, List.forall_mem_singleton.mpr
        ⟨_, rfl, .inl ⟨['*'], [], by decide⟩⟩⟩) false

end CopySpace.Preprocess
