import Mathlib.Data.Bool.AllAny
import CopySpace.Preprocess.Arguments
import CopySpace.Preprocess.Escapes
import CopySpace.Preprocess.Output

/-!
# `preprocess_macros.h`: the string literal of an argument

`#` writes the tokens of an argument into a string literal, with a backslash before the quotes and
backslashes of literals.  A backslash that is a token of its own is written as it is.
-/

namespace CopySpace.Preprocess

/-! ## The characters of a string literal -/

/-- The characters of a string literal after its opening quote. -/
def decodeRest : Text → Option (List Nat)
  | [] => none
  | c :: s =>
      if c = '"' then if s = [] then some [] else none
      else if c = '\\' then
        match _h : escape s with
        | none => none
        | some (code, rest) => (decodeRest rest).map (code :: ·)
      else (decodeRest s).map (c.toNat :: ·)
termination_by s => s.length
decreasing_by
  · exact (escape_length ‹_›).trans (Nat.lt_succ_self _)
  · exact Nat.lt_succ_self _

/-- The characters of a string literal. -/
def decodeString : Text → Option (List Nat)
  | '"' :: s => decodeRest s
  | _ => none

/-- A character of a string literal, and whether a backslash is written before it. -/
structure Written where
  escaped : Bool
  char : Char

def Written.render (a : Written) : Text := if a.escaped then ['\\', a.char] else [a.char]

/-- A backslash is written before quotes and backslashes, and all quotes have one. -/
structure Written.Ok (a : Written) : Prop where
  escaped : a.escaped = true → a.char = '"' ∨ a.char = '\\'
  plain : a.escaped = false → a.char ≠ '"'
  nonzero : a.char ≠ '\x00'

/-- The character is read as it has been written. -/
def Written.Good (a : Written) : Prop :=
  a.escaped = false → a.char ≠ '\\' ∧ a.char ≠ '\n'

section Written

variable {a : Written} {as : List Written} {rest : Text} {codes : List Nat} {skipping : Bool}

theorem decodeRest_escape {code : Nat} {s rest : Text} (h : escape s = some (code, rest)) :
    decodeRest ('\\' :: s) = (decodeRest rest).map (code :: ·) := by
  rw [decodeRest, if_neg (by decide), if_pos rfl]
  split
  case h_1 hnone => rw [h] at hnone; cases hnone
  case h_2 hsome =>
    cases h.symm.trans hsome
    rfl

theorem decodeRest_plain {c : Char} (hquote : c ≠ '"') (hescape : c ≠ '\\') (s : Text) :
    decodeRest (c :: s) = (decodeRest s).map (c.toNat :: ·) := by
  rw [decodeRest, if_neg hquote, if_neg hescape]

theorem escape_special {c : Char} (hc : c = '"' ∨ c = '\\') (s : Text) :
    escape (c :: s) = some (c.toNat, s) := by
  rcases hc with rfl | rfl <;> rfl

/-- What is written well is a literal, whatever follows it. -/
theorem literalRest_render (hok : ∀ a ∈ as, a.Ok) (hgood : ∀ a ∈ as, a.Good) (rest : Text) :
    literalRest skipping '"' (as.flatMap Written.render ++ '"' :: rest) =
      some (as.flatMap Written.render ++ ['"'], rest) := by
  induction as with
  | nil => exact literalRest_delimiter rest
  | cons a as ih =>
    obtain ⟨ha, hok⟩ := List.forall_mem_cons.mp hok
    obtain ⟨hgooda, hgood⟩ := List.forall_mem_cons.mp hgood
    rw [List.flatMap_cons, Written.render]
    cases hescaped : a.escaped with
    | true =>
      rw [if_pos rfl, List.cons_append, List.singleton_append, List.cons_append, List.cons_append,
        literalRest_escape rfl ha.nonzero, ih hok hgood]
      rfl
    | false =>
      obtain ⟨hbackslash, hnewline⟩ := hgooda hescaped
      rw [if_neg Bool.false_ne_true, List.singleton_append, List.cons_append,
        literalRest_plain (ha.plain hescaped) ha.nonzero hnewline hbackslash, ih hok hgood]
      rfl

/-- Its characters are those that have been written. -/
theorem decodeRest_render (hok : ∀ a ∈ as, a.Ok) (hgood : ∀ a ∈ as, a.Good) :
    decodeRest (as.flatMap Written.render ++ ['"']) = some (as.map fun a ↦ a.char.toNat) := by
  induction as with
  | nil => rw [List.flatMap_nil, List.nil_append, decodeRest, if_pos rfl, if_pos rfl, List.map_nil]
  | cons a as ih =>
    obtain ⟨ha, hok⟩ := List.forall_mem_cons.mp hok
    obtain ⟨hgooda, hgood⟩ := List.forall_mem_cons.mp hgood
    rw [List.flatMap_cons, Written.render]
    cases hescaped : a.escaped with
    | true =>
      rw [if_pos rfl, List.cons_append, List.singleton_append, List.cons_append, List.cons_append,
        decodeRest_escape (escape_special (ha.escaped hescaped) _), ih hok hgood]
      rfl
    | false =>
      rw [if_neg Bool.false_ne_true, List.singleton_append, List.cons_append,
        decodeRest_plain (ha.plain hescaped) (hgooda hescaped).1, ih hok hgood]
      rfl

/-- With a line break, and every backslash before a character that is meant, there is no literal. -/
theorem literalRest_newline (hok : ∀ a ∈ as, a.Ok)
    (hbackslash : ∀ a ∈ as, a.escaped = false → a.char ≠ '\\')
    (hnewline : ∃ a ∈ as, a.escaped = false ∧ a.char = '\n') (rest : Text) :
    literalRest false '"' (as.flatMap Written.render ++ rest) = none := by
  induction as with
  | nil =>
    obtain ⟨a, ha, -⟩ := hnewline
    nomatch ha
  | cons a as ih =>
    obtain ⟨ha, hok⟩ := List.forall_mem_cons.mp hok
    obtain ⟨hbacka, hbackslash⟩ := List.forall_mem_cons.mp hbackslash
    rw [List.flatMap_cons, Written.render]
    cases hescaped : a.escaped with
    | true =>
      have hrest : ∃ a ∈ as, a.escaped = false ∧ a.char = '\n' := by
        obtain ⟨b, hb, hplain, hb'⟩ := hnewline
        rcases List.mem_cons.mp hb with rfl | hb
        · rw [hescaped] at hplain
          nomatch hplain
        · exact ⟨b, hb, hplain, hb'⟩
      rw [if_pos rfl, List.cons_append, List.singleton_append, List.cons_append, List.cons_append,
        literalRest_escape rfl ha.nonzero, ih hok hbackslash hrest]
      rfl
    | false =>
      rw [if_neg Bool.false_ne_true, List.singleton_append, List.cons_append]
      by_cases hchar : a.char = '\n'
      · rw [hchar, literalRest.eq_def]
        rfl
      · have hrest : ∃ a ∈ as, a.escaped = false ∧ a.char = '\n' := by
          obtain ⟨b, hb, hplain, hb'⟩ := hnewline
          rcases List.mem_cons.mp hb with rfl | hb
          · exact absurd hb' hchar
          · exact ⟨b, hb, hplain, hb'⟩
        rw [literalRest_plain (ha.plain hescaped) ha.nonzero hchar (hbacka hescaped),
          ih hok hbackslash hrest]
        rfl

/-- Digits that an escape sequence takes are characters of their own that have been written. -/
theorem render_suffix {digits : Text} (hdigits : ∀ d ∈ digits, hex d < 16)
    (h : as.flatMap Written.render ++ ['"'] = digits ++ rest) :
    ∃ as', as' <:+ as ∧ rest = as'.flatMap Written.render ++ ['"'] := by
  induction digits generalizing as with
  | nil => exact ⟨as, List.suffix_rfl, h.symm⟩
  | cons d digits ih =>
    obtain ⟨hd, hdigits⟩ := List.forall_mem_cons.mp hdigits
    rcases as with _ | ⟨a, as⟩
    · obtain ⟨rfl, -⟩ := List.cons.inj h
      nomatch hd
    · rw [List.flatMap_cons, Written.render] at h
      cases hescaped : a.escaped with
      | true =>
        rw [hescaped, if_pos rfl] at h
        obtain ⟨rfl, -⟩ := List.cons.inj h
        nomatch hd
      | false =>
        rw [hescaped, if_neg Bool.false_ne_true] at h
        obtain ⟨-, hrest⟩ := List.cons.inj h
        obtain ⟨as', hsuffix, hrest⟩ := ih hdigits hrest
        exact ⟨as', hsuffix.trans (List.suffix_cons a as), hrest⟩

theorem length_map_cons {o : Option (List Nat)} {code n : Nat}
    (ho : ∀ codes, o = some codes → codes.length ≤ n) (h : o.map (code :: ·) = some codes) :
    codes.length ≤ n + 1 := by
  obtain ⟨codes', hcodes, rfl⟩ := Option.map_eq_some_iff.mp h
  exact Nat.succ_le_succ (ho codes' hcodes)

/-- No more characters are read than have been written, and fewer behind a backslash that takes
one of them into its escape sequence. -/
theorem length_decodeRest (hok : ∀ a ∈ as, a.Ok) :
    (∀ codes, decodeRest (as.flatMap Written.render ++ ['"']) = some codes →
      codes.length ≤ as.length) ∧
    ∀ codes, decodeRest ('\\' :: (as.flatMap Written.render ++ ['"'])) = some codes →
      codes.length ≤ as.length := by
  induction hn : as.length using Nat.strong_induction_on generalizing as with
  | _ n ih =>
    subst hn
    rcases as with _ | ⟨a, as⟩
    · constructor
      · intro codes h
        rw [List.flatMap_nil, List.nil_append, decodeRest, if_pos rfl, if_pos rfl] at h
        cases h
        exact le_rfl
      · intro codes h
        rw [List.flatMap_nil, List.nil_append, decodeRest_escape (escape_special (.inl rfl) []),
          decodeRest] at h
        nomatch h
    · obtain ⟨ha, hok⟩ := List.forall_mem_cons.mp hok
      obtain ⟨ih₁, ih₂⟩ := ih as.length (Nat.lt_succ_self _) hok rfl
      have hne : as.flatMap Written.render ++ ['"'] ≠ [] :=
        List.append_ne_nil_of_right_ne_nil _ (List.cons_ne_nil _ _)
      rw [List.flatMap_cons, Written.render, List.append_assoc, List.length_cons]
      generalize hR : as.flatMap Written.render ++ ['"'] = R at ih₁ ih₂ hne
      cases hescaped : a.escaped with
      | true =>
        rw [if_pos rfl, List.cons_append, List.singleton_append]
        constructor
        · intro codes h
          rw [decodeRest_escape (escape_special (ha.escaped hescaped) R)] at h
          exact length_map_cons ih₁ h
        · intro codes h
          rw [decodeRest_escape (escape_special (.inr rfl) _)] at h
          rcases ha.escaped hescaped with hchar | hchar
          · -- the quote ends the literal too early
            rw [hchar, decodeRest, if_pos rfl, if_neg hne] at h
            nomatch h
          · rw [hchar] at h
            exact length_map_cons ih₂ h
      | false =>
        rw [if_neg Bool.false_ne_true, List.singleton_append]
        constructor
        · intro codes h
          by_cases hchar : a.char = '\\'
          · rw [hchar] at h
            exact (ih₂ codes h).trans (Nat.le_succ _)
          · rw [decodeRest_plain (ha.plain hescaped) hchar] at h
            exact length_map_cons ih₁ h
        · intro codes h
          cases hsequence : escape (a.char :: R) with
          | none =>
            rw [decodeRest, if_neg (by decide), if_pos rfl] at h
            split at h
            case h_1 => nomatch h
            case h_2 hsome => rw [hsequence] at hsome; nomatch hsome
          | some result =>
            obtain ⟨code, rest⟩ := result
            obtain ⟨digits, hdigits, hhex⟩ := escape_split hsequence
            obtain ⟨as', hsuffix, rfl⟩ := render_suffix hhex (hR.trans hdigits)
            rw [decodeRest_escape hsequence] at h
            have hle := hsuffix.length_le
            have hrest := (ih as'.length (by rw [List.length_cons]; omega)
              (fun b hb ↦ hok b (hsuffix.subset hb)) rfl).1
            exact (length_map_cons hrest h).trans (Nat.succ_le_succ hle)

/-- Behind a backslash that is meant itself a character is lost. -/
theorem length_decodeRest_lt (hok : ∀ a ∈ as, a.Ok)
    (hbackslash : ∃ a ∈ as, a.escaped = false ∧ a.char = '\\')
    (h : decodeRest (as.flatMap Written.render ++ ['"']) = some codes) :
    codes.length < as.length := by
  induction as generalizing codes with
  | nil =>
    obtain ⟨a, ha, -⟩ := hbackslash
    nomatch ha
  | cons a as ih =>
    obtain ⟨ha, hok⟩ := List.forall_mem_cons.mp hok
    rw [List.flatMap_cons, Written.render, List.append_assoc] at h
    rw [List.length_cons]
    by_cases hhere : a.escaped = false ∧ a.char = '\\'
    · rw [hhere.1, if_neg Bool.false_ne_true, hhere.2, List.singleton_append] at h
      exact Nat.lt_succ_of_le ((length_decodeRest hok).2 codes h)
    · have hrest : ∃ a ∈ as, a.escaped = false ∧ a.char = '\\' := by
        obtain ⟨b, hb, hb'⟩ := hbackslash
        rcases List.mem_cons.mp hb with rfl | hb
        · exact absurd hb' hhere
        · exact ⟨b, hb, hb'⟩
      cases hescaped : a.escaped with
      | true =>
        rw [hescaped, if_pos rfl, List.cons_append, List.singleton_append,
          decodeRest_escape (escape_special (ha.escaped hescaped) _)] at h
        obtain ⟨codes', hcodes, rfl⟩ := Option.map_eq_some_iff.mp h
        exact Nat.succ_lt_succ (ih hok hrest hcodes)
      | false =>
        rw [hescaped, if_neg Bool.false_ne_true, List.singleton_append,
          decodeRest_plain (ha.plain hescaped) fun hchar ↦ hhere ⟨hescaped, hchar⟩] at h
        obtain ⟨codes', hcodes, rfl⟩ := Option.map_eq_some_iff.mp h
        exact Nat.succ_lt_succ (ih hok hrest hcodes)

end Written

/-! ## The bytes of a token -/

section Bytes

variable {s t rest text : Text} {c delimiter : Char} {kind : Kind}

theorem literalRest_nonzero (h : literalRest false delimiter s = some (t, rest))
    (hdelimiter : isQuote delimiter) : '\x00' ∉ t := by
  fun_induction literalRest false delimiter s generalizing t rest with
  | case1 hskip | case5 _ hskip | case7 hskip => cases hskip
  | case2 | case4 | case6 | case8 | case9 => cases h
  | case3 s =>
    cases h
    rw [List.mem_singleton]
    rintro rfl
    cases hdelimiter
  | case10 d s hd _ _ _ ih =>
    obtain ⟨⟨t', rest'⟩, hrest, heq⟩ := Option.map_eq_some_iff.mp h
    cases heq
    simp only [List.mem_cons, not_or]
    exact ⟨by decide, Ne.symm hd, ih hrest⟩
  | case11 c s _ hzero _ _ ih =>
    obtain ⟨⟨t', rest'⟩, hrest, heq⟩ := Option.map_eq_some_iff.mp h
    cases heq
    simp only [List.mem_cons, not_or]
    exact ⟨Ne.symm hzero, ih hrest⟩

theorem literalStart_nonzero {opening : Text}
    (h : literalStart s = some (opening, delimiter, rest)) : '\x00' ∉ opening := by
  have hquote {q : Char} (hq : isQuote q = true) : '\x00' ≠ q := by
    rintro rfl
    nomatch hq
  unfold literalStart at h
  split at h
  · cases h
    decide
  · split_ifs at h with hinitial hp
    · cases h
      simp only [Bool.and_eq_true, Bool.or_eq_true, decide_eq_true_eq] at hinitial
      obtain ⟨(rfl | rfl) | rfl, hq⟩ := hinitial <;>
        simp only [List.mem_cons, List.not_mem_nil, or_false, not_or] <;>
        exact ⟨by decide, hquote hq⟩
    · cases h
      exact List.mem_singleton.not.mpr (hquote hp)
  · split_ifs at h with hq
    cases h
    exact List.mem_singleton.not.mpr (hquote hq)
  · cases h

/-- The bytes of a token that matter in a string literal. -/
structure TextOk (text : Text) (kind : Kind) : Prop where
  nonzero : '\x00' ∉ text
  quote : kind ≠ .literal → '"' ∉ text
  backslash : kind ≠ .literal → '\\' ∈ text → text = ['\\']
  newline : kind ≠ .literal → '\n' ∈ text → kind = .punctuator '\n'

theorem textOk_of_isPlain (h : ∀ x ∈ text, isPlain x) (kind : Kind) : TextOk text kind := by
  have hmem {d : Char} (hd : isPlain d = false) : d ∉ text := fun hmem ↦
    isPlain_ne hd (h d hmem) rfl
  exact ⟨hmem rfl, fun _ ↦ hmem rfl, fun _ hb ↦ absurd hb (hmem rfl),
    fun _ hn ↦ absurd hn (hmem rfl)⟩

/-- A punctuator of more than one byte has none that matters in a literal. -/
theorem IsPunctuator.cases (h : IsPunctuator text) :
    (∃ a, text = [a]) ∨ ∀ d ∈ text, d ∉ "\x00\"\\\n".toList := by
  cases h with
  | single a => exact .inl ⟨a, rfl⟩
  | pair hpair =>
    have hall : (pairs.map String.toList).all (·.all (· ∉ "\x00\"\\\n".toList)) := by decide
    exact .inr (List.all_iff_forall_prop.mp (List.all_eq_true.mp hall _ hpair))
  | triple hmem =>
    have hall : (["...", "<<=", ">>="].map String.toList).all
        (·.all (· ∉ "\x00\"\\\n".toList)) := by decide
    exact .inr (List.all_iff_forall_prop.mp (List.all_eq_true.mp hall _ hmem))

theorem IsToken.textOk (h : IsToken text kind) : TextOk text kind := by
  cases h with
  | literal hstart hrest =>
    refine ⟨fun hmem ↦ ?_, fun hkind ↦ absurd rfl hkind, fun hkind ↦ absurd rfl hkind,
      fun hkind ↦ absurd rfl hkind⟩
    rcases List.mem_append.mp hmem with hmem | hmem
    · exact literalStart_nonzero hstart hmem
    · exact literalRest_nonzero hrest (isQuote_of_literalStart hstart) hmem
  | ident hname ht =>
    exact textOk_of_isPlain (List.forall_mem_cons.mpr ⟨isPlain_of_isName (by rw [hname]; rfl),
      fun x hx ↦ isPlain_of_isName (ht x hx)⟩) _
  | number _ hnumber => exact textOk_of_isPlain (mem_number hnumber) _
  | @punctuator c t hpunct _ _ _ hquote hzero =>
    rcases hpunct.cases with ⟨a, ha⟩ | hall
    · cases ha
      refine ⟨List.mem_singleton.not.mpr (Ne.symm hzero), fun _ ↦ List.mem_singleton.not.mpr ?_,
        fun _ hmem ↦ ?_, fun _ hmem ↦ ?_⟩
      · rintro rfl
        nomatch hquote
      · rw [List.mem_singleton.mp hmem]
      · rw [List.mem_singleton.mp hmem]
    · have hmem {d : Char} (hd : d ∈ "\x00\"\\\n".toList) : d ∉ c :: t := fun hd' ↦ hall d hd' hd
      exact ⟨hmem (by decide), fun _ ↦ hmem (by decide), fun _ hb ↦ absurd hb (hmem (by decide)),
        fun _ hn ↦ absurd hn (hmem (by decide))⟩

end Bytes

/-! ## The literal of an argument -/

/-- The loop of `cc_pp_stringify`. -/
def stringifySourceLoop (skipping previous space : Bool) (s : Text) : Option Text :=
  match _h : next skipping s with
  | none => none
  | some (none, _) => some []
  | some (some t, rest) =>
      if t.newline then stringifySourceLoop skipping previous true rest
      else (stringifySourceLoop skipping true false rest).map fun text ↦
        (if previous && (space || t.space) then [' '] else []) ++ t.escaped ++ text
termination_by s.length
decreasing_by all_goals exact next_length ‹_›

/-- `cc_pp_stringify`. -/
def stringifySource (skipping : Bool) (s : Text) : Option Token :=
  (stringifySourceLoop skipping false false s).map fun text ↦ ⟨'"' :: text ++ ['"'], .literal, ∅, false⟩

/-- The spelling of an argument, with one space where white space separates two of its tokens. -/
def spelling (tokens : List Token) : Text :=
  match rawTokens false tokens with
  | [] => []
  | t :: raw => t.text ++ raw.flatMap fun u ↦ (if u.space then [' '] else []) ++ u.text

/-- The token is read as one string literal, whatever follows it, and has these characters. -/
structure ReadsAs (t : Token) (characters : Text) : Prop where
  next : ∀ rest, next false (t.text ++ rest) = some (some ⟨t.text, .literal, ∅, false⟩, rest)
  characters : decodeString t.text = some (characters.map Char.toNat)

/-- The token of an argument: it has been read, or pasted, or it is the literal of an argument. -/
inductive ArgumentToken : Word → Prop
  | produced {w : Word} : Produced w → ArgumentToken w
  | string {tokens : List Token} : (∀ t ∈ tokens, ArgumentToken t.word) →
      ArgumentToken (stringify tokens).word

/-- The token is no lone backslash, and no literal with a line break. -/
structure Clean (t : Token) : Prop where
  newline : t.kind = .literal → '\n' ∉ t.text
  backslash : t.kind ≠ .literal → t.text ≠ ['\\']

/-- What is written for a token. -/
def Token.characters (t : Token) : List Written :=
  t.text.map fun c ↦ ⟨t.kind = .literal && (c = '"' || c = '\\'), c⟩

/-- What is written for the further tokens of an argument. -/
def furtherWritten (raw : List Token) : List Written :=
  raw.flatMap fun u ↦ (if u.space then [⟨false, ' '⟩] else []) ++ u.characters

/-- What is written for an argument. -/
def argumentWritten : List Token → List Written
  | [] => []
  | t :: raw => t.characters ++ furtherWritten raw

section

variable {t : Token} {tokens raw : List Token} {s rest : Text} {skipping space : Bool}

theorem render_characters (t : Token) : t.characters.flatMap Written.render = t.escaped := by
  rw [Token.characters, Token.escaped, List.flatMap_map]
  rfl

theorem render_further (space : Bool) (tokens : List Token) :
    (furtherWritten (rawTokens space tokens)).flatMap Written.render =
      stringifyLoop true space tokens := by
  induction tokens generalizing space with
  | nil => rfl
  | cons t tokens ih =>
    rw [rawTokens, stringifyLoop]
    split
    · exact ih true
    · rw [furtherWritten, List.flatMap_cons, ← furtherWritten, List.flatMap_append,
        List.flatMap_append, ih, ← render_characters, Bool.true_and, Bool.or_comm]
      cases space || t.space <;> rfl

theorem render_argument (space : Bool) (tokens : List Token) :
    (argumentWritten (rawTokens space tokens)).flatMap Written.render =
      stringifyLoop false space tokens := by
  induction tokens generalizing space with
  | nil => rfl
  | cons t tokens ih =>
    rw [rawTokens, stringifyLoop]
    split
    · exact ih true
    · rw [argumentWritten, List.flatMap_append, render_further, ← render_characters]
      rfl

theorem characters_argument (tokens : List Token) :
    (argumentWritten (rawTokens false tokens)).map Written.char = spelling tokens := by
  have htoken (t : Token) : t.characters.map Written.char = t.text := by
    rw [Token.characters, List.map_map]
    exact List.map_id _
  have hfurther (raw : List Token) : (furtherWritten raw).map Written.char =
      raw.flatMap fun u ↦ (if u.space then [' '] else []) ++ u.text := by
    induction raw with
    | nil => rfl
    | cons u raw ih =>
      rw [furtherWritten, List.flatMap_cons, ← furtherWritten, List.map_append, ih,
        List.map_append, htoken, List.flatMap_cons]
      cases u.space <;> rfl
  rw [spelling]
  cases rawTokens false tokens with
  | nil => rfl
  | cons t raw => rw [argumentWritten, List.map_append, htoken, hfurther]

/-- What holds of a space and of all that is written for the tokens, except line breaks, holds of
all that is written for the argument. -/
theorem forall_written {P : Written → Prop} (hspace : P ⟨false, ' '⟩) (tokens : List Token) :
    (∀ a ∈ argumentWritten (rawTokens false tokens), P a) ↔
      ∀ t ∈ tokens, ¬ t.newline → ∀ a ∈ t.characters, P a := by
  have hraw (space : Bool) : (∀ u ∈ rawTokens space tokens, ∀ a ∈ u.characters, P a) ↔
      ∀ t ∈ tokens, ¬ t.newline → ∀ a ∈ t.characters, P a := by
    induction tokens generalizing space with
    | nil => exact ⟨fun _ t ht ↦ absurd ht List.not_mem_nil, fun _ t ht ↦ absurd ht List.not_mem_nil⟩
    | cons t tokens ih =>
      rw [rawTokens, List.forall_mem_cons]
      split
      case isTrue ht =>
        rw [ih true]
        exact ⟨fun h ↦ ⟨fun hn ↦ absurd ht hn, h⟩, fun h ↦ h.2⟩
      case isFalse ht =>
        rw [List.forall_mem_cons, ih false]
        exact ⟨fun h ↦ ⟨fun _ ↦ h.1, h.2⟩, fun h ↦ ⟨h.1 ht, h.2⟩⟩
  have hfurther (raw : List Token) :
      (∀ a ∈ furtherWritten raw, P a) ↔ ∀ u ∈ raw, ∀ a ∈ u.characters, P a := by
    rw [furtherWritten, List.forall_mem_flatMap]
    refine forall₂_congr fun u _ ↦ ?_
    rw [List.forall_mem_append]
    refine ⟨fun h ↦ h.2, fun h ↦ ⟨?_, h⟩⟩
    split
    · exact List.forall_mem_singleton.mpr hspace
    · exact fun a ha ↦ absurd ha List.not_mem_nil
  rw [← hraw false]
  cases rawTokens false tokens with
  | nil => exact ⟨fun _ t ht ↦ absurd ht List.not_mem_nil, fun _ t ht ↦ absurd ht List.not_mem_nil⟩
  | cons t raw => rw [argumentWritten, List.forall_mem_append, hfurther, List.forall_mem_cons]

theorem characters_ok (h : TextOk t.text t.kind) : ∀ a ∈ t.characters, a.Ok := by
  rw [Token.characters, List.forall_mem_map]
  intro c hc
  refine ⟨fun hescaped ↦ ?_, ?_, fun hzero ↦ h.nonzero (hzero ▸ hc)⟩
  · simpa using (Bool.and_eq_true_iff.mp hescaped).2
  · rintro hplain rfl
    refine h.quote (fun hkind ↦ ?_) hc
    rw [hkind] at hplain
    nomatch hplain

/-- The characters of a token are good if it is clean. -/
theorem characters_good (h : TextOk t.text t.kind) (hline : ¬ t.newline) :
    (∀ a ∈ t.characters, a.Good) ↔ Clean t := by
  rw [Token.characters, List.forall_mem_map]
  constructor
  · intro hgood
    constructor
    · rintro hkind hmem
      exact (hgood _ hmem (by rw [hkind]; rfl)).2 rfl
    · intro hkind htext
      refine (hgood '\\' (htext ▸ List.mem_singleton_self _) ?_).1 rfl
      rw [decide_eq_false hkind, Bool.false_and]
  · intro hclean c hc hplain
    by_cases hkind : t.kind = .literal
    · refine ⟨?_, fun hnewline ↦ hclean.newline hkind (hnewline ▸ hc)⟩
      rintro rfl
      rw [hkind] at hplain
      nomatch hplain
    · constructor
      · rintro rfl
        exact hclean.backslash hkind (h.backslash hkind hc)
      · rintro rfl
        exact hline (decide_eq_true (h.newline hkind hc))

theorem ArgumentToken.textOk {w : Word} (h : ArgumentToken w) : TextOk w.text w.kind := by
  induction h with
  | produced hw => exact hw.isToken.textOk
  | @string tokens _ ih =>
    have hok := (forall_written (P := Written.Ok) ⟨nofun, fun _ ↦ by decide, by decide⟩
      tokens).mpr fun t ht _ ↦ characters_ok (ih t ht)
    refine ⟨fun hmem ↦ ?_, fun hkind ↦ absurd rfl hkind, fun hkind ↦ absurd rfl hkind,
      fun hkind ↦ absurd rfl hkind⟩
    change '\x00' ∈ '"' :: stringifyLoop false false tokens ++ ['"'] at hmem
    rw [← render_argument] at hmem
    simp only [List.cons_append, List.mem_cons, List.mem_append, List.not_mem_nil, or_false,
      List.mem_flatMap] at hmem
    rcases hmem with hquote | ⟨a, ha, hmem⟩ | hquote
    · nomatch hquote
    · rw [Written.render] at hmem
      split at hmem
      · simp only [List.mem_cons, List.not_mem_nil, or_false] at hmem
        rcases hmem with hslash | hzero
        · nomatch hslash
        · exact (hok a ha).nonzero hzero.symm
      · exact (hok a ha).nonzero (List.mem_singleton.mp hmem).symm
    · nomatch hquote

theorem ArgumentToken.newline_text {w : Word} (h : ArgumentToken w)
    (hkind : w.kind = .punctuator '\n') : w.text = ['\n'] := by
  cases h with
  | produced hw => exact (hkind ▸ hw.isToken).newline_text
  | string => nomatch hkind

theorem next_string (s : Text) : next false ('"' :: s) =
    (literalRest false '"' s).map fun (t, rest) ↦
      (some ⟨'"' :: t, .literal, ∅, false⟩, rest) := by
  rw [next, skipBlanks_starts (starts_of_ne rfl (by decide) s)]
  dsimp only
  rw [lexeme, literalStart_quote rfl]
  dsimp only
  rw [Option.map_map]
  refine Option.map_congr fun result _ ↦ ?_
  simp

/-- The literal of an argument is read as the argument if and only if all tokens are clean. -/
theorem readsAs_iff (h : ∀ t ∈ tokens, ArgumentToken t.word) :
    ReadsAs (stringify tokens) (spelling tokens) ↔ ∀ t ∈ tokens, Clean t := by
  have htext (t : Token) (ht : t ∈ tokens) : TextOk t.text t.kind := (h t ht).textOk
  have hok := (forall_written (P := Written.Ok) ⟨nofun, fun _ ↦ by decide, by decide⟩
    tokens).mpr fun t ht _ ↦ characters_ok (htext t ht)
  have hgood : (∀ a ∈ argumentWritten (rawTokens false tokens), a.Good) ↔
      ∀ t ∈ tokens, Clean t := by
    rw [forall_written (P := Written.Good) fun _ ↦ ⟨by decide, by decide⟩]
    refine forall₂_congr fun t ht ↦ ⟨fun hclean ↦ ?_, fun hclean hline ↦
      (characters_good (htext t ht) hline).mpr hclean⟩
    by_cases hline : t.newline
    · have hkind : t.kind = .punctuator '\n' := of_decide_eq_true hline
      constructor
      · intro hliteral
        rw [hkind] at hliteral
        nomatch hliteral
      · intro _ hback
        have hbreak := (h t ht).newline_text hkind
        change t.text = ['\n'] at hbreak
        rw [hback] at hbreak
        nomatch hbreak
    · exact (characters_good (htext t ht) hline).mp (hclean hline)
  have hbody : (stringify tokens).text =
      '"' :: (argumentWritten (rawTokens false tokens)).flatMap Written.render ++ ['"'] := by
    rw [render_argument]
    rfl
  have hspelling := characters_argument tokens
  generalize argumentWritten (rawTokens false tokens) = as at hok hgood hbody hspelling
  rw [← hgood]
  constructor
  · intro hreads
    have hnext := hreads.next []
    have hdecode := hreads.characters
    rw [List.append_nil, hbody, List.cons_append, next_string] at hnext
    rw [hbody, List.cons_append, decodeString, ← hspelling, List.map_map] at hdecode
    by_contra hbad
    by_cases hback : ∃ a ∈ as, a.escaped = false ∧ a.char = '\\'
    · -- a character less is read than has been written
      have hlt := length_decodeRest_lt hok hback hdecode
      rw [List.length_map] at hlt
      exact Nat.lt_irrefl _ hlt
    · push Not at hback
      have hnewline : ∃ a ∈ as, a.escaped = false ∧ a.char = '\n' := by
        by_contra hnone
        push Not at hnone
        exact hbad fun a ha hplain ↦ ⟨hback a ha hplain, hnone a ha hplain⟩
      rw [literalRest_newline hok hback hnewline] at hnext
      nomatch hnext
  · intro hgood
    constructor
    · intro rest
      rw [hbody, List.cons_append, List.cons_append, List.append_assoc, next_string,
        List.singleton_append, literalRest_render hok hgood]
      rfl
    · rw [hbody, List.cons_append, decodeString, decodeRest_render hok hgood, ← hspelling,
        List.map_map]
      rfl

theorem stringifySourceLoop_eq (skipping previous space : Bool) (s : Text) :
    stringifySourceLoop skipping previous space s =
      (readTokens skipping s).map (stringifyLoop previous space) := by
  fun_induction stringifySourceLoop skipping previous space s with
  | case1 _ _ _ h | case2 _ _ _ _ h =>
    rw [readTokens_eq, h]
    rfl
  | case3 previous space s t rest h hline ih =>
    rw [readTokens_eq, h, ih]
    dsimp only
    rw [Option.map_map]
    refine Option.map_congr fun tokens _ ↦ ?_
    rw [Function.comp_apply, stringifyLoop, if_pos hline]
  | case4 previous space s t rest h hline ih =>
    rw [readTokens_eq, h, ih]
    dsimp only
    rw [Option.map_map, Option.map_map]
    refine Option.map_congr fun tokens _ ↦ ?_
    rw [Function.comp_apply, Function.comp_apply, stringifyLoop, if_neg hline]

/-- The text of an argument gives the same literal as its tokens. -/
theorem stringifySource_eq (skipping : Bool) (s : Text) :
    stringifySource skipping s = (readTokens skipping s).map stringify := by
  rw [stringifySource, stringifySourceLoop_eq, Option.map_map]
  rfl

end

/-- **The literal of an argument is read as the argument, except where a backslash is a token of
its own or a line break is in a literal.** -/
theorem stringification (skipping : Bool) (s : Text) (tokens : List Token)
    (h : ∀ t ∈ tokens, ArgumentToken t.word) :
    stringifySource skipping s = (readTokens skipping s).map stringify ∧
      (ReadsAs (stringify tokens) (spelling tokens) ↔ ∀ t ∈ tokens, Clean t) :=
  ⟨stringifySource_eq skipping s, readsAs_iff h⟩

/-- `a "b"` is read as it is. -/
theorem stringification_quoted : ReadsAs
    (stringify [⟨['a'], .ident, ∅, false⟩, ⟨"\"b\"".toList, .literal, ∅, true⟩])
    (spelling [⟨['a'], .ident, ∅, false⟩, ⟨"\"b\"".toList, .literal, ∅, true⟩]) :=
  (stringification false [] [⟨['a'], .ident, ∅, false⟩, ⟨"\"b\"".toList, .literal, ∅, true⟩]
    (List.forall_mem_cons.mpr
      ⟨.produced ⟨_, rfl, .inl ⟨['a'], [], by decide⟩⟩, List.forall_mem_singleton.mpr
        (.produced ⟨⟨"\"b\"".toList, .literal, ∅, false⟩, rfl,
          .inl ⟨"\"b\"".toList, [], by decide⟩⟩)⟩)).2.mpr
    (List.forall_mem_cons.mpr ⟨⟨nofun, fun _ ↦ by decide⟩,
      List.forall_mem_singleton.mpr ⟨fun _ ↦ by decide, fun h ↦ absurd rfl h⟩⟩)

/-- A backslash, which is a token, gives no literal: it takes in what follows. -/
theorem stringify_backslash : ∃ t, next false ['\\'] = some (some t, []) ∧
    ¬ ReadsAs (stringify [t]) (spelling [t]) ∧
    next false ((stringify [t]).text ++ " + \"".toList) =
      some (some ⟨(stringify [t]).text ++ " + \"".toList, .literal, ∅, false⟩, []) := by
  have hnext : next false ['\\'] = some (some ⟨['\\'], .punctuator '\\', ∅, false⟩, []) := by
    decide
  refine ⟨_, hnext, fun hreads ↦ ?_, by decide⟩
  have hclean := (readsAs_iff (List.forall_mem_singleton.mpr
    (.produced ⟨_, rfl, .inl ⟨_, _, hnext⟩⟩))).mp hreads
  exact (List.forall_mem_singleton.mp hclean).backslash nofun rfl

end CopySpace.Preprocess
