import Mathlib.Data.Bool.AllAny
import Mathlib.Data.List.TakeWhile
import CopySpace.Preprocess.Define

/-!
# `preprocess_macros.h`: tokens before a blank

A token does not depend on what stands behind a blank that follows it: where it has been read once,
it is read again in front of any other text that starts with a blank.  A line break is read in
front of any text, and so is a literal.
-/

namespace CopySpace.Preprocess

variable {skipping : Bool} {s rest text t tail : Text} {c delimiter : Char} {kind : Kind}

/-! ## Literals -/

theorem isQuote_iff : isQuote c ↔ c = '"' ∨ c = '\'' := by simp [isQuote]

theorem literalStart_quote (hq : isQuote c = true) (tail : Text) :
    literalStart (c :: tail) = some ([c], c, tail) := by
  rcases isQuote_iff.mp hq with rfl | rfl <;> cases tail <;> rfl

theorem literalStart_append {opening : Text}
    (h : literalStart s = some (opening, delimiter, rest)) (tail : Text) :
    literalStart (opening ++ tail) = some (opening, delimiter, tail) := by
  unfold literalStart at h
  split at h
  · cases h
    rfl
  · split_ifs at h with hinitial hp
    · cases h
      simp only [Bool.and_eq_true, Bool.or_eq_true, decide_eq_true_eq, isQuote_iff] at hinitial
      obtain ⟨(rfl | rfl) | rfl, rfl | rfl⟩ := hinitial <;> rfl
    · cases h
      exact literalStart_quote hp tail
  · split_ifs at h with hq
    cases h
    exact literalStart_quote hq tail
  · cases h

theorem literalRest_delimiter (s : Text) :
    literalRest skipping delimiter (delimiter :: s) = some ([delimiter], s) := by
  rw [literalRest.eq_def]
  exact if_pos rfl

theorem literalRest_escape (hdelimiter : isQuote delimiter) (hc : c ≠ '\x00') (s : Text) :
    literalRest skipping delimiter ('\\' :: c :: s) =
      (literalRest skipping delimiter s).map fun (t, rest) ↦ ('\\' :: c :: t, rest) := by
  have hne : '\\' ≠ delimiter := by
    rcases isQuote_iff.mp hdelimiter with rfl | rfl <;> decide
  rw [literalRest.eq_def]
  dsimp only
  rw [if_neg hne, if_neg (by decide), if_neg (by decide), if_pos rfl]
  exact if_neg hc

theorem literalRest_plain (hdelimiter : c ≠ delimiter) (hzero : c ≠ '\x00') (hnewline : c ≠ '\n')
    (hescape : c ≠ '\\') (s : Text) :
    literalRest skipping delimiter (c :: s) =
      (literalRest skipping delimiter s).map fun (t, rest) ↦ (c :: t, rest) := by
  rw [literalRest.eq_def]
  dsimp only
  rw [if_neg hdelimiter, if_neg hzero, if_neg hnewline, if_neg hescape]

/-- What a literal ends with does not depend on what follows it, nor on the mode. -/
theorem literalRest_append (hdelimiter : isQuote delimiter)
    (h : literalRest false delimiter s = some (t, rest)) (skipping : Bool) (tail : Text) :
    literalRest skipping delimiter (t ++ tail) = some (t, tail) := by
  fun_induction literalRest false delimiter s generalizing t rest with
  | case1 hskip | case5 _ hskip | case7 hskip => cases hskip
  | case2 | case4 | case6 | case8 | case9 => cases h
  | case3 s =>
    cases h
    exact literalRest_delimiter tail
  | case10 d s hd _ _ _ ih =>
    obtain ⟨⟨t', rest'⟩, hrest, heq⟩ := Option.map_eq_some_iff.mp h
    cases heq
    rw [List.cons_append, List.cons_append, literalRest_escape hdelimiter hd, ih hrest,
      Option.map_some]
  | case11 c s hne hzero hnewline hescape ih =>
    obtain ⟨⟨t', rest'⟩, hrest, heq⟩ := Option.map_eq_some_iff.mp h
    cases heq
    rw [List.cons_append, literalRest_plain hne hzero hnewline hescape, ih hrest, Option.map_some]

/-- A literal ends with its delimiter. -/
theorem literalRest_end (h : literalRest false delimiter s = some (t, rest)) :
    ∃ content, t = content ++ [delimiter] := by
  fun_induction literalRest false delimiter s generalizing t rest with
  | case1 hskip | case5 _ hskip | case7 hskip => cases hskip
  | case2 | case4 | case6 | case8 | case9 => cases h
  | case3 s =>
    cases h
    exact ⟨[], rfl⟩
  | case10 d s _ _ _ _ ih =>
    obtain ⟨⟨t', rest'⟩, hrest, heq⟩ := Option.map_eq_some_iff.mp h
    obtain ⟨content, rfl⟩ := ih hrest
    cases heq
    exact ⟨'\\' :: d :: content, rfl⟩
  | case11 c s _ _ _ _ ih =>
    obtain ⟨⟨t', rest'⟩, hrest, heq⟩ := Option.map_eq_some_iff.mp h
    obtain ⟨content, rfl⟩ := ih hrest
    cases heq
    exact ⟨c :: content, rfl⟩

/-- How a literal can start. -/
theorem literalStart_cases {opening : Text}
    (h : literalStart s = some (opening, delimiter, rest)) :
    opening = ['u', '8', '"'] ∧ delimiter = '"' ∨
      (∃ p, (p = 'L' ∨ p = 'u' ∨ p = 'U') ∧ opening = [p, delimiter]) ∨ opening = [delimiter] := by
  unfold literalStart at h
  split at h
  · cases h
    exact .inl ⟨rfl, rfl⟩
  · split_ifs at h with hinitial hp
    · cases h
      simp only [Bool.and_eq_true, Bool.or_eq_true, decide_eq_true_eq, or_assoc] at hinitial
      exact .inr (.inl ⟨_, hinitial.1, rfl⟩)
    · cases h
      exact .inr (.inr rfl)
  · split_ifs at h with hq
    cases h
    exact .inr (.inr rfl)
  · cases h

theorem isQuote_of_literalStart {opening : Text}
    (h : literalStart s = some (opening, delimiter, rest)) : isQuote delimiter := by
  unfold literalStart at h
  split at h
  · cases h
    rfl
  · split_ifs at h with hinitial hp
    · cases h
      exact (Bool.and_eq_true_iff.mp hinitial).2
    · cases h
      exact hp
  · split_ifs at h with hq
    cases h
    exact hq
  · cases h

theorem literalStart_none {p q : Char} (hp : isQuote p = false) (hq : isQuote q = false)
    (hs : q = '8' → s.head? ≠ some '"') : literalStart (p :: q :: s) = none := by
  unfold literalStart
  split
  case h_1 heq =>
    cases heq
    exact absurd rfl (hs rfl)
  case h_2 heq =>
    cases heq
    rw [hq, hp, Bool.and_false, if_neg Bool.false_ne_true, if_neg Bool.false_ne_true]
  case h_3 heq => cases heq
  case h_4 => rfl

/-- Without quotes there is no literal. -/
theorem literalStart_blank (hquotes : ∀ x ∈ text, isQuote x = false) (hne : text ≠ []) :
    literalStart (text ++ ' ' :: tail) = none := by
  rcases text with _ | ⟨a, _ | ⟨b, text⟩⟩
  · exact absurd rfl hne
  · exact literalStart_none (hquotes a (List.mem_cons_self ..)) rfl nofun
  · refine literalStart_none (hquotes a (List.mem_cons_self ..))
      (hquotes b (List.mem_cons_of_mem _ (List.mem_cons_self ..))) fun _ ↦ ?_
    rcases text with _ | ⟨d, text⟩
    · rintro ⟨⟩
    · rintro ⟨⟩
      nomatch hquotes '"'
        (List.mem_cons_of_mem _ (List.mem_cons_of_mem _ (List.mem_cons_self ..)))

theorem isQuote_head_of_none (h : literalStart (c :: s) = none) : isQuote c = false := by
  by_contra hq
  rw [literalStart_quote (Bool.eq_true_of_not_eq_false hq)] at h
  cases h

/-! ## Identifiers and numbers -/

theorem mem_identRest (s : Text) : ∀ x ∈ (identRest s).1, isName x || isDigit x := by
  intro x hx
  rw [identRest, List.span_eq_takeWhile_dropWhile] at hx
  simpa using List.mem_takeWhile_imp hx

theorem identRest_blank (ht : ∀ x ∈ t, isName x || isDigit x) :
    identRest (t ++ ' ' :: tail) = (t, ' ' :: tail) := by
  rw [identRest, List.span_eq_takeWhile_dropWhile, List.takeWhile_append_of_pos ht,
    List.dropWhile_append_of_pos ht]
  rw [List.takeWhile_cons_of_neg (by decide), List.dropWhile_cons_of_neg (by decide),
    List.append_nil]

/-- A number is read again in front of a blank. -/
theorem numberRest_blank (c : Char) (s : Text) :
    numberRest c ((numberRest c s).1 ++ ' ' :: tail) = ((numberRest c s).1, ' ' :: tail) := by
  fun_induction numberRest c s with
  | case1 c | case3 c => rfl
  | case2 c d s hd t rest heq ih =>
    rw [heq] at ih
    rw [List.cons_append, numberRest, if_pos hd, ih]

/-- The bytes of numbers and identifiers. -/
def isPlain (c : Char) : Bool := isName c || isDigit c || c = '.' || c = '+' || c = '-'

theorem isPlain_of_number {previous : Char}
    (h : (isName c || isDigit c || c = '.' || ((c = '+' || c = '-') && (previous = 'e' ||
      previous = 'E' || previous = 'p' || previous = 'P'))) = true) : isPlain c := by
  simp only [isPlain, Bool.or_eq_true, Bool.and_eq_true] at h ⊢
  rcases h with h | ⟨hsign, -⟩
  · exact .inl (.inl h)
  · exact hsign.elim (fun h ↦ .inl (.inr h)) .inr

theorem mem_numberRest (c : Char) (s : Text) : ∀ x ∈ (numberRest c s).1, isPlain x := by
  fun_induction numberRest c s with
  | case1 | case3 => exact fun x hx ↦ absurd hx List.not_mem_nil
  | case2 c d s hd t rest heq ih =>
    rw [heq] at ih
    exact List.forall_mem_cons.mpr ⟨isPlain_of_number hd, ih⟩

/-- A number is made of such bytes. -/
theorem mem_number (h : (isDigit c || (c = '.' && s.head?.any isDigit)) = true) :
    ∀ x ∈ c :: (numberRest c s).1, isPlain x := by
  refine List.forall_mem_cons.mpr ⟨?_, mem_numberRest c s⟩
  simp only [isPlain, Bool.or_eq_true, Bool.and_eq_true] at h ⊢
  exact .inl (.inl (h.elim (fun h ↦ .inl (.inr h)) fun h ↦ .inr h.1))

theorem isPlain_of_isName (h : isName c || isDigit c) : isPlain c := by
  rw [isPlain, h]
  rfl

theorem isPlain_ne {d : Char} (hd : isPlain d = false) (h : isPlain c) : c ≠ d := by
  rintro rfl
  rw [hd] at h
  nomatch h

theorem isQuote_of_isPlain (h : isPlain c) : isQuote c = false := by
  by_contra hq
  rcases isQuote_iff.mp (Bool.eq_true_of_not_eq_false hq) with rfl | rfl <;> nomatch h

/-! ## Punctuators -/

/-- What a punctuator can be. -/
inductive IsPunctuator : Text → Prop
  | single (a : Char) : IsPunctuator [a]
  | pair {a b : Char} : [a, b] ∈ pairs.map String.toList → IsPunctuator [a, b]
  | triple {text : Text} : text ∈ ["...", "<<=", ">>="].map String.toList → IsPunctuator text

theorem isPunctuator (c : Char) (s : Text) : IsPunctuator (punctuator (c :: s)).1 := by
  unfold punctuator
  split
  · exact .triple (List.mem_cons_self ..)
  · exact .triple (List.mem_cons_of_mem _ (List.mem_cons_self ..))
  · exact .triple (List.mem_cons_of_mem _ (List.mem_cons_of_mem _ (List.mem_cons_self ..)))
  · split
    case isTrue hpair => exact .pair hpair
    · exact .single _
  case h_5 hpair =>
    rcases s with _ | ⟨b, s⟩
    · exact .single c
    · exact (hpair _ _ _ rfl).elim

theorem punctuator_pair {a b c : Char} (hc : c ≠ '.' ∧ c ≠ '=') (rest : Text) :
    punctuator (a :: b :: c :: rest) =
      if [a, b] ∈ pairs.map String.toList then ([a, b], c :: rest) else ([a], b :: c :: rest) := by
  unfold punctuator
  split
  case h_1 heq =>
    cases heq
    exact absurd rfl hc.1
  case h_2 heq | h_3 heq =>
    cases heq
    exact absurd rfl hc.2
  case h_4 heq =>
    cases heq
    rfl
  case h_5 hcons => exact (hcons _ _ _ rfl).elim

theorem punctuator_single {a b : Char} (hb : b ≠ '.' ∧ b ≠ '<' ∧ b ≠ '>')
    (hpair : [a, b] ∉ pairs.map String.toList) (rest : Text) :
    punctuator (a :: b :: rest) = ([a], b :: rest) := by
  unfold punctuator
  split
  case h_1 heq =>
    cases heq
    exact absurd rfl hb.1
  case h_2 heq =>
    cases heq
    exact absurd rfl hb.2.1
  case h_3 heq =>
    cases heq
    exact absurd rfl hb.2.2
  case h_4 heq =>
    cases heq
    exact if_neg hpair
  case h_5 hcons => exact (hcons _ _ _ rfl).elim

/-- A punctuator is read again in front of a blank. -/
theorem IsPunctuator.blank (h : IsPunctuator text) :
    punctuator (text ++ ' ' :: tail) = (text, ' ' :: tail) := by
  cases h with
  | single a =>
    have hblank : ∀ x ∈ pairs.map String.toList, x.getLast? ≠ some ' ' := by decide
    exact punctuator_single (by decide) (fun hmem ↦ hblank _ hmem rfl) tail
  | pair hpair => exact (punctuator_pair (by decide) tail).trans (if_pos hpair)
  | triple hmem =>
    simp only [List.map_cons, List.map_nil, List.mem_cons, List.not_mem_nil, or_false] at hmem
    rcases hmem with rfl | rfl | rfl <;> rfl

/-- Only a punctuator of one byte has a quote. -/
theorem IsPunctuator.not_quote (h : IsPunctuator text) (hc : text.head?.any isQuote = false) :
    ∀ x ∈ text, isQuote x = false := by
  cases h with
  | single a => exact List.forall_mem_singleton.mpr hc
  | pair hpair =>
    have hall : (pairs.map String.toList).all (·.all (!isQuote ·)) := by decide
    simpa using List.all_eq_true.mp hall _ hpair
  | triple hmem =>
    have hall : (["...", "<<=", ">>="].map String.toList).all (·.all (!isQuote ·)) := by decide
    simpa using List.all_eq_true.mp hall _ hmem

/-- A line break is a punctuator in front of any text. -/
theorem punctuator_newline (tail : Text) : punctuator ('\n' :: tail) = (['\n'], tail) := by
  have hpairs : ∀ x ∈ pairs.map String.toList, x.head? ≠ some '\n' := by decide
  unfold punctuator
  split
  case h_1 heq | h_2 heq | h_3 heq => cases heq
  case h_4 heq =>
    cases heq
    exact if_neg fun hmem ↦ hpairs _ hmem rfl
  case h_5 hcons =>
    rcases tail with _ | ⟨b, tail⟩
    · rfl
    · exact (hcons _ _ _ rfl).elim

/-! ## Tokens -/

/-- A token starts here: not a blank, nor a comment. -/
def Starts (c : Char) (s : Text) : Prop :=
  isBlank c = false ∧ (c = '/' → s.head? ≠ some '/' ∧ s.head? ≠ some '*')

theorem starts_of_skipBlanks {mode : Skip} (h : skipBlanks mode s = some (c :: t)) :
    Starts c t := by
  fun_induction skipBlanks mode s with
  | case1 s ih | case2 s ih | case9 s ih => exact ih h
  | case3 c s _ _ _ ih => exact ih h
  | case4 c s hline hblock hblank =>
    cases h
    refine ⟨Bool.eq_false_of_not_eq_true hblank, fun hslash ↦ ⟨fun hs ↦ ?_, fun hs ↦ ?_⟩⟩
    · obtain ⟨s', rfl⟩ := List.head?_eq_some_iff.mp hs
      exact hline _ hslash rfl
    · obtain ⟨s', rfl⟩ := List.head?_eq_some_iff.mp hs
      exact hblock _ hslash rfl
  | case5 | case8 | case10 | case12 => cases h
  | case6 s =>
    cases h
    refine ⟨rfl, ?_⟩
    rintro ⟨⟩
  | case7 c s _ ih => exact ih h
  | case11 c d s _ _ ih => exact ih h

theorem skipBlanks_starts (h : Starts c s) : skipBlanks .blank (c :: s) = some (c :: s) := by
  obtain ⟨hblank, hslash⟩ := h
  unfold skipBlanks
  split
  case h_1 heq =>
    cases heq
    exact absurd rfl (hslash rfl).1
  case h_2 heq =>
    cases heq
    exact absurd rfl (hslash rfl).2
  case h_3 heq =>
    cases heq
    rw [if_neg (Bool.not_eq_true _ ▸ hblank)]
  case h_4 heq => cases heq
  case h_5 hmode _ | h_6 hmode _ | h_7 hmode _ | h_8 hmode _ => nomatch hmode
  case h_9 hmode _ _ => nomatch hmode

/-- What is read outside skipped groups: a token and its kind. -/
inductive IsToken : Text → Kind → Prop
  | literal {opening s rest t rest' : Text} {delimiter : Char} :
      literalStart s = some (opening, delimiter, rest) →
        literalRest false delimiter rest = some (t, rest') → IsToken (opening ++ t) .literal
  | ident {c : Char} {t : Text} : isName c = true → (∀ x ∈ t, isName x || isDigit x) →
      IsToken (c :: t) .ident
  | number {c : Char} {s : Text} : isName c = false →
      (isDigit c || (c = '.' && s.head?.any isDigit)) = true →
        IsToken (c :: (numberRest c s).1) .number
  | punctuator {c : Char} {t : Text} : IsPunctuator (c :: t) → Starts c t → isName c = false →
      (isDigit c || (c = '.' && t.head?.any isDigit)) = false → isQuote c = false → c ≠ '\x00' →
        IsToken (c :: t) (.punctuator c)

theorem Starts.of_append (h : Starts c (t ++ rest)) : Starts c t := by
  refine ⟨h.1, fun hslash ↦ ?_⟩
  rcases t with _ | ⟨d, t⟩
  · exact ⟨nofun, nofun⟩
  · exact h.2 hslash

theorem Starts.blank (h : Starts c t) : Starts c (t ++ ' ' :: tail) := by
  refine ⟨h.1, fun hslash ↦ ?_⟩
  rcases t with _ | ⟨d, t⟩
  · exact ⟨by rintro ⟨⟩, by rintro ⟨⟩⟩
  · exact h.2 hslash

theorem lexeme_isToken (hstarts : Starts c s) (h : lexeme false c s = some (text, kind, rest)) :
    IsToken text kind := by
  obtain ⟨hsplit, -⟩ := lexeme_split h
  unfold lexeme at h
  split at h
  case h_1 opening delimiter after hstart =>
    obtain ⟨⟨t, rest'⟩, hrest, heq⟩ := Option.map_eq_some_iff.mp h
    cases heq
    exact .literal hstart hrest
  case h_2 hstart =>
    split_ifs at h with hname hnumber hzero
    · cases h
      exact .ident hname (mem_identRest s)
    · cases h
      exact .number (Bool.eq_false_of_not_eq_true hname) hnumber
    · have hpunct := isPunctuator c s
      generalize punctuator (c :: s) = result at h hpunct
      obtain ⟨text, rest⟩ := result
      cases h
      rcases text with _ | ⟨d, t⟩
      · nomatch hpunct
      · obtain ⟨rfl, hs⟩ := List.cons.inj hsplit
        refine .punctuator hpunct (hs ▸ hstarts).of_append (Bool.eq_false_of_not_eq_true hname) ?_
          (isQuote_head_of_none hstart) hzero
        rw [Bool.not_eq_true, hs] at hnumber
        rcases t with _ | ⟨d, t⟩
        · rw [Bool.or_eq_false_iff] at hnumber
          rw [hnumber.1, List.head?_nil, Option.any_none, Bool.and_false, Bool.or_false]
        · exact hnumber

theorem starts_of_ne (hblank : isBlank c = false) (hslash : c ≠ '/') (s : Text) : Starts c s :=
  ⟨hblank, fun h ↦ absurd h hslash⟩

theorem isBlank_iff : isBlank c ↔ c = ' ' ∨ c = '\t' ∨ c = '\x0b' ∨ c = '\x0c' := by
  simp [isBlank, or_assoc]

/-- A byte that tells a kind by itself is no blank. -/
theorem starts_of_class {p : Char → Bool} (hp : " \t\x0b\x0c/".toList.all (!p ·))
    (hc : p c = true) (s : Text) : Starts c s := by
  have hall (x : Char) (hx : x ∈ " \t\x0b\x0c/".toList) : c ≠ x := by
    rintro rfl
    have hnot := List.all_eq_true.mp hp c hx
    rw [hc] at hnot
    nomatch hnot
  refine starts_of_ne (Bool.eq_false_of_not_eq_true fun hblank ↦ ?_) (hall '/' (by decide)) s
  rcases isBlank_iff.mp hblank with h | h | h | h
  · exact hall _ (by decide) h
  · exact hall _ (by decide) h
  · exact hall _ (by decide) h
  · exact hall _ (by decide) h

/-- Where a literal starts there is no blank. -/
theorem starts_of_literalStart {opening : Text}
    (h : literalStart (c :: s) = some (opening, delimiter, rest)) (tail : Text) :
    Starts c tail := by
  have hclass : (isName c || isQuote c) = true := by
    unfold literalStart at h
    split at h
    case h_1 heq =>
      cases heq
      rfl
    case h_2 heq =>
      cases heq
      split_ifs at h with hinitial hp
      · simp only [Bool.and_eq_true, Bool.or_eq_true, decide_eq_true_eq] at hinitial
        obtain ⟨(rfl | rfl) | rfl, -⟩ := hinitial <;> rfl
      · rw [hp, Bool.or_true]
    case h_3 heq =>
      cases heq
      split_ifs at h with hq
      rw [hq, Bool.or_true]
    case h_4 heq => cases heq
  exact starts_of_class (p := fun c ↦ isName c || isQuote c) (by decide) hclass tail

/-- A token starts before a blank as it did. -/
theorem IsToken.starts (h : IsToken (c :: t) kind) : Starts c (t ++ ' ' :: tail) := by
  generalize htext : c :: t = text at h
  cases h with
  | @literal opening s rest body rest' delimiter hstart hrest =>
    obtain ⟨hs, hne⟩ := literalStart_split hstart
    obtain ⟨d, opening, rfl⟩ := List.exists_cons_of_ne_nil hne
    cases htext
    exact starts_of_literalStart (hs ▸ hstart) _
  | ident hname =>
    cases htext
    exact starts_of_class (by decide) hname _
  | @number _ s hname hnumber =>
    cases htext
    have hclass : (isDigit c || c = '.') = true := by
      rw [Bool.or_eq_true] at hnumber ⊢
      exact hnumber.imp_right fun h ↦ (Bool.and_eq_true_iff.mp h).1
    exact starts_of_class (p := fun c ↦ isDigit c || c = '.') (by decide) hclass _
  | punctuator _ hstarts =>
    cases htext
    exact hstarts.blank

theorem numberRest_head {d : Char} (hd : isDigit d = true) (s : Text) :
    (numberRest c (d :: s)).1.head? = some d := by
  rw [numberRest, if_pos (by rw [hd, Bool.or_true]; rfl)]
  rfl

/-- A token is read again in front of a blank. -/
theorem IsToken.lexeme_blank (h : IsToken (c :: t) kind) :
    lexeme skipping c (t ++ ' ' :: tail) = some (c :: t, kind, ' ' :: tail) := by
  unfold lexeme
  generalize htext : c :: t = text at h
  cases h with
  | @literal opening s rest body rest' delimiter hstart hrest =>
    have hlit := literalStart_append hstart (body ++ ' ' :: tail)
    rw [← List.append_assoc, ← htext] at hlit
    rw [← List.cons_append, hlit]
    dsimp only
    rw [literalRest_append (isQuote_of_literalStart hstart) hrest, Option.map_some]
  | ident hname ht =>
    cases htext
    have hquotes : ∀ x ∈ c :: t, isQuote x = false :=
      List.forall_mem_cons.mpr ⟨isQuote_of_isPlain (isPlain_of_isName (by rw [hname]; rfl)),
        fun x hx ↦ isQuote_of_isPlain (isPlain_of_isName (ht x hx))⟩
    rw [← List.cons_append, literalStart_blank hquotes (List.cons_ne_nil _ _)]
    dsimp only
    rw [if_pos hname, identRest_blank ht]
  | @number _ s hname hnumber =>
    cases htext
    have hquotes : ∀ x ∈ c :: (numberRest c s).1, isQuote x = false :=
      fun x hx ↦ isQuote_of_isPlain (mem_number hnumber x hx)
    have hagain : (isDigit c || (c = '.' &&
        ((numberRest c s).1 ++ ' ' :: tail).head?.any isDigit)) = true := by
      rw [Bool.or_eq_true] at hnumber ⊢
      refine hnumber.imp_right fun h ↦ ?_
      obtain ⟨hdot, hdigit⟩ := Bool.and_eq_true_iff.mp h
      rw [Option.any_eq_true] at hdigit
      obtain ⟨d, hs, hd⟩ := hdigit
      obtain ⟨s, rfl⟩ := List.head?_eq_some_iff.mp hs
      rw [hdot, Bool.true_and, List.head?_append, numberRest_head hd]
      exact hd
    rw [← List.cons_append, literalStart_blank hquotes (List.cons_ne_nil _ _)]
    dsimp only
    rw [if_neg (by rw [hname]; exact Bool.false_ne_true), if_pos hagain, numberRest_blank]
  | punctuator hpunct hstarts hname hnumber hquote hzero =>
    cases htext
    have hquotes := hpunct.not_quote (by simpa using hquote)
    have hagain : ¬ (isDigit c || (c = '.' && (t ++ ' ' :: tail).head?.any isDigit)) = true := by
      rw [Bool.not_eq_true]
      rcases t with _ | ⟨d, t⟩
      · rw [Bool.or_eq_false_iff] at hnumber ⊢
        exact ⟨hnumber.1, Bool.and_false _⟩
      · exact hnumber
    rw [← List.cons_append, literalStart_blank hquotes (List.cons_ne_nil _ _)]
    dsimp only
    rw [if_neg (by rw [hname]; exact Bool.false_ne_true), if_neg hagain, if_neg hzero,
      List.cons_append, ← List.cons_append, hpunct.blank]

/-- What is read outside skipped groups is a token. -/
theorem next_isToken {token : Token} (h : next false s = some (some token, rest)) :
    IsToken token.text token.kind := by
  unfold next at h
  split at h
  · cases h
  · cases h
  next c start hstart =>
    obtain ⟨⟨text, kind, rest'⟩, hlexeme, heq⟩ := Option.map_eq_some_iff.mp h
    cases heq
    exact lexeme_isToken (starts_of_skipBlanks hstart) hlexeme

/-- In front of a blank a token is read as it is, in both modes. -/
theorem IsToken.next_blank (h : IsToken text kind) (tail : Text) :
    next skipping (text ++ ' ' :: tail) = some (some ⟨text, kind, ∅, false⟩, ' ' :: tail) := by
  have hne : text ≠ [] := by
    rintro rfl
    generalize htext : [] = text at h
    cases h with
    | literal hstart => exact (literalStart_split hstart).2 (List.append_eq_nil_iff.mp htext.symm).1
    | ident | number | punctuator => nomatch htext
  obtain ⟨c, t, rfl⟩ := List.exists_cons_of_ne_nil hne
  unfold next
  rw [List.cons_append, skipBlanks_starts h.starts]
  dsimp only
  rw [h.lexeme_blank, Option.map_some]
  simp

/-- A line break is read as it is. -/
theorem next_newline (tail : Text) :
    next skipping ('\n' :: tail) = some (some ⟨['\n'], .punctuator '\n', ∅, false⟩, tail) := by
  unfold next
  rw [skipBlanks_starts (starts_of_ne rfl (by decide) tail)]
  dsimp only
  have hliteral : literalStart ('\n' :: tail) = none := by cases tail <;> rfl
  have hdigit : (isDigit '\n' || ('\n' = '.' && tail.head?.any isDigit)) = false := rfl
  rw [lexeme, hliteral]
  dsimp only
  rw [if_neg (by decide), if_neg (Bool.eq_false_iff.mp hdigit), if_neg (by decide),
    punctuator_newline]
  simp

end CopySpace.Preprocess
