import Mathlib.Logic.Relation
import CopySpace.Lib.Nesting
import CopySpace.Preprocess.Delimited

/-!
# The lines of a source

A line ends where its tokens do, before a line break that no comment hides.  The reader of the source
takes a line break behind a backslash for a part of a literal; here a literal always ends with its
line.  Lines are read without regard to what is selected.
-/

namespace CopySpace.Preprocess

/-! ## Literals that end with their lines -/

/-- A literal after its opening, as `literalRest` has it, but within its line. -/
def literalInLine (skipping : Bool) (delimiter : Char) : Text → Option (Text × Text)
  | [] => if skipping then some ([], []) else none
  | c :: s =>
      if c = delimiter then some ([c], s)
      else if c = '\x00' then none
      else if c = '\n' then if skipping then some ([], c :: s) else none
      else if c = '\\' then
        match s with
        | [] => if skipping then some ([c], []) else none
        | d :: s =>
            if d = '\x00' then none
            else if d = '\n' then if skipping then some ([c], d :: s) else none
            else (literalInLine skipping delimiter s).map fun (t, rest) ↦ (c :: d :: t, rest)
      else (literalInLine skipping delimiter s).map fun (t, rest) ↦ (c :: t, rest)

/-- The token that starts here. -/
def lexemeInLine (skipping : Bool) (c : Char) (s : Text) : Option (Text × Kind × Text) :=
  match literalStart (c :: s) with
  | some (opening, delimiter, rest) =>
      (literalInLine skipping delimiter rest).map fun (t, rest) ↦ (opening ++ t, .literal, rest)
  | none => lexeme skipping c s

/-- The next token of a text. -/
def nextInLine (skipping : Bool) (s : Text) : Option (Option Token × Text) :=
  match skipBlanks .blank s with
  | none => none
  | some [] => some (none, [])
  | some (c :: start) =>
      (lexemeInLine skipping c start).map fun (text, kind, rest) ↦
        (some ⟨text, kind, ∅, start.length + 1 ≠ s.length⟩, rest)

/-- A literal of the source has a line break behind a backslash. -/
def breaks (delimiter : Char) : Text → Bool
  | [] => false
  | c :: s =>
      if c = delimiter ∨ c = '\x00' ∨ c = '\n' then false
      else if c = '\\' then
        match s with
        | [] => false
        | d :: s => if d = '\x00' then false else if d = '\n' then true else breaks delimiter s
      else breaks delimiter s

/-- The text begins with such a literal. -/
def Breaks (s : Text) : Prop :=
  ∃ c start opening delimiter rest, skipBlanks .blank s = some (c :: start) ∧
    literalStart (c :: start) = some (opening, delimiter, rest) ∧ breaks delimiter rest

/-- No literal of a text has a line break behind a backslash. -/
def InLines (s : Text) : Prop :=
  ∀ rest, Relation.ReflTransGen (fun s rest ↦ ∃ t, next true s = some (some t, rest)) s rest →
    ¬ Breaks rest

section

variable {skipping : Bool} {delimiter c : Char} {s rest text t : Text} {kind : Kind} {token : Token}
  {r : Option Token × Text}

theorem literalRest_inLine (h : breaks delimiter s = false) :
    literalRest skipping delimiter s = literalInLine skipping delimiter s := by
  fun_induction literalInLine skipping delimiter s <;> rw [literalRest.eq_def] <;>
    rw [breaks.eq_def] at h <;> simp_all

theorem next_inLine (h : ¬ Breaks s) : next skipping s = nextInLine skipping s := by
  rcases hstart : skipBlanks .blank s with _ | ⟨_ | ⟨c, start⟩⟩
  · rw [next, nextInLine, hstart]
  · rw [next, nextInLine, hstart]
  · rw [next, nextInLine, hstart]
    refine congrArg (Option.map _) ?_
    cases hliteral : literalStart (c :: start) with
    | none =>
      rw [lexemeInLine, hliteral]
    | some parts =>
      obtain ⟨opening, delimiter, rest⟩ := parts
      rw [lexeme, lexemeInLine, hliteral]
      dsimp only
      rw [literalRest_inLine]
      exact Bool.eq_false_of_not_eq_true fun hbreaks ↦
        h ⟨c, start, opening, delimiter, rest, hstart, hliteral, hbreaks⟩

theorem InLines.not_breaks (h : InLines s) : ¬ Breaks s := h s .refl

theorem InLines.next_eq (h : InLines s) : next skipping s = nextInLine skipping s :=
  next_inLine h.not_breaks

theorem InLines.behind (h : InLines s) (hnext : nextInLine true s = some (some token, rest)) :
    InLines rest := by
  rw [← h.next_eq] at hnext
  exact fun rest' hrest ↦ h rest' (.head ⟨token, hnext⟩ hrest)

/-- What is read outside skipped groups is read there as well. -/
theorem literalInLine_true (h : literalInLine false delimiter s = some (t, rest)) :
    literalInLine true delimiter s = some (t, rest) := by
  fun_induction literalInLine false delimiter s generalizing t rest <;>
    rw [literalInLine.eq_def] <;> simp_all
  all_goals
    obtain ⟨a, b, hab, rfl, rfl⟩ := h
    simp_all

theorem lexemeInLine_cases (c : Char) (s : Text) :
    lexemeInLine false c s = lexemeInLine true c s ∨
      lexemeInLine false c s = none ∧
        ∀ text kind rest, lexemeInLine true c s = some (text, kind, rest) → kind = .literal := by
  unfold lexemeInLine
  split
  case h_1 opening delimiter rest hliteral =>
    cases hfalse : literalInLine false delimiter rest with
    | none =>
      right
      refine ⟨rfl, fun text kind rest' h ↦ ?_⟩
      obtain ⟨_, -, heq⟩ := Option.map_eq_some_iff.mp h
      cases heq
      rfl
    | some parts =>
      rw [literalInLine_true hfalse]
      exact .inl rfl
  case h_2 hliteral =>
    left
    rw [lexeme, lexeme, hliteral]

theorem nextInLine_cases (s : Text) : nextInLine false s = nextInLine true s ∨
    nextInLine false s = none ∧
      ∀ t rest, nextInLine true s = some (some t, rest) → t.kind = .literal := by
  unfold nextInLine
  split
  · exact .inl rfl
  · exact .inl rfl
  case h_3 c start hstart =>
    rcases lexemeInLine_cases c start with h | ⟨hnone, hliteral⟩
    · rw [h]
      exact .inl rfl
    · rw [hnone]
      refine .inr ⟨rfl, fun t rest h ↦ ?_⟩
      obtain ⟨⟨text, kind, rest'⟩, hlexeme, heq⟩ := Option.map_eq_some_iff.mp h
      cases heq
      exact hliteral _ _ _ hlexeme

/-- The two ways of reading differ where a literal does not end. -/
theorem nextInLine_either (skipping : Bool) (s : Text) :
    nextInLine skipping s = nextInLine true s ∨ nextInLine skipping s = none ∧ skipping = false ∧
      ∀ t rest, nextInLine true s = some (some t, rest) → t.kind = .literal := by
  cases skipping with
  | true => exact .inl rfl
  | false => exact (nextInLine_cases s).imp_right fun ⟨hnone, hliteral⟩ ↦ ⟨hnone, rfl, hliteral⟩

theorem nextInLine_true (h : nextInLine false s = some r) : nextInLine true s = some r := by
  rcases nextInLine_cases s with heq | ⟨hnone, -⟩
  · rwa [← heq]
  · rw [hnone] at h
    cases h

theorem nextInLine_literal (h : nextInLine false s = none)
    (htrue : nextInLine true s = some (some token, rest)) : token.kind = .literal := by
  rcases nextInLine_cases s with heq | ⟨-, hliteral⟩
  · rw [← heq, h] at htrue
    cases htrue
  · exact hliteral _ _ htrue

/-- The end of a text is the same in either way of reading. -/
theorem nextInLine_end (h : nextInLine skipping s = some (none, rest)) (skipping' : Bool) :
    nextInLine skipping' s = some (none, []) := by
  unfold nextInLine at h ⊢
  split at h
  · cases h
  case h_2 hstart => rfl
  case h_3 => 
    obtain ⟨_, -, heq⟩ := Option.map_eq_some_iff.mp h
    cases heq

theorem literalInLine_length (h : literalInLine skipping delimiter s = some (t, rest)) :
    rest.length ≤ s.length := by
  fun_induction literalInLine skipping delimiter s generalizing t rest <;> simp_all
  case case12 ih | case13 ih =>
    obtain ⟨a, hrest, -⟩ := h
    have := ih hrest
    omega

theorem lexemeInLine_length (h : lexemeInLine skipping c s = some (text, kind, rest)) :
    rest.length < (c :: s).length := by
  unfold lexemeInLine at h
  split at h
  case h_1 opening delimiter after hliteral =>
    obtain ⟨⟨t, rest'⟩, hrest, heq⟩ := Option.map_eq_some_iff.mp h
    cases heq
    obtain ⟨hsplit, hne⟩ := literalStart_split hliteral
    have := literalInLine_length hrest
    have := List.length_pos_of_ne_nil hne
    rw [hsplit, List.length_append]
    omega
  case h_2 =>
    obtain ⟨hsplit, hne⟩ := lexeme_split h
    have := List.length_pos_of_ne_nil hne
    rw [hsplit, List.length_append]
    omega

theorem nextInLine_length (h : nextInLine skipping s = some (some token, rest)) :
    rest.length < s.length := by
  unfold nextInLine at h
  split at h
  · cases h
  · cases h
  case h_3 c start hstart =>
    obtain ⟨⟨text, kind, rest'⟩, hlexeme, heq⟩ := Option.map_eq_some_iff.mp h
    cases heq
    obtain ⟨skipped, rfl⟩ := skipBlanks_suffix hstart
    have := lexemeInLine_length hlexeme
    rw [List.length_append]
    omega

/-- A literal is not spelled like a directive. -/
theorem not_is_of_literal (h : nextInLine skipping s = some (some token, rest))
    (hkind : token.kind = .literal) {name : String} (hname : name.toList.all fun c ↦ !isQuote c) :
    token.is name = false := by
  have hquote : ∃ c ∈ token.text, isQuote c := by
    unfold nextInLine at h
    split at h
    · cases h
    · cases h
    case h_3 c start hstart =>
      obtain ⟨⟨text, kind, rest'⟩, hlexeme, heq⟩ := Option.map_eq_some_iff.mp h
      cases heq
      obtain rfl : kind = .literal := hkind
      unfold lexemeInLine at hlexeme
      split at hlexeme
      case h_1 opening delimiter after hliteral =>
        obtain ⟨⟨t, rest'⟩, hrest, heq⟩ := Option.map_eq_some_iff.mp hlexeme
        cases heq
        refine ⟨delimiter, List.mem_append_left _ ?_, isQuote_of_literalStart hliteral⟩
        rcases literalStart_cases hliteral with ⟨rfl, rfl⟩ | ⟨p, -, rfl⟩ | rfl <;> simp
      case h_2 hliteral =>
        rw [lexeme, hliteral] at hlexeme
        dsimp only at hlexeme
        split_ifs at hlexeme <;> cases hlexeme
  obtain ⟨c, hc, hisQuote⟩ := hquote
  refine Bool.eq_false_of_not_eq_true fun his ↦ ?_
  have htext : token.text = name.toList := decide_eq_true_iff.mp his
  have := List.all_eq_true.mp hname c (htext ▸ hc)
  rw [hisQuote] at this
  exact Bool.false_ne_true this

end

/-! ## Lines -/

/-- What a line holds that has no part in a group: its tokens, if they can be read outside skipped
groups; a `#` alone; or another directive, with the text behind its name. -/
inductive Content
  | text (tokens : Option (List Token))
  | empty
  | directive (name : Token) (line : Text)

/-- The condition of a group or of a branch: the text behind the directive's name, or the name that
is asked for, if it stands there alone. -/
inductive Condition
  | expression (line : Text)
  | defined (negated : Bool) (name : Option Token)

abbrev Line := Nesting.Line Content Condition

/-- What has been read of a text. -/
def cut (s rest : Text) : Text := s.take (s.length - rest.length)

/-- The tokens of a line with its end, and what follows it. -/
def lineOf (skipping : Bool) (s : Text) : Option (List Token × Text) :=
  match _h : nextInLine skipping s with
  | none => none
  | some (none, rest) => some ([], rest)
  | some (some t, rest) =>
      if t.newline then some ([t], rest)
      else (lineOf skipping rest).map fun (tokens, rest) ↦ (t :: tokens, rest)
termination_by s.length
decreasing_by exact nextInLine_length ‹_›

/-- Nothing more stands in the line; what follows it. -/
def endOfLine (skipping : Bool) (s : Text) : Option Text :=
  match nextInLine skipping s with
  | none => none
  | some (none, rest) => some rest
  | some (some t, rest) => if t.newline then some rest else none

/-- The name that stands alone in the line. -/
def definedName (s : Text) : Option Token :=
  match nextInLine false s with
  | some (some name, rest) =>
      if name.kind = .ident then (endOfLine false rest).map fun _ ↦ name else none
  | _ => none

/-- The line of a directive with a name, before the given text. -/
def directiveLine (name : Token) (s rest : Text) : Line :=
  if name.is "if" then .opening (.expression (cut s rest))
  else if name.is "ifdef" then .opening (.defined false (definedName s))
  else if name.is "ifndef" then .opening (.defined true (definedName s))
  else if name.is "elif" then .another (.expression (cut s rest))
  else .plain (.directive name (cut s rest))

/-- The line of a directive behind its name, and what follows it. -/
def readNamed (name : Token) (s : Text) : Option (Line × Text) :=
  if name.newline then some (.plain .empty, s)
  else if name.is "else" then (endOfLine true s).map (.otherwise, ·)
  else if name.is "endif" then (endOfLine true s).map (.closing, ·)
  else (lineOf true s).map fun (_, rest) ↦ (directiveLine name s rest, rest)

/-- The line of a directive behind its `#`, and what follows it. -/
def readDirective (s : Text) : Option (Line × Text) :=
  match nextInLine true s with
  | none => none
  | some (none, rest) => some (.plain .empty, rest)
  | some (some name, rest) => readNamed name rest

/-- The first line of a text, if there is one, and what follows it. -/
def readLine (s : Text) : Option (Option (Line × Text)) :=
  match nextInLine true s with
  | none => none
  | some (none, _) => some none
  | some (some t, rest) =>
      if t.is "#" then (readDirective rest).map some
      else (lineOf true s).map fun (_, behind) ↦
        some (.plain (.text ((lineOf false s).map Prod.fst)), behind)

section

variable {skipping : Bool} {s rest : Text} {tokens : List Token} {t : Token} {l : Line}

theorem lineOf_eq (skipping : Bool) (s : Text) :
    lineOf skipping s = match nextInLine skipping s with
      | none => none
      | some (none, rest) => some ([], rest)
      | some (some t, rest) =>
          if t.newline then some ([t], rest)
          else (lineOf skipping rest).map fun (tokens, rest) ↦ (t :: tokens, rest) := by
  rw [lineOf]
  split
  case h_1 h | h_2 h | h_3 h => rw [h]

theorem nextInLine_end_length (h : nextInLine skipping s = some (none, rest)) : rest = [] := by
  have := nextInLine_end h skipping
  rw [h] at this
  cases this
  rfl

theorem lineOf_length (h : lineOf skipping s = some (tokens, rest)) : rest.length ≤ s.length := by
  induction hlength : s.length using Nat.strong_induction_on generalizing s tokens with
  | _ length ih =>
    subst hlength
    rw [lineOf_eq] at h
    split at h
    · cases h
    case h_2 hnext =>
      cases h
      rw [nextInLine_end_length hnext]
      exact Nat.zero_le _
    case h_3 t behind hnext =>
      have hlt := nextInLine_length hnext
      split_ifs at h
      · cases h
        exact hlt.le
      · obtain ⟨⟨tokens', rest'⟩, hrest, heq⟩ := Option.map_eq_some_iff.mp h
        cases heq
        exact (ih _ hlt hrest rfl).trans hlt.le

theorem endOfLine_length (h : endOfLine skipping s = some rest) : rest.length ≤ s.length := by
  unfold endOfLine at h
  split at h
  · cases h
  case h_2 hnext =>
    cases h
    rw [nextInLine_end_length hnext]
    exact Nat.zero_le _
  case h_3 hnext =>
    split_ifs at h
    cases h
    exact (nextInLine_length hnext).le

theorem readNamed_length (h : readNamed t s = some (l, rest)) : rest.length ≤ s.length := by
  unfold readNamed at h
  split_ifs at h
  · cases h
    exact le_rfl
  · obtain ⟨rest', hrest, heq⟩ := Option.map_eq_some_iff.mp h
    cases heq
    exact endOfLine_length hrest
  · obtain ⟨rest', hrest, heq⟩ := Option.map_eq_some_iff.mp h
    cases heq
    exact endOfLine_length hrest
  · obtain ⟨⟨tokens', rest'⟩, hrest, heq⟩ := Option.map_eq_some_iff.mp h
    cases heq
    exact lineOf_length hrest

theorem readDirective_length (h : readDirective s = some (l, rest)) : rest.length ≤ s.length := by
  unfold readDirective at h
  split at h
  · cases h
  case h_2 hnext =>
    cases h
    rw [nextInLine_end_length hnext]
    exact Nat.zero_le _
  case h_3 hnext => exact (readNamed_length h).trans (nextInLine_length hnext).le

theorem readLine_length (h : readLine s = some (some (l, rest))) : rest.length < s.length := by
  unfold readLine at h
  split at h
  · cases h
  · cases h
  case h_3 t behind hnext =>
    have hlt := nextInLine_length hnext
    split_ifs at h
    · obtain ⟨⟨l', rest'⟩, hrest, heq⟩ := Option.map_eq_some_iff.mp h
      cases heq
      exact (readDirective_length hrest).trans_lt hlt
    · obtain ⟨⟨tokens, rest'⟩, hrest, heq⟩ := Option.map_eq_some_iff.mp h
      cases heq
      rw [lineOf_eq, hnext] at hrest
      dsimp only at hrest
      split_ifs at hrest
      · cases hrest
        exact hlt
      · obtain ⟨⟨tokens', rest''⟩, hbehind, heq⟩ := Option.map_eq_some_iff.mp hrest
        cases heq
        exact (lineOf_length hbehind).trans_lt hlt

end

/-- All lines of a text. -/
def lines (s : Text) : Option (List Line) :=
  match _h : readLine s with
  | none => none
  | some none => some []
  | some (some (l, rest)) => (lines rest).map (l :: ·)
termination_by s.length
decreasing_by exact readLine_length ‹_›

theorem lines_eq (s : Text) : lines s = match readLine s with
    | none => none
    | some none => some []
    | some (some (l, rest)) => (lines rest).map (l :: ·) := by
  rw [lines]
  split
  case h_1 h | h_2 h | h_3 h => rw [h]

end CopySpace.Preprocess
