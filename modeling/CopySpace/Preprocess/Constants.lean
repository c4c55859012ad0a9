import Mathlib.Data.Bool.AllAny
import Mathlib.Data.Nat.Digits.Defs
import CopySpace.Preprocess.Delimited
import CopySpace.Preprocess.Escapes

/-!
# `preprocess_condition.h`: the constants of a condition

A constant is a number, a character, or a name, which stands for zero.  What the source accepts is
compared with the constants of the language: the one difference is a string whose first character
is an apostrophe.
-/

namespace CopySpace.Preprocess

/-- `cc_pp_value`. -/
structure Value where
  bits : BitVec 64
  unsign : Bool
  deriving DecidableEq

/-! ## What the source reads -/

/-- The loop over the digits of a number; it counts them and fails beyond 64 bits. -/
def digitsLoop (radix : Nat) : Nat → Nat → Text → Option (Nat × Nat × Text)
  | value, count, [] => some (value, count, [])
  | value, count, c :: s =>
      if hex c < radix then
        if value > (2 ^ 64 - 1 - hex c) / radix then none
        else digitsLoop radix (value * radix + hex c) (count + 1) s
      else some (value, count, c :: s)

/-- The loop over the suffix of a number, with the byte before. -/
def suffixLoop : Bool → Nat → Char → Char → Text → Option Bool
  | unsign, _, _, _, [] => some unsign
  | unsign, longs, longCase, previous, c :: s =>
      if c = 'u' ∨ c = 'U' then
        if unsign then none else suffixLoop true longs longCase c s
      else if c = 'l' ∨ c = 'L' then
        if longs ≠ 0 ∧ (longs ≠ 1 ∨ c ≠ longCase ∨ previous ≠ c) then none
        else suffixLoop unsign (longs + 1) c c s
      else none

/-- The radix of a number, and what follows its prefix. -/
def numberStart : Text → Nat × Text
  | '0' :: 'x' :: s => (16, s)
  | '0' :: 'X' :: s => (16, s)
  | '0' :: 'b' :: s => (2, s)
  | '0' :: 'B' :: s => (2, s)
  | '0' :: s => (8, '0' :: s)
  | s => (10, s)

/-- A number in `cc_pp_constant`.  Before the first `l` the byte before is of no account. -/
def numberConstant (text : Text) : Option Value :=
  match digitsLoop (numberStart text).1 0 0 (numberStart text).2 with
  | none => none
  | some (value, count, suffix) =>
      if count = 0 then none
      else (suffixLoop false 0 '\x00' '\x00' suffix).map fun unsign ↦
        ⟨BitVec.ofNat 64 value, unsign || 2 ^ 63 ≤ value⟩

/-- The characters between the delimiters of a literal. -/
def units : Text → Option (List Nat)
  | [] => some []
  | c :: s =>
      if c = '\\' then
        match _h : escape s with
        | none => none
        | some (code, rest) => (units rest).map (code :: ·)
      else (units s).map (c.toNat :: ·)
termination_by s => s.length
decreasing_by
  · exact (escape_length ‹_›).trans (Nat.lt_succ_self _)
  · exact Nat.lt_succ_self _

/-- The value of a character constant: the last character of a wide one, and otherwise the bytes of
all, as a signed number of 8 or 32 bits. -/
def charValue (wide : Bool) (codes : List Nat) : Value :=
  let bits : BitVec 64 := codes.foldl (fun bits c ↦
    if wide then BitVec.ofNat 64 c else bits <<< 8 ||| BitVec.ofNat 64 (c % 256)) 0
  if !wide && codes.length = 1 then ⟨(bits.setWidth 8).signExtend 64, false⟩
  else ⟨(bits.setWidth 32).signExtend 64, false⟩

/-- A literal in `cc_pp_constant`. -/
def charConstant (text : Text) : Option Value :=
  let wide := text.head? ≠ some '\''
  match if wide then text.drop 1 else text with
  | '\'' :: content =>
      (units content.dropLast).bind fun codes ↦
        if codes = [] then none else some (charValue wide codes)
  | _ => none

/-- `cc_pp_constant`; a query like `__has_include` is no constant. -/
def constant (query : Text → Bool) (t : Token) : Option Value :=
  match t.kind with
  | .ident => if query t.text then none else some ⟨0, false⟩
  | .literal => charConstant t.text
  | .number => numberConstant t.text
  | _ => none

/-! ## The constants of the language -/

/-- The prefixes of numbers, with their radix. -/
def radices : List (Text × Nat) :=
  [([], 10), ([], 8), (['0', 'x'], 16), (['0', 'X'], 16), (['0', 'b'], 2), (['0', 'B'], 2)]

/-- The suffixes of integers. -/
def suffixes : List Text :=
  ["", "u", "U", "l", "L", "ll", "LL", "ul", "uL", "Ul", "UL", "lu", "lU", "Lu", "LU",
    "ull", "uLL", "Ull", "ULL", "llu", "llU", "LLu", "LLU"].map String.toList

/-- The number that digits stand for. -/
def digitsValue (radix : Nat) (digits : Text) : Nat :=
  Nat.ofDigits radix (digits.map hex).reverse

/-- An integer of the language.  It is unsigned if its suffix says so, or if it does not fit
otherwise. -/
inductive IntegerConstant : Text → Value → Prop
  | intro {start digits suffix : Text} {radix : Nat} : (start, radix) ∈ radices → digits ≠ [] →
      (∀ d ∈ digits, hex d < radix) → (radix = 8 → digits.head? = some '0') →
      (radix = 10 → digits.head? ≠ some '0') → suffix ∈ suffixes →
      digitsValue radix digits < 2 ^ 64 →
        IntegerConstant (start ++ (digits ++ suffix)) ⟨BitVec.ofNat 64 (digitsValue radix digits),
          suffix.any (fun c ↦ c = 'u' || c = 'U') || 2 ^ 63 ≤ digitsValue radix digits⟩

/-- A character constant of the language. -/
inductive CharacterConstant : Text → Value → Prop
  | intro {start content : Text} {codes : List Nat} : start ∈ [[], ['L'], ['u'], ['U']] →
      units content = some codes → codes ≠ [] →
        CharacterConstant (start ++ '\'' :: (content ++ ['\''])) (charValue (start ≠ []) codes)

/-- A string whose first character is an apostrophe. -/
def Quoted (t : Token) : Prop :=
  t.kind = .literal ∧ t.text.take 2 = ['"', '\'']

instance (t : Token) : Decidable (Quoted t) := inferInstanceAs (Decidable (_ ∧ _))

/-- Such a string taken for a wide character constant, with its apostrophe for the quote. -/
inductive StringConstant : Text → Value → Prop
  | intro {content : Text} {codes : List Nat} : units content = some codes → codes ≠ [] →
      StringConstant ('"' :: '\'' :: (content ++ ['"'])) (charValue true codes)

/-- A constant of the language. -/
inductive IsConstant (query : Text → Bool) (t : Token) : Value → Prop
  | name : t.kind = .ident → query t.text = false → IsConstant query t ⟨0, false⟩
  | integer {v : Value} : t.kind = .number → IntegerConstant t.text v → IsConstant query t v
  | character {v : Value} : t.kind = .literal → CharacterConstant t.text v → IsConstant query t v

/-- A constant of the language, or a string that is taken for one. -/
def IsConstantOrString (query : Text → Bool) (t : Token) (v : Value) : Prop :=
  IsConstant query t v ∨ t.kind = .literal ∧ StringConstant t.text v

/-! ## Numbers -/

section Numbers

variable {radix value value' count count' : Nat} {s rest text digits suffix : Text} {c : Char}
  {v : Value}

/-- The number after further digits. -/
def accumulate (radix value : Nat) (digits : Text) : Nat :=
  digits.foldl (fun value d ↦ value * radix + hex d) value

theorem accumulate_zero (radix : Nat) (digits : Text) :
    accumulate radix 0 digits = digitsValue radix digits := by
  rw [digitsValue, Nat.ofDigits_eq_foldr, List.foldr_reverse, List.foldl_map, accumulate]
  refine congrArg (List.foldl · 0 digits) ?_
  funext value d
  rw [Nat.cast_id]
  ring

theorem le_accumulate (hradix : 0 < radix) (value : Nat) (digits : Text) :
    value ≤ accumulate radix value digits := by
  induction digits generalizing value with
  | nil => exact le_rfl
  | cons d digits ih =>
    refine le_trans ?_ (ih (value * radix + hex d))
    exact (Nat.le_mul_of_pos_right value hradix).trans (Nat.le_add_right _ _)

/-- Another digit fits if the number does with it. -/
theorem overflow_iff (hc : hex c < 2 ^ 64) (hradix : 0 < radix) :
    value > (2 ^ 64 - 1 - hex c) / radix ↔ 2 ^ 64 ≤ value * radix + hex c := by
  rw [gt_iff_lt, Nat.div_lt_iff_lt_mul hradix]
  omega

theorem digitsLoop_eq_some (hradix : 0 < radix ∧ radix ≤ 16) (hvalue : value < 2 ^ 64) :
    digitsLoop radix value count s = some (value', count', rest) ↔
      ∃ digits, s = digits ++ rest ∧ (∀ d ∈ digits, hex d < radix) ∧
        (∀ c ∈ rest.head?, radix ≤ hex c) ∧ value' = accumulate radix value digits ∧
          count' = count + digits.length ∧ value' < 2 ^ 64 := by
  induction s generalizing value count with
  | nil =>
    rw [digitsLoop]
    constructor
    · rintro ⟨⟩
      exact ⟨[], rfl, nofun, nofun, rfl, rfl, hvalue⟩
    · rintro ⟨digits, hs, -, -, rfl, rfl, -⟩
      obtain ⟨rfl, rfl⟩ := List.append_eq_nil_iff.mp hs.symm
      rfl
  | cons c s ih =>
    rw [digitsLoop]
    by_cases hc : hex c < radix
    · have hsplit {P : Text → Prop} : (∃ digits, c :: s = digits ++ rest ∧
          (∀ d ∈ digits, hex d < radix) ∧ (∀ c ∈ rest.head?, radix ≤ hex c) ∧ P digits) ↔
          ∃ digits, s = digits ++ rest ∧ (∀ d ∈ digits, hex d < radix) ∧
            (∀ c ∈ rest.head?, radix ≤ hex c) ∧ P (c :: digits) := by
        constructor
        · rintro ⟨_ | ⟨d, digits⟩, hs, hdigits, hrest, hP⟩
          · cases hs
            exact absurd hc (Nat.not_lt.mpr (hrest c rfl))
          · obtain ⟨rfl, htail⟩ := List.cons.inj hs
            exact ⟨digits, htail, (List.forall_mem_cons.mp hdigits).2, hrest, hP⟩
        · rintro ⟨digits, rfl, hdigits, hrest, hP⟩
          exact ⟨c :: digits, rfl, List.forall_mem_cons.mpr ⟨hc, hdigits⟩, hrest, hP⟩
      rw [if_pos hc, hsplit]
      by_cases hover : value > (2 ^ 64 - 1 - hex c) / radix
      · rw [if_pos hover]
        rw [overflow_iff (by omega) hradix.1] at hover
        constructor
        · nofun
        · rintro ⟨digits, -, -, -, rfl, -, hlt⟩
          have hle := le_accumulate hradix.1 (value * radix + hex c) digits
          change accumulate radix (value * radix + hex c) digits < _ at hlt
          omega
      · rw [if_neg hover]
        rw [overflow_iff (by omega) hradix.1, not_le] at hover
        rw [ih hover]
        refine exists_congr fun digits ↦ ?_
        rw [List.length_cons, Nat.add_assoc count 1, Nat.add_comm 1]
        rfl
    · rw [if_neg hc]
      constructor
      · rintro ⟨⟩
        exact ⟨[], rfl, nofun, fun d hd ↦ Option.some.inj hd ▸ Nat.not_lt.mp hc, rfl, rfl, hvalue⟩
      · rintro ⟨_ | ⟨d, digits⟩, hs, hdigits, -, rfl, rfl, -⟩
        · cases hs
          rfl
        · obtain ⟨rfl, -⟩ := List.cons.inj hs
          exact absurd (hdigits c (List.mem_cons_self ..)) hc

theorem suffixLoop_letters {unsign unsign' : Bool} {longs : Nat} {longCase previous : Char}
    (hlongs : longs ≤ 2) (h : suffixLoop unsign longs longCase previous s = some unsign') :
    (∀ c ∈ s, c ∈ ['u', 'U', 'l', 'L']) ∧ s.length + longs + unsign.toNat ≤ 3 := by
  induction s generalizing unsign longs longCase previous with
  | nil => 
    have := unsign.toNat_le
    exact ⟨nofun, by rw [List.length_nil]; omega⟩
  | cons c s ih =>
    rw [suffixLoop] at h
    rw [List.forall_mem_cons, List.length_cons]
    split_ifs at h with hu hunsign hl hlong
    · obtain ⟨hletters, hlength⟩ := ih hlongs h
      rw [Bool.not_eq_true] at hunsign
      subst hunsign
      refine ⟨⟨?_, hletters⟩, ?_⟩
      · rcases hu with rfl | rfl <;> decide
      · rw [Bool.toNat_true] at hlength
        rw [Bool.toNat_false]
        omega
    · have hle : longs + 1 ≤ 2 := by
        rw [not_and_or, not_not, not_or, not_not] at hlong
        rcases hlong with hzero | ⟨hone, -⟩ <;> omega
      obtain ⟨hletters, hlength⟩ := ih hle h
      refine ⟨⟨?_, hletters⟩, by omega⟩
      rcases hl with rfl | rfl <;> decide

/-- The suffixes are those of the language. -/
theorem suffixLoop_eq_some {unsign : Bool} :
    suffixLoop false 0 '\x00' '\x00' s = some unsign ↔
      s ∈ suffixes ∧ unsign = s.any fun c ↦ c = 'u' || c = 'U' := by
  have hall : ['u', 'U', 'l', 'L'].all fun a ↦ ['u', 'U', 'l', 'L'].all fun b ↦
      ['u', 'U', 'l', 'L'].all fun c ↦ ∀ s ∈ [[], [a], [a, b], [a, b, c]],
        suffixLoop false 0 '\x00' '\x00' s =
          if s ∈ suffixes then some (s.any fun c ↦ c = 'u' || c = 'U') else none := by
    decide
  simp only [List.all_eq_true, decide_eq_true_eq] at hall
  have hshort (hletters : ∀ c ∈ s, c ∈ ['u', 'U', 'l', 'L']) (hlength : s.length ≤ 3) :
      suffixLoop false 0 '\x00' '\x00' s =
        if s ∈ suffixes then some (s.any fun c ↦ c = 'u' || c = 'U') else none := by
    rcases s with _ | ⟨a, _ | ⟨b, _ | ⟨c, _ | ⟨d, s⟩⟩⟩⟩
    · exact hall 'u' (by decide) 'u' (by decide) 'u' (by decide) [] (by decide)
    · exact hall a (hletters a (by simp)) 'u' (by decide) 'u' (by decide) [a] (by simp)
    · exact hall a (hletters a (by simp)) b (hletters b (by simp)) 'u' (by decide) [a, b] (by simp)
    · exact hall a (hletters a (by simp)) b (hletters b (by simp)) c (hletters c (by simp))
        [a, b, c] (by simp)
    · simp only [List.length_cons] at hlength
      omega
  constructor
  · intro h
    obtain ⟨hletters, hlength⟩ := suffixLoop_letters (Nat.zero_le 2) h
    rw [hshort hletters (by omega)] at h
    split_ifs at h with hmem
    exact ⟨hmem, (Option.some.inj h).symm⟩
  · rintro ⟨hmem, rfl⟩
    have hsuffixes : ∀ s ∈ suffixes, s.all (· ∈ ['u', 'U', 'l', 'L']) ∧ s.length ≤ 3 := by
      decide
    obtain ⟨hletters, hlength⟩ := hsuffixes s hmem
    rw [List.all_iff_forall_prop] at hletters
    rw [hshort hletters hlength, if_pos hmem]

theorem numberStart_split (text : Text) : ∃ start, (start, (numberStart text).1) ∈ radices ∧
    text = start ++ (numberStart text).2 ∧
    ((numberStart text).1 = 8 → (numberStart text).2.head? = some '0') ∧
    ((numberStart text).1 = 10 → (numberStart text).2.head? ≠ some '0') := by
  unfold numberStart
  split
  · exact ⟨['0', 'x'], by simp [radices], rfl, nofun, nofun⟩
  · exact ⟨['0', 'X'], by simp [radices], rfl, nofun, nofun⟩
  · exact ⟨['0', 'b'], by simp [radices], rfl, nofun, nofun⟩
  · exact ⟨['0', 'B'], by simp [radices], rfl, nofun, nofun⟩
  · exact ⟨[], by simp [radices], rfl, fun _ ↦ rfl, nofun⟩
  case h_6 hzero =>
    refine ⟨[], by simp [radices], rfl, nofun, fun _ hhead ↦ ?_⟩
    obtain ⟨s, rfl⟩ := List.head?_eq_some_iff.mp hhead
    exact hzero s rfl

/-- Nothing that can follow the first zero of an octal number makes a prefix of it. -/
theorem numberStart_octal (hs : ∀ c ∈ s.head?, c ∉ ['x', 'X', 'b', 'B']) :
    numberStart ('0' :: s) = (8, '0' :: s) := by
  unfold numberStart
  split
  case h_1 heq | h_2 heq | h_3 heq | h_4 heq =>
    obtain ⟨-, rfl⟩ := List.cons.inj heq
    exact absurd (hs _ rfl) (by decide)
  case h_5 heq =>
    obtain ⟨-, rfl⟩ := List.cons.inj heq
    rfl
  case h_6 hzero => exact (hzero s rfl).elim

theorem numberStart_decimal (hs : s.head? ≠ some '0') : numberStart s = (10, s) := by
  unfold numberStart
  split
  case h_6 => rfl
  all_goals exact absurd rfl hs

/-- The digits end where the suffix begins. -/
theorem suffix_head (hsuffix : suffix ∈ suffixes) (hradix : radix ≤ 16) :
    ∀ c ∈ suffix.head?, radix ≤ hex c := by
  have hall : ∀ s ∈ suffixes, s.head?.all (16 ≤ hex ·) := by decide
  intro c hc
  have hhex := (Option.all_eq_true _ _).mp (hall suffix hsuffix) c hc
  exact hradix.trans (of_decide_eq_true hhex)

theorem radices_le {start : Text} (h : (start, radix) ∈ radices) : 0 < radix ∧ radix ≤ 16 := by
  have hall : ∀ p ∈ radices, 0 < p.2 ∧ p.2 ≤ 16 := by decide
  exact hall _ h

theorem numberStart_constant {start : Text} (hstart : (start, radix) ∈ radices)
    (hne : digits ≠ []) (hdigits : ∀ d ∈ digits, hex d < radix)
    (hoctal : radix = 8 → digits.head? = some '0') (hdecimal : radix = 10 → digits.head? ≠ some '0')
    (hsuffix : suffix ∈ suffixes) :
    numberStart (start ++ (digits ++ suffix)) = (radix, digits ++ suffix) := by
  obtain ⟨d, digits, rfl⟩ := List.exists_cons_of_ne_nil hne
  simp only [radices, List.mem_cons, Prod.mk.injEq, List.not_mem_nil, or_false] at hstart
  rcases hstart with ⟨rfl, rfl⟩ | ⟨rfl, rfl⟩ | ⟨rfl, rfl⟩ | ⟨rfl, rfl⟩ | ⟨rfl, rfl⟩ | ⟨rfl, rfl⟩
  · exact numberStart_decimal (hdecimal rfl)
  · obtain rfl : d = '0' := Option.some.inj (hoctal rfl)
    refine numberStart_octal fun c hc hmem ↦ ?_
    have hsuffixes : ∀ s ∈ suffixes, s.head?.all (· ∉ ['x', 'X', 'b', 'B']) := by decide
    have hletters : ['x', 'X', 'b', 'B'].all (¬ hex · < 8) := by decide
    rcases digits with _ | ⟨d, digits⟩
    · have hnot := (Option.all_eq_true _ _).mp (hsuffixes suffix hsuffix) c hc
      exact of_decide_eq_true hnot hmem
    · obtain rfl : d = c := Option.some.inj hc
      exact List.all_iff_forall_prop.mp hletters d hmem (hdigits d (by simp))
  all_goals rfl

/-- The numbers that are accepted are the integers of the language. -/
theorem numberConstant_iff : numberConstant text = some v ↔ IntegerConstant text v := by
  unfold numberConstant
  constructor
  · intro h
    obtain ⟨start, hstart, htext, hoctal, hdecimal⟩ := numberStart_split text
    generalize numberStart text = parts at h hstart htext hoctal hdecimal
    obtain ⟨radix, rest⟩ := parts
    dsimp only at h hstart htext hoctal hdecimal
    split at h
    · cases h
    case h_2 value count suffix hdigits =>
      split_ifs at h with hcount
      obtain ⟨digits, hs, hhex, hrest, rfl, rfl, hlt⟩ :=
        (digitsLoop_eq_some (radices_le hstart) (by decide)).mp hdigits
      obtain ⟨unsign, hunsign, rfl⟩ := Option.map_eq_some_iff.mp h
      obtain ⟨hsuffix, rfl⟩ := suffixLoop_eq_some.mp hunsign
      have hne : digits ≠ [] := by
        rintro rfl
        exact hcount rfl
      have hhead : (digits ++ suffix).head? = digits.head? := by
        obtain ⟨d, digits, rfl⟩ := List.exists_cons_of_ne_nil hne
        rfl
      rw [hs, hhead] at hoctal hdecimal
      rw [accumulate_zero] at hlt ⊢
      rw [htext, hs]
      exact .intro hstart hne hhex hoctal hdecimal hsuffix hlt
  · rintro ⟨hstart, hne, hhex, hoctal, hdecimal, hsuffix, hlt⟩
    rw [numberStart_constant hstart hne hhex hoctal hdecimal hsuffix,
      (digitsLoop_eq_some (radices_le hstart) (by decide)).mpr
        ⟨_, rfl, hhex, suffix_head hsuffix (radices_le hstart).2, rfl, rfl,
          by rwa [accumulate_zero]⟩]
    dsimp only
    rw [if_neg (by rw [Nat.zero_add]; exact fun h ↦ hne (List.length_eq_zero_iff.mp h)),
      suffixLoop_eq_some.mpr ⟨hsuffix, rfl⟩, accumulate_zero]
    rfl

end Numbers

/-! ## Characters -/

section Characters

variable {query : Text → Bool} {t : Token} {text content : Text} {codes : List Nat} {v : Value}

theorem charConstant_content {start : Text} (hstart : start ∈ [[], ['L'], ['u'], ['U']]) :
    charConstant (start ++ '\'' :: (content ++ ['\''])) =
      (units content).bind fun codes ↦
        if codes = [] then none else some (charValue (start ≠ []) codes) := by
  simp only [List.mem_cons, List.not_mem_nil, or_false] at hstart
  rcases hstart with rfl | rfl | rfl | rfl <;>
    simp [charConstant]

theorem charConstant_of_character (h : CharacterConstant text v) : charConstant text = some v := by
  obtain ⟨hstart, hunits, hne⟩ := h
  rw [charConstant_content hstart, hunits, Option.bind_some, if_neg hne]

theorem charConstant_of_string (h : StringConstant text v) : charConstant text = some v := by
  obtain ⟨hunits, hne⟩ := h
  simp [charConstant, hunits, hne]

/-- A literal that is accepted is a character constant, or the string that is taken for one. -/
theorem charConstant_cases (h : IsToken text .literal) (hv : charConstant text = some v) :
    CharacterConstant text v ∨ StringConstant text v := by
  cases h with
  | @literal opening s rest body rest' delimiter hstart hrest =>
    obtain ⟨content, rfl⟩ := literalRest_end hrest
    have hcharacter (start : Text) (hmem : start ∈ [[], ['L'], ['u'], ['U']])
        (hv : charConstant (start ++ '\'' :: (content ++ ['\''])) = some v) :
        CharacterConstant (start ++ '\'' :: (content ++ ['\''])) v := by
      rw [charConstant_content hmem] at hv
      obtain ⟨codes, hunits, hcodes⟩ := Option.bind_eq_some_iff.mp hv
      split_ifs at hcodes with hne
      cases hcodes
      exact .intro hmem hunits hne
    have hquote := isQuote_iff.mp (isQuote_of_literalStart hstart)
    rcases literalStart_cases hstart with ⟨rfl, rfl⟩ | ⟨p, hp, rfl⟩ | rfl
    · cases hv
    · rcases hquote with rfl | rfl
      · rcases hp with rfl | rfl | rfl <;> cases hv
      · rcases hp with rfl | rfl | rfl
        · exact .inl (hcharacter ['L'] (by decide) hv)
        · exact .inl (hcharacter ['u'] (by decide) hv)
        · exact .inl (hcharacter ['U'] (by decide) hv)
    · rcases hquote with rfl | rfl
      · refine .inr ?_
        rcases content with _ | ⟨c, content⟩
        · cases hv
        · change (match c :: (content ++ ['"']) with
            | '\'' :: content => (units content.dropLast).bind fun codes ↦
                if codes = [] then none else some (charValue true codes)
            | _ => none) = some v at hv
          split at hv
          case h_1 heq =>
            obtain ⟨rfl, rfl⟩ := List.cons.inj heq
            rw [List.dropLast_concat] at hv
            obtain ⟨codes, hunits, hcodes⟩ := Option.bind_eq_some_iff.mp hv
            split_ifs at hcodes with hne
            cases hcodes
            exact .intro hunits hne
          case h_2 => cases hv
      · exact .inl (hcharacter [] (by decide) hv)

/-- The constants of the language are accepted. -/
theorem constant_of_isConstant (h : IsConstant query t v) : constant query t = some v := by
  rw [constant]
  cases h with
  | name hkind hquery =>
    rw [hkind]
    dsimp only
    rw [hquery, if_neg Bool.false_ne_true]
  | integer hkind hv =>
    rw [hkind]
    exact numberConstant_iff.mpr hv
  | character hkind hv =>
    rw [hkind]
    exact charConstant_of_character hv

/-- What is accepted is a constant, or the string that is taken for one. -/
theorem constant_cases (ht : IsToken t.text t.kind) (h : constant query t = some v) :
    IsConstantOrString query t v := by
  rw [constant] at h
  split at h
  case h_1 hkind =>
    split_ifs at h with hquery
    cases h
    exact .inl (.name hkind (Bool.eq_false_of_not_eq_true hquery))
  case h_2 hkind =>
    exact (charConstant_cases (hkind ▸ ht) h).imp (.character hkind) (⟨hkind, ·⟩)
  case h_3 hkind => exact .inl (.integer hkind (numberConstant_iff.mp h))
  case h_4 => cases h

theorem constant_iff (ht : IsToken t.text t.kind) :
    constant query t = some v ↔ IsConstantOrString query t v := by
  refine ⟨constant_cases ht, ?_⟩
  rintro (h | ⟨hkind, h⟩)
  · exact constant_of_isConstant h
  · rw [constant, hkind]
    exact charConstant_of_string h

theorem quoted_of_string (hkind : t.kind = .literal) (h : StringConstant t.text v) : Quoted t := by
  refine ⟨hkind, ?_⟩
  generalize t.text = text at h
  cases h
  rfl

theorem not_isConstant_of_quoted (h : Quoted t) : ¬ IsConstant query t v := by
  obtain ⟨hkind, htext⟩ := h
  rintro (⟨hkind', -⟩ | ⟨hkind', -⟩ | ⟨-, hcharacter⟩)
  · rw [hkind] at hkind'
    cases hkind'
  · rw [hkind] at hkind'
    cases hkind'
  · generalize t.text = text at htext hcharacter
    obtain ⟨hstart, -, -⟩ := hcharacter
    simp only [List.mem_cons, List.not_mem_nil, or_false] at hstart
    rcases hstart with rfl | rfl | rfl | rfl <;> simp at htext

end Characters

end CopySpace.Preprocess
