import CopySpace.Assembler.Listing
import Mathlib.Data.List.TakeWhile

/-!
# Reading ordinary lines

The buffers of the assembler do not show in an ordinary line: `compileLine` does what the line
says.
-/

namespace CopySpace.Assembler

/-! ## Lines -/

theorem textLines_ne_nil {s : Text} : ∀ l ∈ textLines s, l ≠ [] := by
  induction s with
  | nil => exact fun l hl ↦ absurd hl List.not_mem_nil
  | cons c s ih =>
      intro l hl
      rw [textLines] at hl
      split_ifs at hl
      · rcases List.mem_cons.mp hl with rfl | hl
        · exact List.cons_ne_nil _ _
        · exact ih l hl
      · split at hl
        · rw [List.mem_singleton.mp hl]
          exact List.cons_ne_nil _ _
        · rename_i hs
          rcases List.mem_cons.mp hl with rfl | hl
          · exact List.cons_ne_nil _ _
          · exact ih l (by rw [hs]; exact List.mem_cons_of_mem _ hl)

/-- Lines that fit the buffer are read whole. -/
theorem sourceLines_eq {size : Nat} {s : Text} (hsize : ∀ l ∈ textLines s, l.length ≤ size) :
    ∀ {room : Nat}, 0 < room → (∀ l ∈ (textLines s).head?, l.length ≤ room) →
      sourceLines size room s = textLines s := by
  induction s with
  | nil => exact fun _ _ ↦ rfl
  | cons c s ih =>
      intro room h0 hroom
      rw [sourceLines, textLines]
      rw [textLines] at hsize hroom
      by_cases hc : c = '\n'
      · rw [if_pos hc] at hsize hroom
        have hlines : ∀ l ∈ textLines s, l.length ≤ size := fun l hl ↦
          hsize l (List.mem_cons_of_mem _ hl)
        have hpos : 0 < size := hsize _ List.mem_cons_self
        rw [if_pos (Or.inl hc), if_pos hc,
          ih hlines hpos fun l hl ↦ hlines l (List.mem_of_mem_head? hl)]
      · rw [if_neg hc] at hsize hroom
        rw [if_neg hc]
        cases hs : textLines s with
        | nil =>
            -- no line stands behind the last one
            have hnil : s = [] := by
              cases s with
              | nil => rfl
              | cons d s =>
                  rw [textLines] at hs
                  split_ifs at hs
                  split at hs <;> cases hs
            subst hnil
            simp [sourceLines]
        | cons l ls =>
            rw [hs] at hsize hroom ih
            have hl : l.length + 1 ≤ room := hroom (c :: l) rfl
            have hne : l ≠ [] := textLines_ne_nil l (by rw [hs]; exact List.mem_cons_self)
            have hpos : 0 < l.length := List.length_pos_iff.mpr hne
            have hroom : ¬(c = '\n' ∨ room = 1) := by
              rintro (h | h)
              · exact hc h
              · omega
            rw [if_neg hroom, ih (fun l' hl' ↦ ?_) (by omega) fun l' hl' ↦ ?_]
            · rcases List.mem_cons.mp hl' with rfl | hl'
              · exact (Nat.le_succ _).trans (hsize (c :: l') List.mem_cons_self)
              · exact hsize l' (List.mem_cons_of_mem _ hl')
            · obtain rfl : l = l' := Option.some.inj hl'
              omega

/-! ## Tokens -/

theorem takeToken_eq {stop : Char → Bool} : ∀ {n : Nat} {s : Text},
    (s.takeWhile (!stop ·)).length ≤ n →
      takeToken stop n s = (s.takeWhile (!stop ·), s.dropWhile (!stop ·))
  | 0, [], _ => rfl
  | 0, c :: s, h => by
      cases hc : stop c with
      | true => simp [takeToken, hc]
      | false => simp [hc] at h
  | n + 1, [], _ => rfl
  | n + 1, c :: s, h => by
      cases hc : stop c with
      | true => simp [takeToken, hc]
      | false =>
          rw [List.takeWhile_cons_of_pos (by rw [hc]; rfl)] at h ⊢
          rw [List.dropWhile_cons_of_pos (by rw [hc]; rfl), takeToken, if_neg (by rw [hc]; simp),
            takeToken_eq (Nat.le_of_succ_le_succ h)]

theorem dropWhile_quote (s : Text) :
    s.dropWhile (· ≠ '"') = [] ∨ ∃ rest, s.dropWhile (· ≠ '"') = '"' :: rest := by
  cases h : s.dropWhile (· ≠ '"') with
  | nil => exact .inl rfl
  | cons c rest =>
      have hc := List.head?_dropWhile_not (fun c : Char ↦ decide (c ≠ '"')) s
      rw [h] at hc
      obtain rfl : c = '"' := by simpa using hc
      exact .inr ⟨rest, rfl⟩

/-- A token that fits its buffer is read whole. -/
theorem readToken_eq {size : Nat} {s : Text} (h : (nextToken s).1.length ≤ size) :
    readToken size s = nextToken s := by
  unfold nextToken at h
  unfold readToken nextToken
  generalize s.dropWhile isSpace = r at h ⊢
  by_cases hquote : ∃ s, r = '"' :: s
  · obtain ⟨r, rfl⟩ := hquote
    have hstop : (fun c : Char ↦ !decide (c = '"')) = fun c ↦ decide (c ≠ '"') := by
      funext c
      simp
    have htake : takeToken (fun c ↦ decide (c = '"')) size r = _ :=
      takeToken_eq (by rw [hstop]; exact h)
    rw [hstop] at htake
    simp only [htake]
    rcases dropWhile_quote r with hd | ⟨rest, hd⟩ <;> rw [hd] <;> rfl
  · have hr (s : Text) : r = '"' :: s → False := fun h ↦ hquote ⟨s, h⟩
    simp only at h ⊢
    exact takeToken_eq h

/-- The tokens of a text that fit the buffers are read one behind the other. -/
theorem readToken_of_tokens {n : Nat} {s : Text} (h : ∀ t ∈ tokens (n + 1) s, t.length ≤ 255) :
    readToken 255 s = nextToken s := by
  apply readToken_eq
  rw [tokens] at h
  split_ifs at h with h0
  · rw [h0]
    exact Nat.zero_le _
  · exact h _ List.mem_cons_self

theorem tokens_tail {n : Nat} {s : Text} (h : ∀ t ∈ tokens (n + 1) s, t.length ≤ 255)
    (h0 : (nextToken s).1 ≠ []) : ∀ t ∈ tokens n (nextToken s).2, t.length ≤ 255 := fun t ht ↦
  h t (by rw [tokens, if_neg h0]; exact List.mem_cons_of_mem _ ht)

/-! ## What a line does -/

section

variable (cfg : Config) (longBits : Nat) (files : Text → Option Text)
  (compileFile : Text → Text → Assembly → Option Assembly) (path : Text) (st : Assembly)

/-- What the assembler does for a line. -/
def runLine : Line → Option Assembly
  | .blank => some st
  | .inclusion name =>
      (openInclude files path name).bind fun (path, text) ↦ compileFile path text st
  | .assignment name expr =>
      (evalExpr longBits st.symbols expr).bind fun value ↦
        (defineSymbol st.symbols name value).map fun symbols ↦ { st with symbols }
  | .row a b c => emitRow cfg longBits st a b c

/-- An ordinary line is compiled as it is parsed. -/
theorem compileLine_eq {line : Text} (h : OrdinaryLine line) :
    compileLine cfg longBits files compileFile path st line =
      (parseLine line).bind (runLine cfg longBits files compileFile path st) := by
  have hcomment : stripComment line = line.takeWhile (· ≠ ';') := by
    have hself : line.takeWhile (· ≠ '\x00') = line := List.takeWhile_eq_self_iff.mpr fun c hc ↦ by
      have hc0 : c ≠ '\x00' := fun h0 ↦ h.notMem (h0 ▸ hc)
      exact decide_eq_true hc0
    rw [stripComment, hself]
  have h0 := h.token_le
  rw [lineTokens] at h0
  rw [compileLine, hcomment, parseLine, lineTokens]
  generalize line.takeWhile (· ≠ ';') = s at h0 ⊢
  rw [readToken_of_tokens h0, tokens]
  have h1 := tokens_tail h0
  generalize nextToken s = x₀ at h1 ⊢
  obtain ⟨t₀, s₀⟩ := x₀
  dsimp only at h1 ⊢
  by_cases e0 : t₀ = []
  · rw [if_pos e0, if_pos e0]
    rfl
  have h1 := h1 e0
  rw [if_neg e0, if_neg e0, readToken_of_tokens h1, tokens]
  have h2 := tokens_tail h1
  generalize nextToken s₀ = x₁ at h2 ⊢
  obtain ⟨t₁, s₁⟩ := x₁
  dsimp only at h2 ⊢
  by_cases e1 : t₁ = []
  · subst e1
    simp [parseTokens]
  have h2 := h2 e1
  by_cases hi : t₀ = "include".toList
  · simp only [parseTokens, hi, e1, if_true, if_false]
    rfl
  rw [readToken_of_tokens h2, tokens]
  have h3 := tokens_tail h2
  generalize nextToken s₁ = x₂ at h3 ⊢
  obtain ⟨t₂, s₂⟩ := x₂
  dsimp only at h3 ⊢
  by_cases e2 : t₂ = []
  · by_cases hc : t₀ = "copy".toList
    · simp only [parseTokens, hc, e1, e2, if_true, if_false, or_true, true_or]
      rfl
    · by_cases hn : StartsName t₀
      · simp only [parseTokens, hi, hc, e1, e2, hn, if_true, if_false]
        exact if_pos hn
      · simp only [parseTokens, hi, hc, e1, e2, hn, if_true, if_false]
        exact if_neg hn
  have h3 := h3 e2
  rw [readToken_of_tokens h3, tokens]
  have h4 := tokens_tail h3
  generalize nextToken s₂ = x₃ at h4 ⊢
  obtain ⟨t₃, s₃⟩ := x₃
  dsimp only at h4 ⊢
  by_cases e3 : t₃ = []
  · by_cases hc : t₀ = "copy".toList
    · simp only [parseTokens, hc, e1, e2, e3, if_true, if_false]
      rfl
    · simp only [parseTokens, hi, hc, e1, e2, e3, if_false, if_true, ne_eq, not_true]
      rfl
  have h4 := h4 e3
  by_cases hc : t₀ = "copy".toList
  · rw [readToken_of_tokens h4, tokens, if_neg hi, if_pos hc, if_neg e1, if_neg e2, if_neg e3]
    by_cases e4 : (nextToken s₃).1 = []
    · have hparse : parseTokens [t₀, t₁, t₂, t₃] = some (.row t₁ t₂ t₃) :=
        (if_neg hi).trans (if_pos hc)
      rw [if_pos e4, hparse, if_neg (by simp [e1, e2, e3, e4])]
      rfl
    · have hparse (t : Text) (ts : List Text) : parseTokens (t₀ :: t₁ :: t₂ :: t₃ :: t :: ts) = none :=
        (if_neg hi).trans (if_pos hc)
      rw [if_neg e4, hparse, if_pos (.inr (.inr (.inr e4)))]
      rfl
  · simp only [parseTokens, hi, hc, e1, e2, e3, if_false, ne_eq, not_false_iff, if_true]
    rfl

end

end CopySpace.Assembler
