import CopySpace.Preprocess.Reference

/-!
# The loop over a call finds the arguments of the reference

The loop of `cc_pp_call_views` keeps the views it has closed, the tokens of the one it is in, and
whether there is one among them that is not a newline.
-/

namespace CopySpace.Preprocess

variable {m : Macro} {depth : Nat} {rest : List Node} {current : List Token}

theorem rawTokens_eq_nil {space : Bool} {tokens : List Token} :
    rawTokens space tokens = [] ↔ ∀ t ∈ tokens, t.newline := by
  induction tokens generalizing space with
  | nil => simp [rawTokens]
  | cons t tokens ih =>
    rw [rawTokens]
    split_ifs with h
    · simp [ih, h]
    · simp [h]

/-- The tokens of an argument are no newlines. -/
theorem rawTokens_no_newline {space : Bool} {tokens : List Token} :
    ∀ t ∈ rawTokens space tokens, ¬ t.newline := by
  induction tokens generalizing space with
  | nil => simp [rawTokens]
  | cons t tokens ih =>
    rw [rawTokens]
    split_ifs with h
    · exact ih
    · intro t' ht'
      rcases List.mem_cons.mp ht' with rfl | ht'
      · exact h
      · exact ih t' ht'

/-- What the views of a call hold, without newlines. -/
def rawViews (views : List View) : List (List Token) := views.map fun v ↦ rawTokens false v.tokens

@[simp] theorem rawViews_length (views : List View) : (rawViews views).length = views.length :=
  List.length_map _

theorem rawViews_append (views views' : List View) :
    rawViews (views ++ views') = rawViews views ++ rawViews views' := List.map_append

/-- The result of the loop with the tokens of its views. -/
def rawCall (call : List View × Node × List Node) : List (List Token) × Node × List Node :=
  (rawViews call.1, call.2)

theorem append_singleton_eq_nil {views : List View} {tokens : List Token} :
    rawViews views ++ [tokens] = [[]] ↔ views = [] ∧ tokens = [] := by
  cases views with
  | nil => simp [rawViews]
  | cons view views => simp [rawViews]

/-- What the loop does at the closing parenthesis. -/
theorem callLoop_closing {views : List View} {any : Bool} {node : Node}
    (hany : any = false ↔ rawTokens false current = [])
    (hclosing : node.token.kind = .punctuator ')') :
    (callLoop m views current any 0 (node :: rest)).map rawCall =
      (matchCount m (rawViews views ++ [rawTokens false current])).map (·, node, rest) := by
  have hline : node.token.newline = false := by simp [Token.newline, hclosing]
  rw [callLoop, hline, matchCount]
  simp only [hclosing, Bool.false_eq_true, if_false, true_and, true_or, if_true,
    append_singleton_eq_nil, ← hany, List.length_append, rawViews_length, List.length_singleton]
  by_cases hzero : m.parameters = []
  · -- no parameters: the call must be empty
    simp only [hzero, and_true, if_true, List.length_nil, ge_iff_le, Nat.zero_le]
    by_cases hempty : views = [] ∧ any = false
    · simp [hempty, rawViews, rawCall]
    · have hempty' : any = false → ¬ views = [] := fun h h' ↦ hempty ⟨h', h⟩
      simpa [hempty] using hempty'
  have hpos : 0 < m.parameters.length := List.length_pos_of_ne_nil hzero
  simp only [hzero, and_false, if_false]
  by_cases hfull : views.length ≥ m.parameters.length
  · -- there are too many arguments
    rw [if_pos hfull, if_neg (by omega), if_neg (by omega)]
    rfl
  rw [if_neg hfull]
  by_cases hlast : m.isLast (views.length + 1)
  · -- the last one is missing
    have hvariadic := hlast
    simp only [Macro.isLast, Bool.and_eq_true, decide_eq_true_eq] at hvariadic
    rw [if_pos hlast, if_pos (by simp; omega), if_neg (by omega), if_pos (by simpa using hvariadic)]
    simp [rawCall, rawViews, rawTokens]
  have hmissing : ¬ (m.variadic = true ∧ views.length + 1 + 1 = m.parameters.length) := by
    simpa [Macro.isLast] using hlast
  rw [if_neg hlast, if_neg hmissing]
  -- the views have the same tokens whether the argument counts as missing or not
  have hraw (views' : List View) (hviews : views' =
      if m.variadic && m.parameters.length = 1 && !any then [⟨current, true⟩]
      else views ++ [⟨current, false⟩]) :
      rawViews views' = rawViews views ++ [rawTokens false current] := by
    rw [hviews]
    split_ifs with homitted
    · simp only [Bool.and_eq_true, decide_eq_true_eq] at homitted
      have hnil : views = [] := List.length_eq_zero_iff.mp (by omega)
      simp [hnil, rawViews]
    · simp [rawViews]
  generalize hviews : (if m.variadic && m.parameters.length = 1 && !any then
    [(⟨current, true⟩ : View)] else views ++ [⟨current, false⟩]) = views'
  have hraw' := hraw views' hviews.symm
  have hlength : views'.length = views.length + 1 := by
    rw [← rawViews_length, hraw', List.length_append, rawViews_length, List.length_singleton]
  rw [hlength]
  split_ifs
  · simp [rawCall, hraw']
  · rfl

theorem splitCommas_length (limit depth : Nat) (current tokens : List Token) :
    0 < (splitCommas limit depth current tokens).length := by
  induction tokens generalizing limit depth current with
  | nil => exact Nat.one_pos
  | cons t tokens ih =>
    rw [splitCommas]
    split_ifs
    · exact Nat.succ_pos _
    · exact ih _ _ _

/-- Too many arguments match no macro. -/
theorem matchCount_eq_none {arguments : List (List Token)} (htwo : 2 ≤ arguments.length)
    (hmany : m.parameters.length < arguments.length) : matchCount m arguments = none := by
  have hne : arguments ≠ [[]] := by
    rintro rfl
    exact absurd htwo (by decide)
  have hmissing : ¬ (m.variadic = true ∧ arguments.length + 1 = m.parameters.length) :=
    fun h ↦ by omega
  rw [matchCount, if_neg hne, if_neg hmany.ne', if_neg hmissing, ite_self]

/-- A token that is neither the end of the call nor the end of an argument. -/
theorem callLoop_inside {views : List View} {any : Bool} {node : Node}
    (hend : ¬ (node.token.kind = .punctuator ')' ∧ depth = 0))
    (hcomma : ¬ (node.token.kind = .punctuator ',' ∧ depth = 0 ∧ ¬ m.isLast views.length))
    (hdeep : node.token.kind = .punctuator '(' → depth ≠ 64) :
    callLoop m views current any depth (node :: rest) =
      callLoop m views (current ++ [node.token]) (any || !node.token.newline)
        (nest depth node.token) rest := by
  have hcomma' : ¬ ((node.token.kind = .punctuator ',' ∧ depth = 0) ∧ ¬ m.isLast views.length) :=
    fun h ↦ hcomma ⟨h.1.1, h.1.2, h.2⟩
  rw [callLoop]
  by_cases hline : node.token.newline
  · have hkind : node.token.kind = .punctuator '\n' := by simpa [Token.newline] using hline
    simp [hline, nest, hkind]
  simp only [hline, Bool.false_eq_true, if_false, hend, false_and, false_or, hcomma', nest,
    Bool.not_false, Bool.or_true]
  split_ifs with hopen hfull hclose
  · exact absurd hfull (hdeep hopen)
  · rfl
  · rfl
  · rfl

/-- A comma that ends an argument. -/
theorem callLoop_comma {views : List View} {any : Bool} {node : Node}
    (hcomma : node.token.kind = .punctuator ',') (hlast : ¬ m.isLast views.length) :
    callLoop m views current any 0 (node :: rest) =
      if views.length ≥ m.parameters.length then none
      else callLoop m (views ++ [⟨current, false⟩]) [] false 0 rest := by
  rw [callLoop]
  simp [Token.newline, hcomma, hlast]

/-- How many commas still part arguments. -/
def CommasLeft (m : Macro) (closed limit remaining : Nat) : Prop :=
  if m.variadic then closed + limit + 1 = m.parameters.length else remaining ≤ limit

theorem CommasLeft.limit_ne_zero {closed limit remaining : Nat}
    (h : CommasLeft m closed limit (remaining + 1)) : limit ≠ 0 ↔ ¬ m.isLast closed := by
  rw [CommasLeft] at h
  rw [Macro.isLast]
  split_ifs at h with hvariadic
  · simp only [hvariadic, Bool.true_and, decide_eq_true_eq]
    omega
  · simp only [hvariadic, Bool.false_and, Bool.false_eq_true, not_false_eq_true, iff_true]
    omega

theorem CommasLeft.comma {closed limit remaining : Nat}
    (h : CommasLeft m closed limit (remaining + 1)) (hne : limit ≠ 0) :
    CommasLeft m (closed + 1) (limit - 1) remaining := by
  rw [CommasLeft] at h ⊢
  split_ifs at h ⊢ <;> omega

theorem CommasLeft.inside {closed limit remaining : Nat}
    (h : CommasLeft m closed limit (remaining + 1)) : CommasLeft m closed limit remaining := by
  rw [CommasLeft] at h ⊢
  split_ifs at h ⊢ <;> omega

theorem le_deepest (depth : Nat) (tokens : List Token) : depth ≤ deepest depth tokens := by
  cases tokens with
  | nil => exact le_rfl
  | cons t tokens => exact le_max_left _ _

theorem deepest_cons {t : Token} {tokens : List Token} (h : deepest depth (t :: tokens) ≤ 64) :
    deepest (nest depth t) tokens ≤ 64 := (le_max_right _ _).trans h

/-- A call that is not closed is not replaced. -/
theorem callLoop_eq_none {views : List View} {any : Bool} (hcall : callTokens depth rest = none) :
    callLoop m views current any depth rest = none := by
  induction rest generalizing views current any depth with
  | nil => rfl
  | cons node rest ih =>
    rw [callTokens] at hcall
    split_ifs at hcall with hend
    have hrest : callTokens (nest depth node.token) rest = none := by simpa using hcall
    by_cases hcomma : node.token.kind = .punctuator ',' ∧ depth = 0 ∧ ¬ m.isLast views.length
    · obtain ⟨hkind, rfl, hlast⟩ := hcomma
      rw [callLoop_comma hkind hlast]
      split_ifs
      · rfl
      · exact ih (by simpa [nest, hkind] using hrest)
    by_cases hdeep : node.token.kind = .punctuator '(' ∧ depth = 64
    · obtain ⟨hkind, rfl⟩ := hdeep
      rw [callLoop]
      simp [Token.newline, hkind]
    · rw [callLoop_inside hend hcomma fun h h' ↦ hdeep ⟨h, h'⟩]
      exact ih hrest

/-- **The loop finds the arguments of the reference.**  The induction is over the rest of the
list, with the views that are closed and the tokens of the view that is open. -/
theorem callLoop_eq {views : List View} {any : Bool} (limit : Nat) {inside : List Token}
    {closing : Node} {after : List Node}
    (hcall : callTokens depth rest = some (inside, closing, after))
    (hany : any = false ↔ rawTokens false current = []) (hdepth : 0 < depth → any = true)
    (hnest : deepest depth inside ≤ 64)
    (hlimit : CommasLeft m views.length limit inside.length) :
    (callLoop m views current any depth rest).map rawCall =
      (matchCount m (rawViews views ++
        (splitCommas limit depth current inside).map (rawTokens false))).map
          (·, closing, after) := by
  induction rest generalizing views current any depth limit inside with
  | nil => cases hcall
  | cons node rest ih =>
    rw [callTokens] at hcall
    split_ifs at hcall with hend
    · cases hcall
      obtain ⟨hkind, rfl⟩ := hend
      exact callLoop_closing hany hkind
    obtain ⟨⟨inside', closing', after'⟩, hcall', heq⟩ := Option.map_eq_some_iff.mp hcall
    cases heq
    have hnonzero : limit ≠ 0 ↔ ¬ m.isLast views.length := CommasLeft.limit_ne_zero hlimit
    rw [splitCommas]
    by_cases hcomma : node.token.kind = .punctuator ',' ∧ depth = 0 ∧ limit ≠ 0
    · -- the comma ends an argument
      rw [if_pos hcomma, List.map_cons]
      obtain ⟨hkind, rfl, hne⟩ := hcomma
      have hnest' : nest 0 node.token = 0 := by simp [nest, hkind]
      rw [callLoop_comma hkind (hnonzero.mp hne)]
      by_cases hfull : views.length ≥ m.parameters.length
      · have hlength := splitCommas_length (limit - 1) 0 [] inside'
        rw [if_pos hfull, matchCount_eq_none (by simp; omega) (by simp; omega)]
        rfl
      · rw [if_neg hfull]
        have hviews : (views ++ [(⟨current, false⟩ : View)]).length = views.length + 1 := by simp
        have hdeeper := deepest_cons hnest
        rw [hnest'] at hcall' hdeeper
        rw [ih (limit - 1) hcall' (by simp [rawTokens]) (fun h ↦ absurd h (lt_irrefl 0)) hdeeper
          (hviews ▸ CommasLeft.comma hlimit hne)]
        simp [rawViews]
    · rw [if_neg hcomma, callLoop_inside hend (by rwa [← hnonzero])]
      · refine ih limit hcall' ?_ ?_ (deepest_cons hnest) (CommasLeft.inside hlimit)
        · rw [rawTokens_eq_nil] at hany ⊢
          simp [hany, or_imp, forall_and]
        · by_cases hline : node.token.newline
          · have hkind : node.token.kind = .punctuator '\n' := by
              simpa [Token.newline] using hline
            simpa [nest, hkind, hline] using hdepth
          · simp [hline]
      · rintro hkind rfl
        have := (le_deepest _ _).trans (deepest_cons hnest)
        simp [nest, hkind] at this

/-- The arguments that `cc_pp_call_views` finds, within its limits. -/
theorem callViews_eq (hcount : m.parameters.length ≤ 128)
    (hnest : ∀ inside closing after, callTokens 0 rest = some (inside, closing, after) →
      deepest 0 inside ≤ 64) :
    (callViews m rest).map rawCall =
      (callTokens 0 rest).bind fun (inside, closing, after) ↦
        (matchArguments m inside).map (·, closing, after) := by
  rw [callViews, if_neg (by omega)]
  cases hcall : callTokens 0 rest with
  | none =>
    rw [callLoop_eq_none hcall]
    rfl
  | some call =>
    obtain ⟨inside, closing, after⟩ := call
    have hpos (hvariadic : m.variadic) : 0 < m.parameters.length :=
      List.length_pos_of_ne_nil (m.variadic_ne hvariadic)
    refine callLoop_eq (if m.variadic then m.parameters.length - 1 else inside.length) hcall
      (by simp [rawTokens]) (fun h ↦ absurd h (lt_irrefl 0)) (hnest _ _ _ hcall) ?_
    rw [CommasLeft]
    split_ifs with hvariadic
    · have := hpos hvariadic
      simp
      omega
    · exact le_rfl

end CopySpace.Preprocess
