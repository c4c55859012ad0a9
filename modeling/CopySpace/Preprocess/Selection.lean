import CopySpace.Preprocess.Groups

/-!
# The loop processes what is selected

The loop over the tokens walks over the lines of a file, with the flags of its groups; a file that
is included is a walk of its own.  Where no literal of the source reaches behind its line, this walk
does what the tree of the file means.
-/

namespace CopySpace.Preprocess

variable {σ : Type}

/-! ## Lines of the source -/

section

variable {skipping : Bool} {s rest : Text} {tokens : List Token} {t : Token}

theorem inLines_nil : InLines [] := by
  intro rest hrest
  obtain rfl | ⟨_, hnext, -⟩ := Relation.ReflTransGen.cases_head hrest
  · rintro ⟨c, start, opening, delimiter, rest, hstart, -⟩
    cases hstart
  · obtain ⟨t, hnext⟩ := hnext
    cases hnext

theorem lineOf_inLines (h : InLines s) (hline : lineOf true s = some (tokens, rest)) :
    InLines rest := by
  induction hlength : s.length using Nat.strong_induction_on generalizing s tokens with
  | _ length ih =>
    subst hlength
    rw [lineOf_eq] at hline
    split at hline
    · cases hline
    case h_2 hnext =>
      cases hline
      rw [nextInLine_end_length hnext]
      exact inLines_nil
    case h_3 t behind hnext =>
      split_ifs at hline
      · cases hline
        exact h.behind hnext
      · obtain ⟨⟨tokens', rest'⟩, hrest, heq⟩ := Option.map_eq_some_iff.mp hline
        cases heq
        exact ih _ (nextInLine_length hnext) (h.behind hnext) hrest rfl

/-- What is read of a line outside skipped groups is read there as well. -/
theorem lineOf_true (h : lineOf false s = some (tokens, rest)) :
    lineOf true s = some (tokens, rest) := by
  induction hlength : s.length using Nat.strong_induction_on generalizing s tokens with
  | _ length ih =>
    subst hlength
    rw [lineOf_eq] at h ⊢
    cases hnext : nextInLine false s with
    | none =>
      rw [hnext] at h
      cases h
    | some r =>
      rw [hnext] at h
      rw [nextInLine_true hnext]
      rcases r with ⟨_ | t, behind⟩
      · exact h
      · dsimp only at h ⊢
        split_ifs at h ⊢
        · exact h
        · obtain ⟨⟨tokens', rest'⟩, hrest, heq⟩ := Option.map_eq_some_iff.mp h
          cases heq
          rw [ih _ (nextInLine_length hnext) hrest rfl]
          rfl

theorem skipLine_eq (h : InLines s) : skipLine s = (lineOf true s).map Prod.snd := by
  induction hlength : s.length using Nat.strong_induction_on generalizing s with
  | _ length ih =>
    subst hlength
    rw [skipLine, lineOf_eq]
    split
    case h_1 hnext =>
      rw [← h.next_eq, hnext]
      rfl
    case h_2 hnext =>
      rw [← h.next_eq, hnext]
      rfl
    case h_3 t behind hnext =>
      rw [h.next_eq] at hnext
      rw [hnext]
      dsimp only
      split_ifs
      · rfl
      · rw [ih _ (nextInLine_length hnext) (h.behind hnext) rfl, Option.map_map]
        rfl

theorem readTail_eq (h : InLines s) : readTail skipping s = endOfLine skipping s := by
  rcases hnext : nextInLine skipping s with _ | ⟨_ | t, rest⟩ <;>
    simp [readTail, endOfLine, h.next_eq, hnext]

theorem endOfLine_cases (s : Text) : endOfLine false s = endOfLine true s := by
  rw [endOfLine, endOfLine]
  rcases nextInLine_cases s with heq | ⟨hnone, hliteral⟩
  · rw [heq]
  · rw [hnone]
    rcases hnext : nextInLine true s with _ | ⟨_ | t, rest⟩
    · rfl
    · rw [nextInLine_end hnext] at hnone
      cases hnone
    · dsimp only
      rw [Token.newline, hliteral t rest hnext]
      rfl

theorem endOfLine_either (skipping : Bool) (s : Text) :
    endOfLine skipping s = endOfLine true s := by
  cases skipping with
  | false => exact endOfLine_cases s
  | true => rfl

theorem endOfLine_inLines (h : InLines s) (hline : endOfLine skipping s = some rest) :
    InLines rest := by
  have htrue : endOfLine true s = some rest := by
    cases skipping with
    | false => rwa [← endOfLine_cases]
    | true => exact hline
  unfold endOfLine at htrue
  split at htrue
  · cases htrue
  case h_2 hnext =>
    cases htrue
    rw [nextInLine_end_length hnext]
    exact inLines_nil
  case h_3 hnext =>
    split_ifs at htrue
    cases htrue
    exact h.behind hnext

/-- A line that ends here has nothing more. -/
theorem lineOf_of_endOfLine (h : endOfLine skipping s = some rest) :
    ∃ tokens, lineOf skipping s = some (tokens, rest) := by
  unfold endOfLine at h
  rw [lineOf_eq]
  split at h
  · cases h
  case h_2 hnext => 
    cases h
    exact ⟨[], rfl⟩
  case h_3 t behind hnext =>
    split_ifs at h with hnewline
    cases h
    exact ⟨[t], if_pos hnewline⟩

end

/-! ## Directives -/

/-- What the walk over lines keeps of a group. -/
def Group.toOpen (group : Group) : Nesting.Open := ⟨group.parent, group.taken, group.sawElse⟩

/-- Outside the groups of a file its lines are selected. -/
def Chained : Bool → List Group → Prop
  | enabled, [] => enabled = true
  | _, group :: groups => Chained group.parent groups

/-- The loop reads a file that begins within the groups `base`, and has the groups `gs` open. -/
structure Stands (gs base : List Group) (frames : List Frame) (rest : Text) (st : State σ) :
    Prop where
  groups : st.groups = gs ++ base
  chained : Chained st.enabled gs
  floor : st.floor = base.length
  frames : st.frames = frames
  reader : st.reader = rest

/-- The place of the walk. -/
def State.place (gs : List Group) (st : State σ) : Nesting.Place σ :=
  (gs.map Group.toOpen, st.enabled, st.env)

section Directives

variable {proc : Processor σ} {included : Nat → Text → σ → Option σ} {gs base : List Group}
  {frames : List Frame} {s rest : Text} {st : State σ} {env : σ} {name : Token}
  {tokens : List Token}

/-- A directive does what the walk does on its line, or names the file that is to be included. -/
def Simulated (proc : Processor σ) (included : Nat → Text → σ → Option σ) (base : List Group)
    (frames : List Frame) (rest : Text) (result : Option (Nesting.Place σ)) :
    Option (State σ × Option Text) → Prop
  | none => result = none
  | some (st, none) => ∃ gs, Stands gs base frames rest st ∧ result = some (st.place gs)
  | some (st, some text) => ∃ gs, Stands gs base frames rest st ∧ st.enabled = true ∧
      (∃ env name line, proc.directive env name line = some (st.env, some text)) ∧
      result = (included (base.length + gs.length) text st.env).map (gs.map Group.toOpen, true, ·)

theorem conditionLine_eq (hin : InLines st.reader) (run : Bool) :
    st.conditionLine proc run = (lineOf true st.reader).bind fun (_, rest) ↦
      ((fileSemantics proc included).test run (.expression (cut st.reader rest)) st.env).map
        fun (env, truth) ↦ ({ st with env, reader := rest }, truth) := by
  rw [State.conditionLine, skipLine_eq hin, Option.bind_map]
  cases run <;> rfl

theorem definedLine_eq (hin : InLines st.reader) (negated : Bool) :
    st.definedLine proc negated = (lineOf true st.reader).bind fun (_, rest) ↦
      ((fileSemantics proc included).test st.enabled
        (.defined negated (definedName st.reader)) st.env).map
          fun (env, truth) ↦ ({ st with env, reader := rest }, truth) := by
  obtain ⟨env₀, s, beginning, groups, floor, enabled, frames'⟩ := st
  dsimp only at hin ⊢
  rw [State.definedLine]
  cases enabled with
  | false =>
    rw [if_neg Bool.false_ne_true, skipLine_eq hin, Option.map_map]
    exact Option.map_eq_bind ..
  | true =>
    rw [if_pos rfl, hin.next_eq, Bool.not_true]
    rcases hnext : nextInLine false s with _ | ⟨_ | name, behind⟩
    · have hdefined : definedName s = none := by rw [definedName, hnext]
      rw [hdefined]
      cases lineOf true s <;> rfl
    · have hdefined : definedName s = none := by rw [definedName, hnext]
      rw [hdefined]
      cases lineOf true s <;> rfl
    · dsimp only
      have htrue := nextInLine_true hnext
      have hdefined : definedName s =
          if name.kind = .ident then (endOfLine false behind).map fun _ ↦ name else none := by
        rw [definedName, hnext]
      rw [hdefined]
      by_cases hident : name.kind = .ident
      · rw [if_pos hident, if_pos hident, readTail_eq (hin.behind htrue)]
        cases htail : endOfLine false behind with
        | none => cases lineOf true s <;> rfl
        | some rest =>
          obtain ⟨tokens', hrest⟩ := lineOf_of_endOfLine (endOfLine_cases behind ▸ htail)
          have hnewline : name.newline = false := by
            rw [Token.newline, hident]
            rfl
          rw [lineOf_eq, htrue]
          dsimp only
          rw [hnewline, if_neg Bool.false_ne_true, hrest]
          rfl
      · rw [if_neg hident, if_neg hident]
        cases lineOf true s <;> rfl

/-- A group is opened. -/
theorem opening_simulated (h : Stands gs base frames s st) {c : Condition}
    (hflush : proc.flushPrefix env = some st.env) :
    Simulated proc included base frames rest
      (Nesting.step (fileSemantics proc included) groupsMax base.length (.opening c)
        (gs.map Group.toOpen, st.enabled, env))
      ((if st.groups.length = groupsMax then none
        else (((fileSemantics proc included).test st.enabled c st.env).map
          fun (env, truth) ↦ ({ st with env, reader := rest }, truth)).map
            fun (st, truth) ↦ st.openGroup truth).map (·, none)) := by
  have hlength : st.groups.length = base.length + (gs.map Group.toOpen).length := by
    rw [h.groups, List.length_append, List.length_map, Nat.add_comm]
  change Simulated _ _ _ _ _ ((proc.flushPrefix env).bind _) _
  rw [hflush, Option.bind_some, hlength]
  by_cases hfull : base.length + (gs.map Group.toOpen).length = groupsMax
  · rw [if_pos hfull, if_pos hfull]
    rfl
  · rw [if_neg hfull, if_neg hfull]
    rcases (fileSemantics proc included).test st.enabled c st.env with _ | ⟨env', truth⟩
    · rfl
    · refine ⟨⟨st.enabled, truth, st.enabled && truth, false⟩ :: gs, ⟨?_, ?_, h.floor, h.frames, rfl⟩,
        rfl⟩
      · exact congrArg (_ :: ·) h.groups
      · exact h.chained

theorem floor_eq_iff (h : Stands gs base frames s st) :
    st.groups.length = st.floor ↔ gs = [] := by
  rw [h.groups, h.floor, List.length_append, ← List.length_eq_zero_iff]
  omega

/-- A further branch begins. -/
theorem another_simulated (h : Stands gs base frames s st) (hin : InLines s)
    (hname : name.is "elif") (hflush : proc.flushPrefix env = some st.env) :
    ∃ result, st.conditionDirective proc name = some result ∧
      match lineOf true s with
      | none => result = none
      | some (_, rest) => Simulated proc included base frames rest
          (Nesting.step (fileSemantics proc included) groupsMax base.length
            (.another (.expression (cut s rest))) (gs.map Group.toOpen, st.enabled, env))
          (result.map (·, none)) := by
  rw [State.conditionDirective, not_is_of_is (by decide) hname, not_is_of_is (by decide) hname,
    not_is_of_is (by decide) hname, hname, if_neg (by decide), Bool.true_or, Bool.true_or,
    if_pos rfl]
  refine ⟨_, rfl, ?_⟩
  rcases gs with _ | ⟨group, gs⟩
  · rw [if_pos ((floor_eq_iff h).mpr rfl)]
    cases lineOf true s <;> rfl
  rw [if_neg ((floor_eq_iff h).not.mpr (List.cons_ne_nil _ _)), h.groups, List.cons_append]
  dsimp only
  rw [if_pos rfl, conditionLine_eq (h.reader ▸ hin), h.reader]
  obtain ⟨parent, taken, active, sawElse⟩ := group
  rcases lineOf true s with _ | ⟨tokens, rest⟩
  · cases sawElse <;> rfl
  change Simulated _ _ _ _ _ ((proc.flushPrefix env).bind _) _
  rw [hflush, Option.bind_some, Option.bind_some]
  cases sawElse with
  | true => rfl
  | false =>
    change Simulated _ _ _ _ _ (((fileSemantics proc included).test (parent && !taken)
      (.expression (cut s rest)) st.env).map _) ((Option.map _ (((fileSemantics proc included).test
        (parent && !taken) (.expression (cut s rest)) st.env).map _)).map _)
    cases htest : (fileSemantics proc included).test (parent && !taken)
      (.expression (cut s rest)) st.env with
    | none => rfl
    | some result =>
      obtain ⟨env', truth⟩ := result
      -- the truth is asked for where the branch may be taken
      have htaken : (taken || (parent && !taken && truth)) = (taken || truth) := by
        cases hwanted : parent && !taken with
        | true => rw [Bool.true_and]
        | false =>
          rw [hwanted] at htest
          cases htest
          rfl
      refine ⟨⟨parent, taken || (parent && !taken && truth), parent && !taken && truth, false⟩ :: gs,
        ⟨rfl, h.chained, h.floor, h.frames, rfl⟩, ?_⟩
      rw [State.place, List.map_cons, Group.toOpen, htaken]
      rfl

/-- The last branch begins. -/
theorem otherwise_simulated (h : Stands gs base frames s st) (hin : InLines s)
    (hname : name.is "else") (hflush : proc.flushPrefix env = some st.env) :
    ∃ result, st.conditionDirective proc name = some result ∧
      match endOfLine true s with
      | none => result = none
      | some rest => Simulated proc included base frames rest
          (Nesting.step (fileSemantics proc included) groupsMax base.length .otherwise
            (gs.map Group.toOpen, st.enabled, env)) (result.map (·, none)) := by
  rw [State.conditionDirective, not_is_of_is (by decide) hname, not_is_of_is (by decide) hname,
    not_is_of_is (by decide) hname, not_is_of_is (by decide) hname, hname, if_neg (by decide),
    Bool.false_or, Bool.true_or, if_pos rfl]
  refine ⟨_, rfl, ?_⟩
  rcases gs with _ | ⟨group, gs⟩
  · rw [if_pos ((floor_eq_iff h).mpr rfl)]
    cases endOfLine true s <;> rfl
  rw [if_neg ((floor_eq_iff h).not.mpr (List.cons_ne_nil _ _)), h.groups, List.cons_append]
  dsimp only
  rw [if_neg (by decide), readTail_eq (h.reader ▸ hin), endOfLine_either (!st.enabled), h.reader]
  cases endOfLine true s with
  | none => rfl
  | some rest =>
    change Simulated _ _ _ _ _ ((proc.flushPrefix env).bind _) _
    rw [hflush, Option.bind_some, Option.bind_some, if_pos rfl]
    obtain ⟨parent, taken, active, sawElse⟩ := group
    cases sawElse with
    | true => rfl
    | false => exact ⟨⟨parent, true, parent && !taken, true⟩ :: gs,
        ⟨rfl, h.chained, h.floor, h.frames, rfl⟩, rfl⟩

/-- A group is closed. -/
theorem closing_simulated (h : Stands gs base frames s st) (hin : InLines s)
    (hname : name.is "endif") (hflush : proc.flushPrefix env = some st.env) :
    ∃ result, st.conditionDirective proc name = some result ∧
      match endOfLine true s with
      | none => result = none
      | some rest => Simulated proc included base frames rest
          (Nesting.step (fileSemantics proc included) groupsMax base.length .closing
            (gs.map Group.toOpen, st.enabled, env)) (result.map (·, none)) := by
  rw [State.conditionDirective, not_is_of_is (by decide) hname, not_is_of_is (by decide) hname,
    not_is_of_is (by decide) hname, not_is_of_is (by decide) hname,
    not_is_of_is (by decide) hname, hname, if_neg (by decide), Bool.or_true, if_pos rfl]
  refine ⟨_, rfl, ?_⟩
  rcases gs with _ | ⟨group, gs⟩
  · rw [if_pos ((floor_eq_iff h).mpr rfl)]
    cases endOfLine true s <;> rfl
  rw [if_neg ((floor_eq_iff h).not.mpr (List.cons_ne_nil _ _)), h.groups, List.cons_append]
  dsimp only
  rw [if_neg (by decide), readTail_eq (h.reader ▸ hin), endOfLine_either (!st.enabled), h.reader]
  cases endOfLine true s with
  | none => rfl
  | some rest =>
    change Simulated _ _ _ _ _ ((proc.flushPrefix env).map _) _
    rw [hflush, Option.map_some, Option.bind_some, if_neg (by decide)]
    exact ⟨gs, ⟨rfl, h.chained, h.floor, h.frames, rfl⟩, rfl⟩

theorem if_simulated (h : Stands gs base frames s st) (hin : InLines s) (hname : name.is "if")
    (hflush : proc.flushPrefix env = some st.env) :
    ∃ result, st.conditionDirective proc name = some result ∧
      match lineOf true s with
      | none => result = none
      | some (_, rest) => Simulated proc included base frames rest
          (Nesting.step (fileSemantics proc included) groupsMax base.length
            (.opening (.expression (cut s rest))) (gs.map Group.toOpen, st.enabled, env))
          (result.map (·, none)) := by
  rw [State.conditionDirective, hname, Bool.true_or, Bool.true_or, if_pos rfl]
  refine ⟨_, rfl, ?_⟩
  rw [if_pos rfl, conditionLine_eq (h.reader ▸ hin), h.reader]
  rcases lineOf true s with _ | ⟨tokens, rest⟩
  · exact ite_self _
  · exact opening_simulated h hflush

theorem ifdef_simulated (h : Stands gs base frames s st) (hin : InLines s)
    (hname : name.is "ifdef" ∨ name.is "ifndef") (hflush : proc.flushPrefix env = some st.env) :
    ∃ result, st.conditionDirective proc name = some result ∧
      match lineOf true s with
      | none => result = none
      | some (_, rest) => Simulated proc included base frames rest
          (Nesting.step (fileSemantics proc included) groupsMax base.length
            (.opening (.defined (name.is "ifndef") (definedName s)))
            (gs.map Group.toOpen, st.enabled, env))
          (result.map (·, none)) := by
  have hif : name.is "if" = false := by
    rcases hname with hname | hname
    · exact not_is_of_is (by decide) hname
    · exact not_is_of_is (by decide) hname
  rw [State.conditionDirective, hif, Bool.false_or, if_pos (Bool.or_eq_true_iff.mpr hname)]
  refine ⟨_, rfl, ?_⟩
  rw [if_neg Bool.false_ne_true, definedLine_eq (h.reader ▸ hin), h.reader]
  rcases lineOf true s with _ | ⟨tokens, rest⟩
  · exact ite_self _
  · exact opening_simulated h hflush

/-- A directive that is none of those for groups. -/
theorem other_simulated (h : Stands gs base frames s st) (hin : InLines s)
    (hnewline : name.newline = false) (hother : st.conditionDirective proc name = none)
    (hflush : proc.flushPrefix env = some st.env) :
    match lineOf true s with
    | none => st.namedDirective proc name = none
    | some (_, rest) => Simulated proc included base frames rest
        (Nesting.step (fileSemantics proc included) groupsMax base.length
          (.plain (.directive name (cut s rest))) (gs.map Group.toOpen, st.enabled, env))
        (st.namedDirective proc name) := by
  rw [State.namedDirective, hnewline, if_neg Bool.false_ne_true, hother]
  dsimp only
  rw [h.reader, skipLine_eq hin]
  rcases lineOf true s with _ | ⟨tokens, rest⟩
  · rfl
  rw [Option.map_some, Option.bind_some]
  change Simulated _ _ _ _ _ (((proc.flushPrefix env).bind _).map _) _
  rw [hflush, Option.bind_some]
  obtain ⟨env₀, reader, beginning, groups, floor, enabled, frames'⟩ := st
  cases enabled with
  | false => exact ⟨gs, ⟨h.groups, h.chained, h.floor, h.frames, rfl⟩, rfl⟩
  | true =>
    dsimp only
    rw [if_pos rfl, Bool.not_true, if_neg Bool.false_ne_true]
    cases directiveNames.any (name.is ·) with
    | false => rfl
    | true =>
      rw [if_pos rfl, if_pos rfl]
      rcases hdirective : proc.directive env₀ name (cut s rest) with _ | ⟨env', _ | text⟩
      · rfl
      · exact ⟨gs, ⟨h.groups, h.chained, h.floor, h.frames, rfl⟩, rfl⟩
      · refine ⟨gs, ⟨h.groups, h.chained, h.floor, h.frames, rfl⟩, rfl, ⟨_, _, _, hdirective⟩, ?_⟩
        rw [List.length_map]
        rfl

theorem directiveLine_other (h : ∀ keyword ∈ ["if", "ifdef", "ifndef", "elif"],
    name.is keyword = false) : directiveLine name s rest = .plain (.directive name (cut s rest)) := by
  rw [directiveLine, h _ (by decide), h _ (by decide), h _ (by decide), h _ (by decide),
    if_neg Bool.false_ne_true, if_neg Bool.false_ne_true, if_neg Bool.false_ne_true,
    if_neg Bool.false_ne_true]

/-- A directive without a keyword for its name is refused where lines are selected. -/
theorem literal_simulated (henabled : st.enabled = true)
    (hname : ∀ keyword : String, keyword.toList.all (fun c ↦ !isQuote c) → name.is keyword = false)
    (hflush : proc.flushPrefix env = some st.env) :
    Nesting.step (fileSemantics proc included) groupsMax base.length (directiveLine name s rest)
      (gs.map Group.toOpen, st.enabled, env) = none := by
  have hany : directiveNames.any (name.is ·) = false := by
    rw [List.any_eq_false]
    intro keyword hkeyword
    have hall : ∀ keyword ∈ directiveNames, keyword.toList.all (fun c ↦ !isQuote c) := by decide
    rw [hname keyword (hall keyword hkeyword)]
    exact Bool.false_ne_true
  rw [directiveLine_other, henabled]
  · change ((proc.flushPrefix env).bind _).map _ = none
    rw [hflush, Option.bind_some, if_pos rfl, hany]
    rfl
  · have hall : ∀ keyword ∈ ["if", "ifdef", "ifndef", "elif"],
      keyword.toList.all (fun c ↦ !isQuote c) := by decide
    exact fun keyword hkeyword ↦ hname keyword (hall keyword hkeyword)

/-- A directive with a name does what the walk does on its line. -/
theorem named_simulated (h : Stands gs base frames s st) (hin : InLines s)
    (hflush : proc.flushPrefix env = some st.env) :
    match readNamed name s with
    | none => st.namedDirective proc name = none
    | some (l, rest) => InLines rest ∧
        Simulated proc included base frames rest
          (Nesting.step (fileSemantics proc included) groupsMax base.length l
            (gs.map Group.toOpen, st.enabled, env)) (st.namedDirective proc name) := by
  cases hnewline : name.newline with
  | true =>
    rw [readNamed, hnewline, if_pos rfl, State.namedDirective, hnewline, if_pos rfl]
    refine ⟨hin, gs, h, ?_⟩
    change ((proc.flushPrefix env).map _) = _
    rw [hflush]
    rfl
  | false =>
    have hcond {result : Option (State σ)} (hresult : st.conditionDirective proc name = some result) :
        st.namedDirective proc name = result.map (·, none) := by
      rw [State.namedDirective, hnewline, if_neg Bool.false_ne_true, hresult]
    rw [readNamed, hnewline, if_neg Bool.false_ne_true]
    by_cases helse : name.is "else"
    · obtain ⟨result, hresult, hsim⟩ := otherwise_simulated h hin helse hflush
      rw [if_pos helse, hcond hresult]
      cases hend : endOfLine true s with
      | none =>
        rw [hend] at hsim
        rw [hsim]
        rfl
      | some rest =>
        rw [hend] at hsim
        exact ⟨endOfLine_inLines hin hend, hsim⟩
    rw [if_neg helse]
    by_cases hendif : name.is "endif"
    · obtain ⟨result, hresult, hsim⟩ := closing_simulated h hin hendif hflush
      rw [if_pos hendif, hcond hresult]
      cases hend : endOfLine true s with
      | none =>
        rw [hend] at hsim
        rw [hsim]
        rfl
      | some rest =>
        rw [hend] at hsim
        exact ⟨endOfLine_inLines hin hend, hsim⟩
    rw [if_neg hendif]
    -- the other directives are read with their lines
    have hlines {f : Text → Line} (hsim : match lineOf true s with
        | none => st.namedDirective proc name = none
        | some (_, rest) => Simulated proc included base frames rest
            (Nesting.step (fileSemantics proc included) groupsMax base.length (f rest)
              (gs.map Group.toOpen, st.enabled, env)) (st.namedDirective proc name)) :
        match (lineOf true s).map fun (_, rest) ↦ (f rest, rest) with
        | none => st.namedDirective proc name = none
        | some (l, rest) => InLines rest ∧ Simulated proc included base frames rest
            (Nesting.step (fileSemantics proc included) groupsMax base.length l
              (gs.map Group.toOpen, st.enabled, env)) (st.namedDirective proc name) := by
      rcases hline : lineOf true s with _ | ⟨tokens, rest⟩
      · rwa [hline] at hsim
      · rw [hline] at hsim
        exact ⟨lineOf_inLines hin hline, hsim⟩
    have hresult {f : Text → Line} (hsim : ∃ result, st.conditionDirective proc name = some result ∧
        match lineOf true s with
        | none => result = none
        | some (_, rest) => Simulated proc included base frames rest
            (Nesting.step (fileSemantics proc included) groupsMax base.length (f rest)
              (gs.map Group.toOpen, st.enabled, env)) (result.map (·, none))) :
        match lineOf true s with
        | none => st.namedDirective proc name = none
        | some (_, rest) => Simulated proc included base frames rest
            (Nesting.step (fileSemantics proc included) groupsMax base.length (f rest)
              (gs.map Group.toOpen, st.enabled, env)) (st.namedDirective proc name) := by
      obtain ⟨result, heq, hsim⟩ := hsim
      rw [hcond heq]
      rcases hline : lineOf true s with _ | ⟨tokens, rest⟩
      · rw [hline] at hsim
        rw [hsim]
        rfl
      · rwa [hline] at hsim
    refine hlines ?_
    by_cases hif : name.is "if"
    · have hline (rest : Text) :
          directiveLine name s rest = .opening (.expression (cut s rest)) := if_pos hif
      simp only [hline]
      exact hresult (if_simulated h hin hif hflush)
    by_cases hifdef : name.is "ifdef" ∨ name.is "ifndef"
    · have hline (rest : Text) : directiveLine name s rest =
          .opening (.defined (name.is "ifndef") (definedName s)) := by
        rw [directiveLine, if_neg hif]
        rcases hifdef with hname | hname
        · rw [if_pos hname, not_is_of_is (by decide) hname]
        · rw [if_neg (by rw [not_is_of_is (by decide) hname]; decide), if_pos hname, hname]
      simp only [hline]
      exact hresult (ifdef_simulated h hin hifdef hflush)
    rw [not_or] at hifdef
    by_cases helif : name.is "elif"
    · have hline (rest : Text) :
          directiveLine name s rest = .another (.expression (cut s rest)) := by
        rw [directiveLine, if_neg hif, if_neg hifdef.1, if_neg hifdef.2, if_pos helif]
      simp only [hline]
      exact hresult (another_simulated h hin helif hflush)
    · have hline (rest : Text) :
          directiveLine name s rest = .plain (.directive name (cut s rest)) := by
        rw [directiveLine, if_neg hif, if_neg hifdef.1, if_neg hifdef.2, if_neg helif]
      have hother : st.conditionDirective proc name = none := by
        rw [State.conditionDirective, if_neg (by simp [hif, hifdef]),
          if_neg (by simp [helif, helse, hendif])]
      simp only [hline]
      exact other_simulated h hin hnewline hother hflush

/-- A directive does what the walk does on its line. -/
theorem directive_simulated (h : Stands gs base frames s st) (hin : InLines s)
    (hflush : proc.flushPrefix env = some st.env) :
    match readDirective s with
    | none => st.directive proc = none
    | some (l, rest) => InLines rest ∧
        Simulated proc included base frames rest
          (Nesting.step (fileSemantics proc included) groupsMax base.length l
            (gs.map Group.toOpen, st.enabled, env)) (st.directive proc) := by
  rw [readDirective, State.directive, h.reader, hin.next_eq]
  rcases nextInLine_either (!st.enabled) s with heither | ⟨hnone, hskipping, hliteral⟩
  · rw [heither]
    rcases hnext : nextInLine true s with _ | ⟨_ | name, behind⟩
    · rfl
    · rw [nextInLine_end_length hnext]
      refine ⟨inLines_nil, gs, ⟨h.groups, h.chained, h.floor, h.frames, rfl⟩, ?_⟩
      change ((proc.flushPrefix env).map _) = _
      rw [hflush]
      rfl
    · have hstands : Stands gs base frames behind { st with reader := behind } :=
        ⟨h.groups, h.chained, h.floor, h.frames, rfl⟩
      exact named_simulated hstands (hin.behind hnext) hflush
  · -- the name is a literal that does not end
    rw [hnone]
    rcases hnext : nextInLine true s with _ | ⟨_ | name, behind⟩
    · rfl
    · rw [nextInLine_end hnext] at hnone
      cases hnone
    · have hkind := hliteral name behind hnext
      have hname (keyword : String) (hquotes : keyword.toList.all fun c ↦ !isQuote c) :
          name.is keyword = false := not_is_of_literal hnext hkind hquotes
      dsimp only
      rw [readNamed, Token.newline, hkind, if_neg (by decide), hname _ (by decide),
        hname _ (by decide), if_neg Bool.false_ne_true, if_neg Bool.false_ne_true]
      rcases hline : lineOf true behind with _ | ⟨tokens, rest⟩
      · rfl
      · exact ⟨lineOf_inLines (hin.behind hnext) hline,
          literal_simulated (by simpa using hskipping) hname hflush⟩

end Directives

/-! ## Text -/

section Text

variable {proc : Processor σ} {st st' : State σ} {r : Option σ} {rest : Text} {tokens : List Token}
  {k : σ → Option σ} {env : σ}

theorem Ends.congr (h : Ends proc st r) (hstep : st.step proc = st'.step proc) : Ends proc st' r := by
  cases h with
  | finished h => exact .finished (hstep ▸ h)
  | rejected h => exact .rejected (hstep ▸ h)
  | running h hrest => exact .running (hstep ▸ h) hrest

/-- At the end of a file the loop does not look at what it has read. -/
theorem step_end (h : next (!st.enabled) st.reader = some (none, rest)) (beginning : Bool) :
    st.step proc = State.step proc { st with reader := [], beginning } := by
  rw [State.step, State.step, h]
  rfl

theorem step_append {t : Token} (h : next (!st.enabled) st.reader = some (some t, rest))
    (hhash : (st.beginning && t.is "#") = false) (henabled : st.enabled = true) :
    (proc.append st.env t = none → st.step proc = .rejected) ∧
      ∀ env, proc.append st.env t = some env →
        st.step proc = .running { st with env, reader := rest, beginning := t.newline } := by
  rw [State.step, h]
  dsimp only
  rw [hhash, if_neg Bool.false_ne_true, if_pos henabled]
  refine ⟨fun happend ↦ ?_, fun env happend ↦ ?_⟩
  · rw [happend]
  · rw [happend]

theorem step_skip {t : Token} (h : next (!st.enabled) st.reader = some (some t, rest))
    (hhash : (st.beginning && t.is "#") = false) (henabled : st.enabled = false) :
    st.step proc = .running { st with reader := rest, beginning := t.newline } := by
  rw [State.step, h]
  dsimp only
  rw [hhash, if_neg Bool.false_ne_true, henabled, if_neg Bool.false_ne_true]

/-- The line does not begin with a directive. -/
def NoDirective (st : State σ) : Prop :=
  ∀ t rest, nextInLine true st.reader = some (some t, rest) → (st.beginning && t.is "#") = false

/-- The tokens of a line are put to those that wait. -/
theorem text_ends (hin : InLines st.reader) (henabled : st.enabled = true) (hhash : NoDirective st)
    (hk : ∀ tokens rest env beginning, lineOf true st.reader = some (tokens, rest) →
      beginning = true ∨ rest = [] →
        Ends proc { st with env, reader := rest, beginning } (k env)) :
    Ends proc st ((((lineOf false st.reader).map Prod.fst).bind fun tokens ↦
      tokens.foldlM proc.append st.env).bind k) := by
  induction hlength : st.reader.length using Nat.strong_induction_on generalizing st with
  | _ length ih =>
    subst hlength
    have hmode : next (!st.enabled) st.reader = nextInLine false st.reader := by
      rw [henabled, hin.next_eq, Bool.not_true]
    rw [lineOf_eq]
    rcases hnext : nextInLine false st.reader with _ | ⟨_ | t, rest⟩
    · refine .rejected ?_
      rw [State.step, hmode, hnext]
    · rw [nextInLine_end_length hnext] at hnext
      refine Ends.congr (hk [] [] st.env true ?_ (.inl rfl)) (step_end (hmode.trans hnext) true).symm
      rw [lineOf_eq, nextInLine_true hnext]
    · have htrue := nextInLine_true hnext
      obtain ⟨hrejected, hrunning⟩ :=
        @step_append _ proc st rest t (hmode.trans hnext) (hhash t rest htrue) henabled
      have hresult : (((if t.newline then some ([t], rest) else (lineOf false rest).map
            fun (tokens, rest) ↦ (t :: tokens, rest)).map Prod.fst).bind fun tokens ↦
              tokens.foldlM proc.append st.env) =
          (proc.append st.env t).bind fun env ↦ if t.newline then some env
            else ((lineOf false rest).map Prod.fst).bind fun tokens ↦
              tokens.foldlM proc.append env := by
        split_ifs
        · cases happend : proc.append st.env t <;> simp [happend]
        · rcases lineOf false rest with _ | ⟨tokens, behind⟩ <;>
            cases happend : proc.append st.env t <;> simp [happend]
      dsimp only
      rw [hresult]
      cases happend : proc.append st.env t with
      | none => exact .rejected (hrejected happend)
      | some env =>
        refine .running (hrunning env happend) ?_
        have hline := lineOf_eq true st.reader
        rw [htrue] at hline
        dsimp only at hline
        rw [Option.bind_some]
        by_cases hnewline : t.newline
        · rw [if_pos hnewline] at hline ⊢
          rw [hnewline]
          exact hk _ rest env true hline (.inl rfl)
        · rw [if_neg hnewline] at hline ⊢
          rw [Bool.eq_false_of_not_eq_true hnewline]
          refine @ih rest.length (nextInLine_length hnext)
            { st with env, reader := rest, beginning := false } (hin.behind htrue) henabled
            (fun _ _ _ ↦ rfl) (fun tokens behind env' beginning hbehind hor ↦ ?_) rfl
          refine hk (t :: tokens) behind env' beginning ?_ hor
          rw [hline, hbehind]
          rfl

/-- The tokens of a line in a skipped group are passed over. -/
theorem skip_ends (hin : InLines st.reader) (henabled : st.enabled = false) (hhash : NoDirective st)
    (hnone : lineOf true st.reader = none → r = none)
    (hk : ∀ tokens rest beginning, lineOf true st.reader = some (tokens, rest) →
      beginning = true ∨ rest = [] → Ends proc { st with reader := rest, beginning } r) :
    Ends proc st r := by
  induction hlength : st.reader.length using Nat.strong_induction_on generalizing st with
  | _ length ih =>
    subst hlength
    have hmode : next (!st.enabled) st.reader = nextInLine true st.reader := by
      rw [henabled, hin.next_eq, Bool.not_false]
    have hline := lineOf_eq true st.reader
    rcases hnext : nextInLine true st.reader with _ | ⟨_ | t, rest⟩
    · rw [hnext] at hline
      rw [hnone hline]
      refine .rejected ?_
      rw [State.step, hmode, hnext]
    · rw [hnext, nextInLine_end_length hnext] at hline
      exact Ends.congr (hk [] [] true hline (.inl rfl)) (step_end (hmode.trans hnext) true).symm
    · rw [hnext] at hline
      dsimp only at hline
      refine .running (step_skip (hmode.trans hnext) (hhash t rest hnext) henabled) ?_
      by_cases hnewline : t.newline
      · rw [if_pos hnewline] at hline
        rw [hnewline]
        exact hk _ rest true hline (.inl rfl)
      · rw [if_neg hnewline] at hline
        rw [Bool.eq_false_of_not_eq_true hnewline]
        refine @ih rest.length (nextInLine_length hnext)
          { st with reader := rest, beginning := false } (hin.behind hnext) henabled
          (fun _ _ _ ↦ rfl) (fun hbehind ↦ hnone ?_) (fun tokens behind beginning hbehind hor ↦ ?_) rfl
        · rw [hline, hbehind]
          rfl
        · refine hk (t :: tokens) behind beginning ?_ hor
          rw [hline, hbehind]
          rfl

end Text

/-! ## Files -/

section Files

variable {proc : Processor σ} {gs base : List Group} {frames : List Frame} {st : State σ}
  {s rest : Text} {l : Line} {k : σ → Option σ} {included : Nat → Text → σ → Option σ}

/-- What a file means that is included, if so many more may be. -/
def includedMeaning (proc : Processor σ) : Nat → Nat → Text → σ → Option σ
  | 0 => fun _ _ _ ↦ none
  | depth + 1 => fun k text s ↦
      (fileMeaning proc depth k text s).bind fun s ↦ (proc.flush s).map proc.leave

/-- The meaning of a file is a walk over its lines. -/
theorem fileMeaning_eq (depth k : Nat) (text : Text) (s : σ) :
    fileMeaning proc depth k text s = (lines text).bind fun ls ↦
      Nesting.walk (fileSemantics proc (includedMeaning proc depth)) groupsMax k ls ([], true, s) := by
  have h : fileMeaning proc depth = treeMeaning proc (includedMeaning proc depth) := by
    cases depth <;> rfl
  rw [h, treeMeaning, Option.bind_assoc]
  exact congrArg _ (funext fun ls ↦ (Nesting.walk_tree ls s).symm)

/-- The line of a directive has no text for the output. -/
theorem step_unflushed {opens : List Nesting.Open} {selected : Bool} {env : σ}
    (h : readDirective s = some (l, rest)) (hflush : proc.flushPrefix env = none) (base : Nat) :
    Nesting.step (fileSemantics proc included) groupsMax base l (opens, selected, env) = none := by
  have hbind {τ : Type} {f : σ → Option τ} : (proc.flushPrefix env).bind f = none := by
    rw [hflush]
    rfl
  have hmap {τ : Type} {f : σ → τ} : (proc.flushPrefix env).map f = none := by
    rw [hflush]
    rfl
  have hplain {content : Content} (hcontent : ∀ tokens, content ≠ .text tokens) :
      Nesting.step (fileSemantics proc included) groupsMax base (.plain content)
        (opens, selected, env) = none := by
    cases content with
    | text tokens => exact absurd rfl (hcontent tokens)
    | empty => exact congrArg (Option.map _) hflush
    | directive name line =>
      change ((proc.flushPrefix env).bind _).map _ = none
      rw [hbind]
      rfl
  have hgroup {l : Line} (hl : ∀ content, l ≠ .plain content) :
      Nesting.step (fileSemantics proc included) groupsMax base l (opens, selected, env) = none := by
    cases l with
    | plain content => exact absurd rfl (hl content)
    | opening c => exact hbind
    | another c | otherwise | closing =>
      cases opens
      · rfl
      · first
        | exact hbind
        | exact hmap
  have hnamed {name : Token} {s rest : Text} (h : readNamed name s = some (l, rest)) :
      (∃ content, l = .plain content ∧ ∀ tokens, content ≠ .text tokens) ∨
        ∀ content, l ≠ .plain content := by
    unfold readNamed at h
    split_ifs at h
    · cases h
      exact .inl ⟨_, rfl, nofun⟩
    · obtain ⟨_, -, heq⟩ := Option.map_eq_some_iff.mp h
      cases heq
      exact .inr nofun
    · obtain ⟨_, -, heq⟩ := Option.map_eq_some_iff.mp h
      cases heq
      exact .inr nofun
    · obtain ⟨_, -, heq⟩ := Option.map_eq_some_iff.mp h
      cases heq
      unfold directiveLine
      split_ifs
      · exact .inr nofun
      · exact .inr nofun
      · exact .inr nofun
      · exact .inr nofun
      · exact .inl ⟨_, rfl, nofun⟩
  unfold readDirective at h
  split at h
  · cases h
  · cases h
    exact hplain nofun
  · rcases hnamed h with ⟨content, rfl, hcontent⟩ | hl
    · exact hplain hcontent
    · exact hgroup hl

/-- The loop goes on with the lines of a file, if it can go on with those that are included. -/
theorem walk_ends
    (hincluded : ∀ (st st₀ : State σ) (gs : List Group) (rest text : Text) (k : σ → Option σ),
      Stands gs base frames rest st → st.enabled = true → InLines text →
        (∀ env, Ends proc { st with env, beginning := true } (k env)) →
          st₀.step proc = st.enter text →
            Ends proc st₀ ((included (base.length + gs.length) text st.env).bind k))
    (hdirective : ∀ env name line env' text,
      proc.directive env name line = some (env', some text) → InLines text)
    (hstands : Stands gs base frames st.reader st) (hin : InLines st.reader)
    (hbeginning : st.beginning = true ∨ st.reader = [])
    (hk : ∀ env beginning, Ends proc ⟨env, [], beginning, base, base.length, true, frames⟩ (k env)) :
    Ends proc st (((lines st.reader).bind fun ls ↦
      Nesting.walk (fileSemantics proc included) groupsMax base.length ls (st.place gs)).bind k) := by
  induction hlength : st.reader.length using Nat.strong_induction_on generalizing st gs with
  | _ length ih =>
    subst hlength
    rw [lines_eq]
    have hstrict (hnone : nextInLine true st.reader = none) :
        nextInLine (!st.enabled) st.reader = none := by
      rcases nextInLine_either (!st.enabled) st.reader with heq | ⟨hnone, -⟩
      · rw [heq, hnone]
      · exact hnone
    rcases hnext : nextInLine true st.reader with _ | ⟨_ | t, behind⟩
    · rw [readLine, hnext]
      refine .rejected ?_
      rw [State.step, hin.next_eq, hstrict hnext]
    · rw [readLine, hnext]
      have hend := hin.next_eq.trans (nextInLine_end hnext (!st.enabled))
      dsimp only
      rw [Option.bind_some]
      rcases gs with _ | ⟨group, gs⟩
      · obtain ⟨env, reader, beginning, groups, floor, enabled, frames'⟩ := st
        obtain ⟨hgroups, henabled, hfloor, hframes, -⟩ := hstands
        dsimp only at hgroups hfloor hframes henabled
        obtain rfl : groups = base := hgroups
        obtain rfl : enabled = true := henabled
        subst hfloor hframes
        exact (hk env true).congr (step_end hend true).symm
      · refine .rejected ?_
        rw [State.step, hend]
        dsimp only
        rw [if_pos ((floor_eq_iff hstands).not.mpr (List.cons_ne_nil _ _))]
    have hwalk {l : Line} {rest : Text} (hread : readLine st.reader = some (some (l, rest))) :
        ((lines rest).map (l :: ·)).bind (fun ls ↦ Nesting.walk (fileSemantics proc included) groupsMax
          base.length ls (st.place gs)) =
        (Nesting.step (fileSemantics proc included) groupsMax base.length l (st.place gs)).bind
          fun place ↦ (lines rest).bind fun ls ↦
            Nesting.walk (fileSemantics proc included) groupsMax base.length ls place := by
      rw [Option.bind_map, Option.bind_comm]
      rfl
    have hnonempty : st.reader ≠ [] := by
      intro hnil
      rw [hnil] at hnext
      cases hnext
    have hbeginning := hbeginning.resolve_right hnonempty
    by_cases hhash : t.is "#"
    · have hmode : next (!st.enabled) st.reader = some (some t, behind) := by
        rw [hin.next_eq]
        rcases nextInLine_either (!st.enabled) st.reader with heq | ⟨-, -, hliteral⟩
        · rw [heq, hnext]
        · have hno : t.is "#" = false :=
            not_is_of_literal hnext (hliteral t behind hnext) (by decide)
          rw [hhash] at hno
          cases hno
      have hread : readLine st.reader = (readDirective behind).map some := by
        rw [readLine, hnext]
        exact if_pos hhash
      have hcond : (st.beginning && t.is "#") = true := by rw [hbeginning, hhash]; rfl
      cases hflush : proc.flushPrefix st.env with
      | none =>
        have hrejected : st.step proc = .rejected := by
          rw [State.step, hmode]
          dsimp only
          rw [if_pos hcond, hflush]
        rcases hdirective : readDirective behind with _ | ⟨l, rest⟩
        · rw [hread, hdirective]
          exact .rejected hrejected
        · rw [hdirective] at hread
          rw [hread]
          change Ends proc st ((((lines rest).map (l :: ·)).bind _).bind k)
          rw [hwalk hread, State.place, step_unflushed hdirective hflush]
          exact .rejected hrejected
      | some env =>
        have hsim := @directive_simulated _ proc included gs base frames behind
          { st with env, reader := behind } st.env
          ⟨hstands.groups, hstands.chained, hstands.floor, hstands.frames, rfl⟩ (hin.behind hnext) hflush
        have hstep : st.step proc = match State.directive proc { st with env, reader := behind } with
            | none => .rejected
            | some (st, none) => .running { st with beginning := true }
            | some (st, some text) => st.enter text := by
          rw [State.step, hmode]
          dsimp only
          rw [if_pos hcond, hflush]
          all_goals rfl
        rcases hline : readDirective behind with _ | ⟨l, rest⟩
        · rw [hline] at hsim
          rw [hsim] at hstep
          rw [hread, hline]
          exact .rejected hstep
        · rw [hline] at hread hsim
          obtain ⟨hrest, hsim⟩ := hsim
          have hlt := readLine_length hread
          rw [hread]
          change Ends proc st ((((lines rest).map (l :: ·)).bind _).bind k)
          rw [hwalk hread]
          rcases hresult : State.directive proc { st with env, reader := behind } with
            _ | ⟨st', _ | text⟩
          · rw [hresult] at hsim hstep
            rw [State.place, show Nesting.step _ _ _ l (_, st.enabled, st.env) = none from hsim]
            exact .rejected hstep
          · rw [hresult] at hsim hstep
            obtain ⟨gs', hst', hplace⟩ := hsim
            rw [State.place, show Nesting.step _ _ _ l (_, st.enabled, st.env) = _ from hplace,
              Option.bind_some]
            refine .running hstep ?_
            obtain rfl := hst'.reader
            have hst'' : Stands gs' base frames st'.reader { st' with beginning := true } :=
              ⟨hst'.groups, hst'.chained, hst'.floor, hst'.frames, rfl⟩
            exact ih _ hlt hst'' hrest (.inl rfl) rfl
          · rw [hresult] at hsim hstep
            obtain ⟨gs', hst', henabled, ⟨_, _, _, htext⟩, hplace⟩ := hsim
            rw [State.place, show Nesting.step _ _ _ l (_, st.enabled, st.env) = _ from hplace,
              Option.bind_map, Option.bind_assoc]
            refine hincluded st' st gs' rest text _ hst' henabled (hdirective _ _ _ _ _ htext)
              (fun env ↦ ?_) hstep
            obtain ⟨env', reader', beginning', groups', floor', enabled', frames'⟩ := st'
            obtain rfl : reader' = rest := hst'.reader
            obtain rfl : enabled' = true := henabled
            have hst'' : Stands gs' base frames reader'
                ⟨env, reader', true, groups', floor', true, frames'⟩ :=
              ⟨hst'.groups, hst'.chained, hst'.floor, hst'.frames, rfl⟩
            exact ih _ hlt hst'' hrest (.inl rfl) rfl
    · have hdirective : NoDirective st := by
        intro t' behind' hnext'
        rw [hnext] at hnext'
        cases hnext'
        rw [Bool.eq_false_of_not_eq_true hhash, Bool.and_false]
      have hread : readLine st.reader = (lineOf true st.reader).map fun (_, behind) ↦
          some (.plain (.text ((lineOf false st.reader).map Prod.fst)), behind) := by
        rw [readLine, hnext]
        exact if_neg hhash
      rcases hline : lineOf true st.reader with _ | ⟨tokens, rest⟩
      · -- the line cannot be read
        rw [hread, hline]
        cases henabled : st.enabled with
        | true =>
          have hnone : lineOf false st.reader = none := by
            refine Option.eq_none_iff_forall_ne_some.mpr fun line hline' ↦ ?_
            rw [lineOf_true hline'] at hline
            cases hline
          have hends : Ends proc st ((((lineOf false st.reader).map Prod.fst).bind fun tokens ↦
              tokens.foldlM proc.append st.env).bind some) :=
            text_ends hin henabled hdirective fun _ _ _ _ h ↦ by
              rw [hline] at h
              cases h
          rwa [hnone] at hends
        | false =>
          refine skip_ends hin henabled hdirective (fun _ ↦ rfl) fun _ _ _ h ↦ ?_
          rw [hline] at h
          cases h
      · rw [hline, Option.map_some] at hread
        have hlt := readLine_length hread
        have hrest := lineOf_inLines hin hline
        rw [hread]
        change Ends proc st ((((lines rest).map (_ :: ·)).bind _).bind k)
        rw [hwalk hread]
        -- the loop goes on behind the line
        have hgo (env : σ) (beginning : Bool) (hor : beginning = true ∨ rest = []) :
            Ends proc { st with env, reader := rest, beginning } (((lines rest).bind fun ls ↦
              Nesting.walk (fileSemantics proc included) groupsMax base.length ls
                (gs.map Group.toOpen, st.enabled, env)).bind k) := by
          have hst' : Stands gs base frames rest { st with env, reader := rest, beginning } :=
            ⟨hstands.groups, hstands.chained, hstands.floor, hstands.frames, rfl⟩
          exact ih _ hlt hst' hrest hor rfl
        cases henabled : st.enabled with
        | true =>
          have hends := text_ends hin henabled hdirective (fun tokens' rest' env beginning h hor ↦ by
            rw [hline] at h
            cases h
            exact hgo env beginning hor)
          have hstep : Nesting.step (fileSemantics proc included) groupsMax base.length
              (.plain (.text ((lineOf false st.reader).map Prod.fst))) (st.place gs) =
              (((lineOf false st.reader).map Prod.fst).bind fun tokens ↦
                tokens.foldlM proc.append st.env).map (gs.map Group.toOpen, st.enabled, ·) := by
            rw [State.place, henabled]
            rfl
          rw [hstep, Option.bind_map, Option.bind_assoc]
          exact hends
        | false =>
          have hstep : Nesting.step (fileSemantics proc included) groupsMax base.length
              (.plain (.text ((lineOf false st.reader).map Prod.fst))) (st.place gs) =
              some (gs.map Group.toOpen, st.enabled, st.env) := by
            rw [State.place, henabled]
            rfl
          rw [hstep, Option.bind_some]
          refine skip_ends hin henabled hdirective (fun h ↦ ?_) fun tokens' rest' beginning h hor ↦ ?_
          · rw [hline] at h
            cases h
          · rw [hline] at h
            cases h
            exact hgo st.env beginning hor

/-- **The loop over a file does what the file means.** -/
theorem file_ends (hdirective : ∀ env name line env' text,
      proc.directive env name line = some (env', some text) → InLines text) (depth : Nat) {env : σ}
    {reader : Text} (hdepth : frames.length + depth = includeDepth) (hin : InLines reader)
    (hk : ∀ env beginning, Ends proc ⟨env, [], beginning, base, base.length, true, frames⟩ (k env)) :
    Ends proc ⟨env, reader, true, base, base.length, true, frames⟩
      ((fileMeaning proc depth base.length reader env).bind k) := by
  have hstands (base : List Group) (frames : List Frame) (env : σ) (reader : Text) :
      Stands [] base frames reader (⟨env, reader, true, base, base.length, true, frames⟩ : State σ) :=
    ⟨rfl, rfl, rfl, rfl, rfl⟩
  have hbeginning (base : List Group) (frames : List Frame) (env : σ) (reader : Text) :
      (⟨env, reader, true, base, base.length, true, frames⟩ : State σ).beginning = true ∨
        reader = [] :=
    .inl rfl
  induction depth generalizing base frames k env reader with
  | zero =>
    rw [fileMeaning_eq]
    refine walk_ends (fun st st₀ gs rest text k hst _ _ _ hstep ↦ ?_) hdirective
      (hstands base frames env reader) hin (hbeginning base frames env reader) hk
    refine .rejected ?_
    rw [hstep, State.enter, hst.frames]
    exact if_pos hdepth
  | succ depth ih =>
    rw [fileMeaning_eq]
    refine walk_ends (fun st st₀ gs rest text k hst henabled htext hgo hstep ↦ ?_) hdirective
      (hstands base frames env reader) hin (hbeginning base frames env reader) hk
    obtain ⟨env', reader', beginning', groups', floor', enabled', frames'⟩ := st
    obtain rfl : enabled' = true := henabled
    obtain ⟨hgroups, hchained, hfloor, hframes, hreader⟩ := hst
    dsimp only at hgroups hfloor hframes hreader hgo hstep ⊢
    have hroom : frames'.length ≠ includeDepth := by
      rw [hframes]
      omega
    have hdepth' : frames'.length + 1 + depth = includeDepth := by
      rw [hframes]
      omega
    have henter : st₀.step proc = .running _ := hstep.trans (if_neg hroom)
    refine .running henter ?_
    have hlength : base.length + gs.length = groups'.length := by
      rw [hgroups, List.length_append, Nat.add_comm]
    rw [includedMeaning, hlength, Option.bind_assoc]
    refine ih hdepth' htext fun env beginning ↦ ?_
    -- behind the file the one that includes it goes on
    have hend : next (!true) ([] : Text) = some (none, []) := rfl
    cases hflush : proc.flush env with
    | none =>
      refine .rejected ?_
      rw [State.step, hend]
      dsimp only
      rw [if_neg (not_not.mpr rfl), hflush]
    | some env'' =>
      refine .running ?_ (hgo (proc.leave env''))
      rw [State.step, hend]
      dsimp only
      rw [if_neg (not_not.mpr rfl), hflush]

end Files

section Slip

/-- What follows the blanks that a text begins with. -/
def behindBlanks : Text → Text
  | [] => []
  | c :: s => if isBlank c then behindBlanks s else c :: s

theorem behindBlanks_length (s : Text) : (behindBlanks s).length ≤ s.length := by
  fun_induction behindBlanks s <;> grind

/-- What follows a line break, in any of its spellings. -/
def behindBreak : Text → Option Text
  | '\r' :: '\n' :: s => some s
  | '\r' :: s | '\n' :: s => some s
  | _ => none

theorem behindBreak_length {s rest : Text} (h : behindBreak s = some rest) :
    rest.length < s.length := by
  unfold behindBreak at h
  split at h <;> cases h <;> simp only [List.length_cons] <;> omega

/-- `cc_preprocess_phase2_text` -/
def phase2 : Text → Text
  | [] => []
  | c :: s =>
      match _h : behindBreak (c :: s) with
      | some rest => '\n' :: phase2 rest
      | none =>
          match _h' : behindBreak (behindBlanks s) with
          | some rest => if c = '\\' then phase2 rest else c :: phase2 s
          | none => c :: phase2 s
termination_by s => s.length
decreasing_by
  · exact behindBreak_length _h
  · exact ((behindBreak_length _h').trans_le (behindBlanks_length s)).trans (Nat.lt_succ_self _)
  all_goals exact Nat.lt_succ_self _

/-- A processor without macros that keeps the tokens, and takes every condition for false. -/
def keeping : Processor (List Token) where
  flushPrefix := some
  flush := some
  append s t := some (s ++ [t])
  condition s _ := some (s, false)
  isDefined _ _ := false
  directive _ _ _ := none
  leave := id

/-- A skipped group without a line. -/
theorem inLines_skipped : InLines "#if 0\n#endif\n".toList := by
  have hreads : ∀ s ∈ "#if 0\n#endif\n".toList.tails,
      ((next true s).all fun (t, rest) ↦ t.isNone || "#if 0\n#endif\n".toList.tails.contains rest) ∧
        (skipBlanks .blank s).all fun start ↦ (literalStart start).isNone := by
    decide
  intro rest hrest
  have hmem : rest ∈ "#if 0\n#endif\n".toList.tails := by
    induction hrest with
    | refl => exact (List.mem_tails _ _).mpr List.suffix_rfl
    | tail _ hstep ih =>
      obtain ⟨t, hnext⟩ := hstep
      have h := (hreads _ ih).1
      rw [hnext] at h
      exact List.contains_iff_mem.mp h
  rintro ⟨c, start, opening, delimiter, behind, hstart, hliteral, -⟩
  have h := (hreads _ hmem).2
  rw [hstart, Option.all_some, hliteral] at h
  cases h

/-- A skipped group with a quote, and with a backslash at the end of its line. -/
def slipped : Text := "#if 0\n'\\\n#endif\n".toList

theorem phase2_slipped : phase2 "#if 0\n'\\\\\n\n#endif\n".toList = slipped := by
  with_unfolding_all decide

/-- The first line is read in the same way by the loop and by the lines. -/
theorem next_slipped (skipping : Bool) : (next skipping slipped = nextInLine skipping slipped ∧
      nextInLine skipping slipped =
        some (some ⟨['#'], .punctuator '#', ∅, false⟩, "if 0\n'\\\n#endif\n".toList)) ∧
    (next skipping "if 0\n'\\\n#endif\n".toList =
        nextInLine skipping "if 0\n'\\\n#endif\n".toList ∧
      nextInLine skipping "if 0\n'\\\n#endif\n".toList =
        some (some ⟨['i', 'f'], .ident, ∅, false⟩, " 0\n'\\\n#endif\n".toList)) := by
  cases skipping <;> decide

theorem keeping_slipped : Ends keeping (.initial [] slipped) none := by
  obtain ⟨⟨hhash, hhash'⟩, hif, hif'⟩ := next_slipped false
  rw [hhash'] at hhash
  rw [hif'] at hif
  have hline : skipLine " 0\n'\\\n#endif\n".toList = some "'\\\n#endif\n".toList := by
    with_unfolding_all decide
  have hgroup : (State.initial [] slipped).step keeping =
      .running ⟨[], "'\\\n#endif\n".toList, true, [⟨true, false, false, false⟩], 0, false, []⟩ := by
    have hdirective : State.directive keeping
        ⟨[], "if 0\n'\\\n#endif\n".toList, true, [], 0, true, []⟩ =
        some (⟨[], "'\\\n#endif\n".toList, true, [⟨true, false, false, false⟩], 0, false, []⟩,
          none) := by
      unfold State.directive
      rw [show next (!true) "if 0\n'\\\n#endif\n".toList = _ from hif]
      dsimp only
      unfold State.namedDirective
      rw [if_neg (by decide)]
      unfold State.conditionDirective
      rw [if_pos (by decide), if_neg (by decide), if_pos (by decide)]
      unfold State.conditionLine
      rw [hline]
      rfl
    unfold State.step
    rw [show next (!(State.initial ([] : List Token) slipped).enabled)
      (State.initial ([] : List Token) slipped).reader = _ from hhash]
    dsimp only
    rw [if_pos (by decide)]
    rw [show keeping.flushPrefix (State.initial ([] : List Token) slipped).env = some [] from rfl]
    dsimp only [State.initial]
    rw [hdirective]
  have hliteral : next true "'\\\n#endif\n".toList =
      some (some ⟨"'\\\n#endif".toList, .literal, ∅, false⟩, ['\n']) := by
    decide +kernel
  have hskip : State.step keeping
      ⟨[], "'\\\n#endif\n".toList, true, [⟨true, false, false, false⟩], 0, false, []⟩ =
      .running ⟨[], ['\n'], false, [⟨true, false, false, false⟩], 0, false, []⟩ := by
    unfold State.step
    rw [show next (!false) "'\\\n#endif\n".toList = _ from hliteral]
    rfl
  exact .running hgroup (.running hskip (.running rfl (.rejected rfl)))

/-- What the text means. -/
theorem meaning_slipped : meaning keeping slipped [] = some [] := by
  obtain ⟨⟨-, hhash⟩, -, hif⟩ := next_slipped true
  have hcondition : lineOf true " 0\n'\\\n#endif\n".toList =
      some ([⟨['0'], .number, ∅, true⟩, ⟨['\n'], .punctuator '\n', ∅, false⟩],
        "'\\\n#endif\n".toList) := by
    with_unfolding_all decide
  have htext : lineOf true "'\\\n#endif\n".toList =
      some ([⟨['\'', '\\'], .literal, ∅, false⟩, ⟨['\n'], .punctuator '\n', ∅, false⟩],
        "#endif\n".toList) := by
    decide +kernel
  have hopening : readLine slipped =
      some (some (.opening (.expression " 0\n".toList), "'\\\n#endif\n".toList)) := by
    rw [readLine, hhash]
    dsimp only
    rw [if_pos (by decide), readDirective, hif]
    dsimp only
    rw [readNamed, if_neg (by decide), if_neg (by decide), if_neg (by decide), hcondition]
    rfl
  have hplain : readLine "'\\\n#endif\n".toList =
      some (some (.plain (.text ((lineOf false "'\\\n#endif\n".toList).map Prod.fst)),
        "#endif\n".toList)) := by
    rw [readLine, show nextInLine true "'\\\n#endif\n".toList =
      some (some ⟨['\'', '\\'], .literal, ∅, false⟩, "\n#endif\n".toList) by decide +kernel]
    dsimp only
    rw [if_neg (by decide), htext]
    rfl
  have hclosing : readLine "#endif\n".toList = some (some (.closing, [])) := by
    rw [readLine, show nextInLine true "#endif\n".toList =
      some (some ⟨['#'], .punctuator '#', ∅, false⟩, "endif\n".toList) by decide]
    dsimp only
    rw [if_pos (by decide), readDirective, show nextInLine true "endif\n".toList =
      some (some ⟨"endif".toList, .ident, ∅, false⟩, ['\n']) by decide]
    dsimp only
    rw [readNamed, if_neg (by decide), if_neg (by decide), if_pos (by decide)]
    rfl
  have hlines : lines slipped = some [.opening (.expression " 0\n".toList),
      .plain (.text ((lineOf false "'\\\n#endif\n".toList).map Prod.fst)), .closing] := by
    rw [lines_eq, hopening]
    dsimp only
    rw [lines_eq, hplain]
    dsimp only
    rw [lines_eq, hclosing]
    dsimp only
    rw [lines_eq]
    rfl
  rw [meaning, fileMeaning_eq, hlines]
  rfl

end Slip

end CopySpace.Preprocess
