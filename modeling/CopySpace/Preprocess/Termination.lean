import CopySpace.Lib.Descent
import CopySpace.Lib.Settles
import CopySpace.Preprocess.Rescan

/-!
# No list of tokens is expanded for ever

What one turn of the loop leaves has fewer frozen calls, or drops in the ranks of its hide sets.
The arguments of macros and queries are expanded one level deeper, and there are 64 levels.
-/

namespace CopySpace.Preprocess

variable {env : Tables} {expand : List Token → Except Stop (List Token)} {depth : Nat}
  {before rest nodes : List Node} {node : Node} {step : Step}

/-! ## What one turn can do -/

/-- The effects of one turn.  A query leaves its number in its node; a macro leaves tokens that
hide it, together with what was hidden both in its name and where its call ends. -/
inductive Turn (node : Node) (rest : List Node) : Step → Prop
  | skip : Turn node rest .skip
  | blocked (nodes : List Node) : Turn node rest (.blocked nodes)
  | query (token : Token) (operand after : List Node) (hname : node.token.kind = .ident)
      (hkind : token.kind = .number) (hrest : rest = operand ++ after) :
      Turn node rest (.replace ({ node with token } :: after))
  | object (index : Fin macrosMax) (output : List Token)
      (hname : node.frozen.isSome ∨ node.token.kind = .ident) (hindex : index ∉ node.token.hidden) :
      Turn node rest (.replace (splice node.token.space
        (replacement (insert index node.token.hidden) node.token.space output) rest))
  | function (index : Fin macrosMax) (output : List Token) (inside : List Node) (closing : Node)
      (after : List Node) (hname : node.frozen.isSome ∨ node.token.kind = .ident)
      (hindex : index ∉ node.token.hidden) (hrest : rest = inside ++ closing :: after) :
      Turn node rest (.replace (splice node.token.space
        (replacement (insert index (node.token.hidden ∩ closing.token.hidden)) node.token.space
          output) after))

theorem callLoop_split {m : Macro} {views : List View} {current : List Token} {any : Bool}
    {d : Nat} {result : List View} {closing : Node} {after : List Node}
    (h : callLoop m views current any d rest = some (result, closing, after)) :
    ∃ inside, rest = inside ++ closing :: after := by
  induction rest generalizing views current any d with
  | nil => cases h
  | cons node rest ih =>
    have further {views current any d}
        (h : callLoop m views current any d rest = some (result, closing, after)) :
        ∃ inside, node :: rest = inside ++ closing :: after := by
      obtain ⟨inside, rfl⟩ := ih h
      exact ⟨node :: inside, rfl⟩
    have here {vs : List View} (h : some (vs, node, rest) = some (result, closing, after)) :
        ∃ inside, node :: rest = inside ++ closing :: after := by
      cases h
      exact ⟨[], rfl⟩
    rw [callLoop] at h
    dsimp only at h
    repeat' split at h
    all_goals first
      | exact further h
      | exact here h
      | cases h

theorem callViews_split {m : Macro} {views : List View} {closing : Node} {after : List Node}
    (h : callViews m rest = some (views, closing, after)) :
    ∃ inside, rest = inside ++ closing :: after := by
  rw [callViews] at h
  split_ifs at h
  exact callLoop_split h

theorem queryTokens_split {nesting : Nat} {tokens : List Token} {after : List Node}
    (h : queryTokens nesting rest = some (tokens, after)) : ∃ inside, rest = inside ++ after := by
  induction rest generalizing nesting tokens with
  | nil => cases h
  | cons node rest ih =>
    rw [queryTokens] at h
    split_ifs at h
    · cases h
      exact ⟨[node], rfl⟩
    all_goals
      obtain ⟨⟨ts, a⟩, hrest, heq⟩ := Option.map_eq_some_iff.mp h
      cases heq
      obtain ⟨inside, rfl⟩ := ih hrest
      exact ⟨node :: inside, rfl⟩

/-- The result of a step that is followed by another one. -/
theorem bind_eq_ok {ε α β : Type} {x : Except ε α} {f : α → Except ε β} {b : β}
    (h : x >>= f = .ok b) : ∃ a, x = .ok a ∧ f a = .ok b := by
  cases x with
  | error e => cases h
  | ok a => exact ⟨a, rfl, h⟩

theorem orFailed_eq_ok {α : Type} {x : Option α} {a : α} (h : orFailed x = .ok a) : x = some a := by
  cases x with
  | none => cases h
  | some b =>
    cases h
    rfl

theorem functionReplace_split {skipping : Bool} {m : Macro} {output : List Token} {closing : Node}
    {after : List Node}
    (h : functionReplace skipping expand depth m rest = .ok (output, closing, after)) :
    ∃ inside, rest = inside ++ closing :: after := by
  obtain ⟨⟨views, c, a⟩, hviews, h⟩ := bind_eq_ok h
  dsimp only at h
  split_ifs at h
  obtain ⟨arguments, -, h⟩ := bind_eq_ok h
  obtain ⟨out, -, h⟩ := bind_eq_ok h
  cases h
  exact callViews_split (orFailed_eq_ok hviews)

theorem queryExpand_split {kind : Nat} {token : Token} {after : List Node}
    (h : queryExpand env expand depth kind rest = .ok (token, after)) :
    token.kind = .number ∧ ∃ operand, rest = operand ++ after := by
  unfold queryExpand at h
  split_ifs at h
  · cases h
    exact ⟨rfl, [], rfl⟩
  · cases rest with
    | nil => cases h
    | cons opening rest =>
      dsimp only at h
      split_ifs at h
      obtain ⟨⟨tokens, a⟩, htokens, h⟩ := bind_eq_ok h
      obtain ⟨tokens', -, h⟩ := bind_eq_ok h
      obtain ⟨found, -, h⟩ := bind_eq_ok h
      cases h
      obtain ⟨inside, rfl⟩ := queryTokens_split (orFailed_eq_ok htokens)
      exact ⟨rfl, opening :: inside, rfl⟩

theorem queryKind_ne_zero {t : Token} (h : env.queryKind t ≠ 0) : t.kind = .ident := by
  by_contra hkind
  refine h ?_
  simp [Tables.queryKind, querySymbol, hkind]

theorem advance_turn (h : advance env expand depth before node rest = .ok step) :
    Turn node rest step := by
  unfold advance at h
  dsimp only at h
  generalize hfound : (node.frozen <|>
    if node.token.kind = .ident then env.find node.token else none) = found at h
  have hname (hsome : found.isSome) : node.frozen.isSome ∨ node.token.kind = .ident := by
    rw [← hfound] at hsome
    by_cases hident : node.token.kind = .ident
    · exact .inr hident
    · exact .inl (by simpa [hident] using hsome)
  split_ifs at h with hquery
  · -- a query
    obtain ⟨⟨token, after⟩, hexpand, h⟩ := bind_eq_ok h
    obtain ⟨hkind, operand, hrest⟩ := queryExpand_split hexpand
    cases h
    exact .query token operand after (queryKind_ne_zero hquery) hkind hrest
  · split at h
    · cases h
      exact .skip
    next _ index m =>
    split_ifs at h with hhidden hfunction
    · cases h
      exact .skip
    · -- a function-like macro
      have hindex : index ∉ node.token.hidden := fun hin ↦ hhidden (.inr hin)
      split at h
      · cases h
        exact .skip
      next opening inside hdrop =>
      split_ifs at h
      · cases h
        exact .skip
      · obtain ⟨node', -, h⟩ := bind_eq_ok h
        cases h
        exact .blocked _
      · obtain ⟨⟨output, closing, after⟩, hreplace, h⟩ := bind_eq_ok h
        cases h
        obtain ⟨called, rfl⟩ := functionReplace_split hreplace
        refine .function index output
          (rest.takeWhile (·.token.newline) ++ opening :: called) closing after (hname rfl) hindex ?_
        rw [List.append_assoc, List.cons_append, ← hdrop, List.takeWhile_append_dropWhile]
    · -- an object-like macro
      obtain ⟨output, -, h⟩ := bind_eq_ok h
      cases h
      exact .object index output (hname rfl) fun hin ↦ hhidden (.inr hin)

/-! ## One turn stops if the expansions one level deeper do -/

section Settles

variable {expand : Nat → List Token → Except Stop (List Token)}

theorem failed_settles {α : Type} : Settles .fuel fun _ ↦ (.error .failed : Except Stop α) :=
  Settles.const (by simp)

theorem orFailed_settles {α : Type} (x : Option α) : Settles .fuel fun _ ↦ orFailed x := by
  cases x with
  | none => exact failed_settles
  | some a => exact Settles.pure a

theorem expandArgument_settles (hexpand : ∀ tokens, Settles .fuel (expand · tokens)) (m : Macro)
    (i : Nat) (raw : List Token) : Settles .fuel fun n ↦ expandArgument (expand n) m i raw :=
  Settles.ite (fun _ ↦ hexpand raw) fun _ ↦ Settles.pure raw

theorem fillArguments_settles (hexpand : ∀ tokens, Settles .fuel (expand · tokens)) (m : Macro)
    (i : Nat) (views : List View) : Settles .fuel fun n ↦ fillArguments (expand n) m i views := by
  induction views generalizing i with
  | nil => exact Settles.pure []
  | cons view views ih =>
    refine (expandArgument_settles hexpand m i _).bind fun expanded _ ↦ ?_
    exact (ih (i + 1)).bind fun arguments _ ↦ Settles.pure _

theorem functionReplace_settles (hexpand : depth ≠ 64 → ∀ tokens, Settles .fuel (expand · tokens))
    (skipping : Bool) (m : Macro) :
    Settles .fuel fun n ↦ functionReplace skipping (expand n) depth m rest := by
  refine (orFailed_settles (callViews m rest)).bind fun ⟨views, closing, after⟩ _ ↦ ?_
  refine Settles.ite (fun _ ↦ failed_settles) fun hdepth ↦ ?_
  refine (fillArguments_settles (hexpand hdepth) m 0 views).bind fun arguments _ ↦ ?_
  exact (orFailed_settles (substitute skipping m arguments)).bind fun output _ ↦ Settles.pure _

theorem queryOperand_settles (hexpand : ∀ tokens, Settles .fuel (expand · tokens))
    (tokens : List Token) : Settles .fuel fun n ↦ queryOperand (expand n) tokens := by
  cases tokens with
  | nil => exact failed_settles
  | cons t tokens => exact Settles.ite (fun _ ↦ Settles.pure _) fun _ ↦ hexpand _

theorem queryExpand_settles (hexpand : depth < 64 → ∀ tokens, Settles .fuel (expand · tokens))
    (kind : Nat) : Settles .fuel fun n ↦ queryExpand env (expand n) depth kind rest := by
  refine Settles.ite (fun _ ↦ failed_settles) fun hdepth ↦ ?_
  refine Settles.ite (fun _ ↦ Settles.pure _) fun _ ↦ ?_
  cases rest with
  | nil => exact failed_settles
  | cons opening rest =>
    refine Settles.ite (fun _ ↦ ?_) fun _ ↦ failed_settles
    refine (orFailed_settles (queryTokens 0 rest)).bind fun ⟨tokens, after⟩ _ ↦ ?_
    refine (queryOperand_settles (hexpand (not_le.mp hdepth)) tokens).bind fun tokens _ ↦ ?_
    exact (orFailed_settles (env.answer kind tokens)).bind fun found _ ↦ Settles.pure _

theorem advance_settles (hle : depth ≤ 64)
    (hexpand : depth < 64 → ∀ tokens, Settles .fuel (expand · tokens)) :
    Settles .fuel fun n ↦ advance env (expand n) depth before node rest := by
  refine Settles.ite (fun _ ↦ ?_) fun _ ↦ ?_
  · refine Settles.ite (fun _ ↦ failed_settles) fun _ ↦ ?_
    exact (queryExpand_settles hexpand _).bind fun ⟨token, after⟩ _ ↦ Settles.pure _
  dsimp only
  split
  · exact Settles.pure _
  refine Settles.ite (fun _ ↦ Settles.pure _) fun _ ↦ ?_
  refine Settles.ite (fun _ ↦ ?_) fun _ ↦ ?_
  · split
    · exact Settles.pure _
    refine Settles.ite (fun _ ↦ Settles.pure _) fun _ ↦ ?_
    refine Settles.ite (fun _ ↦ ?_) fun _ ↦ ?_
    · refine Settles.bind (Settles.ite (fun _ ↦ Settles.pure _) fun _ ↦ ?_) fun _ _ ↦ Settles.pure _
      exact Settles.ite (fun _ ↦ failed_settles) fun _ ↦ Settles.pure _
    · exact (functionReplace_settles (fun h ↦ hexpand (hle.lt_of_ne h)) _ _).bind
        fun _ _ ↦ Settles.pure _
  · exact (orFailed_settles _).bind fun _ _ ↦ Settles.pure _

end Settles

/-! ## What one turn leaves is less -/

section Weights

/-- The hide sets of the nodes. -/
def hides (nodes : List Node) : List (Finset (Fin macrosMax)) := nodes.map (·.token.hidden)

def frozenCount (nodes : List Node) : Nat := nodes.countP (·.frozen.isSome)

/-- How many calls are frozen, and at how many places at most so many macros are hidden in all
nodes up to there. -/
def weight (nodes : List Node) : Nat → Nat
  | 0 => frozenCount nodes
  | c + 1 => low Finset.univ (hides nodes) c

/-- The weights of one list are a drop from those of another. -/
def Lighter (nodes nodes' : List Node) : Prop := Drops (macrosMax + 1) (weight nodes) (weight nodes')

theorem lighter_wellFounded : WellFounded Lighter := InvImage.wf weight (drops_wellFounded _)

theorem Lighter.of_frozen (h : frozenCount nodes < frozenCount rest) :
    Lighter nodes rest :=
  ⟨0, Nat.zero_le _, fun _ hi ↦ absurd hi (Nat.not_lt_zero _), h⟩

theorem Lighter.of_low {s : Finset (Fin macrosMax)}
    (hfrozen : frozenCount nodes ≤ frozenCount rest)
    (hle : ∀ c ≤ s.card,
      low Finset.univ (hides nodes) c ≤ low Finset.univ (hides rest) c)
    (hlt : low Finset.univ (hides nodes) s.card < low Finset.univ (hides rest) s.card) :
    Lighter nodes rest := by
  refine ⟨s.card + 1, Nat.succ_le_succ ((Finset.card_le_univ s).trans_eq (Fintype.card_fin _)),
    fun i hi ↦ ?_, hlt⟩
  cases i with
  | zero => exact hfrozen
  | succ c => exact hle c (by omega)

@[simp] theorem hides_append (l l' : List Node) : hides (l ++ l') = hides l ++ hides l' :=
  List.map_append

@[simp] theorem hides_cons (node : Node) (l : List Node) :
    hides (node :: l) = node.token.hidden :: hides l := rfl

theorem frozenCount_append (l l' : List Node) :
    frozenCount (l ++ l') = frozenCount l + frozenCount l' := List.countP_append

theorem frozenCount_cons (h : node.frozen.isSome) (l : List Node) :
    frozenCount (node :: l) = frozenCount l + 1 := List.countP_cons_of_pos h

theorem splice_spec (space : Bool) (new rest : List Node) :
    hides (splice space new rest) = hides new ++ hides rest ∧
      frozenCount (splice space new rest) =
        frozenCount new + frozenCount rest := by
  cases new with
  | nil =>
    cases rest with
    | nil => exact ⟨rfl, rfl⟩
    | cons node rest => simp [splice, hides, frozenCount, List.countP_cons]
  | cons n new => exact ⟨List.map_append, frozenCount_append _ _⟩

theorem replacement_spec (hidden : Finset (Fin macrosMax)) (space : Bool) (output : List Token) :
    (∀ h ∈ hides (replacement hidden space output), hidden ⊆ h) ∧
      frozenCount (replacement hidden space output) = 0 := by
  cases output with
  | nil => simp [replacement, hides, frozenCount]
  | cons t tokens =>
    refine ⟨?_, ?_⟩
    · intro h hm
      simp only [replacement, hides, List.map_cons, List.map_map, List.mem_cons, List.mem_map] at hm
      rcases hm with rfl | ⟨t', -, rfl⟩
      · exact Finset.subset_union_right
      · exact Finset.subset_union_right
    · simp [frozenCount, replacement, List.countP_map, Function.comp_def]

/-- What follows a node and some more is less. -/
theorem drop_lighter (operand after : List Node) : Lighter after (node :: operand ++ after) := by
  have hlow := low_drop (s := Finset.univ) (hides after)
    (List.cons_ne_nil node.token.hidden (hides operand))
  rw [← hides_cons, ← hides_append] at hlow
  refine .of_low ?_ hlow.1 hlow.2
  rw [frozenCount_append]
  exact Nat.le_add_left _ _

/-- A replacement that hides one more macro is less. -/
theorem replace_lighter (called : List Node) {after : List Node} {common : Finset (Fin macrosMax)}
    {index : Fin macrosMax} {space space' : Bool} {output : List Token}
    (hcommon : meet Finset.univ (hides (node :: called)) ⊆ common)
    (hindex : index ∉ node.token.hidden) :
    Lighter (splice space (replacement (insert index common) space' output) after)
      (node :: called ++ after) := by
  obtain ⟨hhides, hfrozen⟩ := splice_spec space (replacement (insert index common) space' output) after
  obtain ⟨hnew, hnone⟩ := replacement_spec (insert index common) space' output
  have hmeet : index ∉ meet Finset.univ (hides (node :: called)) :=
    fun hin ↦ hindex (meet_subset_of_mem (List.mem_cons_self) hin)
  have hcard : (meet Finset.univ (hides (node :: called))).card < (insert index common).card := by
    have := Finset.card_le_card (Finset.insert_subset_insert index hcommon)
    rwa [Finset.card_insert_of_notMem hmeet] at this
  have hlow := low_replace (hides after) (List.cons_ne_nil node.token.hidden (hides called))
    (hcommon.trans (Finset.subset_insert index common)) (Finset.subset_univ _) hnew (.inr hcard)
  rw [← hhides, ← hides_cons, ← hides_append] at hlow
  refine .of_low ?_ hlow.1 hlow.2
  rw [hfrozen, hnone, frozenCount_append]
  omega

/-- A turn leaves less, or the number of a query. -/
theorem Turn.lighter (h : Turn node rest (.replace nodes)) :
    (∃ token operand after, node.token.kind = .ident ∧ token.kind = .number ∧
        rest = operand ++ after ∧ nodes = { node with token } :: after) ∨
      ((node.frozen.isSome ∨ node.token.kind = .ident) ∧ Lighter nodes (node :: rest) ∧
        frozenCount nodes ≤ frozenCount rest) := by
  cases h with
  | query token operand after hname hkind hrest =>
    exact .inl ⟨token, operand, after, hname, hkind, hrest, rfl⟩
  | object index output hname hindex =>
    refine .inr ⟨hname, replace_lighter [] ?_ hindex, ?_⟩
    · exact meet_subset_of_mem List.mem_cons_self
    · rw [(splice_spec _ _ _).2, (replacement_spec _ _ _).2, Nat.zero_add]
  | function index output inside closing after hname hindex hrest =>
    have hsplit : rest = (inside ++ [closing]) ++ after := by simpa using hrest
    subst hsplit
    refine .inr ⟨hname, replace_lighter _ ?_ hindex, ?_⟩
    · refine Finset.subset_inter (meet_subset_of_mem List.mem_cons_self) ?_
      exact meet_subset_of_mem (by simp [hides])
    · rw [(splice_spec _ _ _).2, (replacement_spec _ _ _).2, Nat.zero_add, frozenCount_append]
      exact Nat.le_add_left _ _

end Weights

/-! ## Runs of the loop -/

/-- Rescanning these nodes stops, whatever is in front of them. -/
def Stops (env : Tables) (depth : Nat) (nodes : List Node) : Prop :=
  ∀ before, Settles .fuel fun n ↦ rescan env n depth before nodes

theorem stops_nil : Stops env depth [] :=
  fun before ↦ Settles.of_succ (Settles.pure (before, []))

/-- The step of the induction: a list stops if it does after every turn. -/
theorem stops_cons (hle : depth ≤ 64) (hdeeper : depth < 64 → ∀ nodes, Stops env (depth + 1) nodes)
    (hskip : Stops env depth rest)
    (hreplace : ∀ nodes, Turn node rest (.replace nodes) → Stops env depth nodes) :
    Stops env depth (node :: rest) := by
  intro before
  refine Settles.of_succ (Settles.bind (advance_settles hle fun hlt tokens ↦ ?_) ?_)
  · exact (hdeeper hlt _ []).bind fun ⟨before, rest⟩ _ ↦ Settles.pure _
  · rintro (_ | nodes | nodes) ⟨n, hn⟩
    · exact hskip _
    · exact hreplace nodes (advance_turn hn) before
    · exact Settles.pure _

/-- The induction on the weights: what a turn leaves is less, or becomes less with the turn after
it. -/
theorem stops_of_deeper (hle : depth ≤ 64)
    (hdeeper : depth < 64 → ∀ nodes, Stops env (depth + 1) nodes) (nodes : List Node) :
    Stops env depth nodes := by
  induction nodes using lighter_wellFounded.induction with
  | _ nodes ih =>
    cases nodes with
    | nil => exact stops_nil
    | cons node rest =>
      refine stops_cons hle hdeeper (ih rest (drop_lighter [] rest)) fun nodes hturn ↦ ?_
      rcases hturn.lighter with ⟨token, operand, after, -, hkind, rfl, rfl⟩ | ⟨-, hless, -⟩
      · -- the number of a query is skipped, or it is the name of a frozen call
        have hafter : Stops env depth after := ih after (drop_lighter operand after)
        refine stops_cons hle hdeeper hafter fun nodes hturn ↦ ?_
        rcases hturn.lighter with ⟨-, -, -, hident, -⟩ | ⟨hname, -, hfrozen⟩
        · exact absurd (hident.symm.trans hkind) (by simp)
        · have hsome : node.frozen.isSome := by
            rcases hname with hsome | hident
            · exact hsome
            · exact absurd (hident.symm.trans hkind) (by simp)
          refine ih nodes (.of_frozen ?_)
          rw [frozenCount_cons hsome, frozenCount_append]
          omega
      · exact ih nodes hless

theorem stops (hle : depth ≤ 64) (nodes : List Node) : Stops env depth nodes := by
  induction hk : 64 - depth generalizing depth nodes with
  | zero => exact stops_of_deeper hle (fun hlt ↦ by omega) nodes
  | succ k ih => exact stops_of_deeper hle (fun hlt nodes ↦ ih hlt nodes (by omega)) nodes

/-- What a list of tokens expands to on its own, within a bound. -/
def expandAt (env : Tables) (n depth : Nat) (tokens : List Token) : Except Stop (List Token) := do
  let (before, rest) ← rescan env n depth [] (tokens.map Node.fresh)
  pure ((before ++ rest).map Node.token)

theorem expandAt_settles (hle : depth ≤ 64) (tokens : List Token) :
    Settles .fuel fun n ↦ expandAt env n depth tokens :=
  (stops hle _ []).bind fun ⟨_, _⟩ _ ↦ Settles.pure _

open Classical in
/-- What a list of tokens expands to on its own; no list if that fails. -/
noncomputable def isolated (env : Tables) (depth : Nat) (tokens : List Token) :
    Option (List Token) :=
  if h : Settles .fuel fun n ↦ expandAt env n depth tokens then h.choose.toOption else none

variable (env) in
theorem expandAt_eventually (hle : depth ≤ 64) (tokens : List Token) :
    ∀ᶠ n in Filter.atTop, expandAt env n depth tokens = orFailed (isolated env depth tokens) := by
  have h : Settles .fuel fun n ↦ expandAt env n depth tokens := expandAt_settles hle tokens
  rw [isolated, dif_pos h]
  obtain ⟨hne, heventually⟩ := h.choose_spec
  generalize h.choose = result at hne heventually
  filter_upwards [heventually] with n hn
  rw [hn]
  match result with
  | .ok expanded => rfl
  | .error .failed => rfl
  | .error .fuel => exact absurd rfl hne

/-- **Macro expansion terminates.**  For every table of macros, every list of nodes and all
answers of the header lookup, `cc_pp_rescan` returns: from some bound on the bound does not
matter, and the result is not that of running out. -/
theorem rescan_terminates (env : Tables) (nodes : List Node) :
    ∃ result, result ≠ .error .fuel ∧ ∃ n, ∀ k ≥ n, rescan env k 0 [] nodes = result := by
  have hstops : Stops env 0 nodes := stops (Nat.zero_le 64) nodes
  obtain ⟨result, hne, hsettled⟩ := hstops []
  exact ⟨result, hne, Filter.eventually_atTop.mp hsettled⟩

end CopySpace.Preprocess
