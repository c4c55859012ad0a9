import Mathlib
import CopySpace.Preprocess.Rescan

/-!
# `preprocess_macros.h`: the capacity of a replacement

`cc_pp_function_replace` allocates the output of `cc_pp_substitute` before it runs: an element for
every token of the body, and for every parameter in it the tokens of its argument.  The loop stops
where the array is full, and it never is.
-/

namespace CopySpace.Preprocess

/-! ## The source -/

/-- `CC_PP_TEXT` -/
def textMax : Nat := 262144

/-- `CC_PP_NODES` -/
def nodesMax : Nat := 32768

/-- How `cc_pp_substitute` ends without a result: where `used == capacity`, or anywhere else. -/
inductive Exit
  | full
  | failed
  deriving DecidableEq

/-- Another failure. -/
def orExit {α : Type} : Option α → Except Exit α
  | some a => .ok a
  | none => .error .failed

/-- `cc_pp_paste` with `cc_pp_text_count`. -/
def pasteText (skipping : Bool) (a b : Token) (text : Nat) : Option (Token × Nat) :=
  if a.text.length > textMax - text ∨ b.text.length > textMax - text - a.text.length then none
  else (a.paste skipping b).map (·, text + a.text.length + b.text.length)

/-- `cc_pp_stringify_tokens` with `cc_pp_text_count`, which fails at the byte that has no room. -/
def stringifyText (tokens : List Token) (text : Nat) : Option (Token × Nat) :=
  let single := stringify tokens
  if text + single.text.length > textMax then none else some (single, text + single.text.length)

/-- `pasteInto` with `cc_pp_text_count`. -/
def pasteIntoText (skipping : Bool) (left right : Option Token) (text : Nat) :
    Option (Option Token × Nat) :=
  match left, right with
  | none, right => some (right, text)
  | some left, none => some (some left, text)
  | some left, some right => (pasteText skipping left right text).map fun (t, text) ↦ (some t, text)

/-- The inner loop of `cc_pp_substitute`, over the reversed output. -/
def push (capacity : Nat) : List (Option Token) → List (Option Token) →
    Except Exit (List (Option Token))
  | [], output => .ok output
  | t :: piece, output =>
      if output.length = capacity then .error .full else push capacity piece (t :: output)

/-- The end of the loop's body with the capacity. -/
def Substitution.joinWithin (skipping : Bool) (capacity : Nat) (leading : Bool)
    (piece : List (Option Token)) (s : Substitution) (text : Nat) :
    Except Exit (Substitution × Nat) :=
  if s.paste then
    match piece, s.output with
    | right :: piece, left :: output => do
        let (joined, text) ← orExit (pasteIntoText skipping left right text)
        let output ← push capacity piece (joined :: output)
        .ok ({ s with output, paste := false }, text)
    | _, _ => .error .failed
  else match piece with
    | [] => .ok ({ s with gap := s.gap || leading }, text)
    | _ :: _ => do
        let output ← push capacity (spaced (leading || s.gap) piece) s.output
        .ok ({ s with output, gap := false }, text)

section

variable (skipping : Bool) (m : Macro) (arguments : List Argument) (capacity : Nat)

/-- The loop of `cc_pp_substitute` with its capacity, which the array for the tokens of
`__VA_OPT__` has as well, and with `cc_pp_text_count`. -/
def substituteWithin (body : List Token) (s : Substitution) (text : Nat) :
    Except Exit (Substitution × Nat) :=
  match body with
  | [] => .ok (s, text)
  | token :: rest =>
      if token.is "##" then
        if s.commaPaste then substituteWithin rest { s with commaPaste := false } text
        else if s.output.isEmpty || rest.isEmpty then .error .failed
        else substituteWithin rest { s with paste := true } text
      else
        let comma := m.commaBefore token rest
        let s := { s with commaPaste := s.commaPaste || comma }
        if comma && (m.lastArgument arguments).omitted then substituteWithin rest s text
        else if token.is "#" then
          match rest with
          | [] => .error .failed
          | operand :: rest =>
              if m.variadic && operand.is "__VA_OPT__" then
                match _h : vaOptEnd rest with
                | none => .error .failed
                | some (inside, after) => do
                    let (option, text) ←
                      if (m.lastArgument arguments).expanded.isEmpty then .ok ([], text)
                      else (substituteWithin inside .start text).map fun (s, text) ↦
                        (s.output.reverse.filterMap id, text)
                    let (single, text) ← orExit (stringifyText option text)
                    let (s, text) ←
                      s.joinWithin skipping capacity token.space [some single] text
                    substituteWithin after s text
              else match m.parameterIndex operand with
                | none => .error .failed
                | some i => do
                    let (single, text) ←
                      orExit (stringifyText (arguments.getD i default).raw text)
                    let (s, text) ←
                      s.joinWithin skipping capacity token.space [some single] text
                    substituteWithin rest s text
        else if m.variadic && token.is "__VA_OPT__" then
          match _h : vaOptEnd rest with
          | none => .error .failed
          | some (inside, after) => do
              let (option, text) ←
                if (m.lastArgument arguments).expanded.isEmpty then .ok ([], text)
                else (substituteWithin inside .start text).map fun (s, text) ↦
                  (s.output.reverse.filterMap id, text)
              let (s, text) ← s.joinWithin skipping capacity token.space
                (orEmpty (s.paste || startsPaste after) option) text
              substituteWithin after s text
        else do
          let adjacent := s.paste || startsPaste rest
          let piece := match m.parameterIndex token with
            | some i =>
                let argument := arguments.getD i default
                orEmpty adjacent (if adjacent then argument.raw else argument.expanded)
            | none => [some token]
          let (s, text) ← s.joinWithin skipping capacity token.space piece text
          substituteWithin rest s text
termination_by body.length
decreasing_by
  all_goals simp only [List.length_cons]
  all_goals first
    | omega
    | have := vaOptEnd_length ‹_›
      omega

/-- The tokens for a parameter: the larger of `raw_count` and `expanded_count`. -/
def Argument.count (argument : Argument) : Nat := max argument.raw.length argument.expanded.length

/-- The loop of `cc_pp_function_replace` over the body that adds to `capacity`; the subtraction does
not wrap around, since no body has more than `CC_PP_TOKENS` tokens. -/
def capacityLoop (capacity : Nat) : List Token → Option Nat
  | [] => some capacity
  | token :: body =>
      match m.parameterIndex token with
      | none => capacityLoop capacity body
      | some i =>
          let count := (arguments.getD i default).count
          if count > nodesMax - capacity then none else capacityLoop (capacity + count) body

/-- `cc_pp_function_replace` from the computation of the capacity on: the tokens of the replacement
and `cc_pp_text_count`. -/
def replaceWithin (text : Nat) : Except Exit (List Token × Nat) := do
  let capacity ← orExit (capacityLoop m arguments m.body.length m.body)
  let (s, text) ← substituteWithin skipping m arguments capacity m.body .start text
  .ok (s.output.reverse.filterMap id, text)

end

/-! ## What the body needs -/

variable {skipping leading : Bool} {m : Macro} {arguments : List Argument} {capacity bound : Nat}
  {body rest inside after : List Token} {s : Substitution} {text : Nat}

/-- The elements that a token can add to the output. -/
def need (m : Macro) (arguments : List Argument) (token : Token) : Nat :=
  1 + match m.parameterIndex token with
    | some i => (arguments.getD i default).count
    | none => 0

/-- The elements that a body can add. -/
def needs (m : Macro) (arguments : List Argument) (body : List Token) : Nat :=
  (body.map (need m arguments)).sum

@[simp] theorem needs_nil : needs m arguments [] = 0 := rfl

@[simp] theorem needs_cons (token : Token) :
    needs m arguments (token :: body) = need m arguments token + needs m arguments body :=
  List.sum_cons

@[simp] theorem needs_append (body' : List Token) :
    needs m arguments (body ++ body') = needs m arguments body + needs m arguments body' := by
  rw [needs, List.map_append, List.sum_append, needs, needs]

theorem need_pos (m : Macro) (arguments : List Argument) (token : Token) : 1 ≤ need m arguments token := Nat.le_add_right _ _

/-- The capacity is what the body needs. -/
theorem capacityLoop_eq {result : Nat} (h : capacityLoop m arguments capacity body = some result) :
    result + body.length = capacity + needs m arguments body := by
  induction body generalizing capacity with
  | nil =>
      obtain rfl := Option.some.inj h
      rfl
  | cons token body ih =>
      rw [capacityLoop] at h
      rw [needs_cons, need, List.length_cons]
      split at h
      · next hnone =>
          have hrest := ih h
          rw [hnone]
          dsimp only
          omega
      · next i hsome =>
          dsimp only at h
          split_ifs at h
          have hrest := ih h
          rw [hsome]
          dsimp only
          omega

/-- A group stands between parentheses. -/
theorem vaOptLoop_needs {depth : Nat} (h : vaOptLoop depth body = some (inside, after)) :
    needs m arguments inside + needs m arguments after + 1 ≤ needs m arguments body := by
  induction body generalizing depth inside after with
  | nil => cases h
  | cons token body ih =>
      have hpos := need_pos m arguments token
      have further {depth' : Nat} (h : ((vaOptLoop depth' body).map fun r ↦
          (token :: r.1, r.2)) = some (inside, after)) :
          needs m arguments inside + needs m arguments after + 1 ≤
            needs m arguments (token :: body) := by
        obtain ⟨⟨i, a⟩, hrest, heq⟩ := Option.map_eq_some_iff.mp h
        dsimp only at heq
        obtain ⟨rfl, rfl⟩ := Prod.mk.inj heq
        have hle := ih hrest
        rw [needs_cons, needs_cons]
        omega
      rw [vaOptLoop] at h
      split_ifs at h
      · exact further h
      · obtain ⟨rfl, rfl⟩ := Prod.mk.inj (Option.some.inj h)
        rw [needs_nil, needs_cons]
        omega
      · exact further h
      · exact further h

theorem vaOptEnd_needs (m : Macro) (arguments : List Argument)
    (h : vaOptEnd body = some (inside, after)) :
    needs m arguments inside + needs m arguments after + 1 ≤ needs m arguments body := by
  cases body with
  | nil => cases h
  | cons token body =>
      rw [vaOptEnd] at h
      split_ifs at h
      exact (vaOptLoop_needs h).trans (Nat.le_add_left _ _)

/-! ## Runs that fit -/

section Fits

variable {α β : Type} {size : α → Nat} {size' : β → Nat}

/-- The run does not end because the output is full; if it ends with a result, then with that of the
run without a capacity, in so many elements. -/
def Fits (size : α → Nat) (bound : Nat) (run : Except Exit (α × Nat)) (free : Option α) : Prop :=
  match run with
  | .ok (a, _) => size a ≤ bound ∧ free = some a
  | .error exit => exit ≠ .full

theorem fits_failed (free : Option α) : Fits size bound (.error .failed) free := fun h ↦ nomatch h

theorem fits_ok {a : α} (h : size a ≤ bound) : Fits size bound (.ok (a, text)) (some a) := ⟨h, rfl⟩

theorem Fits.mono {bound' : Nat} {run : Except Exit (α × Nat)} {free : Option α}
    (h : Fits size bound run free) (hle : bound ≤ bound') : Fits size bound' run free := by
  cases run with
  | ok a => exact ⟨h.1.trans hle, h.2⟩
  | error exit => exact h

/-- A run after a run. -/
theorem Fits.bind {bound' : Nat} {run : Except Exit (α × Nat)} {free : Option α}
    {next : α × Nat → Except Exit (β × Nat)} {nextFree : α → Option β}
    (h : Fits size bound run free)
    (hnext : ∀ a text, size a ≤ bound → Fits size' bound' (next (a, text)) (nextFree a)) :
    Fits size' bound' (run >>= next) (free >>= nextFree) := by
  cases run with
  | ok a =>
      obtain ⟨a, text⟩ := a
      obtain ⟨hle, rfl⟩ := h
      exact hnext a text hle
  | error exit => exact h

end Fits

/-- The elements of the output. -/
def Substitution.used (s : Substitution) : Nat := s.output.length

theorem push_eq {piece output : List (Option Token)} (h : output.length + piece.length ≤ capacity) :
    push capacity piece output = .ok (piece.reverse ++ output) := by
  induction piece generalizing output with
  | nil => rfl
  | cons t piece ih =>
      rw [List.length_cons] at h
      rw [push, if_neg (by omega), ih (by rw [List.length_cons]; omega), List.reverse_cons,
        List.append_assoc, List.singleton_append]

theorem pasteInto_of_text {left right joined : Option Token} {text' : Nat}
    (h : pasteIntoText skipping left right text = some (joined, text')) :
    pasteInto skipping left right = some joined := by
  cases left with
  | none =>
      obtain ⟨rfl, rfl⟩ := Prod.mk.inj (Option.some.inj h)
      rfl
  | some left =>
      cases right with
      | none =>
          obtain ⟨rfl, rfl⟩ := Prod.mk.inj (Option.some.inj h)
          rfl
      | some right =>
          obtain ⟨⟨t, text''⟩, hpaste, heq⟩ := Option.map_eq_some_iff.mp h
          obtain ⟨rfl, rfl⟩ := Prod.mk.inj heq
          rw [pasteText] at hpaste
          split_ifs at hpaste
          obtain ⟨t', hread, heq⟩ := Option.map_eq_some_iff.mp hpaste
          obtain ⟨rfl, -⟩ := Prod.mk.inj heq
          rw [pasteInto, hread, Option.map_some]

theorem stringify_of_text {tokens : List Token} {single : Token} {text' : Nat}
    (h : stringifyText tokens text = some (single, text')) : single = stringify tokens := by
  rw [stringifyText] at h
  split_ifs at h
  exact (Prod.mk.inj (Option.some.inj h)).1.symm

theorem length_spaced (space : Bool) (piece : List (Option Token)) :
    (spaced space piece).length = piece.length := by
  cases piece <;> rfl

/-- A piece that there is room for joins the output. -/
theorem joinWithin_fits {piece : List (Option Token)} (h : s.used + piece.length ≤ capacity) :
    Fits Substitution.used (s.used + piece.length)
      (s.joinWithin skipping capacity leading piece text) (s.join skipping leading piece) := by
  unfold Substitution.used at h ⊢
  unfold Substitution.joinWithin Substitution.join
  split_ifs with hpaste
  · cases piece with
    | nil => exact fits_failed _
    | cons right piece =>
        cases hout : s.output with
        | nil => exact fits_failed _
        | cons left output =>
            rw [hout, List.length_cons, List.length_cons] at h
            dsimp only
            cases hjoin : pasteIntoText skipping left right text with
            | none => exact fits_failed _
            | some joined =>
                obtain ⟨joined, text'⟩ := joined
                rw [pasteInto_of_text hjoin]
                dsimp only [orExit, bind, Except.bind, Option.map]
                rw [push_eq (by rw [List.length_cons]; omega)]
                apply fits_ok
                simp only [List.length_append, List.length_reverse, List.length_cons]
                omega
  · cases piece with
    | nil => exact fits_ok (Nat.le_add_right _ _)
    | cons t piece =>
        dsimp only [bind, Except.bind]
        rw [push_eq (by rwa [length_spaced])]
        apply fits_ok
        rw [List.length_append, List.length_reverse, length_spaced, Nat.add_comm]

/-! ## The loop -/

theorem length_orEmpty (adjacent : Bool) (piece : List Token) :
    (orEmpty adjacent piece).length ≤ 1 + piece.length := by
  rw [orEmpty]
  split_ifs
  · exact Nat.le_add_right _ _
  · rw [List.length_map]
    exact Nat.le_add_left _ _

theorem length_filterMap (output : List (Option Token)) :
    (output.reverse.filterMap id).length ≤ output.length :=
  (List.length_filterMap_le _ _).trans List.length_reverse.le

section Loop

variable (skipping m arguments capacity) in
/-- With room for what the rest of the body needs, the loop ends as it does without a capacity. -/
def LoopFits (body : List Token) : Prop :=
  ∀ (s : Substitution) (text : Nat), s.used + needs m arguments body ≤ capacity →
    Fits Substitution.used (s.used + needs m arguments body)
      (substituteWithin skipping m arguments capacity body s text)
      (substituteLoop skipping m arguments body s)

theorem LoopFits.run (ih : LoopFits skipping m arguments capacity rest)
    (hbound : s.used + needs m arguments rest ≤ bound) (hcapacity : bound ≤ capacity) :
    Fits Substitution.used bound (substituteWithin skipping m arguments capacity rest s text)
      (substituteLoop skipping m arguments rest s) :=
  (ih s text (hbound.trans hcapacity)).mono hbound

/-- A piece, and the rest of the body. -/
theorem LoopFits.join {piece : List (Option Token)}
    (ih : LoopFits skipping m arguments capacity rest)
    (hbound : s.used + piece.length + needs m arguments rest ≤ bound)
    (hcapacity : bound ≤ capacity) :
    Fits Substitution.used bound
      (do
        let (s, text) ← s.joinWithin skipping capacity leading piece text
        substituteWithin skipping m arguments capacity rest s text)
      (do
        let s ← s.join skipping leading piece
        substituteLoop skipping m arguments rest s) := by
  refine Fits.bind (joinWithin_fits (by omega)) fun s text hs ↦ ?_
  exact ih.run (by omega) hcapacity

/-- The tokens that `__VA_OPT__` stands for, and what is done with them. -/
theorem LoopFits.option (ih : LoopFits skipping m arguments capacity inside) (last : List Token)
    {next : List Token × Nat → Except Exit (Substitution × Nat)}
    {nextFree : List Token → Option Substitution} (h : needs m arguments inside ≤ capacity)
    (hnext : ∀ option text, option.length ≤ needs m arguments inside →
      Fits Substitution.used bound (next (option, text)) (nextFree option)) :
    Fits Substitution.used bound
      (if last.isEmpty then .ok ([], text) >>= next
        else (substituteWithin skipping m arguments capacity inside .start text).map
          (fun (s, text) ↦ (s.output.reverse.filterMap id, text)) >>= next)
      (if last.isEmpty then some [] >>= nextFree
        else (substituteLoop skipping m arguments inside .start).map
          (fun s ↦ s.output.reverse.filterMap id) >>= nextFree) := by
  split_ifs
  · exact hnext [] text (Nat.zero_le _)
  · have hstart : Substitution.start.used + needs m arguments inside = needs m arguments inside :=
      Nat.zero_add _
    have hrun := ih .start text (hstart.trans_le h)
    rw [hstart] at hrun
    cases hresult : substituteWithin skipping m arguments capacity inside .start text with
    | error exit =>
        rw [hresult] at hrun
        exact hrun
    | ok result =>
        obtain ⟨s, text'⟩ := result
        rw [hresult] at hrun
        obtain ⟨hle, hfree⟩ := hrun
        rw [hfree]
        exact hnext _ text' ((length_filterMap _).trans hle)

/-- The spelling of tokens, and the rest of the body. -/
theorem LoopFits.single (ih : LoopFits skipping m arguments capacity rest) (tokens : List Token)
    (hbound : s.used + 1 + needs m arguments rest ≤ bound) (hcapacity : bound ≤ capacity) :
    Fits Substitution.used bound
      (do
        let (single, text) ← orExit (stringifyText tokens text)
        let (s, text) ← s.joinWithin skipping capacity leading [some single] text
        substituteWithin skipping m arguments capacity rest s text)
      (do
        let s ← s.join skipping leading [some (stringify tokens)]
        substituteLoop skipping m arguments rest s) := by
  cases h : stringifyText tokens text with
  | none => exact fits_failed _
  | some single =>
      obtain ⟨single, text'⟩ := single
      obtain rfl := stringify_of_text h
      exact ih.join hbound hcapacity

/-- With room for what the rest of the body needs, the loop ends as it does without a capacity. -/
theorem substituteWithin_fits (skipping : Bool) (body : List Token) :
    LoopFits skipping m arguments capacity body := by
  induction hn : body.length using Nat.strong_induction_on generalizing body with
  | _ n ih =>
  subst hn
  intro s text h
  cases body with
  | nil =>
      rw [substituteWithin, substituteLoop]
      exact fits_ok (Nat.le_add_right _ _)
  | cons token rest =>
      have hpos := need_pos m arguments token
      have hrest : LoopFits skipping m arguments capacity rest := ih _ (Nat.lt_succ_self _) rest rfl
      rw [needs_cons] at h ⊢
      rw [substituteWithin, substituteLoop]
      dsimp only
      by_cases hpaste : token.is "##" = true
      · rw [if_pos hpaste, if_pos hpaste]
        split_ifs
        · exact hrest.run (s := ⟨_, _, _, _⟩) (by change s.used + _ ≤ _; omega) h
        · exact fits_failed _
        · exact hrest.run (s := ⟨_, _, _, _⟩) (by change s.used + _ ≤ _; omega) h
      rw [if_neg hpaste, if_neg hpaste]
      by_cases homitted : (m.commaBefore token rest && (m.lastArgument arguments).omitted) = true
      · rw [if_pos homitted, if_pos homitted]
        exact hrest.run (s := ⟨_, _, _, _⟩) (by change s.used + _ ≤ _; omega) h
      rw [if_neg homitted, if_neg homitted]
      by_cases hstring : token.is "#" = true
      · rw [if_pos hstring, if_pos hstring]
        cases rest with
        | nil => exact fits_failed _
        | cons operand rest =>
            have hpos' := need_pos m arguments operand
            have hlt : rest.length < (token :: operand :: rest).length :=
              Nat.lt_add_of_pos_right (Nat.succ_pos 1)
            have hrest : LoopFits skipping m arguments capacity rest := ih rest.length hlt rest rfl
            rw [needs_cons] at h ⊢
            dsimp only
            by_cases hgroup : (m.variadic && operand.is "__VA_OPT__") = true
            · rw [if_pos hgroup, if_pos hgroup]
              cases hend : vaOptEnd rest with
              | none => exact fits_failed _
              | some ends =>
                  obtain ⟨inside, after⟩ := ends
                  have hlength := vaOptEnd_length hend
                  have hneeds := vaOptEnd_needs m arguments hend
                  have hinside : LoopFits skipping m arguments capacity inside :=
                    ih inside.length (hlength.1.trans hlt) inside rfl
                  have hafter : LoopFits skipping m arguments capacity after :=
                    ih after.length (hlength.2.trans hlt) after rfl
                  refine hinside.option _ (by omega) fun option text hoption ↦ ?_
                  exact hafter.single (s := ⟨_, _, _, _⟩) option
                    (by change s.used + _ + _ ≤ _; omega) h
            · rw [if_neg hgroup, if_neg hgroup]
              cases hparameter : m.parameterIndex operand with
              | none => exact fits_failed _
              | some i =>
                  exact hrest.single (s := ⟨_, _, _, _⟩) _ (by change s.used + _ + _ ≤ _; omega) h
      rw [if_neg hstring, if_neg hstring]
      by_cases hgroup : (m.variadic && token.is "__VA_OPT__") = true
      · rw [if_pos hgroup, if_pos hgroup]
        cases hend : vaOptEnd rest with
        | none => exact fits_failed _
        | some ends =>
            obtain ⟨inside, after⟩ := ends
            have hlength := vaOptEnd_length hend
            have hneeds := vaOptEnd_needs m arguments hend
            have hinside : LoopFits skipping m arguments capacity inside :=
              ih inside.length (hlength.1.trans (Nat.lt_succ_self _)) inside rfl
            have hafter : LoopFits skipping m arguments capacity after :=
              ih after.length (hlength.2.trans (Nat.lt_succ_self _)) after rfl
            refine hinside.option _ (by omega) fun option text hoption ↦ ?_
            have hpiece := length_orEmpty (s.paste || startsPaste after) option
            refine hafter.join (s := ⟨_, _, _, _⟩) ?_ h
            change s.used + (orEmpty _ option).length + _ ≤ _
            omega
      · rw [if_neg hgroup, if_neg hgroup]
        refine hrest.join (s := ⟨_, _, _, _⟩) ?_ h
        change s.used + _ + _ ≤ _
        rw [need] at h ⊢
        cases hparameter : m.parameterIndex token with
        | none =>
            dsimp only [List.length_singleton]
            omega
        | some i =>
            have hpiece := length_orEmpty (s.paste || startsPaste rest)
              (if s.paste || startsPaste rest then (arguments.getD i default).raw
                else (arguments.getD i default).expanded)
            have hcount : (if s.paste || startsPaste rest then (arguments.getD i default).raw
                else (arguments.getD i default).expanded).length ≤
                  (arguments.getD i default).count := by
              split_ifs
              · exact le_max_left _ _
              · exact le_max_right _ _
            dsimp only
            omega

end Loop

/-- The capacity is enough for the body: the output is never full, no more is written than it has,
and the tokens are those of the substitution without a capacity. -/
theorem replaceWithin_fits (skipping : Bool) (m : Macro) (arguments : List Argument) (text : Nat) :
    replaceWithin skipping m arguments text ≠ .error .full ∧
      (∀ tokens text', replaceWithin skipping m arguments text = .ok (tokens, text') →
        substitute skipping m arguments = some tokens) ∧
      ∀ capacity, capacityLoop m arguments m.body.length m.body = some capacity →
        ∀ s text',
          substituteWithin skipping m arguments capacity m.body .start text = .ok (s, text') →
            s.used ≤ capacity := by
  rw [replaceWithin]
  cases hcapacity : capacityLoop m arguments m.body.length m.body with
  | none => exact ⟨nofun, nofun, nofun⟩
  | some capacity =>
      have heq := capacityLoop_eq hcapacity
      have hneeds : needs m arguments m.body = capacity := by omega
      have hstart : Substitution.start.used + needs m arguments m.body = capacity :=
        (Nat.zero_add _).trans hneeds
      have hfits := substituteWithin_fits skipping m.body .start text hstart.le
      rw [hstart] at hfits
      dsimp only [orExit, bind, Except.bind]
      rw [substitute]
      cases hrun : substituteWithin skipping m arguments capacity m.body .start text with
      | error exit =>
          rw [hrun] at hfits
          refine ⟨fun h ↦ hfits (Except.error.inj h), nofun, ?_⟩
          rintro other hother s text' hresult
          obtain rfl := Option.some.inj hother
          rw [hrun] at hresult
          cases hresult
      | ok result =>
          obtain ⟨s, text'⟩ := result
          rw [hrun] at hfits
          obtain ⟨hle, hfree⟩ := hfits
          refine ⟨nofun, ?_, ?_⟩
          · rintro tokens text'' hresult
            obtain ⟨rfl, -⟩ := Prod.mk.inj (Except.ok.inj hresult)
            rw [hfree, Option.map_some]
          · rintro other hother s' text'' hresult
            obtain rfl := Option.some.inj hother
            rw [hrun] at hresult
            obtain ⟨rfl, -⟩ := Prod.mk.inj (Except.ok.inj hresult)
            exact hle

end CopySpace.Preprocess
