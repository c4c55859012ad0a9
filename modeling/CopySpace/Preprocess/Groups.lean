import CopySpace.Preprocess.Lines

/-!
# `preprocess_condition.h`, `preprocess_macros.h`: groups and files

The main loop reads a token after the other, from the file that was included last; a directive is
read with its line.  What is not about groups and files is a parameter: what becomes of the tokens,
what a condition says, and what the other directives do.  These directives read their line and stop
at its end, so that it is cut off for them.
-/

namespace CopySpace.Preprocess

/-- The number of `cc_pp_groups`. -/
def groupsMax : Nat := 64

/-- `CC_PP_INCLUDE_DEPTH`. -/
def includeDepth : Nat := 64

/-- The rest of the preprocessor: its macros, the files, the tokens that wait and the output. -/
structure Processor (σ : Type) where
  /-- `cc_pp_flush_prefix` -/
  flushPrefix : σ → Option σ
  /-- `cc_pp_flush` of the tokens that wait -/
  flush : σ → Option σ
  /-- A token is put behind those that wait. -/
  append : σ → Token → Option σ
  /-- `cc_pp_condition_line` for a condition that is evaluated -/
  condition : σ → Text → Option (σ × Bool)
  /-- `cc_pp_is_defined` -/
  isDefined : σ → Token → Bool
  /-- The other directives, by name; the text of a file that is included. -/
  directive : σ → Token → Text → Option (σ × Option Text)
  /-- The file before is the current one again. -/
  leave : σ → σ

/-- The directives that are no conditions. -/
def directiveNames : List String := ["include", "include_next", "pragma", "define", "undef"]

/-- `cc_pp_group` -/
structure Group where
  parent : Bool
  taken : Bool
  active : Bool
  sawElse : Bool

/-- `cc_pp_include_frame` -/
structure Frame where
  reader : Text
  floor : Nat

/-- The state of the main loop; the last group and the last frame are the first ones here. -/
structure State (σ : Type) where
  env : σ
  reader : Text
  beginning : Bool
  groups : List Group
  floor : Nat
  enabled : Bool
  frames : List Frame

inductive Outcome (σ : Type)
  | running (st : State σ)
  | finished (env : σ)
  | rejected

variable {σ : Type}

/-- `cc_pp_skip_line` -/
def skipLine (s : Text) : Option Text :=
  match _h : next true s with
  | none => none
  | some (none, rest) => some rest
  | some (some t, rest) => if t.newline then some rest else skipLine rest
termination_by s.length
decreasing_by exact next_length ‹_›

/-- The check that nothing follows a directive. -/
def readTail (skipping : Bool) (s : Text) : Option Text :=
  match next skipping s with
  | none => none
  | some (none, rest) => some rest
  | some (some t, rest) => if t.newline then some rest else none

namespace State

/-- `cc_pp_condition_line` -/
def conditionLine (proc : Processor σ) (run : Bool) (st : State σ) : Option (State σ × Bool) :=
  (skipLine st.reader).bind fun rest ↦
    if run then
      (proc.condition st.env (cut st.reader rest)).map fun (env, truth) ↦
        ({ st with env, reader := rest }, truth)
    else some ({ st with reader := rest }, false)

/-- `#ifdef` and `#ifndef` in `cc_pp_condition_directive` -/
def definedLine (proc : Processor σ) (negated : Bool) (st : State σ) : Option (State σ × Bool) :=
  if st.enabled then
    match next (!st.enabled) st.reader with
    | some (some name, rest) =>
        if name.kind = .ident then
          (readTail (!st.enabled) rest).map fun rest ↦
            ({ st with reader := rest }, proc.isDefined st.env name != negated)
        else none
    | _ => none
  else (skipLine st.reader).map fun rest ↦ ({ st with reader := rest }, false)

/-- A group is opened in `cc_pp_condition_directive`. -/
def openGroup (st : State σ) (truth : Bool) : State σ :=
  let group : Group := ⟨st.enabled, truth, st.enabled && truth, false⟩
  { st with groups := group :: st.groups, enabled := group.active }

/-- `cc_pp_condition_directive`, which leaves other directives alone. -/
def conditionDirective (proc : Processor σ) (name : Token) (st : State σ) :
    Option (Option (State σ)) :=
  if name.is "if" || name.is "ifdef" || name.is "ifndef" then
    some <| if st.groups.length = groupsMax then none
      else if name.is "if" then
        (st.conditionLine proc st.enabled).map fun (st, truth) ↦ st.openGroup truth
      else (st.definedLine proc (name.is "ifndef")).map fun (st, truth) ↦ st.openGroup truth
  else if name.is "elif" || name.is "else" || name.is "endif" then
    some <| if st.groups.length = st.floor then none
      else match st.groups with
        | [] => none
        | group :: groups =>
            if name.is "elif" then
              if group.sawElse then none
              else (st.conditionLine proc (group.parent && !group.taken)).map fun (st, truth) ↦
                let active := group.parent && !group.taken && truth
                { st with groups := { group with active, taken := group.taken || active } :: groups,
                          enabled := active }
            else (readTail (!st.enabled) st.reader).bind fun rest ↦
              if name.is "else" then
                if group.sawElse then none
                else
                  let active := group.parent && !group.taken
                  some { st with
                    reader := rest
                    groups := { group with sawElse := true, active, taken := true } :: groups
                    enabled := active }
              else some { st with reader := rest, groups, enabled := group.parent }
  else none

/-- `cc_pp_directive` after its name; the text of a file that is included. -/
def namedDirective (proc : Processor σ) (name : Token) (st : State σ) :
    Option (State σ × Option Text) :=
  if name.newline then some (st, none)
  else match st.conditionDirective proc name with
    | some st => st.map (·, none)
    | none =>
        (skipLine st.reader).bind fun rest ↦
          if !st.enabled then some ({ st with reader := rest }, none)
          else if directiveNames.any (name.is ·) then
            (proc.directive st.env name (cut st.reader rest)).map fun (env, file) ↦
              ({ st with env, reader := rest }, file)
          else none

/-- `cc_pp_directive` -/
def directive (proc : Processor σ) (st : State σ) : Option (State σ × Option Text) :=
  match next (!st.enabled) st.reader with
  | none => none
  | some (none, rest) => some ({ st with reader := rest }, none)
  | some (some name, rest) => namedDirective proc name { st with reader := rest }

/-- A file begins: `cc_pp_include_stack` keeps the one that includes it. -/
def enter (st : State σ) (text : Text) : Outcome σ :=
  if st.frames.length = includeDepth then .rejected
  else .running { st with
    reader := text
    floor := st.groups.length
    frames := ⟨st.reader, st.floor⟩ :: st.frames
    beginning := true }

/-- A pass of the loop of `cc_preprocess_macros`. -/
def step (proc : Processor σ) (st : State σ) : Outcome σ :=
  match next (!st.enabled) st.reader with
  | none => .rejected
  | some (none, _) =>
      if st.groups.length ≠ st.floor then .rejected
      else match st.frames with
        | [] =>
            if st.groups.length ≠ 0 then .rejected
            else match proc.flush st.env with
              | none => .rejected
              | some env => .finished env
        | frame :: frames =>
            match proc.flush st.env with
            | none => .rejected
            | some env => .running { st with
                env := proc.leave env
                reader := frame.reader
                floor := frame.floor
                frames
                beginning := true }
  | some (some t, rest) =>
      if st.beginning && t.is "#" then
        match proc.flushPrefix st.env with
        | none => .rejected
        | some env =>
            match directive proc { st with env, reader := rest } with
            | none => .rejected
            | some (st, none) => .running { st with beginning := true }
            | some (st, some text) => enter st text
      else if st.enabled then
        match proc.append st.env t with
        | none => .rejected
        | some env => .running { st with env, reader := rest, beginning := t.newline }
      else .running { st with reader := rest, beginning := t.newline }

/-- The state at the beginning of the main file. -/
def initial (env : σ) (text : Text) : State σ := ⟨env, text, true, [], 0, true, []⟩

end State

/-- The loop ends, with what has been processed or without success. -/
inductive Ends (proc : Processor σ) : State σ → Option σ → Prop
  | finished {st : State σ} {env : σ} : st.step proc = .finished env → Ends proc st (some env)
  | rejected {st : State σ} : st.step proc = .rejected → Ends proc st none
  | running {st st' : State σ} {r : Option σ} : st.step proc = .running st' → Ends proc st' r →
      Ends proc st r

/-- The loop ends in one way only. -/
theorem Ends.unique {proc : Processor σ} {st : State σ} {r r' : Option σ} (h : Ends proc st r)
    (h' : Ends proc st r') : r = r' := by
  induction h with
  | finished hstep =>
    cases h' with
    | finished hstep' => 
      rw [hstep] at hstep'
      cases hstep'
      rfl
    | rejected hstep' => cases hstep.symm.trans hstep'
    | running hstep' => cases hstep.symm.trans hstep'
  | rejected hstep =>
    cases h' with
    | finished hstep' => cases hstep.symm.trans hstep'
    | rejected => rfl
    | running hstep' => cases hstep.symm.trans hstep'
  | running hstep _ ih =>
    cases h' with
    | finished hstep' => cases hstep.symm.trans hstep'
    | rejected hstep' => cases hstep.symm.trans hstep'
    | running hstep' hrest =>
      rw [hstep] at hstep'
      cases hstep'
      exact ih hrest

/-! ## What a source means -/

/-- What the lines of a file mean, when the meaning of the files that it includes is given. -/
def fileSemantics (proc : Processor σ) (included : Nat → Text → σ → Option σ) :
    Nesting.Semantics Content Condition σ where
  mark := proc.flushPrefix
  plain k selected content s :=
    match content with
    | .text tokens =>
        if selected then tokens.bind fun tokens ↦ tokens.foldlM proc.append s else some s
    | .empty => proc.flushPrefix s
    | .directive name line =>
        (proc.flushPrefix s).bind fun s ↦
          if selected then
            if directiveNames.any (name.is ·) then
              (proc.directive s name line).bind fun (s, file) ↦
                match file with
                | none => some s
                | some text => included k text s
            else none
          else some s
  holds c s :=
    match c with
    | .expression line => proc.condition s line
    | .defined negated name => name.map fun name ↦ (s, proc.isDefined s name != negated)

/-- What a file means that begins within `k` groups: the parts of its tree that are selected are
processed, one after the other. -/
def treeMeaning (proc : Processor σ) (included : Nat → Text → σ → Option σ) (k : Nat) (text : Text)
    (s : σ) : Option σ :=
  ((lines text).bind Nesting.tree).bind fun items ↦
    items.run (fileSemantics proc included) groupsMax k true s

/-- What a file means, if no more than `depth` files are included by each other from there on. -/
def fileMeaning (proc : Processor σ) : Nat → Nat → Text → σ → Option σ
  | 0 => treeMeaning proc fun _ _ _ ↦ none
  | depth + 1 => treeMeaning proc fun k text s ↦
      (fileMeaning proc depth k text s).bind fun s ↦ (proc.flush s).map proc.leave

/-- What a source means. -/
def meaning (proc : Processor σ) (text : Text) (s : σ) : Option σ :=
  (fileMeaning proc includeDepth 0 text s).bind proc.flush

end CopySpace.Preprocess
