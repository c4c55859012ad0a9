import CopySpace.Link.Labels

/-!
# `copy_link.c`: where the statements of a text are

The passes over a text walk from statement to statement by their offsets, and copy each into a
buffer that was allocated for the longest.  They all see the same statements, which together are the
text without separators and comments.
-/

namespace CopySpace.Link

/-! ## The source -/

section Source

variable (sizeMax : Nat) (assembly : Text)

/-- The loop over a comment in `statement_end`. -/
def lineEnd (i : Nat) : Nat :=
  if h : i < assembly.length then
    if assembly.get ⟨i, h⟩ ≠ '\n' then lineEnd (i + 1) else i
  else i
termination_by assembly.length - i

/-- The loop of `statement_end`: what it returns, and `*next`. -/
def statementEndFrom (quoted escaped : Bool) (i : Nat) : Nat × Nat :=
  if h : i < assembly.length then
    let c := assembly.get ⟨i, h⟩
    if c = '\n' then (i, i + 1)
    else if escaped then statementEndFrom quoted false (i + 1)
    else if quoted && c = '\\' then statementEndFrom quoted true (i + 1)
    else if c = '"' then statementEndFrom (!quoted) false (i + 1)
    else if quoted then statementEndFrom quoted false (i + 1)
    else if c = '#' then
      let line := lineEnd assembly i
      (i, line + if line < assembly.length then 1 else 0)
    else if c = ';' ∨ c = ':' then
      let next := i + 1
      (i + if c = ':' then 1 else 0,
        if c = ':' ∧ assembly[next]? = some '\n' then next + 1 else next)
    else statementEndFrom quoted false (i + 1)
  else (assembly.length, assembly.length)
termination_by assembly.length - i

/-- `statement_end`, with the offset where it begins. -/
structure StatementSpan where
  offset : Nat
  finish : Nat
  next : Nat
  deriving DecidableEq

def spanAt (offset : Nat) : StatementSpan :=
  let (finish, next) := statementEndFrom assembly false false offset
  ⟨offset, finish, next⟩

/-- The bytes of a statement. -/
def StatementSpan.text (span : StatementSpan) : Text :=
  (assembly.drop span.offset).take (span.finish - span.offset)

end Source

/-! ## Separators and comments -/

/-- What the bytes of a text in front of a byte make of it. -/
inductive Scan
  | code
  | quoted
  | escaped
  | comment
  deriving DecidableEq

def Scan.next (scan : Scan) (c : Char) : Scan :=
  if c = '\n' then .code
  else match scan with
  | .code => if c = '"' then .quoted else if c = '#' then .comment else .code
  | .quoted => if c = '\\' then .escaped else if c = '"' then .code else .quoted
  | .escaped => .quoted
  | .comment => .comment

/-- The byte is neither a separator nor in a comment; a colon belongs to its label. -/
def Scan.Keeps (scan : Scan) (c : Char) : Prop :=
  c ≠ '\n' ∧ scan ≠ .comment ∧ (scan = .code → c ≠ '#' ∧ c ≠ ';')

/-- The bytes in front of an offset. -/
def scanAt (assembly : Text) (k : Nat) : Scan := (assembly.take k).foldl Scan.next .code

/-- The text has a byte at the offset that is neither a separator nor in a comment. -/
def Kept (assembly : Text) (k : Nat) : Prop :=
  ∃ c, assembly[k]? = some c ∧ (scanAt assembly k).Keeps c

/-! ## Where a statement ends -/

section Ends

variable {assembly : Text} {quoted escaped : Bool} {i : Nat} {c : Char} {r : Nat × Nat}

@[simp] theorem next_newline (scan : Scan) : scan.next '\n' = .code := if_pos rfl

theorem next_code (hc : c ≠ '\n') : Scan.next .code c =
    if c = '"' then .quoted else if c = '#' then .comment else .code := if_neg hc

theorem next_quoted (hc : c ≠ '\n') : Scan.next .quoted c =
    if c = '\\' then .escaped else if c = '"' then .code else .quoted := if_neg hc

theorem next_escaped (hc : c ≠ '\n') : Scan.next .escaped c = .quoted := if_neg hc

theorem next_comment (hc : c ≠ '\n') : Scan.next .comment c = .comment := if_neg hc

theorem scanAt_succ (h : assembly[i]? = some c) :
    scanAt assembly (i + 1) = (scanAt assembly i).next c := by
  rw [scanAt, List.take_add_one, h, List.foldl_append]
  rfl

theorem kept_iff (h : assembly[i]? = some c) : Kept assembly i ↔ (scanAt assembly i).Keeps c := by
  rw [Kept, h]
  constructor
  · rintro ⟨c', hc, hkeeps⟩
    exact Option.some.inj hc ▸ hkeeps
  · exact fun hkeeps ↦ ⟨c, rfl, hkeeps⟩

/-! ### Bounds -/

theorem lineEnd_bounds (h : i ≤ assembly.length) :
    i ≤ lineEnd assembly i ∧ lineEnd assembly i ≤ assembly.length := by
  fun_induction lineEnd assembly i with
  | case1 i hi hc ih => exact ⟨(Nat.le_succ i).trans (ih hi).1, (ih hi).2⟩
  | case2 i hi hc => exact ⟨le_rfl, h⟩
  | case3 i hi => exact ⟨le_rfl, h⟩

/-- A statement ends in the text, not after the next one begins. -/
structure Bounds (assembly : Text) (i : Nat) (r : Nat × Nat) : Prop where
  le_finish : i ≤ r.1
  finish_le : r.1 ≤ r.2
  next_le : r.2 ≤ assembly.length
  lt_next : i < assembly.length → i < r.2

theorem Bounds.onward (h : Bounds assembly (i + 1) r) : Bounds assembly i r where
  le_finish := (Nat.le_succ i).trans h.le_finish
  finish_le := h.finish_le
  next_le := h.next_le
  lt_next _ := h.le_finish.trans h.finish_le

theorem statementEndFrom_bounds (h : i ≤ assembly.length) :
    Bounds assembly i (statementEndFrom assembly quoted escaped i) := by
  fun_induction statementEndFrom assembly quoted escaped i with
  | case1 quoted escaped i hi c hc => exact ⟨le_rfl, Nat.le_succ i, hi, fun _ ↦ Nat.lt_succ_self i⟩
  | case2 quoted i hi c hc ih => exact (ih hi).onward
  | case3 quoted escaped i hi c _ _ _ ih => exact (ih hi).onward
  | case4 quoted escaped i hi c _ _ _ _ ih => exact (ih hi).onward
  | case5 escaped i hi c _ _ _ _ ih => exact (ih hi).onward
  | case6 quoted escaped i hi c _ _ _ _ _ hc line =>
      have hline : line = lineEnd assembly (i + 1) := by
        have hne : assembly.get ⟨i, hi⟩ ≠ '\n' := by
          change c ≠ '\n'
          rw [hc]
          decide
        change lineEnd assembly i = _
        rw [lineEnd, dif_pos hi, if_pos hne]
      obtain ⟨hle, hlength⟩ := lineEnd_bounds (i := i + 1) hi
      rw [← hline] at hle hlength
      refine ⟨le_rfl, ?_, ?_, fun _ ↦ ?_⟩
      · dsimp only
        omega
      · dsimp only
        split_ifs <;> omega
      · dsimp only
        omega
  | case7 quoted escaped i hi c _ _ _ _ _ _ hc next =>
      have hnext : assembly[next]? = some '\n' → i + 1 < assembly.length :=
        fun h ↦ (List.getElem?_eq_some_iff.mp h).1
      refine ⟨Nat.le_add_right _ _, ?_, ?_, fun _ ↦ ?_⟩
      · dsimp only
        split_ifs <;> omega
      · dsimp only
        split_ifs with hline
        · exact hnext hline.2
        · exact hi
      · dsimp only
        split_ifs <;> omega
  | case8 quoted escaped i hi c _ _ _ _ _ _ _ ih => exact (ih hi).onward
  | case9 quoted escaped i hi => exact ⟨h, le_rfl, le_rfl, fun h ↦ absurd h hi⟩

/-! ### Bytes -/

/-- From an offset on, the bytes up to the first result are kept, those up to the second are not,
and code follows. -/
structure Ends (assembly : Text) (i : Nat) (r : Nat × Nat) : Prop where
  kept : ∀ k, i ≤ k → k < r.1 → Kept assembly k
  dropped : ∀ k, r.1 ≤ k → k < r.2 → ¬ Kept assembly k
  code : r.2 < assembly.length → scanAt assembly r.2 = .code

/-- One byte more in front. -/
theorem Ends.onward (h : Ends assembly (i + 1) r) (hkept : Kept assembly i) :
    Ends assembly i r where
  kept k hi hk := by
    rcases hi.eq_or_lt with rfl | hi
    · exact hkept
    · exact h.kept k hi hk
  dropped := h.dropped
  code := h.code

/-- Nothing more. -/
theorem Ends.here (h : i < assembly.length → scanAt assembly i = .code) :
    Ends assembly i (i, i) where
  kept _ hi hk := absurd hk hi.not_gt
  dropped _ hi hk := absurd hk hi.not_gt
  code := h

/-- One byte that is dropped. -/
theorem Ends.single (h : assembly[i]? = some c) (hdropped : ¬ (scanAt assembly i).Keeps c)
    (hcode : (scanAt assembly i).next c = .code) : Ends assembly i (i, i + 1) where
  kept _ hi hk := absurd hk hi.not_gt
  dropped k hi hk := by
    obtain rfl := Nat.le_antisymm (Nat.lt_succ_iff.mp hk) hi
    rwa [kept_iff h]
  code _ := by rw [scanAt_succ h, hcode]

/-- A comment lasts to the end of its line. -/
theorem scanAt_lineEnd (hi : i ≤ assembly.length) (hscan : scanAt assembly i = .comment) :
    (∀ k, i ≤ k → k ≤ lineEnd assembly i → scanAt assembly k = .comment) ∧
      (lineEnd assembly i < assembly.length → assembly[lineEnd assembly i]? = some '\n') := by
  fun_induction lineEnd assembly i with
  | case1 i hlt hc ih =>
      have hget : assembly[i]? = some (assembly.get ⟨i, hlt⟩) := List.getElem?_eq_getElem hlt
      have hnext : scanAt assembly (i + 1) = .comment := by
        rw [scanAt_succ hget, hscan, next_comment hc]
      obtain ⟨hcomment, hline⟩ := ih hlt hnext
      refine ⟨fun k hk hle ↦ ?_, hline⟩
      rcases hk.eq_or_lt with rfl | hk
      · exact hscan
      · exact hcomment k hk hle
  | case2 i hlt hc =>
      refine ⟨fun k hk hle ↦ ?_, fun _ ↦ ?_⟩
      · rwa [Nat.le_antisymm hle hk]
      · rw [List.getElem?_eq_getElem hlt]
        exact congrArg some (not_not.mp hc)
  | case3 i hlt =>
      refine ⟨fun k hk hle ↦ ?_, fun h ↦ absurd h hlt⟩
      rwa [Nat.le_antisymm hle hk]

/-- A comment. -/
theorem Ends.comment (h : assembly[i]? = some '#') (hscan : scanAt assembly i = .code) :
    Ends assembly i (i, lineEnd assembly (i + 1) +
      if lineEnd assembly (i + 1) < assembly.length then 1 else 0) := by
  have hcomment : scanAt assembly (i + 1) = .comment := by
    rw [scanAt_succ h, hscan]
    rfl
  obtain ⟨hline, hend⟩ := scanAt_lineEnd (List.getElem?_eq_some_iff.mp h).1 hcomment
  refine ⟨fun k hi hk ↦ absurd hk hi.not_gt, fun k hi hk ↦ ?_, fun hlt ↦ ?_⟩
  · rcases hi.eq_or_lt with rfl | hi
    · rw [kept_iff h, hscan]
      exact fun hkeeps ↦ (hkeeps.2.2 rfl).1 rfl
    · have hle : k ≤ lineEnd assembly (i + 1) := by
        dsimp only at hk
        split_ifs at hk <;> omega
      rintro ⟨c, -, hkeeps⟩
      exact hkeeps.2.1 (hline k hi hle)
  · dsimp only at hlt ⊢
    split_ifs at hlt ⊢ with hin
    · rw [scanAt_succ (hend hin), next_newline]
    · omega

/-- What the flags of the loop say. -/
def scanOf (quoted escaped : Bool) : Scan :=
  if escaped then .escaped else if quoted then .quoted else .code

theorem statementEndFrom_ends (h : i ≤ assembly.length) (hflags : escaped = true → quoted = true)
    (hscan : scanAt assembly i = scanOf quoted escaped) :
    Ends assembly i (statementEndFrom assembly quoted escaped i) := by
  fun_induction statementEndFrom assembly quoted escaped i with
  | case1 quoted escaped i hi c hc =>
      have hget : assembly[i]? = some c := List.getElem?_eq_getElem hi
      refine Ends.single hget (fun hkeeps ↦ hkeeps.1 hc) ?_
      rw [hc, next_newline]
  | case2 quoted i hi c hc ih =>
      have hget : assembly[i]? = some c := List.getElem?_eq_getElem hi
      obtain rfl := hflags rfl
      have hscan : scanAt assembly i = .escaped := hscan
      refine (ih hi nofun ?_).onward ((kept_iff hget).mpr ?_)
      · rw [scanAt_succ hget, hscan, next_escaped hc]
        rfl
      · rw [hscan]
        exact ⟨hc, nofun, nofun⟩
  | case3 quoted escaped i hi c hc hescaped hslash ih =>
      have hget : assembly[i]? = some c := List.getElem?_eq_getElem hi
      obtain rfl := Bool.eq_false_of_not_eq_true hescaped
      obtain ⟨rfl, hslash⟩ := Bool.and_eq_true_iff.mp hslash
      have hscan : scanAt assembly i = .quoted := hscan
      refine (ih hi (fun _ ↦ rfl) ?_).onward ((kept_iff hget).mpr ?_)
      · rw [scanAt_succ hget, hscan, next_quoted hc, if_pos (of_decide_eq_true hslash)]
        rfl
      · rw [hscan]
        exact ⟨hc, nofun, nofun⟩
  | case4 quoted escaped i hi c hc hescaped hslash hquote ih =>
      have hget : assembly[i]? = some c := List.getElem?_eq_getElem hi
      obtain rfl := Bool.eq_false_of_not_eq_true hescaped
      refine (ih hi nofun ?_).onward ((kept_iff hget).mpr ?_)
      · rw [scanAt_succ hget, hscan, hquote]
        cases quoted <;> rfl
      · rw [hscan, hquote]
        cases quoted <;> exact ⟨by decide, nofun, fun _ ↦ by decide⟩
  | case5 escaped i hi c hc hescaped hquote hslash ih =>
      have hget : assembly[i]? = some c := List.getElem?_eq_getElem hi
      obtain rfl := Bool.eq_false_of_not_eq_true hescaped
      have hscan : scanAt assembly i = .quoted := hscan
      have hslash : c ≠ '\\' := by simpa using hslash
      refine (ih hi nofun ?_).onward ((kept_iff hget).mpr ?_)
      · rw [scanAt_succ hget, hscan, next_quoted hc, if_neg hslash, if_neg hquote]
        rfl
      · rw [hscan]
        exact ⟨hc, nofun, nofun⟩
  | case6 quoted escaped i hi c hc hescaped hslash hquote hquoted hhash line =>
      have hget : assembly[i]? = some c := List.getElem?_eq_getElem hi
      obtain rfl := Bool.eq_false_of_not_eq_true hescaped
      obtain rfl := Bool.eq_false_of_not_eq_true hquoted
      have hline : line = lineEnd assembly (i + 1) := by
        change lineEnd assembly i = _
        rw [lineEnd, dif_pos hi, if_pos hc]
      rw [hline]
      exact Ends.comment (hhash ▸ hget) hscan
  | case7 quoted escaped i hi c hc hescaped hslash hquote hquoted hhash hsep next =>
      have hget : assembly[i]? = some c := List.getElem?_eq_getElem hi
      obtain rfl := Bool.eq_false_of_not_eq_true hescaped
      obtain rfl := Bool.eq_false_of_not_eq_true hquoted
      have hscan : scanAt assembly i = .code := hscan
      have hnext : (scanAt assembly i).next c = .code := by
        rw [hscan, next_code hc, if_neg hquote, if_neg hhash]
      rcases hsep with hsep | hsep
      · -- a semicolon is dropped
        have hcolon : c ≠ ':' := by
          rw [hsep]
          decide
        rw [if_neg hcolon, if_neg fun h ↦ hcolon h.1]
        refine Ends.single hget (fun hkeeps ↦ ?_) hnext
        exact (hkeeps.2.2 hscan).2 hsep
      · -- a colon is kept, and a newline after it dropped
        have hkept : Kept assembly i := by
          rw [kept_iff hget, hscan, hsep]
          exact ⟨by decide, nofun, fun _ ↦ by decide⟩
        rw [if_pos hsep]
        refine Ends.onward ?_ hkept
        by_cases hline : assembly[next]? = some '\n'
        · rw [if_pos ⟨hsep, hline⟩]
          exact Ends.single hline (fun hkeeps ↦ hkeeps.1 rfl) (next_newline _)
        · rw [if_neg fun h ↦ hline h.2]
          exact Ends.here fun _ ↦ by rw [scanAt_succ hget, hnext]
  | case8 quoted escaped i hi c hc hescaped hslash hquote hquoted hhash hsep ih =>
      have hget : assembly[i]? = some c := List.getElem?_eq_getElem hi
      obtain rfl := Bool.eq_false_of_not_eq_true hescaped
      obtain rfl := Bool.eq_false_of_not_eq_true hquoted
      have hscan : scanAt assembly i = .code := hscan
      refine (ih hi nofun ?_).onward ((kept_iff hget).mpr ?_)
      · rw [scanAt_succ hget, hscan, next_code hc, if_neg hquote, if_neg hhash]
        rfl
      · rw [hscan]
        exact ⟨hc, nofun, fun _ ↦ ⟨hhash, fun h ↦ hsep (.inl h)⟩⟩
  | case9 quoted escaped i hi =>
      rw [Nat.le_antisymm h (Nat.le_of_not_lt hi)]
      exact Ends.here fun h ↦ absurd h (Nat.lt_irrefl _)

end Ends

/-! ## The passes -/

section Passes

variable (assembly : Text)

theorem spanAt_bounds {offset : Nat} (h : offset ≤ assembly.length) :
    Bounds assembly offset
      ((spanAt assembly offset).finish, (spanAt assembly offset).next) :=
  statementEndFrom_bounds h

/-- The next statement begins later. -/
theorem lt_next {offset : Nat} (h : offset < assembly.length) :
    assembly.length - (spanAt assembly offset).next < assembly.length - offset := by
  have hlt := (spanAt_bounds assembly h.le).lt_next h
  dsimp only at hlt
  omega

/-- The loop of `statement_capacity`. -/
def capacityFrom (sizeMax capacity offset : Nat) : Nat :=
  if _h : offset < assembly.length then
    let span := spanAt assembly offset
    if span.finish - span.offset = sizeMax then 0
    else
      capacityFrom sizeMax
        (if span.finish - span.offset + 1 > capacity then span.finish - span.offset + 1
          else capacity) span.next
  else capacity
termination_by assembly.length - offset
decreasing_by exact lt_next assembly _h

/-- `statement_capacity` -/
def statementCapacity (sizeMax : Nat) : Nat := capacityFrom assembly sizeMax 1 0

/-- How a pass ends early: a statement does not fit the buffer, or anything else. -/
inductive Stop
  | overrun
  | failed
  deriving DecidableEq

/-- The statement with a NUL in a buffer of so many bytes. -/
def copyStatement (capacity : Nat) (span : StatementSpan) : Except Stop Text :=
  if span.finish - span.offset < capacity then .ok (span.text assembly) else .error .overrun

/-- A failure of what is done with a statement. -/
def orStop {σ : Type} : Option σ → Except Stop σ
  | some s => .ok s
  | none => .error .failed

/-- The loop of `link_image` over the statements. -/
def linkLoop {σ : Type} (capacity : Nat) (body : StatementSpan → Text → σ → Option σ) (offset : Nat)
    (s : σ) : Except Stop σ :=
  if _h : offset < assembly.length then do
    let span := spanAt assembly offset
    let buffer ← copyStatement assembly capacity span
    let s ← orStop (body span buffer s)
    linkLoop capacity body span.next s
  else .ok s
termination_by assembly.length - offset
decreasing_by exact lt_next assembly _h

/-- `link_image` from the computation of the capacity to the end of the loop. -/
def linkImage {σ : Type} (sizeMax : Nat) (body : StatementSpan → Text → σ → Option σ) (s : σ) :
    Except Stop σ :=
  let capacity := statementCapacity assembly sizeMax
  if capacity = 0 then .error .failed else linkLoop assembly capacity body 0 s

/-- `object_line`: the buffer, and the offset. -/
def objectLine (capacity offset : Nat) : Except Stop (Text × Nat) := do
  let span := spanAt assembly offset
  let buffer ← copyStatement assembly capacity span
  .ok (stripComment false false buffer, span.next)

theorem objectLine_next {capacity offset : Nat} {buffer : Text} {next : Nat}
    (h : objectLine assembly capacity offset = .ok (buffer, next)) :
    next = (spanAt assembly offset).next := by
  rw [objectLine, copyStatement] at h
  split_ifs at h
  · exact (Prod.mk.inj (Except.ok.inj h)).2.symm
  · cases h

/-- The loop of `object_references`, `object_scan` and `object_rewrite` over the statements. -/
def objectLoop {σ : Type} (capacity : Nat) (body : Nat → Text → σ → Option σ) (offset : Nat)
    (s : σ) : Except Stop σ :=
  if _h : offset < assembly.length then
    match _hline : objectLine assembly capacity offset with
    | .error stop => .error stop
    | .ok (buffer, next) =>
        match body offset buffer s with
        | none => .error .failed
        | some s => objectLoop capacity body next s
  else .ok s
termination_by assembly.length - offset
decreasing_by
  rw [objectLine_next assembly _hline]
  exact lt_next assembly _h

/-- The loop of `numeric_target`. -/
def numericTargetLoop (before number : Nat) (forward : Bool) (offset : Nat) (found : Option Nat) :
    Option Nat :=
  if _h : offset < assembly.length then
    let span := spanAt assembly offset
    if definesNumber number (span.text assembly) ∧
        ((forward ∧ offset > before) ∨ (¬ forward ∧ offset < before)) then
      if forward then some offset
      else numericTargetLoop before number forward span.next (some offset)
    else numericTargetLoop before number forward span.next found
  else found
termination_by assembly.length - offset
decreasing_by all_goals exact lt_next assembly _h

/-- The statements from an offset on. -/
def statementsFrom (offset : Nat) : List StatementSpan :=
  if _h : offset < assembly.length then
    spanAt assembly offset :: statementsFrom (spanAt assembly offset).next
  else []
termination_by assembly.length - offset
decreasing_by exact lt_next assembly _h

/-- The statements of a text. -/
def statements : List StatementSpan := statementsFrom assembly 0

end Passes

/-- The loop over the objects of a link that computes the capacity of their buffer. -/
def objectsCapacity (sizeMax capacity : Nat) : List Text → Option Nat
  | [] => some capacity
  | assembly :: objects =>
      let n := statementCapacity assembly sizeMax
      if n = 0 then none
      else objectsCapacity sizeMax (if n > capacity then n else capacity) objects

/-! ## What the passes see -/

section Seen

variable {assembly : Text} {offset capacity : Nat}

/-- Statements that follow on one another from an offset to the end of a text. -/
def Consecutive (size : Nat) : Nat → List StatementSpan → Prop
  | offset, [] => offset = size
  | offset, span :: spans =>
      span.offset = offset ∧ offset ≤ span.finish ∧ span.finish ≤ span.next ∧ offset < span.next ∧
        Consecutive size span.next spans

theorem statementsFrom_cons (h : offset < assembly.length) : statementsFrom assembly offset =
    spanAt assembly offset :: statementsFrom assembly (spanAt assembly offset).next := by
  rw [statementsFrom, dif_pos h]

theorem statementsFrom_nil (h : ¬ offset < assembly.length) :
    statementsFrom assembly offset = [] := by
  rw [statementsFrom, dif_neg h]

theorem statementsFrom_consecutive (h : offset ≤ assembly.length) :
    Consecutive assembly.length offset (statementsFrom assembly offset) := by
  fun_induction statementsFrom assembly offset with
  | case1 offset hlt ih =>
      have hbounds := spanAt_bounds assembly h
      exact ⟨rfl, hbounds.le_finish, hbounds.finish_le, hbounds.lt_next hlt, ih hbounds.next_le⟩
  | case2 offset hge => exact Nat.le_antisymm h (Nat.le_of_not_lt hge)

theorem Consecutive.le_offset {size : Nat} {spans : List StatementSpan}
    (h : Consecutive size offset spans) {span : StatementSpan} (hspan : span ∈ spans) :
    offset ≤ span.offset := by
  induction spans generalizing offset with
  | nil => cases hspan
  | cons first spans ih =>
      obtain ⟨hfirst, -, -, hlt, hrest⟩ := h
      rcases List.mem_cons.mp hspan with rfl | hspan
      · exact hfirst.ge
      · exact hlt.le.trans (ih hrest hspan)

/-- The statements from an offset on have the bytes that are kept. -/
theorem kept_iff_statementsFrom (h : offset ≤ assembly.length)
    (hcode : offset < assembly.length → scanAt assembly offset = .code) (k : Nat)
    (hk : offset ≤ k) : Kept assembly k ↔
      ∃ span ∈ statementsFrom assembly offset, span.offset ≤ k ∧ k < span.finish := by
  fun_induction statementsFrom assembly offset with
  | case1 offset hlt ih =>
      have hbounds := spanAt_bounds assembly h
      have hends : Ends assembly offset
          ((spanAt assembly offset).finish, (spanAt assembly offset).next) :=
        statementEndFrom_ends h nofun (hcode hlt)
      have ih := ih hbounds.next_le hends.code
      simp only [List.mem_cons, exists_eq_or_imp]
      by_cases hnext : (spanAt assembly offset).next ≤ k
      · rw [ih hnext]
        refine (or_iff_right fun hin ↦ ?_).symm
        exact absurd hin.2 (not_lt_of_ge (hbounds.finish_le.trans hnext))
      · have hlast : ¬ ∃ span ∈ statementsFrom assembly (spanAt assembly offset).next,
            span.offset ≤ k ∧ k < span.finish := by
          rintro ⟨span, hspan, hle, -⟩
          exact hnext (((statementsFrom_consecutive hbounds.next_le).le_offset hspan).trans hle)
        rw [or_iff_left hlast]
        constructor
        · intro hkept
          refine ⟨hk, Nat.lt_of_not_le fun hle ↦ ?_⟩
          exact hends.dropped k hle (Nat.lt_of_not_le hnext) hkept
        · exact fun hin ↦ hends.kept k hk hin.2
  | case2 offset hge =>
      refine iff_of_false ?_ ?_
      · rintro ⟨c, hc, -⟩
        exact hge (hk.trans_lt (List.getElem?_eq_some_iff.mp hc).1)
      · rintro ⟨span, hspan, -⟩
        cases hspan

/-! ### Buffers -/

theorem capacityFrom_spec {sizeMax : Nat} (hpos : 0 < capacity) :
    capacityFrom assembly sizeMax capacity offset = 0 ∨
      capacity ≤ capacityFrom assembly sizeMax capacity offset ∧
        ∀ span ∈ statementsFrom assembly offset,
          span.finish - span.offset < capacityFrom assembly sizeMax capacity offset := by
  fun_induction capacityFrom assembly sizeMax capacity offset with
  | case1 capacity offset hlt span hmax => exact .inl rfl
  | case2 capacity offset hlt span hmax ih =>
      rw [statementsFrom_cons hlt]
      rcases ih (by split_ifs <;> omega) with hzero | ⟨hle, hfits⟩
      · exact .inl hzero
      · refine .inr ⟨le_trans (by split_ifs <;> omega) hle, fun other hother ↦ ?_⟩
        rcases List.mem_cons.mp hother with rfl | hother
        · refine lt_of_lt_of_le ?_ hle
          change span.finish - span.offset < _
          split_ifs <;> omega
        · exact hfits other hother
  | case3 capacity offset hge =>
      rw [statementsFrom_nil hge]
      exact .inr ⟨le_rfl, fun span hspan ↦ nomatch hspan⟩

/-- Every statement fits the buffer, with a NUL. -/
def FitsBuffer (assembly : Text) (capacity : Nat) : Prop :=
  ∀ span ∈ statements assembly, span.finish - span.offset < capacity

theorem statementCapacity_fits {sizeMax : Nat} (h : statementCapacity assembly sizeMax ≠ 0) :
    FitsBuffer assembly (statementCapacity assembly sizeMax) :=
  ((capacityFrom_spec Nat.one_pos).resolve_left h).2

theorem objectsCapacity_fits {sizeMax : Nat} {objects : List Text} {result : Nat}
    (h : objectsCapacity sizeMax capacity objects = some result) :
    capacity ≤ result ∧ ∀ assembly ∈ objects, FitsBuffer assembly result := by
  induction objects generalizing capacity with
  | nil => exact ⟨(Option.some.inj h).le, fun _ hmem ↦ nomatch hmem⟩
  | cons first objects ih =>
      rw [objectsCapacity] at h
      split_ifs at h with hzero hlarger
      · obtain ⟨hle, hfits⟩ := ih h
        refine ⟨hlarger.le.trans hle, fun assembly hmem ↦ ?_⟩
        rcases List.mem_cons.mp hmem with rfl | hmem
        · exact fun span hspan ↦ (statementCapacity_fits hzero span hspan).trans_le hle
        · exact hfits assembly hmem
      · obtain ⟨hle, hfits⟩ := ih h
        refine ⟨hle, fun assembly hmem ↦ ?_⟩
        rcases List.mem_cons.mp hmem with rfl | hmem
        · have hle := (Nat.le_of_not_lt hlarger).trans hle
          exact fun span hspan ↦ (statementCapacity_fits hzero span hspan).trans_le hle
        · exact hfits assembly hmem

/-! ### Rounds -/

theorem copyStatement_fits {span : StatementSpan} (h : span.finish - span.offset < capacity) :
    copyStatement assembly capacity span = .ok (span.text assembly) := if_pos h

/-- The link pass goes over the statements. -/
theorem linkLoop_eq {σ : Type} (body : StatementSpan → Text → σ → Option σ) (s : σ)
    (hfits : ∀ span ∈ statementsFrom assembly offset, span.finish - span.offset < capacity) :
    linkLoop assembly capacity body offset s =
      orStop ((statementsFrom assembly offset).foldlM
        (fun s span ↦ body span (span.text assembly) s) s) := by
  induction offset using statementsFrom.induct assembly generalizing s with
  | case1 offset hlt ih =>
      rw [statementsFrom_cons hlt] at hfits ⊢
      rw [linkLoop, dif_pos hlt, List.foldlM_cons]
      dsimp only [bind, Except.bind]
      rw [copyStatement_fits (hfits _ List.mem_cons_self)]
      dsimp only
      cases body (spanAt assembly offset) ((spanAt assembly offset).text assembly) s with
      | none => rfl
      | some s => exact ih s fun span hspan ↦ hfits span (List.mem_cons_of_mem _ hspan)
  | case2 offset hge =>
      rw [linkLoop, dif_neg hge, statementsFrom_nil hge]
      rfl

/-- The object passes go over the statements. -/
theorem objectLoop_eq {σ : Type} (body : Nat → Text → σ → Option σ) (s : σ)
    (hfits : ∀ span ∈ statementsFrom assembly offset, span.finish - span.offset < capacity) :
    objectLoop assembly capacity body offset s =
      orStop ((statementsFrom assembly offset).foldlM
        (fun s span ↦ body span.offset (stripComment false false (span.text assembly)) s) s) := by
  induction offset using statementsFrom.induct assembly generalizing s with
  | case1 offset hlt ih =>
      rw [statementsFrom_cons hlt] at hfits ⊢
      have hline : objectLine assembly capacity offset =
          .ok (stripComment false false ((spanAt assembly offset).text assembly),
            (spanAt assembly offset).next) := by
        rw [objectLine, copyStatement_fits (hfits _ List.mem_cons_self)]
        rfl
      rw [objectLoop, dif_pos hlt, List.foldlM_cons]
      split
      · next stop herror =>
          rw [hline] at herror
          cases herror
      · next buffer next hok =>
          rw [hline] at hok
          obtain ⟨rfl, rfl⟩ := Prod.mk.inj (Except.ok.inj hok)
          change _ = orStop ((body offset _ s).bind _)
          cases body offset (stripComment false false
            ((spanAt assembly offset).text assembly)) s with
          | none => rfl
          | some s => exact ih s fun span hspan ↦ hfits span (List.mem_cons_of_mem _ hspan)
  | case2 offset hge =>
      rw [objectLoop, dif_neg hge, statementsFrom_nil hge]
      rfl

/-- The statement defines the number on the right side of an offset. -/
def isTarget (assembly : Text) (before number : Nat) (forward : Bool) (span : StatementSpan) :
    Bool :=
  definesNumber number (span.text assembly) ∧
    ((forward ∧ span.offset > before) ∨ (¬ forward ∧ span.offset < before))

/-- The first of the statements after an offset, or the last one before it. -/
def nearest (forward : Bool) (spans : List StatementSpan) : Option Nat :=
  (if forward then spans.head? else spans.getLast?).map StatementSpan.offset

/-- The search for a numeric label goes over the statements. -/
theorem numericTargetLoop_eq (before number : Nat) (forward : Bool) (found : Option Nat) :
    numericTargetLoop assembly before number forward offset found =
      (nearest forward
        ((statementsFrom assembly offset).filter (isTarget assembly before number forward))).or
        found := by
  induction offset using statementsFrom.induct assembly generalizing found with
  | case1 offset hlt ih =>
      have hoffset : (spanAt assembly offset).offset = offset := rfl
      rw [statementsFrom_cons hlt, numericTargetLoop, dif_pos hlt]
      dsimp only
      by_cases htarget : isTarget assembly before number forward (spanAt assembly offset) = true
      · rw [List.filter_cons_of_pos htarget]
        rw [isTarget, decide_eq_true_eq, hoffset] at htarget
        rw [if_pos htarget]
        cases forward with
        | true => rfl
        | false =>
            rw [if_neg Bool.false_ne_true, ih, nearest, nearest, if_neg Bool.false_ne_true,
              if_neg Bool.false_ne_true, List.getLast?_cons]
            cases List.getLast? (List.filter (isTarget assembly before number false)
              (statementsFrom assembly (spanAt assembly offset).next)) <;> rfl
      · rw [List.filter_cons_of_neg htarget]
        rw [isTarget, decide_eq_true_eq, hoffset] at htarget
        rw [if_neg htarget, ih]
  | case2 offset hge =>
      rw [numericTargetLoop, dif_neg hge, statementsFrom_nil hge]
      cases forward <;> rfl

/-! ### The statements as texts -/

/-- The results are those for the rest of the text. -/
structure Reads (assembly : Text) (i : Nat) (r : Nat × Nat) (texts : Text × Text) : Prop where
  finish_eq : r.1 = i + texts.1.length
  text_prefix : texts.1 <+: assembly.drop i
  drop_eq : assembly.drop r.2 = texts.2

theorem Reads.onward {i : Nat} {r : Nat × Nat} {texts : Text × Text} {c : Char}
    (h : Reads assembly (i + 1) r texts) (hdrop : assembly.drop i = c :: assembly.drop (i + 1)) :
    Reads assembly i r (c :: texts.1, texts.2) where
  finish_eq := by rw [h.finish_eq, List.length_cons]; omega
  text_prefix := by rw [hdrop]; exact List.cons_prefix_cons.mpr ⟨rfl, h.text_prefix⟩
  drop_eq := h.drop_eq

theorem drop_lineEnd {i : Nat} :
    assembly.drop (lineEnd assembly i) = (assembly.drop i).dropWhile (· ≠ '\n') := by
  fun_induction lineEnd assembly i with
  | case1 i hi hc ih =>
      rw [ih, List.drop_eq_getElem_cons hi, List.dropWhile_cons_of_pos (by simpa using hc)]
  | case2 i hi hc =>
      rw [List.drop_eq_getElem_cons hi, List.dropWhile_cons_of_neg (by simpa using hc)]
  | case3 i hi => rw [List.drop_eq_nil_of_le (Nat.le_of_not_lt hi), List.dropWhile_nil]

theorem statementEndFrom_reads {quoted escaped : Bool} {i : Nat} (h : i ≤ assembly.length) :
    Reads assembly i (statementEndFrom assembly quoted escaped i)
      (statementEnd quoted escaped (assembly.drop i)) := by
  fun_induction statementEndFrom assembly quoted escaped i with
  | case1 quoted escaped i hi c hc =>
      have hdrop : assembly.drop i = c :: assembly.drop (i + 1) := List.drop_eq_getElem_cons hi
      rw [hdrop, statementEnd, if_pos hc]
      exact ⟨rfl, List.nil_prefix, rfl⟩
  | case2 quoted i hi c hc ih =>
      have hdrop : assembly.drop i = c :: assembly.drop (i + 1) := List.drop_eq_getElem_cons hi
      rw [hdrop, statementEnd, if_neg hc, if_pos rfl]
      exact (ih hi).onward hdrop
  | case3 quoted escaped i hi c hc hescaped hslash ih =>
      have hdrop : assembly.drop i = c :: assembly.drop (i + 1) := List.drop_eq_getElem_cons hi
      rw [hdrop, statementEnd, if_neg hc, if_neg hescaped, if_pos hslash]
      exact (ih hi).onward hdrop
  | case4 quoted escaped i hi c hc hescaped hslash hquote ih =>
      have hdrop : assembly.drop i = c :: assembly.drop (i + 1) := List.drop_eq_getElem_cons hi
      rw [hdrop, statementEnd, if_neg hc, if_neg hescaped, if_neg hslash, if_pos hquote]
      exact (ih hi).onward hdrop
  | case5 escaped i hi c hc hescaped hquote hslash ih =>
      have hdrop : assembly.drop i = c :: assembly.drop (i + 1) := List.drop_eq_getElem_cons hi
      rw [hdrop, statementEnd, if_neg hc, if_neg hescaped, if_neg hslash, if_neg hquote, if_pos rfl]
      exact (ih hi).onward hdrop
  | case6 quoted escaped i hi c hc hescaped hslash hquote hquoted hhash line =>
      have hdrop : assembly.drop i = c :: assembly.drop (i + 1) := List.drop_eq_getElem_cons hi
      have hline : assembly.drop line = (assembly.drop (i + 1)).dropWhile (· ≠ '\n') := by
        change assembly.drop (lineEnd assembly i) = _
        rw [drop_lineEnd, hdrop, List.dropWhile_cons_of_pos (by simpa using hc)]
      rw [hdrop, statementEnd, if_neg hc, if_neg hescaped, if_neg hslash, if_neg hquote,
        if_neg hquoted, if_pos hhash]
      refine ⟨rfl, List.nil_prefix, ?_⟩
      rw [← hline, List.drop_drop]
      dsimp only
      split_ifs with hlt
      · rfl
      · rw [List.drop_eq_nil_of_le (by omega), List.drop_eq_nil_of_le (by omega)]
  | case7 quoted escaped i hi c hc hescaped hslash hquote hquoted hhash hsep next =>
      have hdrop : assembly.drop i = c :: assembly.drop (i + 1) := List.drop_eq_getElem_cons hi
      rw [hdrop, statementEnd, if_neg hc, if_neg hescaped, if_neg hslash, if_neg hquote,
        if_neg hquoted, if_neg hhash]
      rcases hsep with hsep | hsep
      · have hcolon : c ≠ ':' := by
          rw [hsep]
          decide
        rw [if_pos hsep, if_neg hcolon, if_neg fun h ↦ hcolon h.1]
        exact ⟨rfl, List.nil_prefix, rfl⟩
      · have hsemicolon : c ≠ ';' := by
          rw [hsep]
          decide
        rw [if_neg hsemicolon, if_pos hsep, if_pos hsep, List.head?_drop]
        refine ⟨rfl, ?_, ?_⟩
        · rw [hdrop, hsep]
          exact List.cons_prefix_cons.mpr ⟨rfl, List.nil_prefix⟩
        · dsimp only
          by_cases hline : assembly[next]? = some '\n'
          · rw [if_pos ⟨hsep, hline⟩, if_pos hline, List.tail_drop]
          · rw [if_neg fun h ↦ hline h.2, if_neg hline]
  | case8 quoted escaped i hi c hc hescaped hslash hquote hquoted hhash hsep ih =>
      have hdrop : assembly.drop i = c :: assembly.drop (i + 1) := List.drop_eq_getElem_cons hi
      rw [hdrop, statementEnd, if_neg hc, if_neg hescaped, if_neg hslash, if_neg hquote,
        if_neg hquoted, if_neg hhash, if_neg fun h ↦ hsep (.inl h), if_neg fun h ↦ hsep (.inr h)]
      exact (ih hi).onward hdrop
  | case9 quoted escaped i hi =>
      have hend : assembly.drop i = [] := List.drop_eq_nil_of_le (Nat.le_of_not_lt hi)
      rw [hend]
      refine ⟨Nat.le_antisymm (Nat.le_of_not_lt hi) h, List.nil_prefix, List.drop_length⟩

/-- The statement at an offset is the one at the front of the rest. -/
theorem spanAt_text (h : offset ≤ assembly.length) :
    (spanAt assembly offset).text assembly =
      (statementEnd false false (assembly.drop offset)).1 := by
  have hreads : Reads assembly offset (statementEndFrom assembly false false offset)
      (statementEnd false false (assembly.drop offset)) := statementEndFrom_reads h
  have hlength : (spanAt assembly offset).finish - offset =
      (statementEnd false false (assembly.drop offset)).1.length := by
    rw [← Nat.add_sub_cancel_left (n := offset)
      (m := (statementEnd false false (assembly.drop offset)).1.length), ← hreads.finish_eq]
    rfl
  change (assembly.drop offset).take ((spanAt assembly offset).finish - offset) = _
  rw [hlength]
  exact (List.prefix_iff_eq_take.mp hreads.text_prefix).symm

theorem spanAt_drop (h : offset ≤ assembly.length) :
    assembly.drop (spanAt assembly offset).next =
      (statementEnd false false (assembly.drop offset)).2 :=
  (statementEndFrom_reads h).drop_eq

/-- The lines of a text are its statements without comments. -/
theorem lines_eq (h : offset ≤ assembly.length) : lines (assembly.drop offset) =
    (statementsFrom assembly offset).map
      fun span ↦ stripComment false false (span.text assembly) := by
  fun_induction statementsFrom assembly offset with
  | case1 offset hlt ih =>
      have hdrop := List.drop_eq_getElem_cons hlt
      rw [List.map_cons, ← ih (spanAt_bounds assembly h).next_le, spanAt_text h,
        spanAt_drop h, hdrop, lines_cons]
  | case2 offset hge =>
      rw [List.drop_eq_nil_of_le (Nat.le_of_not_lt hge)]
      rfl

/-- The search by offsets is the one on the rest of the text. -/
theorem numericTargetLoop_eq_from {before number : Nat} {forward : Bool} {found : Option Nat}
    {fuel : Nat} (h : offset ≤ assembly.length) (hfuel : assembly.length - offset ≤ fuel) :
    numericTargetLoop assembly before number forward offset found =
      numericTargetFrom before number forward fuel offset (assembly.drop offset) found := by
  induction offset using statementsFrom.induct assembly generalizing found fuel with
  | case1 offset hlt ih =>
      obtain ⟨fuel, rfl⟩ :=
        Nat.exists_eq_add_of_le' (Nat.lt_of_lt_of_le (Nat.sub_pos_of_lt hlt) hfuel)
      have hbounds := spanAt_bounds assembly h
      have hdecrease := lt_next assembly hlt
      have hdrop := List.drop_eq_getElem_cons hlt
      have hnext : offset + ((assembly.drop offset).length -
          (statementEnd false false (assembly.drop offset)).2.length) =
            (spanAt assembly offset).next := by
        have hle := hbounds.next_le
        have hadvance := hbounds.lt_next hlt
        rw [← spanAt_drop h, List.length_drop, List.length_drop]
        dsimp only at hle hadvance
        omega
      have hrec (found : Option Nat) :
          numericTargetLoop assembly before number forward (spanAt assembly offset).next found =
            numericTargetFrom before number forward fuel (spanAt assembly offset).next
              (assembly.drop (spanAt assembly offset).next) found :=
        ih hbounds.next_le (by omega)
      rw [numericTargetLoop, dif_pos hlt]
      dsimp only
      rw [hdrop, numericTargetFrom, ← hdrop, hnext, spanAt_text h, hrec, hrec, spanAt_drop h]
  | case2 offset hge =>
      rw [numericTargetLoop, dif_neg hge, List.drop_eq_nil_of_le (Nat.le_of_not_lt hge)]
      cases fuel <;> rfl

/-- `numeric_target` finds the nearest of the statements that define the number. -/
theorem numericTarget_eq (before number : Nat) (forward : Bool) :
    numericTarget assembly before number forward =
      nearest forward ((statements assembly).filter (isTarget assembly before number forward)) := by
  have hloop : numericTargetLoop assembly before number forward 0 none =
      numericTarget assembly before number forward :=
    numericTargetLoop_eq_from (Nat.zero_le _) (Nat.sub_le _ _)
  rw [← hloop, numericTargetLoop_eq, Option.or_none]
  rfl

/-! ### The statements of a text -/

theorem kept_iff_statements (assembly : Text) (k : Nat) :
    Kept assembly k ↔ ∃ span ∈ statements assembly, span.offset ≤ k ∧ k < span.finish :=
  kept_iff_statementsFrom (Nat.zero_le _) (fun _ ↦ rfl) k (Nat.zero_le k)

theorem linkImage_eq {σ : Type} (sizeMax : Nat) (body : StatementSpan → Text → σ → Option σ) (s : σ)
    (h : statementCapacity assembly sizeMax ≠ 0) : linkImage assembly sizeMax body s =
      orStop ((statements assembly).foldlM (fun s span ↦ body span (span.text assembly) s) s) := by
  rw [linkImage, if_neg h]
  exact linkLoop_eq body s (statementCapacity_fits h)

theorem orStop_ne_overrun {σ : Type} (s : Option σ) : orStop s ≠ .error .overrun := by
  cases s <;> exact nofun

/-- The statements of a text follow on one another to its end and have the bytes that are neither
separators nor in comments; each fits the buffers of the passes, and the passes go over them. -/
theorem statements_spec (sizeMax : Nat) (assembly : Text) :
    Consecutive assembly.length 0 (statements assembly) ∧
      (∀ k, Kept assembly k ↔ ∃ span ∈ statements assembly, span.offset ≤ k ∧ k < span.finish) ∧
      (∀ (σ : Type) (body : StatementSpan → Text → σ → Option σ) (s : σ),
        linkImage assembly sizeMax body s ≠ .error .overrun ∧
          (statementCapacity assembly sizeMax ≠ 0 →
            FitsBuffer assembly (statementCapacity assembly sizeMax) ∧
            linkImage assembly sizeMax body s = orStop ((statements assembly).foldlM
              (fun s span ↦ body span (span.text assembly) s) s))) ∧
      (∀ objects capacity, objectsCapacity sizeMax 1 objects = some capacity → assembly ∈ objects →
        FitsBuffer assembly capacity ∧
          ∀ (σ : Type) (body : Nat → Text → σ → Option σ) (s : σ),
            objectLoop assembly capacity body 0 s =
              orStop ((statements assembly).foldlM (fun s span ↦
                body span.offset (stripComment false false (span.text assembly)) s) s)) ∧
      ∀ before number forward, numericTargetLoop assembly before number forward 0 none = nearest
        forward ((statements assembly).filter (isTarget assembly before number forward)) := by
  refine ⟨statementsFrom_consecutive (Nat.zero_le _), kept_iff_statements assembly,
    fun σ body s ↦ ⟨?_, fun h ↦ ⟨statementCapacity_fits h, linkImage_eq sizeMax body s h⟩⟩, ?_, ?_⟩
  · by_cases h : statementCapacity assembly sizeMax = 0
    · rw [linkImage, if_pos h]
      exact nofun
    · rw [linkImage_eq sizeMax body s h]
      exact orStop_ne_overrun _
  · intro objects capacity hcapacity hmem
    have hfits := (objectsCapacity_fits hcapacity).2 assembly hmem
    exact ⟨hfits, fun σ body s ↦ objectLoop_eq body s hfits⟩
  · intro before number forward
    rw [numericTargetLoop_eq, Option.or_none]
    rfl

end Seen

end CopySpace.Link
