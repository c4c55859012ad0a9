import CopySpace.Gcc.Files
import CopySpace.Lib.Components
import Mathlib.Data.List.TakeWhile

/-!
# `files.c` and `preprocess_include.h`: paths

A path is evaluated twice: by `normalize`, which writes the components to a buffer of its own and
takes them off again for `..`, and by `cc_pp_include_candidate`, which compacts the joined directory
and header name in place.  Both leave what the components leave on a stack.
-/

namespace CopySpace.Gcc

open CopySpace.Components

/-- A component that stands for the directory it is in. -/
def Skip (p : Bytes) : Prop := p = [] ∨ p = [dot]

/-- A component that stands for the directory above. -/
def Up (p : Bytes) : Prop := p = [dot, dot]

instance : DecidablePred Skip := fun _ ↦ inferInstanceAs (Decidable (_ ∨ _))

instance : DecidablePred Up := fun _ ↦ inferInstanceAs (Decidable (_ = _))

/-- The text of a path. -/
def text (stack : List Bytes) : Bytes := join slash stack

/-- The components of a path, evaluated on a stack. -/
def evaluatePath (path : Bytes) : Option (List Bytes) := evaluate Skip Up [] (path.splitOn slash)

/-- The components leave a stack, and no text on the way is too long for the buffer. -/
def YieldsPath (stack : List Bytes) (path : Bytes) (stack' : List Bytes) : Prop :=
  Yields Skip Up (fun stack ↦ (text stack).length) (pathBytes - 1) stack (path.splitOn slash) stack'

/-! ## Components of a path -/

section Components

variable {path : Bytes} {stack stack' : List Bytes}

/-- What may be on the stack: components without slashes that stand for something. -/
structure Clean (stack : List Bytes) : Prop where
  slash : ∀ p ∈ stack, slash ∉ p
  nonempty : ∀ p ∈ stack, p ≠ []

theorem clean_nil : Clean [] where
  slash _ h := nomatch h
  nonempty _ h := nomatch h

theorem Clean.concat (h : Clean stack) {p : Bytes} (hslash : Gcc.slash ∉ p) (hp : p ≠ []) :
    Clean (stack ++ [p]) where
  slash q hq := by
    obtain hq | hq := List.mem_append.mp hq
    · exact h.slash q hq
    · exact List.mem_singleton.mp hq ▸ hslash
  nonempty q hq := by
    obtain hq | hq := List.mem_append.mp hq
    · exact h.nonempty q hq
    · exact List.mem_singleton.mp hq ▸ hp

theorem Clean.dropLast (h : Clean stack) : Clean stack.dropLast :=
  ⟨fun p hp ↦ h.slash p (List.dropLast_subset stack hp),
    fun p hp ↦ h.nonempty p (List.dropLast_subset stack hp)⟩

theorem Clean.text_eq_nil (h : Clean stack) : text stack = [] ↔ stack = [] := join_eq_nil h.nonempty

theorem text_concat (h : Clean stack) (p : Bytes) :
    text (stack ++ [p]) = if text stack = [] then p else text stack ++ slash :: p := by
  rcases eq_or_ne stack [] with rfl | hne
  · exact join_singleton
  · rw [if_neg (mt h.text_eq_nil.mp hne)]
    exact join_concat hne

/-- Going up takes the last component off. -/
theorem parent_text (h : Clean stack) (hne : stack ≠ []) : parent (text stack) = text stack.dropLast := by
  obtain ⟨init, p, rfl⟩ := (List.eq_nil_or_concat stack).resolve_left hne
  rw [List.concat_eq_append] at h ⊢
  have hp : ∀ c ∈ p.reverse, decide (c ≠ slash) = true := fun c hc ↦
    decide_eq_true fun he ↦ h.slash p (List.mem_append_right _ (List.mem_singleton_self p))
      (he ▸ List.mem_reverse.mp hc)
  rw [List.dropLast_concat, parent]
  rcases eq_or_ne init [] with rfl | hinit
  · rw [List.nil_append, text, join_singleton, List.dropWhile_eq_nil_iff.mpr hp]
    rfl
  · rw [text, join_concat hinit, List.reverse_append, List.reverse_cons, List.append_assoc,
      List.dropWhile_append_of_pos hp, List.singleton_append, List.dropWhile_cons_of_neg (by decide),
      List.drop_succ_cons, List.drop_zero, List.reverse_reverse]
    rfl

theorem splitOn_slash (path : Bytes) : (slash :: path).splitOn slash = [] :: path.splitOn slash :=
  @List.splitOn_append_cons_self_of_not_mem _ [] _ _ _ List.not_mem_nil path

theorem not_mem_first (path : Bytes) : slash ∉ path.takeWhile (· ≠ slash) := fun h ↦ by
  have hne : decide (slash ≠ slash) = true :=
    List.mem_takeWhile_imp (p := fun c ↦ decide (c ≠ slash)) h
  exact absurd rfl (of_decide_eq_true hne)

/-- A path is its first component, and a rest that begins with a slash. -/
theorem splitOn_first (path : Bytes) :
    ∃ ps, path.splitOn slash = path.takeWhile (· ≠ slash) :: ps ∧
      ((path.dropWhile (· ≠ slash) = [] ∧ ps = []) ∨
        ∃ rest, path.dropWhile (· ≠ slash) = slash :: rest ∧ ps = rest.splitOn slash) := by
  have hfirst := not_mem_first path
  have hpath := List.takeWhile_append_dropWhile (p := fun c ↦ decide (c ≠ slash)) (l := path)
  cases hrest : path.dropWhile (· ≠ slash) with
  | nil =>
      rw [hrest, List.append_nil] at hpath
      refine ⟨[], ?_, .inl ⟨rfl, rfl⟩⟩
      rw [hpath] at hfirst ⊢
      exact List.splitOn_eq_singleton hfirst
  | cons c rest =>
      have hc : c = slash := by
        have hhead := List.head?_dropWhile_not (fun c ↦ decide (c ≠ slash)) path
        rw [hrest] at hhead
        exact not_not.mp (of_decide_eq_false hhead)
      subst hc
      refine ⟨rest.splitOn slash, ?_, .inr ⟨rest, rfl, rfl⟩⟩
      rw [hrest] at hpath
      calc path.splitOn slash
          = (path.takeWhile (· ≠ slash) ++ slash :: rest).splitOn slash := by rw [hpath]
        _ = path.takeWhile (· ≠ slash) :: rest.splitOn slash :=
            List.splitOn_append_cons_self_of_not_mem hfirst rest

/-- The first component of a path, and the rest of it. -/
theorem yieldsPath_first : YieldsPath stack path stack' ↔
    (text stack).length ≤ pathBytes - 1 ∧
      ∃ between, push Skip Up stack (path.takeWhile (· ≠ slash)) = some between ∧
        YieldsPath between (path.dropWhile (· ≠ slash)) stack' := by
  obtain ⟨ps, hsplit, hrest⟩ := splitOn_first path
  rw [YieldsPath, hsplit, yields_cons]
  refine and_congr_right fun _ ↦ exists_congr fun between ↦ and_congr_right fun _ ↦ ?_
  obtain ⟨hnil, rfl⟩ | ⟨rest, hrest, rfl⟩ := hrest
  · rw [hnil, YieldsPath, List.splitOn_nil]
    exact (yields_cons_of_skip (.inl rfl)).symm
  · rw [hrest, YieldsPath, splitOn_slash]
    exact (yields_cons_of_skip (.inl rfl)).symm

/-- Slashes in front of a path make no difference. -/
theorem yieldsPath_dropWhile :
    YieldsPath stack (path.dropWhile (· = slash)) stack' ↔ YieldsPath stack path stack' := by
  induction path with
  | nil => exact Iff.rfl
  | cons c path ih =>
      by_cases hc : c = slash
      · rw [List.dropWhile_cons, if_pos (decide_eq_true hc), ih, hc, YieldsPath, YieldsPath,
          splitOn_slash]
        exact (yields_cons_of_skip (.inl rfl)).symm
      · rw [List.dropWhile_cons, if_neg (by rwa [decide_eq_true_eq])]

theorem length_rest_le (c : UInt8) (path : Bytes) :
    (((c :: path).dropWhile (· = slash)).dropWhile (· ≠ slash)).length ≤ path.length := by
  by_cases hc : c = slash
  · rw [List.dropWhile_cons, if_pos (decide_eq_true hc)]
    exact Nat.le_trans (List.dropWhile_sublist _).length_le (List.dropWhile_sublist _).length_le
  · rw [List.dropWhile_cons, if_neg (by rwa [decide_eq_true_eq]), List.dropWhile_cons,
      if_pos (decide_eq_true hc)]
    exact (List.dropWhile_sublist _).length_le

end Components

/-! ## The buffer of `normalize` -/

section Normalize

variable {path name : Bytes} {stack stack' : List Bytes}

/-- The loop leaves the text of what the components leave on the stack. -/
theorem normalizeLoop_iff {fuel : Nat} (h : Clean stack)
    (hsize : (text stack).length ≤ pathBytes - 1) (hfuel : path.length ≤ fuel) :
    normalizeLoop fuel path (text stack) = .ok name ↔
      ∃ stack', YieldsPath stack path stack' ∧ name = text stack' := by
  induction fuel using Nat.strongRecOn generalizing path stack with
  | _ fuel ih =>
      have hnil : (Except.ok (text stack) : Except Errno Bytes) = .ok name ↔
          ∃ stack', YieldsPath stack [] stack' ∧ name = text stack' := by
        have hempty : ∀ stack', YieldsPath stack [] stack' ↔ stack = stack' := fun stack' ↦ by
          rw [YieldsPath, List.splitOn_nil, yields_cons_of_skip (.inl rfl), yields_nil]
          exact and_iff_left hsize
        simp only [hempty, exists_eq_left', Except.ok.injEq]
        exact eq_comm
      cases path with
      | nil =>
          cases fuel <;> exact hnil
      | cons c path =>
          rw [List.length_cons] at hfuel
          obtain ⟨fuel, rfl⟩ := Nat.exists_eq_add_of_le' (show 1 ≤ fuel by omega)
          have hrest := Nat.le_trans (length_rest_le c path) (Nat.le_of_succ_le_succ hfuel)
          have hfirst := not_mem_first ((c :: path).dropWhile (· = slash))
          rw [normalizeLoop]
          simp only [← @yieldsPath_dropWhile (c :: path),
            @yieldsPath_first ((c :: path).dropWhile (· = slash))]
          generalize ((c :: path).dropWhile (· = slash)).takeWhile (· ≠ slash) = first at *
          generalize ((c :: path).dropWhile (· = slash)).dropWhile (· ≠ slash) = rest at *
          have hstep : ∀ between, push Skip Up stack first = some between → Clean between →
              (text between).length ≤ pathBytes - 1 →
                (normalizeLoop fuel rest (text between) = .ok name ↔ ∃ stack',
                  ((text stack).length ≤ pathBytes - 1 ∧ ∃ between,
                    push Skip Up stack first = some between ∧ YieldsPath between rest stack') ∧
                      name = text stack') := fun between hp hb hlength ↦ by
            rw [ih fuel (Nat.lt_succ_self fuel) hb hlength hrest]
            simp only [hp, Option.some.injEq, exists_eq_left', hsize, true_and]
          have hfail : push Skip Up stack first = none ∨
              (∃ between, push Skip Up stack first = some between ∧
                pathBytes - 1 < (text between).length) →
                ¬ ∃ stack', ((text stack).length ≤ pathBytes - 1 ∧ ∃ between,
                  push Skip Up stack first = some between ∧ YieldsPath between rest stack') ∧
                    name = text stack' := by
            rintro hf ⟨stack', ⟨-, between, hp, hy⟩, -⟩
            obtain hnone | ⟨other, ho, hlong⟩ := hf
            · rw [hp] at hnone
              nomatch hnone
            · rw [hp] at ho
              cases ho
              exact absurd hy.size_le (Nat.not_le.mpr hlong)
          have herror : ∀ e, (Except.error e : Except Errno Bytes) ≠ .ok name := fun e he ↦ nomatch he
          by_cases hskip : Skip first
          · rw [if_pos (show first = [] ∨ first = [dot] from hskip)]
            exact hstep stack (push_of_skip hskip) h hsize
          rw [if_neg (show ¬ (first = [] ∨ first = [dot]) from hskip)]
          by_cases hup : Up first
          · rw [if_pos (show first = [dot, dot] from hup)]
            by_cases hnone : stack = []
            · have hpush : push Skip Up stack first = none := by
                rw [push, if_neg hskip, if_pos hup, if_pos hnone]
              rw [if_pos (h.text_eq_nil.mpr hnone)]
              exact iff_of_false (herror _) (hfail (.inl hpush))
            · have hpush : push Skip Up stack first = some stack.dropLast := by
                rw [push, if_neg hskip, if_pos hup, if_neg hnone]
              rw [if_neg (mt h.text_eq_nil.mp hnone), parent_text h hnone]
              exact hstep _ hpush h.dropLast
                (Nat.le_trans (length_join_sublist (List.dropLast_sublist stack)) hsize)
          · have hpush : push Skip Up stack first = some (stack ++ [first]) := by
              rw [push, if_neg hskip, if_neg hup]
            have hclean := h.concat hfirst fun he ↦ hskip (.inl he)
            have htext := text_concat h first
            have hlength : ((text stack).length > pathBytes - 1 - (if text stack = [] then 0 else 1) ∨
                first.length > pathBytes - 1 - (text stack).length -
                  (if text stack = [] then 0 else 1)) ↔
                    pathBytes - 1 < (text (stack ++ [first])).length := by
              have hbytes : pathBytes = 4097 := rfl
              rw [htext]
              by_cases he : text stack = []
              · simp only [he, if_true, List.length_nil, Nat.sub_zero, gt_iff_lt, Nat.not_lt_zero,
                  false_or]
              · simp only [he, if_false, List.length_append, List.length_cons]
                omega
            rw [if_neg (show ¬ first = [dot, dot] from hup)]
            by_cases hlong : pathBytes - 1 < (text (stack ++ [first])).length
            · rw [if_pos (hlength.mpr hlong)]
              exact iff_of_false (herror _) (hfail (.inr ⟨_, hpush, hlong⟩))
            · rw [if_neg (mt hlength.mp hlong), ← htext]
              exact hstep _ hpush hclean (Nat.not_lt.mp hlong)

theorem normalize_iff :
    normalize (some path) = .ok name ↔
      path ≠ [] ∧ ∃ stack, YieldsPath [] path stack ∧ name = text stack := by
  rw [normalize]
  split
  case isTrue he => exact iff_of_false (fun h ↦ nomatch h) fun h ↦ h.1 he
  case isFalse hne =>
    rw [and_iff_right hne]
    exact normalizeLoop_iff clean_nil (Nat.zero_le _) (Nat.le_refl _)

/-- What is left on the stack is clean, and stands for something. -/
theorem clean_of_evaluatePath (h : evaluatePath path = some stack) :
    Clean stack ∧ ∀ p ∈ stack, componentOk p := by
  have hmem : ∀ p ∈ stack, p ∈ path.splitOn slash ∧ ¬ Skip p ∧ ¬ Up p := fun p hp ↦
    (mem_of_evaluate h hp).resolve_left List.not_mem_nil
  refine ⟨⟨fun p hp ↦ not_mem_of_mem_splitOn (hmem p hp).1, fun p hp he ↦ (hmem p hp).2.1 (.inl he)⟩,
    fun p hp ↦ ?_⟩
  obtain ⟨-, hskip, hup⟩ := hmem p hp
  rw [Skip, not_or] at hskip
  rw [componentOk, Bool.and_eq_true, Bool.and_eq_true, decide_eq_true_eq, decide_eq_true_eq,
    decide_eq_true_eq]
  exact ⟨⟨hskip.1, hskip.2⟩, hup⟩

theorem evaluatePath_of_yields (h : YieldsPath [] path stack) : evaluatePath path = some stack := h.1

/-- What `normalize` gives is a valid name, or that of the root. -/
theorem fileNameValid_normalize (h : normalize (some path) = .ok name) (hpath : 0 ∉ path) :
    fileNameValid name true := by
  obtain ⟨-, stack, hy, rfl⟩ := normalize_iff.mp h
  obtain ⟨hclean, hok⟩ := clean_of_evaluatePath (evaluatePath_of_yields hy)
  rcases eq_or_ne stack [] with rfl | hne
  · rfl
  · have hzero : 0 ∉ text stack := fun h ↦ by
      obtain h | ⟨p, hp, h⟩ := mem_join h
      · exact absurd h (by decide)
      · have hp := ((mem_of_evaluate hy.1 hp).resolve_left List.not_mem_nil).1
        exact hpath (@List.intercalate_splitOn _ path _ _ slash ▸ mem_join_of_mem hp h)
    refine fileNameValid_iff.mpr (.inr ⟨mt hclean.text_eq_nil.mp hne, ?_, hzero, ?_⟩)
    · exact hy.2 _ (List.prefix_refl _) stack hy.1
    · rw [text, join, List.splitOn_intercalate slash hclean.slash hne]
      exact hok

/-- A valid name is its own. -/
theorem normalize_of_valid (h : fileNameValid name false) : normalize (some name) = .ok name := by
  obtain ⟨-, hfalse⟩ | ⟨hne, hlength, -, hok⟩ := fileNameValid_iff.mp h
  · nomatch hfalse
  have hjoin : text (name.splitOn slash) = name := List.intercalate_splitOn slash
  have hclean : ∀ p ∈ name.splitOn slash, ¬ Skip p ∧ ¬ Up p := fun p hp ↦ by
    have := hok p hp
    rw [componentOk, Bool.and_eq_true, Bool.and_eq_true, decide_eq_true_eq, decide_eq_true_eq,
      decide_eq_true_eq] at this
    exact ⟨not_or.mpr this.1, this.2⟩
  refine normalize_iff.mpr ⟨hne, name.splitOn slash, ⟨evaluate_clean hclean, ?_⟩, hjoin.symm⟩
  intro before hb stack he
  have hbefore : stack = before := by
    rw [evaluate_clean fun p hp ↦ hclean p (hb.subset hp)] at he
    exact (Option.some.inj he).symm
  calc (text stack).length
      ≤ (text (name.splitOn slash)).length := hbefore ▸ length_join_sublist hb.sublist
    _ = name.length := by rw [hjoin]
    _ ≤ 4096 := hlength

/-- When `normalize` fails: a path is empty, a component leaves the root, or the text of the
components so far is too long. -/
theorem normalize_error_iff : (∃ e, normalize (some path) = .error e) ↔
    path = [] ∨ evaluatePath path = none ∨
      ∃ before, before <+: path.splitOn slash ∧ ∃ stack, evaluate Skip Up [] before = some stack ∧
        4096 < (text stack).length := by
  have herror : (∃ e, normalize (some path) = .error e) ↔ ¬ ∃ name, normalize (some path) = .ok name := by
    cases normalize (some path) with
    | error e => exact iff_of_true ⟨e, rfl⟩ fun ⟨_, h⟩ ↦ nomatch h
    | ok name => exact iff_of_false (fun ⟨_, h⟩ ↦ nomatch h) (not_not.mpr ⟨name, rfl⟩)
  have hyields : (∃ name, normalize (some path) = .ok name) ↔
      path ≠ [] ∧ ∃ stack, YieldsPath [] path stack := by
    simp only [normalize_iff]
    constructor
    · rintro ⟨name, hne, stack, hy, -⟩
      exact ⟨hne, stack, hy⟩
    · rintro ⟨hne, stack, hy⟩
      exact ⟨text stack, hne, stack, hy, rfl⟩
  rw [herror, hyields, not_and_or, not_not]
  refine or_congr_right ?_
  cases he : evaluatePath path with
  | none =>
      refine iff_of_true (fun ⟨stack, hy⟩ ↦ ?_) (.inl rfl)
      rw [evaluatePath_of_yields hy] at he
      nomatch he
  | some stack =>
      have hsome : (∃ stack, YieldsPath [] path stack) ↔
          Within Skip Up (fun stack ↦ (text stack).length) (pathBytes - 1) [] (path.splitOn slash) :=
        ⟨fun ⟨_, hy⟩ ↦ hy.2, fun hw ↦ ⟨stack, he, hw⟩⟩
      rw [hsome, Within, or_iff_right (fun h ↦ nomatch h)]
      push Not
      exact Iff.rfl

end Normalize

/-! ## Compacting in place -/

/-- `for (i<length) path[end++]=path[first+i]`. -/
def copyBytes : Nat → Nat → Nat → Bytes → Bytes
  | 0, _, _, path => path
  | n + 1, stop, first, path => copyBytes n (stop + 1) (first + 1) (path.set stop (path.getD first 0))

/-- The loop of `cc_pp_include_candidate`: the path so far is in front of `stop`, and what is not yet
read behind `first`.  A component takes a byte, so as many steps as there are bytes are enough. -/
def compact : Nat → Bytes → Nat → Nat → Option (Bytes × Nat)
  | 0, path, _, stop => some (path, stop)
  | fuel + 1, path, first, stop =>
      if first < path.length then
        let component := (path.drop first).takeWhile (· ≠ slash)
        let next := first + component.length + 1
        if component = [] ∨ component = [dot] then compact fuel path next stop
        else if component = [dot, dot] then
          if stop = 0 then none else compact fuel path next (parent (path.take stop)).length
        else
          let path := if stop = 0 then path else path.set stop slash
          let stop := if stop = 0 then 0 else stop + 1
          compact fuel (copyBytes component.length stop first path) next (stop + component.length)
      else some (path, stop)

/-- `cc_pp_include_candidate`, with the files of the bundle. -/
def includeCandidate (files : List InputFile) (directory name : Bytes) : Option Nat :=
  if name = [] ∨ name.head? = some slash ∨ directory.length + name.length + 1 > 8193 then none
  else
    let path := (if directory = [] then [] else directory ++ [slash]) ++ name
    match compact path.length path 0 0 with
    | none => none
    | some (path, stop) => files.findIdx? fun f ↦ f.name = path.take stop

section Compact

variable {path : Bytes} {stack : List Bytes} {first stop n : Nat}

theorem take_set_succ (c : UInt8) (h : stop < path.length) :
    (path.set stop c).take (stop + 1) = path.take stop ++ [c] := by
  have hlength : (path.take stop ++ [c]).length = stop + 1 := by
    rw [List.length_append, List.length_take, Nat.min_eq_left (Nat.le_of_lt h)]
    rfl
  rw [List.set_eq_take_append_cons_drop, if_pos h, ← List.singleton_append, ← List.append_assoc]
  exact List.take_left' hlength

/-- Bytes are copied to the left, or left where they are. -/
theorem copyBytes_eq (h : stop ≤ first) (hn : first + n ≤ path.length) :
    copyBytes n stop first path =
      path.take stop ++ (path.drop first).take n ++ path.drop (stop + n) := by
  induction n generalizing stop first path with
  | zero => rw [copyBytes, List.take_zero, List.append_nil, Nat.add_zero, List.take_append_drop]
  | succ n ih =>
      have hfirst : first < path.length := by omega
      have hget : path.getD first 0 = path[first] := by
        rw [List.getD, List.getElem?_eq_getElem hfirst, Option.getD_some]
      rw [copyBytes, ih (by omega) (by rw [List.length_set]; omega), hget,
        take_set_succ _ (by omega), List.drop_set_of_lt (by omega), List.drop_set_of_lt (by omega),
        List.drop_eq_getElem_cons hfirst, List.take_succ_cons, List.append_assoc (path.take stop),
        List.singleton_append, Nat.add_right_comm stop 1 n, Nat.add_assoc stop n 1]

/-- What the loop keeps: the path so far is the text of the stack, and does not reach what is not yet
read. -/
structure Compacted (path : Bytes) (stack : List Bytes) (first stop : Nat) : Prop where
  clean : Clean stack
  text : path.take stop = text stack
  length : stop = (Gcc.text stack).length
  stop_lt : stop = 0 ∨ stop < first

theorem Compacted.stop_eq_zero (h : Compacted path stack first stop) : stop = 0 ↔ stack = [] := by
  rw [← h.clean.text_eq_nil, ← List.length_eq_zero_iff, ← h.length]

theorem Compacted.skip {next : Nat} (h : Compacted path stack first stop) (hnext : first ≤ next) :
    Compacted path stack next stop :=
  ⟨h.clean, h.text, h.length, h.stop_lt.imp_right fun hlt ↦ Nat.lt_of_lt_of_le hlt hnext⟩

theorem Compacted.up {next : Nat} (h : Compacted path stack first stop) (hnext : first ≤ next)
    (hne : stack ≠ []) :
    Compacted path stack.dropLast next (parent (path.take stop)).length := by
  have hparent : parent (path.take stop) = Gcc.text stack.dropLast := by
    rw [h.text, parent_text h.clean hne]
  have hle : (Gcc.text stack.dropLast).length ≤ stop := by
    rw [h.length]
    exact length_join_sublist (List.dropLast_sublist stack)
  have hinitial : Gcc.text stack.dropLast <+: Gcc.text stack := join_dropLast_prefix
  have hstop := mt h.stop_eq_zero.mp hne
  refine ⟨h.clean.dropLast, ?_, congrArg List.length hparent, .inr ?_⟩
  · rw [hparent, ← List.prefix_iff_eq_take.mp (hinitial.trans ?_)]
    exact h.text ▸ List.take_prefix stop path
  · rw [hparent]
    have := h.stop_lt.resolve_left hstop
    omega

theorem Compacted.put {c rest : Bytes} (h : Compacted path stack first stop) (hslash : slash ∉ c)
    (hc : c ≠ []) (hdrop : path.drop first = c ++ rest) :
    let path' := if stop = 0 then path else path.set stop slash
    let stop' := if stop = 0 then 0 else stop + 1
    let copied := copyBytes c.length stop' first path'
    Compacted copied (stack ++ [c]) (first + c.length + 1) (stop' + c.length) ∧
      copied.drop (first + c.length + 1) = path.drop (first + c.length + 1) ∧
        copied.length = path.length := by
  intro path' stop' copied
  have hlength : first + c.length ≤ path.length := by
    have hpos : c.length ≠ 0 := mt List.length_eq_zero_iff.mp hc
    have := congrArg List.length hdrop
    rw [List.length_drop, List.length_append] at this
    omega
  have hstop : stop' ≤ first := by
    have := h.stop_lt
    dsimp only [stop']
    split <;> omega
  have htake : path'.take stop' ++ c = Gcc.text (stack ++ [c]) := by
    rw [text_concat h.clean]
    dsimp only [path', stop']
    by_cases he : stop = 0
    · rw [if_pos he, if_pos he, if_pos (h.clean.text_eq_nil.mpr (h.stop_eq_zero.mp he)),
        List.take_zero, List.nil_append]
    · have hlt : stop < path.length := by
        have := h.stop_lt.resolve_left he
        omega
      rw [if_neg he, if_neg he, if_neg (mt h.clean.text_eq_nil.mp (mt h.stop_eq_zero.mpr he)),
        take_set_succ _ hlt, h.text, List.append_assoc, List.singleton_append]
  have hpath : ∀ k, first ≤ k → path'.drop k = path.drop k := fun k hk ↦ by
    dsimp only [path']
    split
    · rfl
    case isFalse he => exact List.drop_set_of_lt (Nat.lt_of_lt_of_le (h.stop_lt.resolve_left he) hk)
  have hsize : path'.length = path.length := by
    dsimp only [path']
    split
    · rfl
    · exact List.length_set
  have hcopied : copied = path'.take stop' ++ c ++ path'.drop (stop' + c.length) := by
    rw [show copied = _ from copyBytes_eq hstop (hsize ▸ hlength), hpath first (Nat.le_refl _), hdrop,
      List.take_left]
  have hfront : (path'.take stop' ++ c).length = stop' + c.length := by
    rw [List.length_append, List.length_take, Nat.min_eq_left (by omega)]
  refine ⟨⟨h.clean.concat hslash hc, ?_, ?_, .inr (by omega)⟩, ?_, ?_⟩
  · rw [hcopied, List.take_left' hfront, htake]
  · rw [← htake, hfront]
  · rw [hcopied, List.drop_append, hfront, List.drop_eq_nil_of_le (by omega), List.nil_append,
      List.drop_drop, hpath _ (by omega)]
    congr 1
    omega
  · rw [hcopied, List.length_append, hfront, List.length_drop, hsize]
    omega

/-- When all is read, the path so far is the whole. -/
theorem Compacted.finish (h : Compacted path stack first stop) (hle : path.length ≤ first) :
    (some (path, stop)).map (fun r ↦ r.1.take r.2) =
      (evaluate Skip Up stack ((path.drop first).splitOn slash)).map Gcc.text := by
  rw [List.drop_eq_nil_of_le hle, List.splitOn_nil, evaluate_cons_of_skip (.inl rfl), evaluate_nil,
    Option.map_some, Option.map_some, h.text]

/-- The first component of what is not yet read, and what is then not yet read. -/
theorem evaluate_first (stack : List Bytes) (path : Bytes) (first : Nat) :
    let c := (path.drop first).takeWhile (· ≠ slash)
    (∃ rest, path.drop first = c ++ rest) ∧
      evaluate Skip Up stack ((path.drop first).splitOn slash) =
        (push Skip Up stack c).bind fun stack ↦
          evaluate Skip Up stack ((path.drop (first + c.length + 1)).splitOn slash) := by
  intro c
  have hpath := List.takeWhile_append_dropWhile (p := fun c ↦ decide (c ≠ slash)) (l := path.drop first)
  obtain ⟨ps, hsplit, hrest⟩ := splitOn_first (path.drop first)
  have hdrop : path.drop (first + c.length + 1) = ((path.drop first).dropWhile (· ≠ slash)).drop 1 := by
    have hlater : (path.drop first).drop c.length = (path.drop first).dropWhile (· ≠ slash) := by
      calc (path.drop first).drop c.length
          = (c ++ (path.drop first).dropWhile (· ≠ slash)).drop c.length := by rw [hpath]
        _ = (path.drop first).dropWhile (· ≠ slash) := List.drop_left
    rw [← hlater, List.drop_drop, List.drop_drop, Nat.add_assoc]
  refine ⟨⟨_, hpath.symm⟩, ?_⟩
  rw [hsplit, evaluate_cons, hdrop]
  obtain ⟨hnil, rfl⟩ | ⟨rest, hrest, rfl⟩ := hrest
  · rw [hnil, List.drop_nil, List.splitOn_nil]
    simp only [evaluate_cons_of_skip (show Skip [] from .inl rfl)]
    rfl
  · rw [hrest]
    rfl

/-- The loop leaves the text of what the components leave on the stack. -/
theorem compact_eq {fuel : Nat} (h : Compacted path stack first stop)
    (hfuel : path.length ≤ first + fuel) :
    (compact fuel path first stop).map (fun r ↦ r.1.take r.2) =
      (evaluate Skip Up stack ((path.drop first).splitOn slash)).map text := by
  induction fuel generalizing path stack first stop with
  | zero => exact h.finish hfuel
  | succ fuel ih =>
      rw [compact]
      by_cases hlt : first < path.length
      · obtain ⟨⟨rest, hdrop⟩, hevaluate⟩ := evaluate_first stack path first
        have hslash := not_mem_first (path.drop first)
        rw [if_pos hlt, hevaluate]
        clear hevaluate
        dsimp only
        generalize (path.drop first).takeWhile (· ≠ slash) = c at *
        have hnext : path.length ≤ first + c.length + 1 + fuel := by omega
        have hle : first ≤ first + c.length + 1 := by omega
        by_cases hskip : Skip c
        · rw [if_pos (show c = [] ∨ c = [dot] from hskip), push_of_skip hskip, Option.bind_some]
          exact ih (h.skip hle) hnext
        rw [if_neg (show ¬ (c = [] ∨ c = [dot]) from hskip), push, if_neg hskip]
        by_cases hup : Up c
        · rw [if_pos (show c = [dot, dot] from hup), if_pos hup]
          by_cases he : stop = 0
          · rw [if_pos he, if_pos (h.stop_eq_zero.mp he)]
            rfl
          · have hne := mt h.stop_eq_zero.mpr he
            rw [if_neg he, if_neg hne, Option.bind_some]
            exact ih (h.up hle hne) hnext
        · have hput := h.put hslash (fun he ↦ hskip (.inl he)) hdrop
          rw [if_neg (show ¬ c = [dot, dot] from hup), if_neg hup, Option.bind_some, ← hput.2.1]
          exact ih hput.1 (hput.2.2 ▸ hnext)
      · rw [if_neg hlt]
        exact h.finish (Nat.not_lt.mp hlt)

theorem compacted_nil (path : Bytes) : Compacted path [] 0 0 := ⟨clean_nil, rfl, rfl, .inl rfl⟩

/-- A path is evaluated from the root, whether it begins with a slash or not. -/
theorem evaluatePath_joined (directory name : Bytes) :
    evaluatePath ((if directory = [] then [] else directory ++ [slash]) ++ name) =
      evaluatePath (directory ++ slash :: name) := by
  split
  case isTrue h =>
    rw [h, List.nil_append, List.nil_append, evaluatePath, evaluatePath, splitOn_slash,
      evaluate_cons_of_skip (.inl rfl)]
  case isFalse => rw [List.append_assoc, List.singleton_append]

/-- No text on the way is longer than the path. -/
theorem within_of_length_le {limit : Nat} (h : path.length ≤ limit) :
    Within Skip Up (fun stack ↦ (text stack).length) limit [] (path.splitOn slash) := by
  intro before hb stack he
  have hsub := sublist_of_evaluate he
  rw [List.nil_append] at hsub
  calc (text stack).length
      ≤ (text (path.splitOn slash)).length := length_join_sublist (hsub.trans hb.sublist)
    _ = path.length := by rw [text, join, List.intercalate_splitOn]
    _ ≤ limit := h

/-- A header name is looked up under the name that `normalize` gives. -/
theorem includeCandidate_eq (files : List InputFile) (directory name : Bytes) (hne : name ≠ [])
    (habsolute : name.head? ≠ some slash) (hlength : (directory ++ slash :: name).length ≤ 4096) :
    includeCandidate files directory name =
      match normalize (some (directory ++ slash :: name)) with
      | .ok found => files.findIdx? fun f ↦ f.name = found
      | .error _ => none := by
  have hshort : ¬ (name = [] ∨ name.head? = some slash ∨
      directory.length + name.length + 1 > 8193) := by
    rw [List.length_append, List.length_cons] at hlength
    exact not_or.mpr ⟨hne, not_or.mpr ⟨habsolute, by omega⟩⟩
  have hjoined := evaluatePath_joined directory name
  rw [includeCandidate, if_neg hshort]
  dsimp only
  generalize (if directory = [] then [] else directory ++ [slash]) ++ name = path at *
  have hcompact := compact_eq (compacted_nil path) (Nat.le_add_left path.length 0)
  rw [List.drop_zero, ← evaluatePath, hjoined] at hcompact
  have hnonempty : directory ++ slash :: name ≠ [] := List.append_ne_nil_of_right_ne_nil _ (by simp)
  cases he : evaluatePath (directory ++ slash :: name) with
  | none =>
      have hnormalize : ∃ e, normalize (some (directory ++ slash :: name)) = .error e :=
        normalize_error_iff.mpr (.inr (.inl he))
      obtain ⟨e, hnormalize⟩ := hnormalize
      rw [he, Option.map_none, Option.map_eq_none_iff] at hcompact
      rw [hcompact, hnormalize]
  | some stack =>
      have hnormalize : normalize (some (directory ++ slash :: name)) = .ok (text stack) :=
        normalize_iff.mpr ⟨hnonempty, stack, ⟨he, within_of_length_le hlength⟩, rfl⟩
      rw [he, Option.map_some] at hcompact
      obtain ⟨r, hr, htake⟩ := Option.map_eq_some_iff.mp hcompact
      rw [hr, hnormalize]
      dsimp only
      rw [htake]

end Compact

/-! ## Paths -/

/-- A path without NUL, as every C string is, that is not rejected gives a valid name, or the empty
name of the root: the text of what its components leave on a stack.  It is rejected when it is empty,
when a component leaves the root, or when the text of the components so far is too long, and only
then.  A valid name is left as it is.  A header name that is not empty and not absolute is looked up
under the name `normalize` gives, or not at all when it gives none. -/
theorem path_normalization :
    (∀ path name, normalize (some path) = .ok name →
      (0 ∉ path → fileNameValid name true) ∧
        ∃ stack, evaluatePath path = some stack ∧ name = text stack) ∧
    (∀ path, (∃ e, normalize (some path) = .error e) ↔
      path = [] ∨ evaluatePath path = none ∨
        ∃ before, before <+: path.splitOn slash ∧ ∃ stack, evaluate Skip Up [] before = some stack ∧
          4096 < (text stack).length) ∧
    (∀ name, fileNameValid name false → normalize (some name) = .ok name) ∧
    ∀ files directory name, fileNameValid directory true → name ≠ [] → name.head? ≠ some slash →
      (directory ++ slash :: name).length ≤ 4096 →
        includeCandidate files directory name =
          match normalize (some (directory ++ slash :: name)) with
          | .ok found => files.findIdx? fun f ↦ f.name = found
          | .error _ => none := by
  refine ⟨fun path name h ↦ ⟨fileNameValid_normalize h, ?_⟩, fun path ↦ normalize_error_iff,
    fun name ↦ normalize_of_valid, fun files directory name _ ↦ includeCandidate_eq files directory name⟩
  obtain ⟨-, stack, hy, rfl⟩ := normalize_iff.mp h
  exact ⟨stack, evaluatePath_of_yields hy, rfl⟩

/-- The name of the root is given, but it is no path, so no set of names is both what `normalize`
gives and what it leaves as it is; and an empty header name is not looked up, where `normalize` gives
the directory. -/
theorem root_and_empty_name :
    (¬ ∃ Canonical : Bytes → Prop,
      (∀ path name, normalize (some path) = .ok name → Canonical name) ∧
        ∀ name, Canonical name → normalize (some name) = .ok name) ∧
    ¬ ∀ files directory name, fileNameValid directory true → name.head? ≠ some slash →
      (directory ++ slash :: name).length ≤ 4096 →
        includeCandidate files directory name =
          match normalize (some (directory ++ slash :: name)) with
          | .ok found => files.findIdx? fun f ↦ f.name = found
          | .error _ => none := by
  constructor
  · rintro ⟨Canonical, hyields, hidentity⟩
    have hroot : normalize (some [slash]) = .ok [] := by decide
    have := hidentity [] (hyields _ _ hroot)
    exact absurd this (by decide)
  · intro h
    exact absurd (h [⟨[97], []⟩] [97] [] (by decide) (by decide) (by decide)) (by decide)

end CopySpace.Gcc
