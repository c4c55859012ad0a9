import CopySpace.Assembler.Source
import Mathlib.Data.List.Induction
import Mathlib.Tactic.SplitIfs

/-!
# `assembler.c`: the table of symbols

A definition copies a name into a field of 64 bytes, and a lookup compares the whole name.  The
table answers for the definitions as long as every name they give fits the field.
-/

namespace CopySpace.Assembler

/-! ## Definitions and their entries -/

/-- `define_symbol`, definition after definition. -/
def defineAll (symbols : Symbols) (definitions : List (Text × Nat)) : Option Symbols :=
  definitions.foldlM (fun symbols d ↦ defineSymbol symbols d.1 d.2) symbols

/-- The value in the last definition of a name. -/
def lastDefinition (definitions : List (Text × Nat)) (name : Text) : Option Nat :=
  (definitions.reverse.find? (·.1 = name)).map Prod.snd

/-- The number of the entry that `find_symbol` finds. -/
def entryOf (symbols : Symbols) (name : Text) : Option Nat := symbols.findIdx? (·.1 = name)

/-- The definitions with the numbers of the entries that `define_symbol` sets. -/
def entries : Symbols → List (Text × Nat) → List (Text × Nat)
  | _, [] => []
  | symbols, d :: definitions =>
      (d.1, (entryOf symbols d.1).getD symbols.length) ::
        match defineSymbol symbols d.1 d.2 with
        | none => []
        | some symbols => entries symbols definitions

/-- The table answers for the definitions: each name that a token can be has the value of its last
definition, and no other name has its entry. -/
structure Answers (definitions : List (Text × Nat)) (symbols : Symbols) : Prop where
  find_eq : ∀ name : Text, name.length ≤ 255 →
    findSymbol symbols name = lastDefinition definitions name
  defined : ∀ e ∈ entries [] definitions, ∀ e' ∈ entries [] definitions, e.2 = e'.2 → e.1 = e'.1
  found : ∀ e ∈ entries [] definitions, ∀ name : Text, name.length ≤ 255 →
    entryOf symbols name = some e.2 → e.1 = name

/-- The names in the table. -/
def names (symbols : Symbols) : List Text := symbols.map Prod.fst

theorem length_names (symbols : Symbols) : (names symbols).length = symbols.length :=
  List.length_map _

variable {symbols symbols' : Symbols} {definitions : List (Text × Nat)} {name other : Text}
  {value : Nat}

/-! ## One definition -/

theorem names_setSymbol (name : Text) (value : Nat) (symbols : Symbols) :
    names (setSymbol name value symbols) = names symbols := by
  induction symbols with
  | nil => rfl
  | cons s symbols ih =>
      rw [setSymbol]
      split_ifs with h
      · rw [names, List.map_cons, ← h]
        rfl
      · exact congrArg (s.1 :: ·) ih

theorem findSymbol_cons (s : Text × Nat) (symbols : Symbols) (name : Text) :
    findSymbol (s :: symbols) name = if s.1 = name then some s.2 else findSymbol symbols name := by
  unfold findSymbol
  by_cases h : s.1 = name
  · rw [List.find?_cons_of_pos (by simpa using h), if_pos h, Option.map_some]
  · rw [List.find?_cons_of_neg (by simpa using h), if_neg h]

theorem findSymbol_setSymbol (h : (findSymbol symbols name).isSome) :
    findSymbol (setSymbol name value symbols) other =
      if other = name then some value else findSymbol symbols other := by
  induction symbols with
  | nil => cases h
  | cons s symbols ih =>
      rw [findSymbol_cons] at h
      rw [setSymbol]
      split_ifs at h ⊢ with hname hother hother
      · rw [findSymbol_cons, if_pos hother.symm]
      · rw [findSymbol_cons, findSymbol_cons, if_neg (Ne.symm hother), 
            if_neg (hname ▸ Ne.symm hother)]
      · subst hother
        rw [findSymbol_cons, if_neg hname, ih h, if_pos rfl]
      · rw [findSymbol_cons, findSymbol_cons, ih h, if_neg hother]

theorem findSymbol_append (s : Text × Nat) : findSymbol (symbols ++ [s]) name =
    (findSymbol symbols name).or (if s.1 = name then some s.2 else none) := by
  induction symbols with
  | nil =>
      rw [List.nil_append, findSymbol_cons]
      rfl
  | cons t symbols ih =>
      rw [List.cons_append, findSymbol_cons, findSymbol_cons, ih]
      split_ifs <;> rfl

/-- What a definition does to the names, and to what is found. -/
theorem defineSymbol_spec (h : defineSymbol symbols name value = some symbols') :
    (names symbols' = names symbols ∧ (findSymbol symbols name).isSome ∧
        ∀ other, findSymbol symbols' other =
          if other = name then some value else findSymbol symbols other) ∨
      (findSymbol symbols name = none ∧ symbols' = symbols ++ [(name.take 63, value)]) := by
  rw [defineSymbol] at h
  split_ifs at h with hsome
  · obtain rfl := Option.some.inj h
    exact .inl ⟨names_setSymbol name value symbols, hsome, fun other ↦ findSymbol_setSymbol hsome⟩
  · exact .inr ⟨Option.not_isSome_iff_eq_none.mp hsome, (Option.some.inj h).symm⟩

theorem findSymbol_isSome_iff : (findSymbol symbols name).isSome ↔ name ∈ names symbols := by
  rw [findSymbol, Option.isSome_map, List.find?_isSome, names, List.mem_map]
  simp only [decide_eq_true_eq]

/-- The field of a name has 63 bytes. -/
theorem length_le_of_mem_names (hbefore : ∀ n ∈ names symbols, n.length ≤ 63)
    (h : defineSymbol symbols name value = some symbols') :
    ∀ n ∈ names symbols', n.length ≤ 63 := by
  rcases defineSymbol_spec h with ⟨hnames, -, -⟩ | ⟨-, rfl⟩
  · rwa [hnames]
  · intro n hn
    rw [names, List.map_append, List.mem_append] at hn
    rcases hn with hn | hn
    · exact hbefore n hn
    · rw [List.mem_singleton.mp hn]
      exact List.length_take_le 63 name

/-- A name that fits its field is found afterwards, and the others are as before. -/
theorem findSymbol_defineSymbol (hname : name.length ≤ 63)
    (h : defineSymbol symbols name value = some symbols') (other : Text) :
    findSymbol symbols' other = if other = name then some value else findSymbol symbols other := by
  rcases defineSymbol_spec h with ⟨-, -, hfind⟩ | ⟨hnone, rfl⟩
  · exact hfind other
  · rw [findSymbol_append, List.take_of_length_le hname]
    by_cases hother : other = name
    · subst hother
      rw [hnone, if_pos rfl]
      rfl
    · rw [if_neg (Ne.symm hother), if_neg hother, Option.or_none]

/-! ## Many definitions -/

theorem defineAll_cons (d : Text × Nat) : defineAll symbols (d :: definitions) =
    (defineSymbol symbols d.1 d.2).bind fun symbols ↦ defineAll symbols definitions :=
  List.foldlM_cons

theorem defineAll_append (more : List (Text × Nat)) : defineAll symbols (definitions ++ more) =
    (defineAll symbols definitions).bind fun symbols ↦ defineAll symbols more :=
  List.foldlM_append

theorem lastDefinition_append (d : Text × Nat) : lastDefinition (definitions ++ [d]) name =
    if name = d.1 then some d.2 else lastDefinition definitions name := by
  rw [lastDefinition, List.reverse_append, List.reverse_singleton, List.singleton_append]
  by_cases h : name = d.1
  · rw [List.find?_cons_of_pos (by simpa using h.symm), if_pos h, Option.map_some]
  · rw [List.find?_cons_of_neg (by simpa using Ne.symm h), if_neg h, lastDefinition]

theorem findSymbol_defineAll (hnames : ∀ d ∈ definitions, d.1.length ≤ 63)
    (h : defineAll [] definitions = some symbols) (name : Text) :
    findSymbol symbols name = lastDefinition definitions name := by
  induction definitions using List.reverseRecOn generalizing symbols with
  | nil =>
      obtain rfl := Option.some.inj h
      rfl
  | append_singleton definitions d ih =>
      rw [defineAll_append] at h
      obtain ⟨before, hbefore, h⟩ := Option.bind_eq_some_iff.mp h
      rw [defineAll_cons] at h
      obtain ⟨after, hafter, h⟩ := Option.bind_eq_some_iff.mp h
      obtain rfl := Option.some.inj h
      rw [lastDefinition_append, findSymbol_defineSymbol (hnames d (by simp)) hafter,
        ih (fun e he ↦ hnames e (List.mem_append_left _ he)) hbefore]

theorem length_le_of_defineAll (h : defineAll [] definitions = some symbols) :
    ∀ n ∈ names symbols, n.length ≤ 63 := by
  induction definitions using List.reverseRecOn generalizing symbols with
  | nil =>
      obtain rfl := Option.some.inj h
      exact fun _ hn ↦ nomatch hn
  | append_singleton definitions d ih =>
      rw [defineAll_append] at h
      obtain ⟨before, hbefore, h⟩ := Option.bind_eq_some_iff.mp h
      rw [defineAll_cons] at h
      obtain ⟨after, hafter, h⟩ := Option.bind_eq_some_iff.mp h
      obtain rfl := Option.some.inj h
      exact length_le_of_mem_names (ih hbefore) hafter

/-! ## Entries -/

/-- The entry that is found has the name. -/
theorem names_of_entryOf {i : Nat} (h : entryOf symbols name = some i) :
    (names symbols)[i]? = some name := by
  obtain ⟨hi, hname, -⟩ := List.findIdx?_eq_some_iff_getElem.mp h
  rw [names, List.getElem?_map, List.getElem?_eq_getElem hi, Option.map_some]
  exact congrArg some (of_decide_eq_true hname)

theorem entryOf_isSome : (entryOf symbols name).isSome = (findSymbol symbols name).isSome := by
  rw [entryOf, List.findIdx?_isSome, Bool.eq_iff_iff, findSymbol_isSome_iff, List.any_eq_true,
    names, List.mem_map]
  simp only [decide_eq_true_eq]

/-- A definition whose name fits sets an entry that has the name, and keeps it there. -/
theorem names_of_entries (hnames : ∀ d ∈ definitions, d.1.length ≤ 63)
    (h : defineAll symbols definitions = some symbols') :
    (∀ e ∈ entries symbols definitions, (names symbols')[e.2]? = some e.1) ∧
      names symbols <+: names symbols' := by
  induction definitions generalizing symbols with
  | nil =>
      obtain rfl := Option.some.inj h
      exact ⟨(fun _ he ↦ nomatch he), List.prefix_rfl⟩
  | cons d definitions ih =>
      rw [defineAll_cons] at h
      obtain ⟨after, hafter, h⟩ := Option.bind_eq_some_iff.mp h
      obtain ⟨hentries, hprefix⟩ := ih (fun e he ↦ hnames e (List.mem_cons_of_mem _ he)) h
      have hset : (names after)[(entryOf symbols d.1).getD symbols.length]? = some d.1 ∧
          names symbols <+: names after := by
        rcases defineSymbol_spec hafter with ⟨hsame, hsome, -⟩ | ⟨hnone, rfl⟩
        · rw [← entryOf_isSome] at hsome
          obtain ⟨i, hi⟩ := Option.isSome_iff_exists.mp hsome
          rw [hi, hsame]
          exact ⟨names_of_entryOf hi, List.prefix_rfl⟩
        · have hentry : entryOf symbols d.1 = none := by
            rw [← Option.not_isSome_iff_eq_none, entryOf_isSome, hnone]
            exact Bool.false_ne_true
          have hafter : names (symbols ++ [(d.1.take 63, d.2)]) = names symbols ++ [d.1] := by
            rw [names, List.map_append, List.take_of_length_le (hnames d List.mem_cons_self)]
            rfl
          rw [hentry, hafter, Option.getD_none, ← length_names]
          exact ⟨List.getElem?_concat_length, List.prefix_append _ _⟩
      refine ⟨?_, hset.2.trans hprefix⟩
      rw [entries, hafter]
      intro e he
      rcases List.mem_cons.mp he with rfl | he
      · obtain ⟨rest, hrest⟩ := hprefix
        obtain ⟨hlt, -⟩ := List.getElem?_eq_some_iff.mp hset.1
        rw [← hrest, List.getElem?_append_left hlt]
        exact hset.1
      · exact hentries e he

/-! ## The table as a map -/

theorem answers_of_fit (hnames : ∀ d ∈ definitions, d.1.length ≤ 63)
    (h : defineAll [] definitions = some symbols) : Answers definitions symbols := by
  have hentries := (names_of_entries hnames h).1
  refine ⟨fun name _ ↦ findSymbol_defineAll hnames h name, ?_, ?_⟩
  · intro e he e' he' heq
    have he := hentries e he
    rw [heq, hentries e' he'] at he
    exact (Option.some.inj he).symm
  · intro e he name _ hfound
    have he := hentries e he
    rw [names_of_entryOf hfound] at he
    exact (Option.some.inj he).symm

/-- A name that does not fit is not found. -/
theorem length_le_of_answers {d : Text × Nat} (hd : d.1.length ≤ 255)
    (h : defineAll [] (definitions ++ [d]) = some symbols)
    (ha : Answers (definitions ++ [d]) symbols) : d.1.length ≤ 63 := by
  apply length_le_of_defineAll h
  rw [← findSymbol_isSome_iff, ha.find_eq d.1 hd, lastDefinition_append, if_pos rfl]
  rfl

/-- The table answers for the definitions, after each of them, exactly if every name fits its field
of 64 bytes. -/
theorem answers_iff (htokens : ∀ d ∈ definitions, d.1.length ≤ 255)
    (h : defineAll [] definitions = some symbols) :
    (∀ before, before <+: definitions → ∀ table, defineAll [] before = some table →
        Answers before table) ↔ ∀ d ∈ definitions, d.1.length ≤ 63 := by
  constructor
  · intro ha d hd
    obtain ⟨before, after, rfl⟩ := List.append_of_mem hd
    rw [List.append_cons] at h ha
    have hbefore := h
    rw [defineAll_append] at hbefore
    obtain ⟨table, htable, -⟩ := Option.bind_eq_some_iff.mp hbefore
    exact length_le_of_answers (htokens d hd) htable (ha _ (List.prefix_append _ _) table htable)
  · intro hnames before hbefore table htable
    exact answers_of_fit (fun d hd ↦ hnames d (hbefore.subset hd)) htable

/-- A definition of a name, and another one of it. -/
theorem answers_twice :
    defineAll [] [("A".toList, 1), ("A".toList, 2)] = some [("A".toList, 2)] ∧
      ∀ before, before <+: [("A".toList, 1), ("A".toList, 2)] → ∀ table,
        defineAll [] before = some table → Answers before table := by
  have h : defineAll [] [("A".toList, 1), ("A".toList, 2)] = some [("A".toList, 2)] := rfl
  exact ⟨h, (answers_iff (by decide) h).mpr (by decide)⟩

/-- A name of 64 letters is not found after its definition. -/
theorem not_answers_of_long : ∃ definitions symbols,
    (∀ d ∈ definitions, d.1.length ≤ 255) ∧ defineAll [] definitions = some symbols ∧
      ¬ Answers definitions symbols := by
  refine ⟨[(List.replicate 64 'A', 1)], [(List.replicate 63 'A', 1)], by decide, rfl, fun ha ↦ ?_⟩
  have hfind := ha.find_eq (List.replicate 64 'A') (by decide)
  exact absurd hfind (by decide)

/-- The predefined symbols are defined as any other. -/
theorem defineAll_predefined (cfg : Config) :
    defineAll [] (predefined cfg) = some (predefined cfg) := by
  rfl

end CopySpace.Assembler
