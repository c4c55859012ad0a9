import CopySpace.Lib.Probing
import CopySpace.Preprocess.Lexer
import Mathlib.Data.Fintype.Card

/-!
# The table of hide sets

`preprocess_macros.h`: the sets of hidden macros are numbered.  A table of slots with linear probing
leads from the words of a set to its number, so that each set has one number as long as there is
room for it.
-/

namespace CopySpace.Preprocess

/-! ## The source -/

/-- `unsigned bits[CC_PP_HIDE_WORDS]` -/
abbrev HideBits := Fin 16 → BitVec 32

/-- `CC_PP_HIDE_SETS` -/
def hideSetsMax : Nat := 4096

/-- `CC_PP_HIDE_SLOTS` -/
def hideSlotsMax : Nat := 8192

/-- `cc_pp_hide_sets`, `cc_pp_hide_slots` and `cc_pp_hide_count` -/
structure HideTable where
  sets : Nat → HideBits
  slots : Nat → Nat
  count : Nat

/-- The first slot for the words of a set. -/
def hideHash (bits : HideBits) : Nat :=
  ((List.finRange 16).foldl (fun hash i ↦ (hash ^^^ bits i) * 16777619#32) 2166136261#32 &&&
    8191#32).toNat

/-- The loop of `cc_pp_hide_intern`: the slot where it stops within so many steps, which is empty or
has the number of the set. -/
def hideSlot (table : HideTable) (bits : HideBits) : Nat → Nat → Option Nat
  | 0, _ => none
  | fuel + 1, slot =>
      match table.slots slot with
      | 0 => some slot
      | index + 1 =>
          if table.sets index = bits then some slot
          else hideSlot table bits fuel ((slot + 1) &&& (hideSlotsMax - 1))

/-- The set takes the next number, and the slot has it. -/
def HideTable.fill (table : HideTable) (slot : Nat) (bits : HideBits) : HideTable where
  sets := Function.update table.sets table.count bits
  slots := Function.update table.slots slot (table.count + 1)
  count := table.count + 1

/-- `cc_pp_hide_intern`: the number of the set and the table, or no number where the table is full.
The loop looks at the slots in a circle, so it does not end if it has not ended after one turn. -/
def hideIntern (table : HideTable) (bits : HideBits) : Option (Option Nat × HideTable) :=
  (hideSlot table bits hideSlotsMax (hideHash bits)).map fun slot ↦
    match table.slots slot with
    | index + 1 => (some index, table)
    | 0 =>
        if table.count = hideSetsMax then (none, table)
        else (some table.count, table.fill slot bits)

/-- `cc_pp_hide_reset` -/
def hideReset (table : HideTable) : Option HideTable :=
  (hideIntern { table with slots := fun _ ↦ 0, count := 0 } fun _ ↦ 0).map Prod.snd

/-- The word with the bit of a macro. -/
def hideWord (m : Fin macrosMax) : Fin 16 := ⟨m / 32, Nat.div_lt_of_lt_mul m.isLt⟩

/-- `cc_pp_hide_contains` -/
def hideContains (table : HideTable) (set m : Nat) : Bool :=
  if h : set < table.count ∧ m < macrosMax then
    (table.sets set (hideWord ⟨m, h.2⟩) >>> (m % 32)) &&& 1#32 != 0#32
  else false

/-- `cc_pp_hide_add` -/
def hideAdd (table : HideTable) (set m : Nat) : Option (Option Nat × HideTable) :=
  if h : set < table.count ∧ m < macrosMax then
    let bits := table.sets set
    let word := hideWord ⟨m, h.2⟩
    hideIntern table (Function.update bits word (bits word ||| 1#32 <<< (m % 32)))
  else some (none, table)

/-- `cc_pp_hide_merge` -/
def hideMerge (table : HideTable) (left right : Nat) (intersection : Bool) :
    Option (Option Nat × HideTable) :=
  if left < table.count ∧ right < table.count then
    hideIntern table fun i ↦
      if intersection then table.sets left i &&& table.sets right i
      else table.sets left i ||| table.sets right i
  else some (none, table)

/-- A call that returns the number of a set. -/
inductive HideCall
  | intern (bits : HideBits)
  | add (set m : Nat)
  | merge (left right : Nat) (intersection : Bool)

/-- The number that the call returns, and the table. -/
def HideCall.run (table : HideTable) : HideCall → Option (Option Nat × HideTable)
  | .intern bits => hideIntern table bits
  | .add set m => hideAdd table set m
  | .merge left right intersection => hideMerge table left right intersection

/-! ## What the table is for -/

/-- The macros in a set. -/
def HideBits.members (bits : HideBits) : Finset (Fin macrosMax) :=
  Finset.univ.filter fun m ↦ (bits (hideWord m)).getLsbD (m % 32) = true

/-- The macros in the set with the number. -/
def HideTable.denotes (table : HideTable) (index : Nat) : Finset (Fin macrosMax) :=
  (table.sets index).members

/-- The set that a call asks for; the numbers of its operands are in use and its macro is one. -/
def HideCall.wanted (table : HideTable) : HideCall → Option (Finset (Fin macrosMax))
  | .intern bits => some bits.members
  | .add set m =>
      if h : set < table.count ∧ m < macrosMax then some (insert ⟨m, h.2⟩ (table.denotes set))
      else none
  | .merge left right intersection =>
      if left < table.count ∧ right < table.count then
        some (if intersection then table.denotes left ∩ table.denotes right
          else table.denotes left ∪ table.denotes right)
      else none

/-- A call in a history: the set that it asked for, and what it returned. -/
structure HideAnswer where
  wanted : Option (Finset (Fin macrosMax))
  result : Option Nat

/-- Calls, one after another. -/
def hideHistory (table : HideTable) : List HideCall → Option (List HideAnswer × HideTable)
  | [] => some ([], table)
  | call :: calls => do
      let (result, next) ← call.run table
      let (answers, last) ← hideHistory next calls
      return (⟨call.wanted table, result⟩ :: answers, last)

/-- The numbers of the table stand for different sets, 0 for the empty one. -/
structure Interned (table : HideTable) : Prop where
  empty : 0 < table.count ∧ table.denotes 0 = ∅
  unique : ∀ i < table.count, ∀ j < table.count, i = j ↔ table.denotes i = table.denotes j
  contains : ∀ set m, hideContains table set m = true ↔
    set < table.count ∧ ∃ h : m < macrosMax, ⟨m, h⟩ ∈ table.denotes set

/-- The later table keeps the sets of the numbers. -/
structure HideTable.Keeps (table later : HideTable) : Prop where
  count_le : table.count ≤ later.count
  denotes_eq : ∀ i < table.count, later.denotes i = table.denotes i

/-- The call has returned the number of the set that it asked for; it has not returned one if it did
not ask for a set, or if the table is full and does not have it. -/
def HideAnswer.Right (answer : HideAnswer) (table : HideTable) : Prop :=
  match answer.result with
  | some index => index < table.count ∧ answer.wanted = some (table.denotes index)
  | none => ∀ set, answer.wanted = some set →
      table.count = hideSetsMax ∧ ∀ index < table.count, table.denotes index ≠ set

/-! ## Bits -/

variable {bits bits' : HideBits} {table next : HideTable}

theorem mem_members {m : Fin macrosMax} :
    m ∈ bits.members ↔ (bits (hideWord m)).getLsbD (m % 32) = true := by
  rw [HideBits.members, Finset.mem_filter, and_iff_right (Finset.mem_univ m)]

/-- The words of a set are those of its members. -/
theorem members_injective : Function.Injective HideBits.members := by
  intro bits bits' h
  funext i
  apply BitVec.eq_of_getLsbD_eq
  intro b hb
  have hm : 32 * i.val + b < macrosMax := by
    have hi := i.isLt
    rw [macrosMax]
    omega
  have hword : hideWord ⟨32 * i + b, hm⟩ = i := by
    apply Fin.ext
    change (32 * i.val + b) / 32 = i
    omega
  have hbit : (32 * i.val + b) % 32 = b := by omega
  have hmem := Finset.ext_iff.mp h ⟨32 * i + b, hm⟩
  rw [mem_members, mem_members, hword] at hmem
  simp only [hbit] at hmem
  exact Bool.eq_iff_iff.mpr hmem

theorem shift_and_one (x : BitVec 32) (k : Nat) : (x >>> k &&& 1#32 != 0#32) = x.getLsbD k := by
  rw [BitVec.and_one_eq_setWidth_ofBool_getLsbD, BitVec.getLsbD_ushiftRight, Nat.add_zero]
  cases x.getLsbD k <;> rfl

theorem getLsbD_or_shift (x : BitVec 32) {k b : Nat} (hk : k < 32) :
    (x ||| 1#32 <<< k).getLsbD b = true ↔ b = k ∨ x.getLsbD b = true := by
  rw [BitVec.getLsbD_or, BitVec.getLsbD_shiftLeft, BitVec.getLsbD_one]
  simp only [Bool.or_eq_true, Bool.and_eq_true, decide_eq_true_eq, Bool.not_eq_true',
    decide_eq_false_iff_not]
  constructor
  · rintro (hx | ⟨⟨-, hle⟩, -, hsub⟩)
    · exact .inr hx
    · exact .inl (by omega)
  · rintro (rfl | hx)
    · exact .inr ⟨⟨hk, lt_irrefl b⟩, by decide, Nat.sub_self b⟩
    · exact .inl hx

theorem members_empty : HideBits.members (fun _ ↦ 0) = ∅ := by
  refine Finset.eq_empty_of_forall_notMem fun m hm ↦ ?_
  exact Bool.false_ne_true (BitVec.getLsbD_zero.symm.trans (mem_members.mp hm))

theorem members_update (bits : HideBits) (m : Fin macrosMax) :
    HideBits.members (Function.update bits (hideWord m)
      (bits (hideWord m) ||| 1#32 <<< (m.val % 32))) = insert m bits.members := by
  ext k
  rw [Finset.mem_insert, mem_members, mem_members, Function.update_apply]
  by_cases hword : hideWord k = hideWord m
  · have hdiv : k.val / 32 = m.val / 32 := congrArg Fin.val hword
    have hmod : k.val % 32 = m.val % 32 ↔ k = m := by
      rw [Fin.ext_iff]
      omega
    rw [if_pos hword, getLsbD_or_shift _ (Nat.mod_lt _ (by decide)), hmod, hword]
  · have hne : k ≠ m := by
      rintro rfl
      exact hword rfl
    rw [if_neg hword, or_iff_right hne]

theorem members_and (bits bits' : HideBits) :
    HideBits.members (fun i ↦ bits i &&& bits' i) = bits.members ∩ bits'.members := by
  ext m
  rw [Finset.mem_inter, mem_members, mem_members, mem_members, BitVec.getLsbD_and, Bool.and_eq_true]

theorem members_or (bits bits' : HideBits) :
    HideBits.members (fun i ↦ bits i ||| bits' i) = bits.members ∪ bits'.members := by
  ext m
  rw [Finset.mem_union, mem_members, mem_members, mem_members, BitVec.getLsbD_or, Bool.or_eq_true]

/-! ## Slots -/

/-- The set at a slot. -/
def HideTable.keys (table : HideTable) (slot : Nat) : Option HideBits :=
  match table.slots slot with
  | 0 => none
  | index + 1 => some (table.sets index)

theorem keys_eq_none {slot : Nat} : table.keys slot = none ↔ table.slots slot = 0 := by
  rw [HideTable.keys]
  split
  · exact iff_of_true rfl ‹_›
  · next hslot =>
      rw [hslot]
      exact iff_of_false (Option.some_ne_none _) (Nat.succ_ne_zero _)

theorem keys_of_slots {slot index : Nat} (h : table.slots slot = index + 1) :
    table.keys slot = some (table.sets index) := by
  rw [HideTable.keys, h]

theorem hideHash_lt (bits : HideBits) : hideHash bits < hideSlotsMax := by
  rw [hideHash, BitVec.toNat_and]
  exact Nat.lt_of_le_of_lt Nat.and_le_right (by decide)

/-- The loop probes. -/
theorem hideSlot_eq_probe (fuel slot : Nat) :
    hideSlot table bits fuel slot = Probing.probe hideSlotsMax table.keys bits fuel slot := by
  induction fuel generalizing slot with
  | zero => rfl
  | succ fuel ih =>
      have hnext : (slot + 1) &&& (hideSlotsMax - 1) = (slot + 1) % hideSlotsMax :=
        Nat.and_two_pow_sub_one_eq_mod (slot + 1) 13
      rw [hideSlot, Probing.probe, ih, hnext]
      cases hslot : table.slots slot with
      | zero => rw [if_pos (.inl (keys_eq_none.mpr hslot))]
      | succ index =>
          have hkeys := keys_of_slots hslot
          refine if_congr ?_ rfl rfl
          rw [Probing.Stops, hkeys, Option.some_inj]
          exact (or_iff_right (Option.some_ne_none _)).symm

/-! ## The invariant -/

/-- No chain of the table is broken, every number is in a slot, and more than half of the slots are
empty. -/
structure HideTable.Good (table : HideTable) : Prop where
  count_le : table.count ≤ hideSetsMax
  slots_le : ∀ slot, table.slots slot ≤ table.count
  held : ∀ index < table.count, ∃ slot < hideSlotsMax, table.slots slot = index + 1
  sparse : ((Finset.range hideSlotsMax).filter (table.slots · ≠ 0)).card ≤ table.count
  chained : Probing.Chained hideSlotsMax hideHash table.keys

theorem HideTable.Good.exists_empty (h : table.Good) :
    ∃ slot < hideSlotsMax, table.keys slot = none := by
  by_contra hfull
  push Not at hfull
  have hall : (Finset.range hideSlotsMax).filter (table.slots · ≠ 0) = Finset.range hideSlotsMax :=
    Finset.filter_true_of_mem fun slot hslot ↦
      fun hzero ↦ hfull slot (Finset.mem_range.mp hslot) (keys_eq_none.mpr hzero)
  have hcard := h.sparse.trans h.count_le
  rw [hall, Finset.card_range] at hcard
  exact absurd hcard (by decide)

/-- Two numbers of one set are equal. -/
theorem HideTable.Good.unique (h : table.Good) {i j : Nat} (hi : i < table.count)
    (hj : j < table.count) (heq : table.sets i = table.sets j) : i = j := by
  obtain ⟨slot, hslot, hi⟩ := h.held i hi
  obtain ⟨slot', hslot', hj⟩ := h.held j hj
  have hkey := keys_of_slots hi
  rw [heq] at hkey
  obtain rfl := h.chained.unique (hideHash_lt _) hslot hslot' hkey (keys_of_slots hj)
  exact Nat.succ.inj (hi.symm.trans hj)

theorem slots_fill (slot other : Nat) :
    (table.fill slot bits).slots other =
      if other = slot then table.count + 1 else table.slots other :=
  Function.update_apply _ _ _ _

theorem sets_fill (slot index : Nat) :
    (table.fill slot bits).sets index = if index = table.count then bits else table.sets index :=
  Function.update_apply _ _ _ _

theorem HideTable.Good.keys_fill (h : table.Good) (slot : Nat) :
    (table.fill slot bits).keys = Function.update table.keys slot (some bits) := by
  funext other
  rw [Function.update_apply]
  split_ifs with hslot
  · have hfill : (table.fill slot bits).slots other = table.count + 1 := by
      rw [slots_fill, if_pos hslot]
    rw [keys_of_slots hfill, sets_fill, if_pos rfl]
  · rw [HideTable.keys, slots_fill, if_neg hslot, HideTable.keys]
    cases hindex : table.slots other with
    | zero => rfl
    | succ index =>
        have hlt : index < table.count := hindex.ge.trans (h.slots_le other)
        dsimp only
        rw [sets_fill, if_neg hlt.ne]

/-- A set that the table has not and has room for. -/
theorem HideTable.Good.fill (h : table.Good) (hroom : table.count ≠ hideSetsMax) {slot : Nat}
    (hlt : slot < hideSlotsMax)
    (hprobe : Probing.probe hideSlotsMax table.keys bits hideSlotsMax (hideHash bits) = some slot)
    (hvacant : table.keys slot = none) : (table.fill slot bits).Good where
  count_le := lt_of_le_of_ne h.count_le hroom
  slots_le := by
    intro other
    rw [slots_fill]
    split_ifs
    · exact le_rfl
    · exact (h.slots_le other).trans (Nat.le_succ _)
  held := by
    intro index hindex
    rcases Nat.lt_succ_iff_lt_or_eq.mp hindex with hindex | rfl
    · obtain ⟨other, hother, hheld⟩ := h.held index hindex
      have hne : other ≠ slot := by
        rintro rfl
        exact Nat.succ_ne_zero index (hheld.symm.trans (keys_eq_none.mp hvacant))
      exact ⟨other, hother, by rw [slots_fill, if_neg hne, hheld]⟩
    · exact ⟨slot, hlt, by rw [slots_fill, if_pos rfl]⟩
  sparse := by
    have hsub : (Finset.range hideSlotsMax).filter ((table.fill slot bits).slots · ≠ 0) ⊆
        insert slot ((Finset.range hideSlotsMax).filter (table.slots · ≠ 0)) := by
      intro other hother
      rw [Finset.mem_filter, slots_fill] at hother
      rw [Finset.mem_insert, Finset.mem_filter]
      split_ifs at hother with hslot
      · exact .inl hslot
      · exact .inr hother
    exact (Finset.card_le_card hsub).trans
      ((Finset.card_insert_le slot _).trans (Nat.succ_le_succ h.sparse))
  chained := by
    rw [h.keys_fill]
    exact h.chained.update h.exists_empty (hideHash_lt bits) hprobe hvacant

/-! ## The calls -/

/-- The table is as before, or has one set more. -/
theorem keeps_fill (slot : Nat) : table.Keeps (table.fill slot bits) where
  count_le := Nat.le_succ _
  denotes_eq i hi := by rw [HideTable.denotes, sets_fill, if_neg hi.ne, HideTable.denotes]

theorem HideTable.Keeps.rfl : table.Keeps table := ⟨le_rfl, fun _ _ ↦ Eq.refl _⟩

theorem HideTable.Keeps.trans {later last : HideTable} (h : table.Keeps later)
    (h' : later.Keeps last) : table.Keeps last where
  count_le := h.count_le.trans h'.count_le
  denotes_eq i hi := (h'.denotes_eq i (hi.trans_le h.count_le)).trans (h.denotes_eq i hi)

/-- `cc_pp_hide_intern` ends, and returns the number of the set if the table can have it. -/
theorem hideIntern_spec (h : table.Good) (bits : HideBits) : ∃ result next,
    hideIntern table bits = some (result, next) ∧ next.Good ∧ table.Keeps next ∧
      HideAnswer.Right ⟨some bits.members, result⟩ next ∧ next.count ≤ table.count + 1 := by
  obtain ⟨d, -, hprobe, hstop, -⟩ :=
    Probing.probe_stops bits h.exists_empty (hideHash_lt bits)
  have hlt : (hideHash bits + d) % hideSlotsMax < hideSlotsMax := Nat.mod_lt _ (by decide)
  rw [hideIntern, hideSlot_eq_probe, hprobe, Option.map_some]
  generalize (hideHash bits + d) % hideSlotsMax = slot at hprobe hstop hlt
  cases hslot : table.slots slot with
  | succ index =>
      rw [Probing.Stops, keys_of_slots hslot, Option.some_inj] at hstop
      obtain rfl := hstop.resolve_left (Option.some_ne_none _)
      have hindex : index < table.count := hslot.ge.trans (h.slots_le slot)
      exact ⟨_, _, rfl, h, .rfl, ⟨hindex, rfl⟩, Nat.le_succ _⟩
  | zero =>
      have hvacant := keys_eq_none.mpr hslot
      dsimp only
      split_ifs with hfull
      · -- the search would have stopped at the set
        refine ⟨_, _, rfl, h, .rfl, ?_, Nat.le_succ _⟩
        rintro set hset
        obtain rfl := Option.some.inj hset
        refine ⟨hfull, fun index hindex heq ↦ ?_⟩
        obtain ⟨other, hother, hheld⟩ := h.held index hindex
        have hkey := keys_of_slots hheld
        rw [members_injective heq] at hkey
        rw [h.chained.probe_eq (hideHash_lt bits) hother hkey] at hprobe
        obtain rfl := Option.some.inj hprobe
        exact Option.some_ne_none _ (hkey.symm.trans hvacant)
      · refine ⟨_, _, rfl, h.fill hfull hlt hprobe hvacant, keeps_fill slot,
          ⟨Nat.lt_succ_self _, ?_⟩, le_rfl⟩
        rw [HideTable.denotes, sets_fill, if_pos rfl]

theorem hideReset_spec (table : HideTable) : ∃ next,
    hideReset table = some next ∧ next.Good ∧ 0 < next.count ∧ next.denotes 0 = ∅ := by
  have hgood : HideTable.Good { table with slots := fun _ ↦ 0, count := 0 } :=
    ⟨Nat.zero_le _, fun _ ↦ le_rfl, fun _ h ↦ absurd h (Nat.not_lt_zero _), by simp,
      Probing.chained_empty⟩
  obtain ⟨result, next, hrun, hnext, -, hright, hcount⟩ := hideIntern_spec hgood fun _ ↦ 0
  refine ⟨next, by rw [hideReset, hrun, Option.map_some], hnext, ?_⟩
  cases result with
  | none =>
      rw [(hright _ rfl).1] at hcount
      change hideSetsMax ≤ 0 + 1 at hcount
      exact absurd hcount (by decide)
  | some index =>
      obtain ⟨hindex, hdenotes⟩ := hright
      obtain rfl := Nat.lt_one_iff.mp (hindex.trans_le hcount)
      exact ⟨hindex, (Option.some.inj hdenotes).symm.trans members_empty⟩

theorem HideCall.run_spec (h : table.Good) (call : HideCall) : ∃ result next,
    call.run table = some (result, next) ∧ next.Good ∧ table.Keeps next ∧
      HideAnswer.Right ⟨call.wanted table, result⟩ next := by
  have hintern (bits : HideBits) : ∃ result next, hideIntern table bits = some (result, next) ∧
      next.Good ∧ table.Keeps next ∧ HideAnswer.Right ⟨some bits.members, result⟩ next := by
    obtain ⟨result, next, hrun, hnext, hkeeps, hright, -⟩ := hideIntern_spec h bits
    exact ⟨result, next, hrun, hnext, hkeeps, hright⟩
  have hnone : HideAnswer.Right ⟨none, none⟩ table := fun set hset ↦ nomatch hset
  cases call with
  | intern bits => exact hintern bits
  | add set m =>
      rw [HideCall.run, HideCall.wanted, hideAdd]
      split_ifs with hin
      · rw [HideTable.denotes, ← members_update]
        exact hintern _
      · exact ⟨none, table, rfl, h, .rfl, hnone⟩
  | merge left right intersection =>
      rw [HideCall.run, HideCall.wanted, hideMerge]
      split_ifs with hin hboth
      · rw [HideTable.denotes, HideTable.denotes, ← members_and]
        exact hintern _
      · rw [HideTable.denotes, HideTable.denotes, ← members_or]
        exact hintern _
      · exact ⟨none, table, rfl, h, .rfl, hnone⟩

theorem hideContains_iff {set m : Nat} : hideContains table set m = true ↔
    set < table.count ∧ ∃ h : m < macrosMax, ⟨m, h⟩ ∈ table.denotes set := by
  rw [hideContains]
  split_ifs with h
  · rw [shift_and_one, HideTable.denotes, and_iff_right h.1, exists_prop_of_true h.2, mem_members]
  · refine iff_of_false not_false ?_
    rintro ⟨hset, hm, -⟩
    exact h ⟨hset, hm⟩

/-! ## Histories -/

/-- An answer stays right. -/
theorem HideAnswer.Right.keeps {answer : HideAnswer} {later : HideTable}
    (hanswer : answer.Right table) (hkeeps : table.Keeps later)
    (hcount : later.count ≤ hideSetsMax) : answer.Right later := by
  obtain ⟨wanted, result⟩ := answer
  cases result with
  | some index =>
      obtain ⟨hindex, hwanted⟩ := hanswer
      refine ⟨hindex.trans_le hkeeps.count_le, ?_⟩
      rw [hkeeps.denotes_eq index hindex]
      exact hwanted
  | none =>
      intro set hset
      obtain ⟨hfull, hne⟩ := hanswer set hset
      have heq : later.count = hideSetsMax :=
        Nat.le_antisymm hcount (hfull.symm.le.trans hkeeps.count_le)
      refine ⟨heq, fun index hindex ↦ ?_⟩
      rw [heq, ← hfull] at hindex
      rw [hkeeps.denotes_eq index hindex]
      exact hne index hindex

theorem hideHistory_spec (h : table.Good) (calls : List HideCall) : ∃ answers last,
    hideHistory table calls = some (answers, last) ∧ last.Good ∧ table.Keeps last ∧
      ∀ answer ∈ answers, answer.Right last := by
  induction calls generalizing table with
  | nil => exact ⟨[], table, rfl, h, .rfl, fun _ h ↦ nomatch h⟩
  | cons call calls ih =>
      obtain ⟨result, next, hrun, hnext, hkeeps, hright⟩ := call.run_spec h
      obtain ⟨answers, last, hhistory, hlast, hkeeps', hanswers⟩ := ih hnext
      refine ⟨⟨call.wanted table, result⟩ :: answers, last, ?_, hlast, hkeeps.trans hkeeps', ?_⟩
      · rw [hideHistory, hrun]
        dsimp only [bind, Option.bind]
        rw [hhistory]
        rfl
      · rintro answer hanswer
        rcases List.mem_cons.mp hanswer with rfl | hanswer
        · exact hright.keeps hkeeps' hlast.count_le
        · exact hanswers answer hanswer

/-- The numbers after a reset and any calls stand for different sets, every call has returned the
number of the set that it asked for unless the table was full, and later calls change no set. -/
theorem hideHistory_interned (table : HideTable) (calls more : List HideCall) :
    ∃ start answers last, hideReset table = some start ∧
      hideHistory start calls = some (answers, last) ∧ Interned last ∧
      (∀ answer ∈ answers, answer.Right last) ∧
      ∃ answers' later, hideHistory last more = some (answers', later) ∧ last.Keeps later := by
  obtain ⟨start, hreset, hstart, hcount, hempty⟩ := hideReset_spec table
  obtain ⟨answers, last, hcalls, hlast, hkeeps, hanswers⟩ := hideHistory_spec hstart calls
  obtain ⟨answers', later, hmore, -, hkeeps', -⟩ := hideHistory_spec hlast more
  refine ⟨start, answers, last, hreset, hcalls, ⟨?_, ?_, ?_⟩, hanswers, answers', later, hmore,
    hkeeps'⟩
  · exact ⟨hcount.trans_le hkeeps.count_le, (hkeeps.denotes_eq 0 hcount).trans hempty⟩
  · exact fun i hi j hj ↦ ⟨fun h ↦ h ▸ rfl, fun h ↦ hlast.unique hi hj (members_injective h)⟩
  · exact fun set m ↦ hideContains_iff

end CopySpace.Preprocess
