import CopySpace.Compiler.Constants

/-!
# `compiler.fth`: the values of an enumeration

Each enumerator has a value of 64 bits with the type of the last constant before it.  The type of the
enumeration is derived again behind each of them, from what the values have needed so far.
-/

namespace CopySpace.Compiler

/-- An enumerator in the source, with its constant if it has one. -/
structure Entry where
  name : String
  constant : Option Constant

/-- What `cc-bind-enumerator` keeps.  An enumerator that is no `int` has the type of the
enumeration. -/
structure Binding where
  name : String
  owned : Bool
  low : Cell
  high : Cell

/-- What is declared around the enumeration: the names that cannot be bound there, and how many more
can be. -/
structure Scope where
  taken : String → Bool
  room : Nat

/-- `flags`: a negative value, one above `INT_MAX`, and one that needs 64 bits. -/
structure Flags where
  negative : Bool
  large : Bool
  wide : Bool

/-- `cc-enum-layout` -/
def ccEnumLayout (flags : Flags) : Promoted :=
  if flags.wide || (flags.negative && flags.large) then
    if flags.negative then .llong else .ullong
  else if flags.negative then .int else .uint

/-- `cc-enum-int?` -/
def ccEnumInt (low high : Cell) (type : Promoted) : Prop :=
  high = 0 ∧ low.toNat ≤ 2147483647 ∨ high = -1 ∧ low.msb ∧ type.signed

instance (low high : Cell) (type : Promoted) : Decidable (ccEnumInt low high type) :=
  inferInstanceAs (Decidable (_ ∨ _))

/-- `cc-enum-overflow?` -/
def ccEnumOverflow (low high : Cell) (type : Promoted) : Bool :=
  if type.wide then low = -1 && high = if type.signed then 2147483647 else -1
  else low = if type.signed then 2147483647 else -1

/-- The flags of one more value. -/
def Flags.add (flags : Flags) (low high : Cell) (type : Promoted) : Flags :=
  if type.signed && high.msb then
    { flags with negative := true, wide := flags.wide || high ≠ -1 || !low.msb }
  else if high ≠ 0 then { flags with wide := true }
  else if low.toNat > 2147483647 then { flags with large := true }
  else flags

/-- `cc-bind-enumerator` -/
def ccBindEnumerator (scope : Scope) (b : Binding) (bindings : List Binding) :
    Option (List Binding) :=
  if scope.taken b.name || bindings.any (·.name = b.name) || scope.room ≤ bindings.length then none
  else some (bindings ++ [b])

/-- The state of `cc-read-enumerators-body` before an enumerator. -/
structure Enumerating where
  low : Cell
  high : Cell
  type : Promoted
  flags : Flags
  overflow : Bool
  base : Promoted
  bindings : List Binding

/-- The state after `cc-new-record` and before the first enumerator. -/
def Enumerating.initial : Enumerating := ⟨0, 0, .int, ⟨false, false, false⟩, false, .uint, []⟩

/-- The value of an enumerator, in its cells. -/
def enumeratorCells (st : Enumerating) (e : Entry) : Option (Cell × Cell × Promoted) :=
  match e.constant with
  | some c => some (c.low, c.high, c.type)
  | none => if st.overflow then none else some (st.low, st.high, st.type)

/-- An enumerator; the successor of the last one is not used. -/
def readEnumerator (scope : Scope) (st : Enumerating) (e : Entry) : Option Enumerating :=
  (enumeratorCells st e).bind fun (low, high, type) ↦
    let flags := st.flags.add low high type
    let binding : Binding := ⟨e.name, !ccEnumInt low high type, low, high⟩
    (ccBindEnumerator scope binding st.bindings).map fun bindings ↦
      { low := low + 1
        high := if low + 1 = 0 then high + 1 else high
        type
        flags
        overflow := ccEnumOverflow low high type
        base := ccEnumLayout flags
        bindings }

/-- `cc-read-enumerators-body` -/
def ccReadEnumerators (scope : Scope) (entries : List Entry) : Option Enumerating :=
  if entries = [] then none else entries.foldlM (readEnumerator scope) .initial

/-! ## The values -/

/-- The values of enumerators, the first of which is the given one if it has no constant. -/
def values : Int → List Entry → List Int
  | _, [] => []
  | next, e :: entries =>
      let v := (e.constant.map Constant.value).getD next
      v :: values (v + 1) entries

/-- The number that an enumerator stands for where it is used. -/
def Binding.value (base : Promoted) (b : Binding) : Int :=
  (if b.owned then base else .int).valueOf b.low b.high

/-- The enumerators have the given values, and their enumeration can hold them. -/
structure Exact (entries : List Entry) (st : Enumerating) : Prop where
  names : st.bindings.map Binding.name = entries.map Entry.name
  values : st.bindings.map (Binding.value st.base) = values 0 entries
  representable : ∀ v ∈ Compiler.values 0 entries, st.base.Represents v

section

variable {low high : Cell} {type : Promoted} {v : Int} {flags : Flags}

/-- The cells of a number of some type. -/
structure Cells (low high : Cell) (type : Promoted) (v : Int) : Prop where
  extended : type.wide = false → high = if type.signed && low.msb then -1 else 0
  value : type.valueOf low high = v

theorem Constant.cells (c : Constant) : Cells c.low c.high c.type c.value := ⟨c.extended, rfl⟩

namespace Cells

theorem join_eq (h : Cells low high type v) : join high low = BitVec.ofInt 64 v := by
  rw [← h.value]
  exact Promoted.join_eq h.extended

theorem represents (h : Cells low high type v) : type.Represents v := by
  rw [← h.value]
  exact type.represents_valueOf low high

/-- A number with a sign, or one without. -/
theorem range (h : Cells low high type v) :
    if type.signed then -2 ^ 63 ≤ v ∧ v < 2 ^ 63 else 0 ≤ v ∧ v < 2 ^ 64 := by
  have := h.represents
  revert this
  cases type <;> simp only [Promoted.Represents, Promoted.wide, Promoted.signed] <;> norm_num <;>
    omega

theorem negative_iff (h : Cells low high type v) : (type.signed && high.msb) = true ↔ v < 0 := by
  obtain ⟨hhigh, -⟩ := toNat_of_join h.join_eq
  have hrange := h.range
  rw [BitVec.msb_eq_decide, Bool.and_eq_true, decide_eq_true_iff]
  split at hrange
  case isTrue hsigned =>
    rw [eq_true hsigned, true_and]
    omega
  case isFalse hsigned =>
    rw [eq_false hsigned, false_and, false_iff]
    omega

/-- The upper cell only repeats the sign of a negative number. -/
theorem wide_negative_iff (h : Cells low high type v) (hv : v < 0) :
    (high ≠ -1 || !low.msb) = true ↔ v < -2 ^ 31 := by
  obtain ⟨hhigh, hlow⟩ := toNat_of_join h.join_eq
  have hrange := h.range
  have hones : (-1 : Cell).toNat = 2 ^ 32 - 1 := rfl
  rw [BitVec.msb_eq_decide, Bool.or_eq_true, decide_eq_true_iff, Ne, ← BitVec.toNat_inj, hones,
    Bool.not_eq_true', decide_eq_false_iff_not]
  split at hrange <;> omega

theorem high_ne_zero_iff (h : Cells low high type v) (hv : 0 ≤ v) : high ≠ 0 ↔ 2 ^ 32 ≤ v := by
  obtain ⟨hhigh, -⟩ := toNat_of_join h.join_eq
  have hrange := h.range
  have hzero : (0 : Cell).toNat = 0 := rfl
  rw [Ne, ← BitVec.toNat_inj, hzero]
  split at hrange <;> omega

theorem low_large_iff (h : Cells low high type v) (hv : 0 ≤ v) (hhigh : high = 0) :
    low.toNat > 2147483647 ↔ 2 ^ 31 ≤ v := by
  obtain ⟨-, hlow⟩ := toNat_of_join h.join_eq
  have := (h.high_ne_zero_iff hv).not.mp (not_not.mpr hhigh)
  omega

theorem enumInt_iff (h : Cells low high type v) :
    ccEnumInt low high type ↔ Promoted.int.Represents v := by
  obtain ⟨hhigh, hlow⟩ := toNat_of_join h.join_eq
  have hrange := h.range
  have hzero : (0 : Cell).toNat = 0 := rfl
  have hones : (-1 : Cell).toNat = 2 ^ 32 - 1 := rfl
  have hint : Promoted.int.Represents v ↔ -2 ^ 31 ≤ v ∧ v < 2 ^ 31 := Iff.rfl
  rw [ccEnumInt, hint, ← BitVec.toNat_inj, ← BitVec.toNat_inj, hzero, hones, BitVec.msb_eq_decide,
    decide_eq_true_iff]
  split at hrange
  case isTrue hsigned =>
    rw [eq_true hsigned, and_true]
    omega
  case isFalse hsigned =>
    rw [eq_false hsigned, and_false, and_false, or_false]
    omega

/-- The cells of a number that its type can represent. -/
theorem of_join (hjoin : join high low = BitVec.ofInt 64 v) (h : type.Represents v) :
    Cells low high type v := by
  refine ⟨fun hwide ↦ BitVec.eq_of_toNat_eq ?_, (Promoted.valueOf_eq hjoin).mpr h⟩
  obtain ⟨hhigh, hlow⟩ := toNat_of_join hjoin
  have hzero : (0 : Cell).toNat = 0 := rfl
  have hones : (-1 : Cell).toNat = 2 ^ 32 - 1 := rfl
  have hmsb : low.msb = decide (2 ^ 31 ≤ low.toNat) := BitVec.msb_eq_decide low
  rw [Promoted.Represents, hwide] at h
  rw [hmsb]
  cases hsigned : type.signed
  · rw [hsigned] at h
    simp only [Bool.false_and, Bool.false_eq_true, if_false, hzero] at h ⊢
    omega
  · rw [hsigned] at h
    simp only [Bool.true_and, Bool.false_eq_true, if_true, if_false, decide_eq_true_iff] at h ⊢
    split
    · rw [hones]
      omega
    · rw [hzero]
      omega

/-- The type has no next number. -/
theorem overflow_of_not_represents (h : Cells low high type v) (hnext : ¬ type.Represents (v + 1)) :
    ccEnumOverflow low high type = true := by
  obtain ⟨hhigh, hlow⟩ := toNat_of_join h.join_eq
  have hrepresents := h.represents
  have hones : (-1 : Cell).toNat = 2 ^ 32 - 1 := rfl
  have hmax : (2147483647 : Cell).toNat = 2 ^ 31 - 1 := rfl
  revert hrepresents hnext
  unfold ccEnumOverflow Promoted.Represents
  cases type.wide <;> cases type.signed <;>
    simp only [Bool.and_eq_true, decide_eq_true_iff, ← BitVec.toNat_inj, Bool.false_eq_true, if_true, if_false, hones, hmax]
      <;> omega

/-- One more is a number of the type, unless it is the greatest one. -/
theorem successor (h : Cells low high type v) (hoverflow : ccEnumOverflow low high type = false) :
    Cells (low + 1) (if low + 1 = 0 then high + 1 else high) type (v + 1) := by
  refine of_join (BitVec.eq_of_toNat_eq ?_) (Classical.not_not.mp fun hnext ↦ ?_)
  · obtain ⟨hhigh, hlow⟩ := toNat_of_join h.join_eq
    have hzero : (0 : Cell).toNat = 0 := rfl
    have hlow' : (low + 1).toNat = (low.toNat + 1) % 2 ^ 32 := BitVec.toNat_add _ _
    have hhigh' : (high + 1).toNat = (high.toNat + 1) % 2 ^ 32 := BitVec.toNat_add _ _
    rw [toNat_join, BitVec.toNat_ofInt]
    split
    case isTrue hcarry =>
      rw [← BitVec.toNat_inj, hzero] at hcarry
      omega
    case isFalse hcarry =>
      rw [← BitVec.toNat_inj, hzero] at hcarry
      omega
  · rw [h.overflow_of_not_represents hnext] at hoverflow
    cases hoverflow

/-- What a value needs is added to the flags. -/
theorem flags_add (h : Cells low high type v) (flags : Flags) :
    ((flags.add low high type).negative = true ↔ flags.negative = true ∨ v < 0) ∧
      ((flags.add low high type).large = true ↔
        flags.large = true ∨ 2 ^ 31 ≤ v ∧ v < 2 ^ 32) ∧
      ((flags.add low high type).wide = true ↔
        flags.wide = true ∨ v < -2 ^ 31 ∨ 2 ^ 32 ≤ v) := by
  unfold Flags.add
  by_cases hnegative : v < 0
  · have hwide := h.wide_negative_iff hnegative
    rw [if_pos (h.negative_iff.mpr hnegative)]
    dsimp only
    rw [Bool.or_assoc, Bool.or_eq_true, hwide]
    refine ⟨?_, ?_, ?_⟩
    · exact iff_of_true rfl (.inr hnegative)
    · exact (or_iff_left fun h ↦ by omega).symm
    · exact or_congr_right (by omega)
  · rw [if_neg (h.negative_iff.not.mpr hnegative)]
    rw [Int.not_lt] at hnegative
    by_cases hhigh : high ≠ 0
    · have hwide := (h.high_ne_zero_iff hnegative).mp hhigh
      rw [if_pos hhigh]
      refine ⟨?_, ?_, ?_⟩
      · exact (or_iff_left (by omega)).symm
      · exact (or_iff_left fun h ↦ by omega).symm
      · exact iff_of_true rfl (.inr (.inr hwide))
    · have hwide := (h.high_ne_zero_iff hnegative).not.mp hhigh
      have hlarge := h.low_large_iff hnegative (not_not.mp hhigh)
      rw [if_neg hhigh]
      split
      case isTrue hlow =>
        have := hlarge.mp hlow
        refine ⟨?_, ?_, ?_⟩
        · exact (or_iff_left (by omega)).symm
        · exact iff_of_true rfl (.inr ⟨this, by omega⟩)
        · exact (or_iff_left (by omega)).symm
      case isFalse hlow =>
        have := hlarge.not.mp hlow
        refine ⟨?_, ?_, ?_⟩
        · exact (or_iff_left (by omega)).symm
        · exact (or_iff_left fun h ↦ by omega).symm
        · exact (or_iff_left (by omega)).symm

end Cells

/-! ## The list -/

/-- What is known between two enumerators, behind those with the given values: the next one without
a constant has the value `next`. -/
structure Enumerated (names : List String) (vs : List Int) (next : Int) (st : Enumerating) : Prop where
  negative : st.flags.negative = true ↔ ∃ v ∈ vs, v < 0
  large : st.flags.large = true ↔ ∃ v ∈ vs, 2 ^ 31 ≤ v ∧ v < 2 ^ 32
  wide : st.flags.wide = true ↔ ∃ v ∈ vs, v < -2 ^ 31 ∨ 2 ^ 32 ≤ v
  base : vs ≠ [] → st.base = ccEnumLayout st.flags
  names : st.bindings.map Binding.name = names
  cells : List.Forall₂ (fun b v ↦ join b.high b.low = BitVec.ofInt 64 v ∧
    (b.owned = false ↔ Promoted.int.Represents v)) st.bindings vs
  range : ∀ v ∈ vs, -2 ^ 63 ≤ v ∧ v < 2 ^ 64
  next : st.overflow = false → Cells st.low st.high st.type next

theorem Enumerated.initial : Enumerated [] [] 0 .initial := by
  refine ⟨?_, ?_, ?_, fun h ↦ absurd rfl h, rfl, .nil, nofun, fun _ ↦ ⟨fun _ ↦ rfl, rfl⟩⟩ <;>
    simp [Enumerating.initial]

/-- An enumerator has its constant, or the next value. -/
theorem Enumerated.step {scope : Scope} {names : List String} {vs : List Int} {next : Int}
    {st st' : Enumerating} {e : Entry} (h : Enumerated names vs next st)
    (hstep : readEnumerator scope st e = some st') :
    Enumerated (names ++ [e.name]) (vs ++ [(e.constant.map Constant.value).getD next])
      ((e.constant.map Constant.value).getD next + 1) st' := by
  generalize hv : (e.constant.map Constant.value).getD next = v
  obtain ⟨⟨low, high, type⟩, hread, hstep⟩ := Option.bind_eq_some_iff.mp hstep
  obtain ⟨bindings, hbind, heq⟩ := Option.map_eq_some_iff.mp hstep
  subst heq
  -- the cells of the enumerator
  have hcells : Cells low high type v := by
    unfold enumeratorCells at hread
    cases hconstant : e.constant with
    | some c =>
      rw [hconstant] at hread hv
      cases hread
      rw [← hv]
      exact c.cells
    | none =>
      rw [hconstant] at hread hv
      dsimp only at hread
      split_ifs at hread with hoverflow
      cases hread
      rw [← hv]
      exact h.next (Bool.eq_false_of_not_eq_true hoverflow)
  have hbindings : bindings =
      st.bindings ++ [⟨e.name, !ccEnumInt low high type, low, high⟩] := by
    unfold ccBindEnumerator at hbind
    split_ifs at hbind
    exact (Option.some.inj hbind).symm
  subst hbindings
  obtain ⟨hnegative, hlarge, hwide⟩ := hcells.flags_add st.flags
  have hexists {p : Int → Prop} : (∃ u ∈ vs ++ [v], p u) ↔ (∃ u ∈ vs, p u) ∨ p v := by
    simp [or_and_right, exists_or]
  constructor
  · rw [hexists, ← h.negative]
    exact hnegative
  · rw [hexists, ← h.large]
    exact hlarge
  · rw [hexists, ← h.wide]
    exact hwide
  · exact fun _ ↦ rfl
  · rw [List.map_append, h.names]
    rfl
  · refine List.rel_append h.cells (.cons ⟨hcells.join_eq, ?_⟩ .nil)
    rw [Bool.not_eq_false', decide_eq_true_iff]
    exact hcells.enumInt_iff
  · have hrange := hcells.range
    rintro u hu
    rcases List.mem_append.mp hu with hu | hu
    · exact h.range u hu
    · rw [List.mem_singleton.mp hu]
      split at hrange <;> omega
  · exact hcells.successor

/-- The enumerators behind have their constants, or the values that follow. -/
theorem Enumerated.run {scope : Scope} {names : List String} {vs : List Int} {next : Int}
    {st st' : Enumerating} {entries : List Entry} (h : Enumerated names vs next st)
    (hrun : entries.foldlM (readEnumerator scope) st = some st') :
    ∃ next', Enumerated (names ++ entries.map Entry.name) (vs ++ values next entries) next' st' := by
  induction entries generalizing names vs next st with
  | nil =>
    cases hrun
    rw [List.map_nil, values, List.append_nil, List.append_nil]
    exact ⟨next, h⟩
  | cons e entries ih =>
    rw [List.foldlM_cons] at hrun
    obtain ⟨st₁, hstep, hrun⟩ := Option.bind_eq_some_iff.mp hrun
    obtain ⟨next', h'⟩ := ih (h.step hstep) hrun
    rw [List.append_assoc, List.append_assoc] at h'
    exact ⟨next', h'⟩

variable {names : List String} {vs : List Int} {next : Int} {st : Enumerating}

/-- The type of the enumeration can hold its values, unless one has a sign and another one leaves no
place for it. -/
theorem Enumerated.representable (h : Enumerated names vs next st)
    (hvs : ¬ ((∃ v ∈ vs, v < 0) ∧ ∃ v ∈ vs, 2 ^ 63 ≤ v)) (hv : v ∈ vs) :
    (ccEnumLayout st.flags).Represents v := by
  have hrange := h.range v hv
  have hnegative (hv' : v < 0) : st.flags.negative = true := h.negative.mpr ⟨v, hv, hv'⟩
  have hlarge (hv' : 2 ^ 31 ≤ v ∧ v < 2 ^ 32) : st.flags.large = true := h.large.mpr ⟨v, hv, hv'⟩
  have hwide (hv' : v < -2 ^ 31 ∨ 2 ^ 32 ≤ v) : st.flags.wide = true := h.wide.mpr ⟨v, hv, hv'⟩
  have hsmall (hsigned : st.flags.negative = true) : v < 2 ^ 63 :=
    Int.not_le.mp fun hv' ↦ hvs ⟨h.negative.mp hsigned, v, hv, hv'⟩
  unfold ccEnumLayout
  cases hn : st.flags.negative
  · have hv' : 0 ≤ v := Int.not_lt.mp fun hv' ↦ by cases hn.symm.trans (hnegative hv')
    cases hw : st.flags.wide
    · have : ¬ 2 ^ 32 ≤ v := fun hv' ↦ by cases hw.symm.trans (hwide (.inr hv'))
      exact ⟨hv', Int.not_le.mp this⟩
    · exact ⟨hv', hrange.2⟩
  · have hv' := hsmall hn
    cases hw : st.flags.wide
    · have : ¬ (v < -2 ^ 31 ∨ 2 ^ 32 ≤ v) := fun hv' ↦ by cases hw.symm.trans (hwide hv')
      cases hl : st.flags.large
      · have : ¬ (2 ^ 31 ≤ v ∧ v < 2 ^ 32) := fun hv' ↦ by cases hl.symm.trans (hlarge hv')
        have hint : -2 ^ 31 ≤ v ∧ v < 2 ^ 31 := by omega
        exact hint
      · exact ⟨hrange.1, hv'⟩
    · exact ⟨hrange.1, hv'⟩

/-- Where the type of the enumeration can hold its values, the bindings have them. -/
theorem Enumerated.values (h : Enumerated names vs next st) {base : Promoted}
    (hbase : ∀ v ∈ vs, base.Represents v) : st.bindings.map (Binding.value base) = vs := by
  have hcells := h.cells
  clear h
  generalize st.bindings = bindings at hcells ⊢
  induction hcells with
  | nil => rfl
  | @cons b v bindings vs hb _ ih =>
    obtain ⟨hjoin, howned⟩ := hb
    rw [List.map_cons, ih fun u hu ↦ hbase u (List.mem_cons_of_mem _ hu)]
    congr 1
    unfold Binding.value
    split
    · exact (Promoted.valueOf_eq hjoin).mpr (hbase v List.mem_cons_self)
    · exact (Promoted.valueOf_eq hjoin).mpr (howned.mp (Bool.eq_false_of_not_eq_true ‹_›))

end

/-- **The enumerators have their exact values if and only if no type would be needed that has both
signed numbers and those of 2^63 and more.** -/
theorem enumerator_values {scope : Scope} {entries : List Entry} {st : Enumerating}
    (h : ccReadEnumerators scope entries = some st) :
    Exact entries st ↔
      ¬ ((∃ v ∈ values 0 entries, v < 0) ∧ ∃ v ∈ values 0 entries, 2 ^ 63 ≤ v) := by
  unfold ccReadEnumerators at h
  split_ifs at h with hentries
  obtain ⟨next, h⟩ := Enumerated.initial.run h
  rw [List.nil_append, List.nil_append] at h
  have hbase := h.base (by
    cases entries with
    | nil => exact absurd rfl hentries
    | cons e entries => exact List.cons_ne_nil _ _)
  constructor
  · rintro ⟨-, -, hrepresentable⟩ ⟨⟨u, hu, hnegative⟩, v, hv, hlarge⟩
    have := (hrepresentable u hu).lt_of_negative hnegative (hrepresentable v hv)
    omega
  · intro hvs
    have hrepresentable (v) (hv : v ∈ values 0 entries) : st.base.Represents v :=
      hbase ▸ h.representable hvs hv
    exact ⟨h.names, h.values hrepresentable, hrepresentable⟩

/-- The last number without a sign, and one with a sign. -/
def mixed : List Entry :=
  [⟨"A", some ⟨-1, -1, .ullong, nofun⟩⟩, ⟨"B", some ⟨-1, -1, .int, fun _ ↦ rfl⟩⟩]

/-- Both enumerators are -1. -/
theorem mixed_enumerators : ∃ st, ccReadEnumerators ⟨fun _ ↦ false, 128⟩ mixed = some st ∧
    st.bindings.map (Binding.value st.base) = [-1, -1] ∧ ¬ Exact mixed st :=
  ⟨_, rfl, by decide, fun h ↦ absurd h.values (by decide)⟩

/-- A small list. -/
theorem enumerator_values_small : Exact [⟨"A", none⟩, ⟨"B", some ⟨5, 0, .int, fun _ ↦ rfl⟩⟩]
      ⟨6, 0, .int, ⟨false, false, false⟩, false, .uint, [⟨"A", false, 0, 0⟩, ⟨"B", false, 5, 0⟩]⟩ ↔
    ¬ ((∃ v ∈ values 0 [⟨"A", none⟩, ⟨"B", some ⟨5, 0, .int, fun _ ↦ rfl⟩⟩], v < 0) ∧
      ∃ v ∈ values 0 [⟨"A", none⟩, ⟨"B", some ⟨5, 0, .int, fun _ ↦ rfl⟩⟩], 2 ^ 63 ≤ v) :=
  @enumerator_values ⟨fun _ ↦ false, 128⟩ _ _ rfl

end CopySpace.Compiler
