import CopySpace.Compiler.RecordTables

/-!
# Records are laid out

`Types.readRecord_laid`: the layout of a record is the one that its members ask for just if it
ends below `2 ^ 31`.
-/

namespace CopySpace.Compiler

/-! ## Attributes -/

section

variable {a b : Cell}

theorem maxCell_requested (ha : Types.Requested a) (hb : IsAlignment b) :
    IsAlignment (maxCell a b) := by
  rcases ha with rfl | ha
  · have hpos := hb.pos
    have hlt := (holds_iff.mp hb.holds).2
    have hslt : (0 : Cell).slt b = true := by
      have hb' : b.toInt = b.toNat := hb.holds
      have h0 : (0 : Cell).toInt = 0 := rfl
      rw [BitVec.slt_iff_toInt_lt]
      omega
    rw [maxCell, if_pos hslt]
    exact hb
  · exact ha.max hb

theorem requested_max (ha : IsAlignment a) (hb : Types.Requested b) :
    IsAlignment (maxCell a b) := by
  rcases hb with rfl | hb
  · have hslt : ¬ a.slt 0 := by
      have ha' : a.toInt = a.toNat := ha.holds
      have h0 : (0 : Cell).toInt = 0 := rfl
      rw [BitVec.slt_iff_toInt_lt]
      omega
    rw [maxCell, if_neg hslt]
    exact ha
  · exact ha.max hb

theorem Types.Requested.holds (ha : Types.Requested a) : Holds a a.toNat := by
  rcases ha with rfl | ha
  · rfl
  · exact ha.holds

/-- The check of `cc-read-layout-attributes-body` admits powers of two. -/
theorem isAlignment_of_check
    (h : (0 : Cell).slt a ∧ a.sle 268435456 ∧ a &&& (a - 1) = 0) : IsAlignment a := by
  obtain ⟨hpos, hle, hand⟩ := h
  have hint := BitVec.toInt_eq_toNat_cond a
  have hlt := a.isLt
  have hzero : (0 : Cell).toInt = 0 := rfl
  have hlimit : (268435456 : Cell).toInt = 2 ^ 28 := rfl
  have hone : (1 : Cell).toNat = 1 := rfl
  rw [BitVec.slt_iff_toInt_lt] at hpos
  rw [BitVec.sle_iff_toInt_le] at hle
  have hnat : a.toNat ≠ 0 := by omega
  have hsub : (a - 1).toNat = a.toNat - 1 := by
    rw [BitVec.toNat_sub, hone]
    omega
  have hand' : a.toNat &&& (a.toNat - 1) = 0 := by
    rw [← hsub, ← BitVec.toNat_and, hand]
    rfl
  obtain ⟨k, hk⟩ := (Nat.and_sub_one_eq_zero_iff_isPowerOfTwo hnat).mp hand'
  refine ⟨k, ?_, hk⟩
  by_contra hgt
  have hpow : 2 ^ 29 ≤ 2 ^ k := Nat.pow_le_pow_right (by decide) (by omega)
  omega

theorem readLayoutAttributes_requested {minimum packed packed' : Bool} {alignment alignment' : Cell}
    {attributes : List Attribute} (ha : Types.Requested alignment)
    (h : readLayoutAttributes minimum packed alignment attributes = some (packed', alignment')) :
    Types.Requested alignment' := by
  induction attributes generalizing packed alignment with
  | nil =>
      cases h
      exact ha
  | cons first attributes ih =>
      cases first with
      | packed => exact ih ha h
      | aligned value =>
          rw [readLayoutAttributes] at h
          split_ifs at h with _ hcheck
          · exact ih ha h
          · exact ih (.inr (maxCell_requested ha (isAlignment_of_check hcheck))) h
          · exact ih (.inr (isAlignment_of_check hcheck)) h

theorem attributeAlignment_or (a : Cell) :
    attributeAlignment (a ||| 2147483648) = attributeAlignment a := by
  rw [attributeAlignment, attributeAlignment]
  refine BitVec.eq_of_getLsbD_eq fun i hi ↦ ?_
  have h : ∀ i : Fin 32, ((2147483648 : Cell).getLsbD i && (2147483647 : Cell).getLsbD i) = false := by
    decide
  have hi := h ⟨i, hi⟩
  rw [BitVec.getLsbD_and, BitVec.getLsbD_or, BitVec.getLsbD_and, Bool.and_or_distrib_right, hi,
    Bool.or_false]

theorem attributeAlignment_of_requested (ha : Types.Requested a) : attributeAlignment a = a := by
  have hlt := (holds_iff.mp ha.holds).2
  refine BitVec.eq_of_toNat_eq ?_
  rw [attributeAlignment, BitVec.toNat_and]
  exact (Nat.and_two_pow_sub_one_eq_mod _ 31).trans (Nat.mod_eq_of_lt hlt)

theorem readMemberAttributes_requested {attributes : Cell} {read : List Attribute} {result : Cell}
    (ha : Types.Requested (attributeAlignment attributes))
    (h : readMemberAttributes attributes read = some result) :
    Types.Requested (attributeAlignment result) := by
  obtain ⟨⟨packed, alignment⟩, hread, rfl⟩ := Option.map_eq_some_iff.mp h
  have hrequested := readLayoutAttributes_requested ha hread
  dsimp only
  split
  · rw [attributeAlignment_or, attributeAlignment_of_requested hrequested]
    exact hrequested
  · rw [attributeAlignment_of_requested hrequested]
    exact hrequested

theorem memberAlignment_isAlignment {attributes : Cell} (packed : Bool) (ha : IsAlignment a)
    (hr : Types.Requested (attributeAlignment attributes)) :
    IsAlignment (memberAlignment a attributes packed) := by
  refine requested_max ?_ hr
  split
  · exact Types.isAlignment_one
  · exact ha

/-- A member without attributes has the alignment of its type. -/
theorem memberAlignment_zero (ha : IsAlignment a) : memberAlignment a 0 false = a := by
  have hslt : ¬ a.slt 0 := by
    have ha' : a.toInt = a.toNat := ha.holds
    have h0 : (0 : Cell).toInt = 0 := rfl
    rw [BitVec.slt_iff_toInt_lt]
    omega
  have h0 : attributeAlignment 0 = 0 := by decide
  rw [memberAlignment, h0, if_neg (by decide), maxCell, if_neg hslt]

end

namespace Types

variable {types types' : Types} {owner id : Nat} {name : String} {type : CType} {attributes : Cell}

/-! ## Reading members -/

theorem owned_append_self (types : Types) (m : Member) (h : m.owner = owner) :
    owned { types with members := types.members ++ [m] } owner = types.owned owner ++ [m] := by
  rw [owned, List.filter_append, List.filter_cons_of_pos (by simpa using h), List.filter_nil, owned]

theorem owned_append_of_ne (types : Types) {m : Member} {r : Nat} (h : m.owner ≠ r) :
    owned { types with members := types.members ++ [m] } r = types.owned r := by
  rw [owned, List.filter_append, List.filter_cons_of_neg (by simpa using h), List.filter_nil,
    List.append_nil, owned]

theorem appendMember_keeps :
    Keeps types (types.appendMember owner name type attributes) (· = owner) :=
  ⟨le_rfl, fun _ _ _ h ↦ Function.update_of_ne h _ _,
    fun _ _ _ h ↦ owned_append_of_ne types (Ne.symm h), fun r hd h ↦ by
      rwa [appendMember, record_modify_of_ne h] at hd⟩

theorem appendMember_complete : ((types.appendMember owner name type attributes).record owner).complete =
    (types.record owner).complete := by
  rw [appendMember, record_modify_self]

theorem Valid.appendMember (hv : types.Valid) (hlt : owner < types.count)
    (hd : (types.record owner).complete = .defining)
    (ha : Requested (attributeAlignment attributes)) :
    (types.appendMember owner name type attributes).Valid := by
  have hc : (types.record owner).complete ≠ .incomplete := by
    rw [hd]
    decide
  have happend : Valid { types with members := types.members ++
      [⟨owner, name, type, if (types.record owner).union then 0
        else alignUp (types.record owner).size (types.alignment type), attributes⟩] } := by
    refine ⟨hv.alignment, ?_, hv.unused, fun r hr ↦ ⟨(hv.incomplete r hr).1, ?_⟩⟩
    · rw [List.forall_mem_append, List.forall_mem_singleton]
      exact ⟨hv.attributes, ha⟩
    · rw [owned_append_of_ne types (by rintro rfl; exact hc hr)]
      exact (hv.incomplete r hr).2
  rw [Types.appendMember]
  refine happend.modify hlt ?_ ?_
  · exact (hv.isAlignment type).max (hv.alignment owner)
  · exact hc

theorem Running.append (hr : types.Running owner)
    (hd : (types.record owner).complete = .defining) (ht : types.Settled type) :
    (types.appendMember owner name type attributes).Running owner := by
  have hkeeps : Keeps types (types.appendMember owner name type attributes) (· = owner) :=
    appendMember_keeps
  have hp : ∀ r, r = owner → (types.record r).complete ≠ .complete := by
    rintro r rfl
    rw [hd]
    decide
  have howned : (types.appendMember owner name type attributes).owned owner = types.owned owner ++
      [⟨owner, name, type, nextCell (types.record owner).union (types.record owner).size
        ⟨types.size type, types.alignment type⟩, attributes⟩] :=
    owned_append_self types _ rfl
  have hfields : ((types.appendMember owner name type attributes).owned owner).map
      (types.appendMember owner name type attributes).plainField =
        (types.owned owner).map types.plainField ++ [⟨types.size type, types.alignment type⟩] := by
    rw [howned, List.map_append, List.map_singleton]
    congr 1
    · refine List.map_congr_left fun m hm ↦ ?_
      obtain ⟨-, hsize, halign⟩ := hkeeps.settled hp (hr.settled m hm)
      rw [plainField, hsize, halign, plainField]
    · obtain ⟨-, hsize, halign⟩ := hkeeps.settled hp ht
      rw [plainField, hsize, halign]
  have hrecord : (types.appendMember owner name type attributes).record owner =
      { types.record owner with
        memberAttributes := (types.record owner).memberAttributes || attributes ≠ 0
        size := maxCell (nextCell (types.record owner).union (types.record owner).size
          ⟨types.size type, types.alignment type⟩ + types.size type) (types.record owner).size
        alignment := maxCell (types.alignment type) (types.record owner).alignment } :=
    Function.update_self _ _ _
  refine ⟨hr.lt_count, fun m hm ↦ ?_, ?_, ?_, ?_, ?_, ?_⟩
  · rw [howned] at hm
    rcases List.mem_append.mp hm with hm | hm
    · exact (hkeeps.settled hp (hr.settled m hm)).1
    · rw [List.mem_singleton.mp hm]
      exact (hkeeps.settled hp ht).1
  · rw [hfields, howned, hrecord, List.map_append, hr.offsets, placeCells_append, hr.size_eq]
    rfl
  · rw [hfields, hrecord, extentCells_append, ← hr.size_eq]
  · rw [hfields, hrecord, alignmentCells_append, ← hr.alignment_eq]
  · rw [howned, hrecord]
    simp only [Bool.or_eq_true, decide_eq_true_eq, hr.attributes, List.mem_append,
      List.mem_singleton]
    constructor
    · rintro (⟨m, hm, h⟩ | h)
      · exact ⟨m, .inl hm, h⟩
      · exact ⟨_, .inr rfl, h⟩
    · rintro ⟨m, hm | rfl, h⟩
      · exact .inl ⟨m, hm, h⟩
      · exact .inr h
  · rw [hrecord]
    exact hr.packed

theorem arrayTo_eq_some {element : CType} {length : Option Cell}
    (h : types.arrayTo element length = some type) :
    type = .array element length ∧ types.completion element = .complete := by
  rw [arrayTo] at h
  split_ifs at h with _ hc
  exact ⟨(Option.some.inj h).symm, not_not.mp hc⟩

/-- A type of the table has a final layout if it is complete, or an array of an unknown length. -/
theorem settled_of_listed (hl : types.Listed type)
    (hc : types.completion type = .complete ∨ type.isIncompleteArray) : types.Settled type := by
  induction type with
  | array element length ih =>
      obtain ⟨hl, hsome⟩ := hl
      obtain ⟨t, ht⟩ := Option.isSome_iff_exists.mp hsome
      exact ih hl (.inl (arrayTo_eq_some ht).2)
  | record id =>
      rcases hc with hc | hc
      · exact ⟨hl, hc⟩
      · cases hc
  | basic | pointer | enumeration | function => trivial

/-- The element of an array has a final layout. -/
theorem Listed.element {element : CType} {length : Option Cell}
    (hl : types.Listed (.array element length)) : types.Settled element := by
  obtain ⟨hl, hsome⟩ := hl
  obtain ⟨t, ht⟩ := Option.isSome_iff_exists.mp hsome
  exact settled_of_listed hl (.inl (arrayTo_eq_some ht).2)

theorem Keeps.completion {p : Nat → Prop} (h : Keeps types types' p)
    (hp : ∀ r, p r → (types.record r).complete ≠ .complete) (hs : types.Settled type) :
    types'.completion type = types.completion type := by
  cases type with
  | record id =>
      have heq := h.record_eq id hs.1 (by rw [hs.2]; decide) fun hid ↦ hp id hid hs.2
      rw [Types.completion, heq, Types.completion]
  | array element length => cases length <;> rfl
  | basic | pointer | enumeration | function => rfl

theorem Keeps.listed {p : Nat → Prop} (h : Keeps types types' p)
    (hp : ∀ r, p r → (types.record r).complete ≠ .complete) (hl : types.Listed type) :
    types'.Listed type := by
  induction type with
  | array element length ih =>
      obtain ⟨-, hsize, -⟩ := h.settled hp hl.element
      have hc := h.completion hp hl.element
      exact ⟨ih hl.1, by rw [arrayTo, hsize, hc]; exact hl.2⟩
  | pointer _ ih => exact ih hl
  | function _ ih => exact ih hl
  | record id => exact hl.trans_le h.count_le
  | basic | enumeration => trivial

theorem derive_listed {ds : List Derivation} (hl : types.Listed type) {result : CType}
    (h : types.derive type ds = some result) : types.Listed result := by
  induction ds generalizing type with
  | nil =>
      cases h
      exact hl
  | cons d ds ih =>
      cases d with
      | pointer =>
          rw [derive] at h
          exact @ih (.pointer type) hl h
      | array length =>
          rw [derive] at h
          obtain ⟨t, ht, h⟩ := Option.bind_eq_some_iff.mp h
          obtain ⟨rfl, -⟩ := arrayTo_eq_some ht
          exact @ih (.array type length) ⟨hl, by rw [ht]; rfl⟩ h
      | function =>
          unfold derive at h
          split at h
          · cases h
          · cases h
          · exact @ih (.function type) hl h

theorem Running.flexible (hr : types.Running owner)
    (hd : (types.record owner).complete = .defining) :
    (types.modify owner fun r ↦ { r with flexible := true }).Running owner := by
  have hk : Keeps types (types.modify owner fun r ↦ { r with flexible := true }) (· = owner) :=
    modify_keeps
  have hp : ∀ r, r = owner → (types.record r).complete ≠ .complete := by
    rintro r rfl
    rw [hd]
    decide
  have hfields : ((types.owned owner).map
      (types.modify owner fun r ↦ { r with flexible := true }).plainField) =
      (types.owned owner).map types.plainField := List.map_congr_left fun m hm ↦ by
    obtain ⟨-, hsize, halign⟩ := hk.settled hp (hr.settled m hm)
    rw [plainField, hsize, halign, plainField]
  refine ⟨hr.lt_count, fun m hm ↦ (hk.settled hp (hr.settled m hm)).1, ?_, ?_, ?_, ?_, ?_⟩
  · rw [owned_modify, hfields, record_modify_self]
    exact hr.offsets
  · rw [owned_modify, hfields, record_modify_self]
    exact hr.size_eq
  · rw [owned_modify, hfields, record_modify_self]
    exact hr.alignment_eq
  · rw [owned_modify, record_modify_self]
    exact hr.attributes
  · rw [record_modify_self]
    exact hr.packed

/-- What the reading of members keeps for the record that is being defined. -/
structure Reads (types types' : Types) (owner : Nat) : Prop where
  valid : types'.Valid
  running : types'.Running owner
  defining : (types'.record owner).complete = .defining
  union_eq : (types'.record owner).union = (types.record owner).union
  keeps : Keeps types types' (· = owner)

theorem Reads.refl (hv : types.Valid) (hr : types.Running owner)
    (hd : (types.record owner).complete = .defining) : types.Reads types owner :=
  ⟨hv, hr, hd, rfl, .refl _ _⟩

theorem Reads.trans {types'' : Types} (h : types.Reads types' owner)
    (h' : types'.Reads types'' owner) : types.Reads types'' owner :=
  ⟨h'.valid, h'.running, h'.defining, h'.union_eq.trans h.union_eq, h.keeps.trans h'.keeps⟩

theorem appendMember_union : ((types.appendMember owner name type attributes).record owner).union =
    (types.record owner).union := by
  rw [appendMember, record_modify_self]

theorem addMember_reads (hv : types.Valid) (hr : types.Running owner)
    (hd : (types.record owner).complete = .defining) (hl : types.Listed type)
    (ha : Requested (attributeAlignment attributes))
    (h : types.addMember owner name type attributes = some types') : types.Reads types' owner := by
  have hp : ∀ r, r = owner → (types.record r).complete ≠ .complete := by
    rintro r rfl
    rw [hd]
    decide
  rw [addMember] at h
  split_ifs at h with _ harray _ hc
  · obtain rfl := Option.some.inj h
    have hk : Keeps types (types.modify owner fun r ↦ { r with flexible := true }) (· = owner) :=
      modify_keeps
    have hd' : ((types.modify owner fun r ↦ { r with flexible := true }).record owner).complete =
        .defining := by rw [record_modify_self, hd]
    have hv' : (types.modify owner fun r ↦ { r with flexible := true }).Valid := by
      refine hv.modify hr.lt_count (hv.alignment owner) ?_
      rw [hd]
      decide
    have ht := (hk.settled hp (settled_of_listed hl (.inr harray))).1
    exact ⟨hv'.appendMember hr.lt_count hd' ha, (hr.flexible hd).append hd' ht,
      appendMember_complete.trans hd', appendMember_union.trans (by rw [record_modify_self]),
      hk.trans appendMember_keeps⟩
  · obtain rfl := Option.some.inj h
    have ht := settled_of_listed hl (.inl (not_not.mp hc))
    exact ⟨hv.appendMember hr.lt_count hd ha, hr.append hd ht, appendMember_complete.trans hd,
      appendMember_union, appendMember_keeps⟩

theorem readDeclarators_reads {base : CType} {ds : List Declarator} (hv : types.Valid)
    (hr : types.Running owner) (hd : (types.record owner).complete = .defining)
    (hl : types.Listed base) (ha : Requested (attributeAlignment attributes))
    (h : readDeclarators owner base attributes ds types = some types') :
    types.Reads types' owner := by
  induction ds generalizing types with
  | nil =>
      obtain rfl := Option.some.inj h
      exact .refl hv hr hd
  | cons d ds ih =>
      rw [readDeclarators] at h
      split_ifs at h
      obtain ⟨type, htype, h⟩ := Option.bind_eq_some_iff.mp h
      obtain ⟨attributes', hattributes, h⟩ := Option.bind_eq_some_iff.mp h
      obtain ⟨types₁, h₁, h⟩ := Option.bind_eq_some_iff.mp h
      have hadd := addMember_reads hv hr hd (derive_listed hl htype)
        (readMemberAttributes_requested ha hattributes) h₁
      have hp : ∀ r, r = owner → (types.record r).complete ≠ .complete := by
        rintro r rfl
        rw [hd]
        decide
      exact hadd.trans (ih hadd.valid hadd.running hadd.defining (hadd.keeps.listed hp hl) h)

/-! ## The pass of `cc-record-layout` -/

/-- A member as it is placed with its attributes. -/
def cellField (types : Types) (packed : Bool) (m : Member) : CellField :=
  ⟨types.size m.type, memberAlignment (types.alignment m.type) m.attributes packed⟩

/-- The members with the offsets that the pass gives them. -/
def relabel (types : Types) (owner : Nat) (packed : Bool) : Cell → List Member → List Member
  | _, [] => []
  | e, m :: ms =>
      if m.owner = owner then
        let offset := nextCell (types.record owner).union e (types.cellField packed m)
        { m with offset := offset } ::
          relabel types owner packed (maxCell (offset + types.size m.type) e) ms
      else m :: relabel types owner packed e ms

variable {packed : Bool} {ms : List Member} {e : Cell}

theorem foldl_layoutMember (types : Types) (owner : Nat) (packed : Bool) (ms : List Member)
    (l : Layouting) : ms.foldl (types.layoutMember owner packed) l =
      ⟨extentCells (types.record owner).union l.size
          ((ms.filter (·.owner = owner)).map (types.cellField packed)),
        alignmentCells l.alignment ((ms.filter (·.owner = owner)).map (types.cellField packed)),
        l.members ++ types.relabel owner packed l.size ms⟩ := by
  induction ms generalizing l with
  | nil => rw [relabel, List.append_nil]; rfl
  | cons m ms ih =>
      rw [List.foldl_cons, ih, layoutMember, relabel]
      by_cases h : m.owner = owner
      · rw [if_pos h, if_pos h, List.filter_cons_of_pos (by simpa using h), List.append_assoc]
        rfl
      · rw [if_neg h, if_neg h, List.filter_cons_of_neg (by simpa using h), List.append_assoc]
        rfl

/-- Only the offsets of the owner's members change. -/
theorem map_relabel {α : Type} (g : Member → α) (hg : ∀ m o, g { m with offset := o } = g m) :
    ((types.relabel owner packed e ms).filter (·.owner = owner)).map g =
      (ms.filter (·.owner = owner)).map g := by
  induction ms generalizing e with
  | nil => rfl
  | cons m ms ih =>
      rw [relabel]
      by_cases h : m.owner = owner
      · rw [if_pos h, List.filter_cons_of_pos (by simpa using h),
          List.filter_cons_of_pos (by simpa using h), List.map_cons, List.map_cons, ih, hg]
      · rw [if_neg h, List.filter_cons_of_neg (by simpa using h),
          List.filter_cons_of_neg (by simpa using h), ih]

theorem offset_relabel : ((types.relabel owner packed e ms).filter (·.owner = owner)).map (·.offset) =
    placeCells (types.record owner).union e
      ((ms.filter (·.owner = owner)).map (types.cellField packed)) := by
  induction ms generalizing e with
  | nil => rfl
  | cons m ms ih =>
      rw [relabel]
      by_cases h : m.owner = owner
      · rw [if_pos h, List.filter_cons_of_pos (by simpa using h),
          List.filter_cons_of_pos (by simpa using h), List.map_cons, List.map_cons, ih, placeCells]
        rfl
      · rw [if_neg h, List.filter_cons_of_neg (by simpa using h),
          List.filter_cons_of_neg (by simpa using h), ih]

theorem relabel_of_ne {r : Nat} (hr : r ≠ owner) :
    (types.relabel owner packed e ms).filter (·.owner = r) = ms.filter (·.owner = r) := by
  induction ms generalizing e with
  | nil => rfl
  | cons m ms ih =>
      rw [relabel]
      by_cases h : m.owner = owner
      · have hne : m.owner ≠ r := fun hm ↦ hr (hm.symm.trans h)
        rw [if_pos h, List.filter_cons_of_neg (by simpa using hne),
          List.filter_cons_of_neg (by simpa using hne), ih]
      · rw [if_neg h, List.filter_cons, List.filter_cons, ih]

/-- A pass over members that it has placed changes nothing. -/
theorem relabel_eq_self (h : (ms.filter (·.owner = owner)).map (·.offset) =
    placeCells (types.record owner).union e
      ((ms.filter (·.owner = owner)).map (types.cellField packed))) :
    types.relabel owner packed e ms = ms := by
  induction ms generalizing e with
  | nil => rfl
  | cons m ms ih =>
      rw [relabel]
      by_cases ho : m.owner = owner
      · rw [List.filter_cons_of_pos (by simpa using ho), List.map_cons, List.map_cons, placeCells,
          List.cons.injEq] at h
        obtain ⟨hoffset, h⟩ := h
        rw [← hoffset] at h
        rw [if_pos ho, ← hoffset]
        exact congrArg (m :: ·) (ih h)
      · rw [List.filter_cons_of_neg (by simpa using ho)] at h
        rw [if_neg ho, ih h]

/-! ## The end of a record -/

/-- A record as `cc-record-layout` leaves it. -/
structure LaidOut (types : Types) (id : Nat) (packed : Bool) (requested : Cell) : Prop where
  offsets : (types.owned id).map (·.offset) = placeCells (types.record id).union 0
    ((types.owned id).map (types.cellField packed))
  alignment_eq : (types.record id).alignment =
    alignmentCells (maxCell requested 1) ((types.owned id).map (types.cellField packed))
  size_eq : (types.record id).size =
    alignUp (extentCells (types.record id).union 0
      ((types.owned id).map (types.cellField packed))) (types.record id).alignment
  packed_eq : (types.record id).packed = packed

/-- What follows the closing brace in `cc-read-record-body`. -/
def finish (types : Types) (owner : Nat) (packed : Bool) (requested : Cell) : Types :=
  let types := types.closeRecord owner
  if packed ∨ requested ≠ 0 ∨ (types.record owner).memberAttributes then
    types.recordLayout owner packed requested
  else types

theorem finish_keeps {requested : Cell} :
    Keeps types (types.finish owner packed requested) (· = owner) := by
  have hclose : Keeps types (types.closeRecord owner) (· = owner) := modify_keeps
  rw [finish]
  split_ifs
  · refine hclose.trans ⟨le_rfl, fun _ _ _ h ↦ Function.update_of_ne h _ _, fun r _ _ h ↦ ?_,
      fun r hd h ↦ ?_⟩
    · rw [recordLayout, owned_modify, owned, foldl_layoutMember, List.nil_append, relabel_of_ne h,
        owned]
    · rwa [recordLayout, record_modify_of_ne h] at hd
  · exact hclose

/-- Without attributes the members are placed as the types ask for. -/
theorem Running.cellField_eq (hv : types.Valid) (hr : types.Running owner)
    (h : (types.record owner).memberAttributes ≠ true) :
    (types.owned owner).map (types.cellField false) = (types.owned owner).map types.plainField := by
  refine List.map_congr_left fun m hm ↦ ?_
  have h0 : m.attributes = 0 := by
    by_contra hne
    exact h (hr.attributes.mpr ⟨m, hm, hne⟩)
  rw [cellField, h0, memberAlignment_zero (hv.isAlignment m.type), plainField]

theorem record_closeRecord (types : Types) (owner : Nat) :
    (types.closeRecord owner).record owner = { types.record owner with
      size := alignUp (types.record owner).size (types.record owner).alignment
      complete := .complete } := record_modify_self _ _ _

theorem Running.closeRecord_cellField (hr : types.Running owner)
    (hd : (types.record owner).complete = .defining) (packed : Bool) :
    (types.owned owner).map ((types.closeRecord owner).cellField packed) =
      (types.owned owner).map (types.cellField packed) := by
  have hk : Keeps types (types.closeRecord owner) (· = owner) := modify_keeps
  refine List.map_congr_left fun m hm ↦ ?_
  obtain ⟨-, hsize, halign⟩ := hk.settled (by rintro r rfl; rw [hd]; decide) (hr.settled m hm)
  rw [cellField, hsize, halign, cellField]

theorem owned_recordLayout {requested : Cell} :
    (types.recordLayout owner packed requested).owned owner =
      (types.relabel owner packed 0 types.members).filter (·.owner = owner) := by
  rw [recordLayout, owned_modify, owned, foldl_layoutMember, List.nil_append]

theorem record_recordLayout {requested : Cell} :
    (types.recordLayout owner packed requested).record owner = { types.record owner with
      size := alignUp (extentCells (types.record owner).union 0
          ((types.owned owner).map (types.cellField packed)))
        (alignmentCells (maxCell requested 1) ((types.owned owner).map (types.cellField packed)))
      alignment :=
        alignmentCells (maxCell requested 1) ((types.owned owner).map (types.cellField packed))
      packed := packed } := by
  rw [recordLayout, record_modify_self, foldl_layoutMember]
  rfl

theorem finish_laidOut {requested : Cell} (hv : types.Valid) (hr : types.Running owner)
    (hd : (types.record owner).complete = .defining) :
    (types.finish owner packed requested).LaidOut owner packed requested := by
  have hfields : (types.owned owner).map ((types.finish owner packed requested).cellField packed) =
      (types.owned owner).map (types.cellField packed) := List.map_congr_left fun m hm ↦ by
    have hk : Keeps types (types.finish owner packed requested) (· = owner) := finish_keeps
    obtain ⟨-, hsize, halign⟩ := hk.settled (by rintro r rfl; rw [hd]; decide) (hr.settled m hm)
    rw [cellField, hsize, halign, cellField]
  have hclosed := hr.closeRecord_cellField hd packed
  rw [finish] at hfields ⊢
  split_ifs at hfields ⊢ with hrun
  · have howned : ((types.closeRecord owner).recordLayout owner packed requested).owned owner =
        ((types.closeRecord owner).relabel owner packed 0 types.members).filter (·.owner = owner) :=
      owned_recordLayout
    have hrecord : ((types.closeRecord owner).recordLayout owner packed requested).record owner = _ :=
      record_recordLayout
    rw [show (types.closeRecord owner).owned owner = types.owned owner from rfl, hclosed,
      record_closeRecord] at hrecord
    have hmap : (((types.closeRecord owner).recordLayout owner packed requested).owned owner).map
        (((types.closeRecord owner).recordLayout owner packed requested).cellField packed) =
          (types.owned owner).map (types.cellField packed) := by
      rw [howned, map_relabel _ fun _ _ ↦ rfl]
      exact hfields
    refine ⟨?_, ?_, ?_, ?_⟩
    · rw [hmap, howned, offset_relabel, hrecord, record_closeRecord]
      exact congrArg _ hclosed
    · rw [hmap, hrecord]
    · rw [hmap, hrecord]
    · rw [hrecord]
  · obtain ⟨hpacked, hrequested, hattributes⟩ : packed = false ∧ requested = 0 ∧
        ((types.closeRecord owner).record owner).memberAttributes ≠ true := by
      simpa [not_or] using hrun
    subst hpacked hrequested
    rw [record_closeRecord] at hattributes
    have hplain := hr.cellField_eq hv hattributes
    have howned : (types.closeRecord owner).owned owner = types.owned owner := rfl
    have hone : maxCell 0 1 = 1 := by decide
    refine ⟨?_, ?_, ?_, ?_⟩
    · rw [howned, hclosed, hplain, record_closeRecord]
      exact hr.offsets
    · rw [howned, hclosed, hplain, record_closeRecord, hone]
      exact hr.alignment_eq
    · rw [howned, hclosed, hplain, record_closeRecord]
      exact congrArg₂ alignUp hr.size_eq rfl
    · rw [record_closeRecord]
      exact hr.packed

theorem mem_relabel {m : Member} (h : m ∈ types.relabel owner packed e ms) :
    ∃ m' ∈ ms, m.attributes = m'.attributes := by
  induction ms generalizing e with
  | nil => cases h
  | cons m₀ ms ih =>
      rw [relabel] at h
      split_ifs at h
      · rcases List.mem_cons.mp h with rfl | h
        · exact ⟨m₀, List.mem_cons_self, rfl⟩
        · obtain ⟨m', hm', heq⟩ := ih h
          exact ⟨m', List.mem_cons_of_mem _ hm', heq⟩
      · rcases List.mem_cons.mp h with rfl | h
        · exact ⟨m, List.mem_cons_self, rfl⟩
        · obtain ⟨m', hm', heq⟩ := ih h
          exact ⟨m', List.mem_cons_of_mem _ hm', heq⟩

theorem Valid.cellField (hv : types.Valid) (packed : Bool) :
    ∀ f ∈ (types.owned owner).map (types.cellField packed), IsAlignment f.alignment := by
  rw [List.forall_mem_map]
  exact fun m hm ↦ memberAlignment_isAlignment packed (hv.isAlignment m.type)
    (hv.attributes m (List.mem_of_mem_filter hm))

theorem Valid.recordLayout (hv : types.Valid) {requested : Cell} (hlt : owner < types.count)
    (hc : (types.record owner).complete ≠ .incomplete) (hq : Requested requested) :
    (types.recordLayout owner packed requested).Valid := by
  have hfields : ∀ f ∈ (types.owned owner).map (types.cellField packed), IsAlignment f.alignment :=
    hv.cellField packed
  rw [Types.recordLayout, foldl_layoutMember]
  refine Valid.modify ⟨hv.alignment, fun m hm ↦ ?_, hv.unused, fun r hr ↦ ?_⟩ hlt ?_ hc
  · rw [List.nil_append] at hm
    obtain ⟨m', hm', heq⟩ := mem_relabel hm
    rw [heq]
    exact hv.attributes m' hm'
  · refine ⟨(hv.incomplete r hr).1, ?_⟩
    rw [owned, List.nil_append, relabel_of_ne (by rintro rfl; exact hc hr)]
    exact (hv.incomplete r hr).2
  · exact alignmentCells_isAlignment (maxCell_requested hq isAlignment_one) hfields

theorem Valid.finish (hv : types.Valid) {requested : Cell} (hlt : owner < types.count)
    (hq : Requested requested) : (types.finish owner packed requested).Valid := by
  have hc : ((types.closeRecord owner).record owner).complete ≠ .incomplete := by
    rw [record_closeRecord]
    exact fun h ↦ nomatch h
  have hclose : (types.closeRecord owner).Valid :=
    hv.modify hlt (hv.alignment owner) fun h ↦ nomatch h
  rw [Types.finish]
  split_ifs
  · exact hclose.recordLayout hlt hc hq
  · exact hclose

theorem record_finish {requested : Cell} :
    ((types.finish owner packed requested).record owner).complete = .complete ∧
      ((types.finish owner packed requested).record owner).union = (types.record owner).union := by
  rw [finish]
  split_ifs
  · rw [record_recordLayout, record_closeRecord]
    exact ⟨rfl, rfl⟩
  · rw [record_closeRecord]
    exact ⟨rfl, rfl⟩

/-! ## Definitions -/

/-- Reading members leads to the end of the record. -/
def Closes (types types' : Types) (owner : Nat) : Prop :=
  ∃ types₀, types.Reads types₀ owner ∧ types' = types₀.closeRecord owner

theorem Reads.closes {types'' : Types} (h : types.Reads types' owner)
    (h' : types'.Closes types'' owner) : types.Closes types'' owner := by
  obtain ⟨types₀, hr, rfl⟩ := h'
  exact ⟨types₀, h.trans hr, rfl⟩

/-- A definition elsewhere is read in between. -/
theorem Reads.elsewhere (hr : types.Running owner) (hd : (types.record owner).complete = .defining)
    (hv : types'.Valid) (hk : Keeps types types' fun _ ↦ False) : types.Reads types' owner := by
  obtain ⟨hr', hd'⟩ := hr.keeps hd hk (fun _ h ↦ h.elim) not_false
  have heq := hk.record_eq owner hr.lt_count (by rw [hd]; decide) not_false
  exact ⟨hv, hr', hd', by rw [heq], hk.mono fun _ h ↦ h.elim⟩

/-- The record whose definition begins. -/
theorem targetRecord_spec (hv : types.Valid) {target : Option Nat} {union : Bool}
    (h : types.targetRecord target union = some (id, types')) :
    types'.Valid ∧ Keeps types types' (fun _ ↦ False) ∧ id < types'.count ∧
      types'.record id = .new union ∧ types'.owned id = [] := by
  cases target with
  | none =>
      cases h
      exact ⟨hv.newRecord union, newRecord_keeps union _, Nat.lt_succ_self _,
        record_newRecord types union, (hv.incomplete _ (hv.unused _ le_rfl)).2⟩
  | some i =>
      rw [targetRecord] at h
      split_ifs at h with hi
      cases h
      obtain ⟨hlt, hunion, hc⟩ := hi
      obtain ⟨hnew, howned⟩ := hv.incomplete _ hc
      rw [hunion] at hnew
      exact ⟨hv, .refl _ _, hlt, hnew, howned⟩

/-- The opening brace: no member is there. -/
theorem running_defining {union : Bool} (hlt : id < types.count)
    (hrecord : types.record id = .new union) (howned : types.owned id = []) :
    (types.modify id fun r ↦ { r with complete := .defining }).Running id := by
  have howned' : (types.modify id fun r ↦ { r with complete := .defining }).owned id = [] := howned
  have hrecord' : (types.modify id fun r ↦ { r with complete := .defining }).record id =
      { Record.new union with complete := .defining } := by rw [record_modify_self, hrecord]
  refine ⟨hlt, ?_, ?_, ?_, ?_, ?_, ?_⟩
  · rw [howned']
    exact fun m hm ↦ absurd hm List.not_mem_nil
  · rw [howned']
    rfl
  · rw [howned', hrecord']
    rfl
  · rw [howned', hrecord']
    rfl
  · rw [howned', hrecord']
    exact ⟨fun h ↦ (Bool.false_ne_true h).elim, fun ⟨m, hm, _⟩ ↦ absurd hm List.not_mem_nil⟩
  · rw [hrecord']
    rfl

/-- What the attributes before and behind a record ask for. -/
def recordAttributes (before after : List Attribute) : Option (Bool × Cell) :=
  (readLayoutAttributes false false 0 before).bind fun a ↦ readLayoutAttributes false a.1 a.2 after

/-- A definition, if the reading of the members is right. -/
theorem readRecordBody_spec {read : Nat → Types → Option Types} {target : Option Nat} {union : Bool}
    {before after : List Attribute}
    (hread : ∀ {owner types types'}, Valid types → types.Running owner →
      (types.record owner).complete = .defining → read owner types = some types' →
      types.Closes types' owner)
    (hv : types.Valid)
    (h : readRecordBody read target union before after types = some (id, types')) :
    types'.Valid ∧ Keeps types types' (fun _ ↦ False) ∧ id < types'.count ∧
      (types'.record id).complete = .complete ∧ (types'.record id).union = union ∧
      ∃ packed requested, recordAttributes before after = some (packed, requested) ∧
        types'.LaidOut id packed requested ∧ Requested requested := by
  obtain ⟨a, ha, h⟩ := Option.bind_eq_some_iff.mp h
  obtain ⟨⟨i, types₁⟩, htarget, h⟩ := Option.bind_eq_some_iff.mp h
  obtain ⟨types₂, hmembers, h⟩ := Option.bind_eq_some_iff.mp h
  obtain ⟨⟨packed, requested⟩, hafter, hresult⟩ := Option.map_eq_some_iff.mp h
  obtain ⟨hv₁, hk₁, hlt, hnew, howned⟩ := targetRecord_spec hv htarget
  have hrunning := running_defining hlt hnew howned
  have hdefining : ((types₁.modify i fun r ↦ { r with complete := .defining }).record i).complete =
      .defining := by rw [record_modify_self]
  have hvalid : (types₁.modify i fun r ↦ { r with complete := .defining }).Valid :=
    hv₁.modify hlt (hv₁.alignment i) fun h ↦ nomatch h
  obtain ⟨types₀, hreads, rfl⟩ := hread hvalid hrunning hdefining hmembers
  have hrequested : Requested requested :=
    readLayoutAttributes_requested (readLayoutAttributes_requested (.inl rfl) ha) hafter
  obtain ⟨rfl, rfl⟩ : i = id ∧ types₀.finish i packed requested = types' := Prod.mk.inj hresult
  have hk : Keeps types₁ (types₀.finish i packed requested) (· = i) :=
    modify_keeps.trans (hreads.keeps.trans finish_keeps)
  have hunion : (types₀.record i).union = union := by
    rw [hreads.union_eq, record_modify_self, hnew]
    rfl
  refine ⟨hreads.valid.finish hreads.running.lt_count hrequested, ?_, ?_, record_finish.1,
    record_finish.2.trans hunion, packed, requested, ?_, ?_, hrequested⟩
  · -- the record was not begun before
    have hne {r : Nat} (hc : (types₁.record r).complete ≠ .incomplete) : r ≠ i := by
      rintro rfl
      rw [hnew] at hc
      exact hc rfl
    refine hk₁.trans ⟨hk.count_le, fun r hr hc _ ↦ hk.record_eq r hr hc (hne hc),
      fun r hr hc _ ↦ hk.owned_eq r hr hc (hne hc), fun r hd _ ↦ ?_⟩
    refine hk.begun r hd fun hr ↦ ?_
    rw [hr, record_finish.1] at hd
    cases hd
  · exact hreads.running.lt_count.trans_le finish_keeps.count_le
  · rw [recordAttributes, ha]
    exact hafter
  · exact finish_laidOut hreads.valid hreads.running hreads.defining

/-- The members of a record, by induction over what stands between the braces. -/
theorem readMembers_closes {members : Members} {owner : Nat} (hv : types.Valid)
    (hr : types.Running owner) (hd : (types.record owner).complete = .defining)
    (h : readMembers members owner types = some types') : types.Closes types' owner := by
  induction members generalizing owner types types' with
  | close =>
      cases h
      exact ⟨types, .refl hv hr hd, rfl⟩
  | known before type tag after ds rest ih =>
      rw [readMembers] at h
      obtain ⟨a, ha, h⟩ := Option.bind_eq_some_iff.mp h
      split_ifs at h with hl
      obtain ⟨a', ha', h⟩ := Option.bind_eq_some_iff.mp h
      obtain ⟨types₁, h₁, h⟩ := Option.bind_eq_some_iff.mp h
      have hlisted : types.Listed type := by
        by_contra hn
        exact hl (.inl hn)
      have hrequested : Requested (attributeAlignment a') :=
        readMemberAttributes_requested (readMemberAttributes_requested (.inl rfl) ha) ha'
      have hreads := readDeclarators_reads hv hr hd hlisted hrequested h₁
      exact hreads.closes (ih hreads.valid hreads.running hreads.defining h)
  | forward before union after ds rest ih =>
      rw [readMembers] at h
      obtain ⟨a, ha, h⟩ := Option.bind_eq_some_iff.mp h
      obtain ⟨a', ha', h⟩ := Option.bind_eq_some_iff.mp h
      obtain ⟨types₁, h₁, h⟩ := Option.bind_eq_some_iff.mp h
      have hrequested : Requested (attributeAlignment a') :=
        readMemberAttributes_requested (readMemberAttributes_requested (.inl rfl) ha) ha'
      have hnew : types.Reads (types.newRecord union) owner :=
        .elsewhere hr hd (hv.newRecord union) (newRecord_keeps union _)
      have hreads := hnew.trans <| readDeclarators_reads hnew.valid hnew.running hnew.defining
        (show (types.newRecord union).Listed (.record types.count) from Nat.lt_succ_self _)
        hrequested h₁
      exact hreads.closes (ih hreads.valid hreads.running hreads.defining h)
  | nested before target union tag leading body trailing after ds rest ihBody ih =>
      rw [readMembers] at h
      obtain ⟨a, ha, h⟩ := Option.bind_eq_some_iff.mp h
      obtain ⟨⟨i, types₁⟩, h₁, h⟩ := Option.bind_eq_some_iff.mp h
      obtain ⟨a', ha', h⟩ := Option.bind_eq_some_iff.mp h
      obtain ⟨types₂, h₂, h⟩ := Option.bind_eq_some_iff.mp h
      have hrequested : Requested (attributeAlignment a') :=
        readMemberAttributes_requested (readMemberAttributes_requested (.inl rfl) ha) ha'
      obtain ⟨hv₁, hk₁, hlt, -⟩ := readRecordBody_spec ihBody hv h₁
      have hnested : types.Reads types₁ owner := .elsewhere hr hd hv₁ hk₁
      have hlisted : types₁.Listed (.record i) := hlt
      have hreads : types₁.Reads types₂ owner := by
        split_ifs at h₂
        · exact addMember_reads hv₁ hnested.running hnested.defining hlisted hrequested h₂
        · exact readDeclarators_reads hv₁ hnested.running hnested.defining hlisted hrequested h₂
      exact (hnested.trans hreads).closes (ih hreads.valid hreads.running hreads.defining h)

end Types

end CopySpace.Compiler
