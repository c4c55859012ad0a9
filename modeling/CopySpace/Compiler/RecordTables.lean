import CopySpace.Compiler.RecordCells

/-!
# The tables of records

What the reading of a record keeps: the records that are defined already, and those around it that
are not finished yet.  `Running` is the invariant of `cc-read-members`.
-/

namespace CopySpace.Compiler

namespace Types

variable {types types' types'' : Types}

/-- The members of a record, in their order. -/
def owned (types : Types) (id : Nat) : List Member := types.members.filter (·.owner = id)

/-- The layout of the type is final. -/
def Settled (types : Types) : CType → Prop
  | .array element _ => Settled types element
  | .record id => id < types.count ∧ (types.record id).complete = .complete
  | _ => True

/-- Apart from the records in `p`, those that are defined or begun stay as they are, and no other
one is begun. -/
structure Keeps (types types' : Types) (p : Nat → Prop) : Prop where
  count_le : types.count ≤ types'.count
  record_eq : ∀ r < types.count, (types.record r).complete ≠ .incomplete → ¬ p r →
    types'.record r = types.record r
  owned_eq : ∀ r < types.count, (types.record r).complete ≠ .incomplete → ¬ p r →
    types'.owned r = types.owned r
  begun : ∀ r, (types'.record r).complete = .defining → ¬ p r →
    (types.record r).complete = .defining

theorem Keeps.refl (types : Types) (p : Nat → Prop) : Keeps types types p :=
  ⟨le_rfl, fun _ _ _ _ ↦ rfl, fun _ _ _ _ ↦ rfl, fun _ h _ ↦ h⟩

theorem Keeps.trans {p : Nat → Prop} (h : Keeps types types' p) (h' : Keeps types' types'' p) :
    Keeps types types'' p := by
  refine ⟨h.count_le.trans h'.count_le, fun r hr hc hp ↦ ?_, fun r hr hc hp ↦ ?_,
    fun r hd hp ↦ h.begun r (h'.begun r hd hp) hp⟩
  · have heq := h.record_eq r hr hc hp
    rw [h'.record_eq r (hr.trans_le h.count_le) (by rwa [heq]) hp, heq]
  · have heq := h.record_eq r hr hc hp
    rw [h'.owned_eq r (hr.trans_le h.count_le) (by rwa [heq]) hp, h.owned_eq r hr hc hp]

theorem Keeps.mono {p q : Nat → Prop} (h : Keeps types types' p) (hpq : ∀ r, p r → q r) :
    Keeps types types' q :=
  ⟨h.count_le, fun r hr hc hq ↦ h.record_eq r hr hc fun hp ↦ hq (hpq r hp),
    fun r hr hc hq ↦ h.owned_eq r hr hc fun hp ↦ hq (hpq r hp),
    fun r hd hq ↦ h.begun r hd fun hp ↦ hq (hpq r hp)⟩

/-- A final layout stays final. -/
theorem Keeps.settled {p : Nat → Prop} (h : Keeps types types' p)
    (hp : ∀ r, p r → (types.record r).complete ≠ .complete) {type : CType}
    (ht : types.Settled type) : types'.Settled type ∧ types'.size type = types.size type ∧
      types'.alignment type = types.alignment type := by
  induction type with
  | array element length ih =>
      obtain ⟨hs, hsize, halign⟩ := ih ht
      exact ⟨hs, by rw [size, hsize, size], by rw [alignment, halign, alignment]⟩
  | record id =>
      obtain ⟨hlt, hc⟩ := ht
      have heq := h.record_eq id hlt (by rw [hc]; decide) fun hid ↦ hp id hid hc
      exact ⟨⟨hlt.trans_le h.count_le, by rw [heq, hc]⟩, by rw [size, heq, size],
        by rw [alignment, heq, alignment]⟩
  | basic | pointer | enumeration | function => exact ⟨trivial, rfl, rfl⟩

/-! ## Validity -/

/-- The values that attributes leave: no alignment, or one that is admitted. -/
def Requested (a : Cell) : Prop := a = 0 ∨ IsAlignment a

/-- What holds of the tables at any time. -/
structure Valid (types : Types) : Prop where
  alignment : ∀ r, IsAlignment (types.record r).alignment
  attributes : ∀ m ∈ types.members, Requested (attributeAlignment m.attributes)
  unused : ∀ r, types.count ≤ r → (types.record r).complete = .incomplete
  incomplete : ∀ r, (types.record r).complete = .incomplete →
    types.record r = .new (types.record r).union ∧ types.owned r = []

theorem isAlignment_one : IsAlignment 1 := ⟨0, by decide, rfl⟩

theorem basicAlignment_isAlignment (i : Fin 14) : IsAlignment (basicAlignment i) := by
  have h : ∀ i, ∃ k : Fin 29, (basicAlignment i).toNat = 2 ^ k.val := by decide
  obtain ⟨k, hk⟩ := h i
  exact ⟨k, by omega, hk⟩

theorem Valid.isAlignment (hv : types.Valid) (type : CType) :
    IsAlignment (types.alignment type) := by
  induction type with
  | array element length ih => exact ih
  | record id => exact hv.alignment id
  | basic i => exact basicAlignment_isAlignment i
  | enumeration i => exact basicAlignment_isAlignment i
  | pointer => exact ⟨2, by decide, rfl⟩
  | function => exact isAlignment_one

theorem valid_initial : Valid initial :=
  ⟨fun _ ↦ isAlignment_one, fun _ hm ↦ absurd hm List.not_mem_nil, fun _ _ ↦ rfl,
    fun _ _ ↦ ⟨rfl, rfl⟩⟩

/-! ## Changes of one record -/

variable {owner id : Nat} {f : Record → Record}

@[simp] theorem record_modify_self (types : Types) (id : Nat) (f : Record → Record) :
    (types.modify id f).record id = f (types.record id) := Function.update_self _ _ _

theorem record_modify_of_ne {r : Nat} (h : r ≠ id) :
    (types.modify id f).record r = types.record r := Function.update_of_ne h _ _

@[simp] theorem owned_modify (types : Types) (id : Nat) (f : Record → Record) (r : Nat) :
    (types.modify id f).owned r = types.owned r := rfl

@[simp] theorem count_modify (types : Types) (id : Nat) (f : Record → Record) :
    (types.modify id f).count = types.count := rfl

@[simp] theorem members_modify (types : Types) (id : Nat) (f : Record → Record) :
    (types.modify id f).members = types.members := rfl

theorem modify_keeps : Keeps types (types.modify id f) (· = id) :=
  ⟨le_rfl, fun _ _ _ h ↦ record_modify_of_ne h, fun _ _ _ _ ↦ rfl,
    fun r hd h ↦ by rwa [record_modify_of_ne h] at hd⟩

/-- A change of a record that is not incomplete afterwards. -/
theorem Valid.modify (hv : types.Valid) (hlt : id < types.count)
    (ha : IsAlignment (f (types.record id)).alignment)
    (hc : (f (types.record id)).complete ≠ .incomplete) : (types.modify id f).Valid := by
  refine ⟨fun r ↦ ?_, hv.attributes, fun r hr ↦ ?_, fun r hr ↦ ?_⟩
  · by_cases h : r = id
    · rwa [h, record_modify_self]
    · rw [record_modify_of_ne h]
      exact hv.alignment r
  · rw [record_modify_of_ne (by rintro rfl; exact absurd hlt (not_lt.mpr hr))]
    exact hv.unused r hr
  · by_cases h : r = id
    · rw [h, record_modify_self] at hr
      exact absurd hr hc
    · rw [record_modify_of_ne h] at hr ⊢
      exact hv.incomplete r hr

/-! ## A new record -/

theorem record_newRecord_of_ne {r : Nat} (union : Bool) (h : r ≠ types.count) :
    (types.newRecord union).record r = types.record r := Function.update_of_ne h _ _

theorem record_newRecord (types : Types) (union : Bool) :
    (types.newRecord union).record types.count = .new union := Function.update_self _ _ _

theorem newRecord_keeps (union : Bool) (p : Nat → Prop) :
    Keeps types (types.newRecord union) p := by
  refine ⟨Nat.le_succ _, fun _ hr _ _ ↦ record_newRecord_of_ne union (Nat.ne_of_lt hr),
    fun _ _ _ _ ↦ rfl, fun r hd _ ↦ ?_⟩
  by_cases h : r = types.count
  · rw [h, record_newRecord] at hd
    cases hd
  · rwa [record_newRecord_of_ne union h] at hd

theorem Valid.newRecord (hv : types.Valid) (union : Bool) : (types.newRecord union).Valid := by
  refine ⟨fun r ↦ ?_, hv.attributes, fun r hr ↦ ?_, fun r hr ↦ ?_⟩
  · by_cases h : r = types.count
    · rw [h, record_newRecord]
      exact isAlignment_one
    · rw [record_newRecord_of_ne union h]
      exact hv.alignment r
  · have hr : types.count + 1 ≤ r := hr
    rw [record_newRecord_of_ne union (by omega)]
    exact hv.unused r (by omega)
  · by_cases h : r = types.count
    · rw [h, record_newRecord]
      exact ⟨rfl, (hv.incomplete _ (hv.unused _ le_rfl)).2⟩
    · rw [record_newRecord_of_ne union h] at hr ⊢
      exact hv.incomplete r hr

/-! ## Members so far -/

/-- A member as it is placed without attributes. -/
def plainField (types : Types) (m : Member) : CellField :=
  ⟨types.size m.type, types.alignment m.type⟩

/-- What `cc-read-members` has found: the members are placed as a pass without attributes places
them. -/
structure Running (types : Types) (owner : Nat) : Prop where
  lt_count : owner < types.count
  settled : ∀ m ∈ types.owned owner, types.Settled m.type
  offsets : (types.owned owner).map (·.offset) =
    placeCells (types.record owner).union 0 ((types.owned owner).map types.plainField)
  size_eq : (types.record owner).size =
    extentCells (types.record owner).union 0 ((types.owned owner).map types.plainField)
  alignment_eq : (types.record owner).alignment =
    alignmentCells 1 ((types.owned owner).map types.plainField)
  attributes : (types.record owner).memberAttributes = true ↔
    ∃ m ∈ types.owned owner, m.attributes ≠ 0
  packed : (types.record owner).packed = false

/-- What is read elsewhere leaves the members as they are. -/
theorem Running.keeps (hr : types.Running owner)
    (hd : (types.record owner).complete = .defining) {p : Nat → Prop} (hk : Keeps types types' p)
    (hp : ∀ r, p r → (types.record r).complete ≠ .complete) (howner : ¬ p owner) :
    types'.Running owner ∧ (types'.record owner).complete = .defining := by
  have hne : (types.record owner).complete ≠ .incomplete := by
    rw [hd]
    decide
  have hrecord := hk.record_eq owner hr.lt_count hne howner
  have howned := hk.owned_eq owner hr.lt_count hne howner
  have hfields : (types'.owned owner).map types'.plainField =
      (types.owned owner).map types.plainField := by
    rw [howned]
    refine List.map_congr_left fun m hm ↦ ?_
    obtain ⟨-, hsize, halign⟩ := hk.settled hp (hr.settled m hm)
    rw [plainField, hsize, halign, plainField]
  refine ⟨⟨hr.lt_count.trans_le hk.count_le, fun m hm ↦ ?_, ?_, ?_, ?_, ?_, ?_⟩, ?_⟩
  · rw [howned] at hm
    exact (hk.settled hp (hr.settled m hm)).1
  · rw [hfields, howned, hrecord]
    exact hr.offsets
  · rw [hfields, hrecord]
    exact hr.size_eq
  · rw [hfields, hrecord]
    exact hr.alignment_eq
  · rw [howned, hrecord]
    exact hr.attributes
  · rw [hrecord]
    exact hr.packed
  · rw [hrecord]
    exact hd

end Types

end CopySpace.Compiler
