import CopySpace.Compiler.RecordLayout

/-!
# The layout of a record

`record_layout`: the cells of a record hold the layout that its members ask for just if that has
less than `2 ^ 31` bytes; nothing checks that it has.
-/

namespace CopySpace.Compiler.Types

variable {types types' : Types} {owner id : Nat} {packed : Bool} {requested : Cell}

/-! ## Reachable tables -/

/-- The tables while a program is compiled.  A definition may begin, be read as a whole, or be
read declaration by declaration, so that others stand within it. -/
inductive Reaches : Types → Prop
  | initial : Reaches .initial
  | mention {types : Types} (h : Reaches types) (union : Bool) : Reaches (types.newRecord union)
  | brace {types types' : Types} (h : Reaches types) {target : Option Nat} {union : Bool} {id : Nat}
      (htarget : types.targetRecord target union = some (id, types')) :
      Reaches (types'.modify id fun r ↦ { r with complete := .defining })
  | declaration {types types' : Types} (h : Reaches types) {owner : Nat} {base : CType}
      {before after : List Attribute} {a a' : Cell} {ds : List Declarator}
      (hdefining : (types.record owner).complete = .defining) (hlisted : types.Listed base)
      (hbefore : readMemberAttributes 0 before = some a)
      (hafter : readMemberAttributes a after = some a')
      (hds : readDeclarators owner base a' ds types = some types') : Reaches types'
  | record {types types' : Types} (h : Reaches types) {target : Option Nat} {union : Bool}
      {before after : List Attribute} {members : Members} {id : Nat}
      (hrecord : readRecord target union before members after types = some (id, types')) :
      Reaches types'

/-- The tables are valid, and the definitions that have begun are so far as they should be. -/
structure Consistent (types : Types) : Prop where
  valid : types.Valid
  running : ∀ owner, (types.record owner).complete = .defining → types.Running owner

theorem Consistent.of_keeps (h : types.Consistent) {p : Nat → Prop} (hv : types'.Valid)
    (hk : Keeps types types' p) (hp : ∀ r, p r → (types.record r).complete ≠ .complete)
    (hrunning : ∀ r, p r → types'.Running r) : types'.Consistent := by
  refine ⟨hv, fun r hd ↦ ?_⟩
  by_cases hr : p r
  · exact hrunning r hr
  · have hd₀ := hk.begun r hd hr
    exact ((h.running r hd₀).keeps hd₀ hk hp hr).1

theorem readRecord_spec {target : Option Nat} {union : Bool} {before after : List Attribute}
    {members : Members} (hv : types.Valid)
    (h : readRecord target union before members after types = some (id, types')) :
    types'.Valid ∧ Keeps types types' (fun _ ↦ False) ∧ id < types'.count ∧
      (types'.record id).complete = .complete ∧ (types'.record id).union = union ∧
      ∃ packed requested, recordAttributes before after = some (packed, requested) ∧
        types'.LaidOut id packed requested ∧ Requested requested :=
  readRecordBody_spec readMembers_closes hv h

theorem Reaches.consistent (h : Reaches types) : types.Consistent := by
  induction h with
  | initial => exact ⟨valid_initial, fun _ h ↦ nomatch h⟩
  | mention _ union ih =>
      exact ih.of_keeps (ih.valid.newRecord union) (newRecord_keeps union fun _ ↦ False)
        (fun _ h ↦ h.elim) fun _ h ↦ h.elim
  | brace _ htarget ih =>
      obtain ⟨hv, hk, hlt, hnew, howned⟩ := targetRecord_spec ih.valid htarget
      have hkept := ih.of_keeps hv hk (fun _ h ↦ h.elim) fun _ h ↦ h.elim
      refine hkept.of_keeps (hv.modify hlt (hv.alignment _) fun h ↦ nomatch h) modify_keeps ?_ ?_
      · rintro r rfl
        rw [hnew]
        exact fun h ↦ nomatch h
      · rintro r rfl
        exact running_defining hlt hnew howned
  | declaration _ hdefining hlisted hbefore hafter hds ih =>
      have hreads := readDeclarators_reads ih.valid (ih.running _ hdefining) hdefining hlisted
        (readMemberAttributes_requested (readMemberAttributes_requested (.inl rfl) hbefore) hafter)
        hds
      refine ih.of_keeps hreads.valid hreads.keeps ?_ ?_
      · rintro r rfl
        rw [hdefining]
        exact fun h ↦ nomatch h
      · rintro r rfl
        exact hreads.running
  | record _ hrecord ih =>
      obtain ⟨hv, hk, -⟩ := readRecord_spec ih.valid hrecord
      exact ih.of_keeps hv hk (fun _ h ↦ h.elim) fun _ h ↦ h.elim

/-! ## Layouts in numbers -/

/-- The alignment of the type, or 1 if the member or the record is packed, raised by the attribute
of the member. -/
def effectiveAlignment (types : Types) (packed : Bool) (m : Member) : Nat :=
  max (if m.attributes.msb || packed then 1 else (types.alignment m.type).toNat)
    (attributeAlignment m.attributes).toNat

/-- The members of a record as fields. -/
def fields (types : Types) (packed : Bool) (id : Nat) : List Layout.Field :=
  (types.owned id).map fun m ↦ ⟨(types.size m.type).toNat, types.effectiveAlignment packed m⟩

/-- The cells of a record hold the layout that its members ask for, and no members of a `struct`
overlap. -/
structure Laid (types : Types) (packed : Bool) (requested : Cell) (id : Nat) : Prop where
  holds : ∃ offsets size alignment,
    Layout.WellLaid (types.record id).union (max requested.toNat 1) (types.fields packed id) offsets
      size alignment ∧
    List.Forall₂ Holds ((types.owned id).map (·.offset)) offsets ∧
    Holds (types.record id).size size ∧ Holds (types.record id).alignment alignment
  disjoint : (types.record id).union = false → (types.owned id).Pairwise fun (m m' : Member) ↦
    m.offset.toInt + (types.size m.type).toNat ≤ m'.offset.toInt

theorem toNat_memberAlignment (hv : types.Valid) {m : Member} (hm : m ∈ types.members) :
    (memberAlignment (types.alignment m.type) m.attributes packed).toNat =
      types.effectiveAlignment packed m := by
  have hattribute := (hv.attributes m hm).holds
  rw [memberAlignment, effectiveAlignment]
  split
  · exact (holds_iff.mp (maxCell_holds isAlignment_one.holds hattribute)).1
  · exact (holds_iff.mp (maxCell_holds (hv.isAlignment m.type).holds hattribute)).1

theorem map_field (hv : types.Valid) :
    ((types.owned id).map (types.cellField packed)).map (·.field) = types.fields packed id := by
  rw [List.map_map, fields]
  refine List.map_congr_left fun m hm ↦ ?_
  rw [Function.comp_apply, CellField.field, cellField,
    toNat_memberAlignment hv (List.mem_of_mem_filter hm)]

theorem fields_pos (hv : types.Valid) : ∀ f ∈ types.fields packed id, 0 < f.alignment := by
  rw [← map_field hv, List.forall_mem_map]
  exact fun f hf ↦ (hv.cellField packed f hf).pos

/-- Places in numbers do not overlap, and the cells that hold them do not either. -/
theorem pairwise_of_holds {ms : List Member} {fs : List Layout.Field} {os : List Nat}
    (hfs : fs.map (·.size) = ms.map fun m ↦ (types.size m.type).toNat)
    (hos : List.Forall₂ Holds (ms.map (·.offset)) os)
    (h : (fs.zip os).Pairwise fun p q ↦ p.2 + p.1.size ≤ q.2) :
    ms.Pairwise fun (m m' : Member) ↦ m.offset.toInt + (types.size m.type).toNat ≤ m'.offset.toInt := by
  induction ms generalizing fs os with
  | nil => exact .nil
  | cons m ms ih =>
      cases fs with
      | nil => cases hfs
      | cons f fs =>
          cases hos with
          | @cons _ o _ os ho hos =>
              rw [List.map_cons, List.map_cons, List.cons.injEq] at hfs
              rw [List.zip_cons_cons, List.pairwise_cons] at h
              refine List.pairwise_cons.mpr ⟨fun m' hm' ↦ ?_, ih hfs.2 hos h.2⟩
              obtain ⟨i, hi, rfl⟩ := List.mem_iff_getElem.mp hm'
              have hlen : ms.length = os.length := by
                rw [← hos.length_eq, List.length_map]
              have hlen' : fs.length = ms.length := by
                simpa using congrArg List.length hfs.2
              have hmem : (fs[i], os[i]) ∈ fs.zip os := by
                rw [← List.getElem_zip (h := by rw [List.length_zip]; omega)]
                exact List.getElem_mem _
              have hle := h.1 _ hmem
              have ho' : Holds ms[i].offset os[i] := by
                have := (List.forall₂_iff_get.mp hos).2 i (by rw [List.length_map]; exact hi)
                  (by omega)
                simpa using this
              have hsize : f.size = (types.size m.type).toNat := hfs.1
              have hle : o + f.size ≤ os[i] := hle
              have ho : Holds m.offset o := ho
              unfold Holds at ho ho'
              omega

/-! ## The layout -/

/-- A record that `cc-record-layout` has left holds the layout just if that is small enough. -/
theorem LaidOut.laid_iff (hv : types.Valid) (hq : Requested requested)
    (h : types.LaidOut id packed requested) : types.Laid packed requested id ↔
      Layout.sizeOf (types.record id).union (max requested.toNat 1) (types.fields packed id) <
        2 ^ 31 := by
  have hfields : _ = types.fields packed id := map_field hv
  have hpos : ∀ f ∈ types.fields packed id, 0 < f.alignment := fields_pos hv
  have hminimum : 0 < max requested.toNat 1 := by omega
  constructor
  · rintro ⟨⟨offsets, size, alignment, hlaid, -, hsize, -⟩, -⟩
    rw [← ((Layout.wellLaid_iff hpos hminimum).mp hlaid).2.2]
    exact (holds_iff.mp hsize).2
  · intro hlt
    have hlaid : Layout.WellLaid (types.record id).union _ _ _ _ _ :=
      (Layout.wellLaid_iff hpos hminimum).mpr ⟨rfl, rfl, rfl⟩
    have hcells : ∀ f ∈ (types.owned id).map (types.cellField packed), IsAlignment f.alignment :=
      hv.cellField packed
    have hmax : Holds (maxCell requested 1) (max requested.toNat 1) :=
      maxCell_holds hq.holds isAlignment_one.holds
    have hgreatest := alignmentCells_isAlignment (maxCell_requested hq isAlignment_one) hcells
    have halign := alignmentCells_holds hmax hcells
    have hextent : Layout.extent (types.record id).union 0 (types.fields packed id) < 2 ^ 31 :=
      lt_of_le_of_lt (Layout.le_roundUp (Layout.foldr_max_pos hminimum) _) hlt
    rw [← hfields] at hextent
    obtain ⟨hplaces, hend⟩ := place_holds (show Holds 0 0 from rfl) hcells hextent
    rw [hfields] at hplaces hend halign
    rw [← h.offsets] at hplaces
    have hsize := alignUp_holds hgreatest hend (by rwa [(holds_iff.mp halign).1])
    rw [(holds_iff.mp halign).1, ← h.alignment_eq, ← h.size_eq] at hsize
    rw [← h.alignment_eq] at halign
    refine ⟨⟨_, _, _, hlaid, hplaces, hsize, halign⟩, fun hunion ↦ ?_⟩
    have hplaced := hlaid.placed
    rw [hunion] at hplaced
    refine pairwise_of_holds ?_ hplaces (by rw [hunion]; exact hplaced.pairwise.2)
    rw [fields, List.map_map]
    rfl

/-- `cc-record-layout` finds the layout that is there already. -/
theorem LaidOut.recordLayout_eq (h : types.LaidOut id packed requested) :
    types.recordLayout id packed requested = types := by
  have hmembers : types.relabel id packed 0 types.members = types.members :=
    relabel_eq_self h.offsets
  have hrecord : (types.recordLayout id packed requested).record id = types.record id := by
    rw [record_recordLayout, ← h.alignment_eq, ← h.size_eq, ← h.packed_eq]
  have hall : (types.recordLayout id packed requested).record = types.record := by
    funext r
    by_cases hr : r = id
    · rw [hr, hrecord]
    · exact Function.update_of_ne hr _ _
  have hlist : (types.recordLayout id packed requested).members = types.members := by
    rw [recordLayout, members_modify, foldl_layoutMember, hmembers, List.nil_append]
  have heta : types.recordLayout id packed requested = ⟨types.count,
      (types.recordLayout id packed requested).record,
      (types.recordLayout id packed requested).members⟩ := rfl
  rw [heta, hall, hlist]

local instance neZeroBasic : NeZero 14 := ⟨by decide⟩

/-- A `struct` with an attribute, an anonymous `struct` within it and an array without a length. -/
def mixedMembers : Members :=
  .known [] (.basic 4) false [] [⟨"c", [], []⟩] <|
  .known [] (.basic 0) false [] [⟨"i", [], [.aligned (some 8)]⟩] <|
  .nested [] none false false [.packed] (.known [] (.basic 7) false [] [⟨"s", [], []⟩] .close) [] []
    [] <|
  .known [] (.basic 12) false [] [⟨"q", [.array none], []⟩] .close

/-- A `struct` of four members with 512 MiB, each made from arrays of the greatest size. -/
def hugeMembers : Members :=
  .nested [] none false false []
    (.nested [] none false false []
      (.known [] (.basic 4) false []
        ((List.range 16).map fun i ↦ ⟨toString i, [.array (some 2097152)], []⟩) .close)
      [] [] ((List.range 16).map fun i ↦ ⟨toString i, [], []⟩) .close)
    [] [] ((List.range 4).map fun i ↦ ⟨toString i, [], []⟩) .close

end CopySpace.Compiler.Types
