import CopySpace.Link.Archive

/-!
# The archive loop selects on demand

What `archive_requirements` and `archive_needed` do to the table is related to the units the
table stands for, and the loop to `CopySpace.Selection`: the members are taken because they
are needed, and when a pass takes none the selection is closed.
-/

namespace CopySpace.Link

open Selection

variable (labelCapacity : Nat) (objects members : List Text) (entry : Text)

/-! ## What units define and reference -/

/-- The unit has an external definition of the name: strong, weak or common. -/
def Defines (unit : Text) (name : Text) : Prop :=
  ∃ names, objectScan labelCapacity unit = some names ∧
    ∃ e ∈ names, e.name = name ∧ e.external ∧ e.defined

/-- The unit references the name, and not as a weak one. -/
def References (unit : Text) (name : Text) : Prop :=
  ∃ names, objectScan labelCapacity unit = some names ∧
    ∃ e ∈ names, e.name = name ∧ e.external ∧ e.referenced ∧ ¬ e.weak

/-- The name is the entry, and the first object defines it, be it locally. -/
def EntryDefined (name : Text) : Prop :=
  name = entry ∧ ∃ names, objectScan labelCapacity (objects.getD 0 []) = some names ∧
    ∃ e ∈ names, e.name = name ∧ e.defined

/-- What the table says of the units selected so far; `given` are the names that are defined
without them. -/
structure Tracks (given : Text → Prop) (required : ObjectNames) (units : List Text) : Prop where
  valid : Valid required
  referenced : ∀ name, (lookup required name).referenced ↔
    name = entry ∨ ∃ unit ∈ units, References labelCapacity unit name
  defined : ∀ name, (lookup required name).defined ↔
    given name ∨ ∃ unit ∈ units, Defines labelCapacity unit name

/-- A name is needed by these units. -/
def NeededBy (units : List Text) (name : Text) : Prop :=
  Needed (Defines labelCapacity) (References labelCapacity) (· = entry)
    (EntryDefined labelCapacity objects entry) units name

section Requirements

variable {labelCapacity objects members entry} {required required' unit : ObjectNames}
  {first : Bool} {units : List Text}

/-- One entry of a unit. -/
theorem requirement_spec {e : ObjectName} (hv : Valid required)
    (h : archiveRequirements labelCapacity entry required [e] first = some required') :
    Valid required' ∧ ∀ name,
      ((lookup required' name).referenced ↔ (lookup required name).referenced ∨
        e.name = name ∧ e.referenced ∧ ¬ e.weak ∧
          (e.external ∨ first ∧ e.defined ∧ name = entry)) ∧
      ((lookup required' name).defined ↔ (lookup required name).defined ∨
        e.name = name ∧ e.defined ∧ (e.external ∨ first ∧ name = entry)) := by
  simp only [archiveRequirements, List.foldlM_cons, List.foldlM_nil] at h
  obtain ⟨required₁, h, he⟩ := Option.bind_eq_some_iff.mp h
  cases he
  split at h
  case isTrue hskip =>
    cases h
    simp only [Bool.and_eq_true, decide_eq_true_eq, Bool.not_eq_true', not_and] at hskip
    obtain ⟨hroot, hskip⟩ := hskip
    refine ⟨hv, fun name ↦ ⟨⟨.inl, ?_⟩, ⟨.inl, ?_⟩⟩⟩
    · rintro (h | ⟨rfl, hr, hw, hx | ⟨h₁, h₂, h₃⟩⟩)
      · exact h
      · rcases hskip with hs | ⟨-, hs⟩
        · exact absurd hx hs
        · exact absurd (by simpa using hw) (hs hr)
      · exact absurd h₃ (hroot ⟨h₁, h₂⟩)
    · rintro (h | ⟨rfl, hd, hx | ⟨h₁, h₂⟩⟩)
      · exact h
      · rcases hskip with hs | ⟨hs, -⟩
        · exact absurd hx hs
        · exact absurd hd hs
      · exact absurd h₂ (hroot ⟨h₁, hd⟩)
  case isFalse hkeep =>
    have hkeep : e.external ∨ first ∧ e.defined ∧ e.name = entry := by
      by_contra hn
      rw [not_or] at hn
      refine hkeep ⟨fun hr ↦ hn.2 ?_, .inl hn.1⟩
      simpa [and_assoc] using hr
    refine ⟨hv.declare (ObjectName.name_require _ _) h, fun name ↦ ?_⟩
    rw [lookup_declare (ObjectName.name_require _ _) h]
    by_cases hn : name = e.name
    · subst hn
      rw [if_pos rfl]
      simp only [ObjectName.require, Bool.or_eq_true, Bool.and_eq_true, Bool.not_eq_true',
        Bool.not_eq_true, true_and]
      constructor
      · exact or_congr_right ⟨fun ⟨hr, hw⟩ ↦ ⟨hr, hw, hkeep⟩, fun ⟨hr, hw, _⟩ ↦ ⟨hr, hw⟩⟩
      · exact or_congr_right ⟨fun hd ↦ ⟨hd, hkeep.imp_right fun h ↦ ⟨h.1, h.2.2⟩⟩, And.left⟩
    · rw [if_neg hn]
      constructor
      · exact ⟨.inl, fun h ↦ h.resolve_right fun hr ↦ hn hr.1.symm⟩
      · exact ⟨.inl, fun h ↦ h.resolve_right fun hr ↦ hn hr.1.symm⟩

/-- `archive_requirements`: the flags of a unit are added to the table. -/
theorem archiveRequirements_spec (hv : Valid required)
    (h : archiveRequirements labelCapacity entry required unit first = some required') :
    Valid required' ∧ ∀ name,
      ((lookup required' name).referenced ↔ (lookup required name).referenced ∨
        ∃ e ∈ unit, e.name = name ∧ e.referenced ∧ ¬ e.weak ∧
          (e.external ∨ first ∧ e.defined ∧ name = entry)) ∧
      ((lookup required' name).defined ↔ (lookup required name).defined ∨
        ∃ e ∈ unit, e.name = name ∧ e.defined ∧ (e.external ∨ first ∧ name = entry)) := by
  induction unit generalizing required with
  | nil =>
      cases h
      exact ⟨hv, fun name ↦ by simp⟩
  | cons e unit ih =>
      have hcons : (archiveRequirements labelCapacity entry required [e] first).bind
          (archiveRequirements labelCapacity entry · unit first) = some required' := by
        rw [← h]
        simp only [archiveRequirements, List.foldlM_cons, List.foldlM_nil, bind_pure]
        rfl
      obtain ⟨required₁, h₁, h₂⟩ := Option.bind_eq_some_iff.mp hcons
      obtain ⟨hv₁, hs₁⟩ := requirement_spec hv h₁
      obtain ⟨hv₂, hs₂⟩ := ih hv₁ h₂
      refine ⟨hv₂, fun name ↦ ?_⟩
      rw [(hs₂ name).1, (hs₂ name).2, (hs₁ name).1, (hs₁ name).2]
      simp only [List.exists_mem_cons_iff, or_assoc, and_self]

/-- One more unit. -/
theorem Tracks.add {given : Text → Prop} {text : Text}
    (hT : Tracks labelCapacity entry given required units)
    (hs : objectScan labelCapacity text = some unit)
    (h : archiveRequirements labelCapacity entry required unit first = some required') :
    Tracks labelCapacity entry
      (fun name ↦ given name ∨ first ∧ name = entry ∧ ∃ e ∈ unit, e.name = name ∧ e.defined)
      required' (units ++ [text]) := by
  obtain ⟨hv, hspec⟩ := archiveRequirements_spec hT.valid h
  have hscan : ∀ P : ObjectNames → Prop,
      (∃ names, objectScan labelCapacity text = some names ∧ P names) ↔ P unit := fun P ↦ by
    rw [hs]
    simp
  refine ⟨hv, fun name ↦ ?_, fun name ↦ ?_⟩
  · rw [(hspec name).1, hT.referenced]
    constructor
    · rintro ((rfl | ⟨u, hu, hr⟩) | ⟨e, he, hn, hr, hw, hx | ⟨-, -, rfl⟩⟩)
      · exact .inl rfl
      · exact .inr ⟨u, List.mem_append_left _ hu, hr⟩
      · exact .inr ⟨text, by simp, (hscan _).mpr ⟨e, he, hn, hx, hr, hw⟩⟩
      · exact .inl rfl
    · rintro (rfl | ⟨u, hu, hr⟩)
      · exact .inl (.inl rfl)
      · rcases List.mem_append.mp hu with hu | hu
        · exact .inl (.inr ⟨u, hu, hr⟩)
        · obtain rfl := List.mem_singleton.mp hu
          obtain ⟨e, he, hn, hx, hr, hw⟩ := (hscan _).mp hr
          exact .inr ⟨e, he, hn, hr, hw, .inl hx⟩
  · rw [(hspec name).2, hT.defined]
    constructor
    · rintro ((hg | ⟨u, hu, hd⟩) | ⟨e, he, hn, hd, hx | ⟨hf, rfl⟩⟩)
      · exact .inl (.inl hg)
      · exact .inr ⟨u, List.mem_append_left _ hu, hd⟩
      · exact .inr ⟨text, by simp, (hscan _).mpr ⟨e, he, hn, hx, hd⟩⟩
      · exact .inl (.inr ⟨hf, rfl, e, he, hn, hd⟩)
    · rintro ((hg | ⟨hf, rfl, e, he, hn, hd⟩) | ⟨u, hu, hd⟩)
      · exact .inl (.inl hg)
      · exact .inr ⟨e, he, hn, hd, .inr ⟨hf, rfl⟩⟩
      · rcases List.mem_append.mp hu with hu | hu
        · exact .inl (.inr ⟨u, hu, hd⟩)
        · obtain rfl := List.mem_singleton.mp hu
          obtain ⟨e, he, hn, hx, hd⟩ := (hscan _).mp hd
          exact .inr ⟨e, he, hn, hd, .inl hx⟩

/-- `archive_needed`. -/
theorem archiveNeeded_iff {candidate : ObjectNames} (hv : Valid required) :
    archiveNeeded labelCapacity required candidate ↔ ∃ e ∈ candidate, e.external ∧ e.defined ∧
      (lookup required e.name).referenced ∧ ¬ (lookup required e.name).defined := by
  rw [archiveNeeded, List.any_eq_true]
  refine exists_congr fun e ↦ and_congr_right fun _ ↦ ?_
  rw [Bool.and_eq_true, Bool.and_eq_true, and_assoc]
  refine and_congr_right fun _ ↦ and_congr_right fun _ ↦ ?_
  cases hn : objectName labelCapacity required e.name false with
  | none =>
      rw [lookup_of_objectName_none hv hn]
      simp [ObjectName.fresh]
  | some found =>
      obtain ⟨j, required₁⟩ := found
      obtain ⟨-, hj, -, rfl | ⟨hc, -⟩⟩ := objectName_eq_some hn
      · simp [getElem_of_findIdx hj]
      · cases hc

end Requirements

section Loop

variable {labelCapacity objects members entry} {required : ObjectNames} {units : List Text}

/-- A candidate is needed when it defines a name that the units need. -/
theorem Tracks.needed_iff {candidate : ObjectNames} {text : Text}
    (hT : Tracks labelCapacity entry (EntryDefined labelCapacity objects entry) required units)
    (hs : objectScan labelCapacity text = some candidate) :
    archiveNeeded labelCapacity required candidate ↔ ∃ name, Defines labelCapacity text name ∧
      NeededBy labelCapacity objects entry units name := by
  rw [archiveNeeded_iff hT.valid]
  constructor
  · rintro ⟨e, he, hx, hd, hr, hn⟩
    rw [hT.referenced] at hr
    rw [hT.defined, not_or] at hn
    exact ⟨e.name, ⟨candidate, hs, e, he, rfl, hx, hd⟩, hr, hn.1,
      fun u hu hdu ↦ hn.2 ⟨u, hu, hdu⟩⟩
  · rintro ⟨name, ⟨names, hs', e, he, rfl, hx, hd⟩, hr, hg, hn⟩
    cases hs.symm.trans hs'
    refine ⟨e, he, hx, hd, (hT.referenced _).mpr hr, fun hdef ↦ ?_⟩
    rcases (hT.defined _).mp hdef with h | ⟨u, hu, hdu⟩
    · exact hg h
    · exact hn u hu hdu

theorem requireObject_eq_ok {required' : ObjectNames} {i : Nat}
    (h : requireObject labelCapacity objects entry required i = .ok required') :
    ∃ unit, objectScan labelCapacity (objects.getD i []) = some unit ∧
      archiveRequirements labelCapacity entry required unit (decide (i = 0)) = some required' := by
  unfold requireObject at h
  split at h
  · nomatch h
  case h_2 unit hs =>
    split at h
    · nomatch h
    case h_2 hr =>
      cases h
      exact ⟨unit, hs, hr⟩

/-- The loop over the given objects. -/
theorem requireObjects_tracks {start : ObjectNames}
    (hT : Tracks labelCapacity entry (fun _ ↦ False) start []) {k : Nat}
    (hk : k ≤ objects.length)
    (h : (List.range k).foldlM (requireObject labelCapacity objects entry) start =
      .ok required) :
    Tracks labelCapacity entry
      (fun name ↦ 0 < k ∧ EntryDefined labelCapacity objects entry name) required
      (objects.take k) := by
  induction k generalizing required with
  | zero =>
      cases h
      simpa using hT
  | succ k ih =>
      rw [List.range_succ, List.foldlM_append] at h
      cases hbefore : (List.range k).foldlM (requireObject labelCapacity objects entry) start with
      | error message =>
          rw [hbefore] at h
          nomatch h
      | ok before =>
          rw [hbefore] at h
          have hlast : requireObject labelCapacity objects entry before k = .ok required := by
            rw [← h]
            exact (bind_pure _).symm
          obtain ⟨unit, hs, hr⟩ := requireObject_eq_ok hlast
          have hadd := (ih (Nat.le_of_lt hk) hbefore).add hs hr
          rw [List.take_add_one, List.getElem?_eq_getElem hk, Option.toList_some]
          have hget : objects.getD k [] = objects[k] := by
            rw [List.getD_eq_getElem?_getD, List.getElem?_eq_getElem hk, Option.getD_some]
          rw [hget] at hs hadd
          refine ⟨hadd.valid, hadd.referenced, fun name ↦ ?_⟩
          rw [hadd.defined]
          refine or_congr_left ?_
          rcases Nat.eq_zero_or_pos k with rfl | hpos
          · simp only [EntryDefined, hget, hs]
            simp
          · simp [hpos, Nat.ne_of_gt hpos]

/-- The table of the entry and the given objects. -/
theorem objectRequirements_tracks (ho : objects ≠ [])
    (h : objectRequirements labelCapacity objects entry = .ok required) :
    Tracks labelCapacity entry (EntryDefined labelCapacity objects entry) required objects := by
  unfold objectRequirements at h
  cases hn : objectName labelCapacity [] entry true with
  | none =>
      rw [hn] at h
      nomatch h
  | some found =>
      obtain ⟨index, names⟩ := found
      rw [hn] at h
      have hd : declare labelCapacity [] entry (.require false true) =
          some (names.modify index (.require false true)) := by
        rw [declare, hn]
        rfl
      have hstart : Tracks labelCapacity entry (fun _ ↦ False)
          (names.modify index (.require false true)) [] := by
        refine ⟨Valid.declare (fun _ he ↦ absurd he List.not_mem_nil)
          (ObjectName.name_require _ _) hd, fun name ↦ ?_, fun name ↦ ?_⟩ <;>
          rw [lookup_declare (ObjectName.name_require _ _) hd] <;> split <;>
          simp_all [lookup_nil, ObjectName.fresh, ObjectName.require]
      have hall := requireObjects_tracks hstart (Nat.le_refl _) h
      rw [List.take_length] at hall
      simpa [List.length_pos_iff.mpr ho] using hall

/-! ## The loop -/

/-- What holds of the variables between any two steps of the loop. -/
structure Extracting (labelCapacity : Nat) (objects members : List Text) (entry : Text)
    (e : Extraction) : Prop where
  tracks : Tracks labelCapacity entry (EntryDefined labelCapacity objects entry) e.required
    (objects ++ e.taken.map (members.getD · []))
  justified : Justified (Defines labelCapacity) (References labelCapacity) (· = entry)
    (EntryDefined labelCapacity objects entry) objects (e.taken.map (members.getD · []))
  lt : ∀ m ∈ e.taken, m < members.length
  nodup : e.taken.Nodup

/-- The member defines nothing that is needed. -/
def Unneeded (labelCapacity : Nat) (objects members : List Text) (entry : Text) (e : Extraction)
    (m : Nat) : Prop :=
  ∀ name, Defines labelCapacity (members.getD m []) name →
    ¬ NeededBy labelCapacity objects entry (objects ++ e.taken.map (members.getD · [])) name

/-- One member: it stays out because it is taken already or not needed, or it is taken. -/
theorem extractMember_spec {e e' : Extraction} {changed changed' : Bool} {m : Nat}
    (hI : Extracting labelCapacity objects members entry e) (hm : m < members.length)
    (h : extractMember labelCapacity objects members entry (e, changed) m = .ok (e', changed')) :
    Extracting labelCapacity objects members entry e' ∧
      (e' = e ∧ changed' = changed ∧
          (m ∉ e.taken → Unneeded labelCapacity objects members entry e m) ∨
        changed' = true ∧ e'.taken = e.taken ++ [m]) := by
  unfold extractMember at h
  dsimp only at h
  split at h
  case isTrue hmem =>
    cases h
    exact ⟨hI, .inl ⟨rfl, rfl, fun hn ↦ absurd hmem hn⟩⟩
  case isFalse hmem =>
    split at h
    · nomatch h
    case h_2 candidate hs =>
      split at h
      case isTrue hneed =>
        cases h
        refine ⟨hI, .inl ⟨rfl, rfl, fun _ name hd hn ↦ hneed ?_⟩⟩
        exact (hI.tracks.needed_iff hs).mpr ⟨name, hd, hn⟩
      case isFalse hneed =>
        split at h
        · nomatch h
        split at h
        · nomatch h
        case h_2 required hr =>
          cases h
          have hadd := hI.tracks.add hs hr
          refine ⟨⟨?_, ?_, ?_, ?_⟩, .inr ⟨rfl, rfl⟩⟩
          · refine ⟨hadd.valid, fun name ↦ ?_, fun name ↦ ?_⟩
            · simpa using hadd.referenced name
            · simpa using hadd.defined name
          · rw [List.map_append]
            exact hI.justified.snoc ((hI.tracks.needed_iff hs).mp (not_not.mp hneed))
          · intro k hk
            rcases List.mem_append.mp hk with hk | hk
            · exact hI.lt k hk
            · rwa [List.mem_singleton.mp hk]
          · refine List.nodup_append.mpr ⟨hI.nodup, by simp, fun k hk l hl ↦ ?_⟩
            obtain rfl := List.mem_singleton.mp hl
            exact fun he ↦ hmem (he ▸ hk)

/-- The loop over some members. -/
theorem extractMembers_spec {e e' : Extraction} {changed changed' : Bool} {l : List Nat}
    (hI : Extracting labelCapacity objects members entry e) (hl : ∀ m ∈ l, m < members.length)
    (h : l.foldlM (extractMember labelCapacity objects members entry) (e, changed) =
      .ok (e', changed')) :
    Extracting labelCapacity objects members entry e' ∧
      (changed' = false → changed = false ∧ e' = e ∧
        ∀ m ∈ l, m ∉ e.taken → Unneeded labelCapacity objects members entry e m) ∧
      e.taken.length ≤ e'.taken.length ∧
      (changed' = true → changed = true ∨ e.taken.length < e'.taken.length) := by
  induction l generalizing e changed with
  | nil =>
      cases h
      exact ⟨hI, fun hc ↦ ⟨hc, rfl, fun m hm ↦ absurd hm List.not_mem_nil⟩, Nat.le_refl _, .inl⟩
  | cons m l ih =>
      rw [List.foldlM_cons] at h
      cases hm : extractMember labelCapacity objects members entry (e, changed) m with
      | error message =>
          rw [hm] at h
          nomatch h
      | ok next =>
          obtain ⟨e₁, changed₁⟩ := next
          rw [hm] at h
          obtain ⟨hI₁, hstep⟩ := extractMember_spec hI (hl m List.mem_cons_self) hm
          obtain ⟨hI', hstay, hle, hgrow⟩ :=
            ih hI₁ (fun k hk ↦ hl k (List.mem_cons_of_mem _ hk)) h
          refine ⟨hI', ?_⟩
          rcases hstep with ⟨rfl, rfl, hun⟩ | ⟨rfl, htaken⟩
          · refine ⟨fun hc ↦ ?_, hle, hgrow⟩
            obtain ⟨hc, he, hrest⟩ := hstay hc
            refine ⟨hc, he, fun k hk ↦ ?_⟩
            rcases List.mem_cons.mp hk with rfl | hk
            · exact hun
            · exact hrest k hk
          · rw [htaken, List.length_append, List.length_singleton] at hle
            exact ⟨fun hc ↦ Bool.noConfusion (hstay hc).1, Nat.le_of_succ_le hle,
              fun _ ↦ .inr hle⟩

/-- One pass: it takes members, or shows that none is needed. -/
theorem extractPass_spec {e e' : Extraction} {changed : Bool}
    (hI : Extracting labelCapacity objects members entry e)
    (h : extractPass labelCapacity objects members entry e = .ok (e', changed)) :
    Extracting labelCapacity objects members entry e' ∧
      (changed = false → e' = e ∧ ∀ m < members.length, m ∉ e.taken →
        Unneeded labelCapacity objects members entry e m) ∧
      (changed = true → e.taken.length < e'.taken.length) := by
  obtain ⟨hI', hstay, -, hgrow⟩ :=
    extractMembers_spec hI (fun m hm ↦ List.mem_range.mp hm) h
  refine ⟨hI', fun hc ↦ ?_, fun hc ↦ (hgrow hc).resolve_left Bool.false_ne_true⟩
  obtain ⟨-, he, hun⟩ := hstay hc
  exact ⟨he, fun m hm ↦ hun m (List.mem_range.mpr hm)⟩

/-- The loop ends with a selection to which nothing can be added. -/
theorem extractLoop_spec {fuel : Nat} {e e' : Extraction}
    (hI : Extracting labelCapacity objects members entry e)
    (h : extractLoop labelCapacity objects members entry fuel e = some (.ok e')) :
    Extracting labelCapacity objects members entry e' ∧ ∀ m < members.length, m ∉ e'.taken →
      Unneeded labelCapacity objects members entry e' m := by
  induction fuel generalizing e with
  | zero => nomatch h
  | succ fuel ih =>
      rw [extractLoop] at h
      cases hp : extractPass labelCapacity objects members entry e with
      | error message =>
          rw [hp] at h
          nomatch h
      | ok next =>
          obtain ⟨e₁, changed⟩ := next
          rw [hp] at h
          obtain ⟨hI₁, hstay, -⟩ := extractPass_spec hI hp
          cases changed with
          | true => exact ih hI₁ h
          | false =>
              cases h
              obtain ⟨rfl, hun⟩ := hstay rfl
              exact ⟨hI₁, hun⟩

/-- No member is taken twice, so there are not more of them than members. -/
theorem Extracting.length_le {e : Extraction}
    (hI : Extracting labelCapacity objects members entry e) :
    e.taken.length ≤ members.length := by
  have hsub : e.taken ⊆ List.range members.length := fun m hm ↦ List.mem_range.mpr (hI.lt m hm)
  simpa using (List.subperm_of_subset hI.nodup hsub).length_le

/-- The loop ends: every pass but the last takes a member. -/
theorem extractLoop_isSome {fuel : Nat} {e : Extraction}
    (hI : Extracting labelCapacity objects members entry e)
    (h : members.length - e.taken.length < fuel) :
    ∃ r, ∀ fuel', fuel ≤ fuel' →
      extractLoop labelCapacity objects members entry fuel' e = some r := by
  induction fuel generalizing e with
  | zero => omega
  | succ fuel ih =>
      cases hp : extractPass labelCapacity objects members entry e with
      | error message =>
          refine ⟨.error message, fun fuel' hle ↦ ?_⟩
          obtain ⟨fuel', rfl⟩ := Nat.exists_eq_add_of_le' (show 1 ≤ fuel' by omega)
          rw [extractLoop, hp]
      | ok next =>
          obtain ⟨e₁, changed⟩ := next
          obtain ⟨hI₁, -, hgrow⟩ := extractPass_spec hI hp
          cases changed with
          | false =>
              refine ⟨.ok e₁, fun fuel' hle ↦ ?_⟩
              obtain ⟨fuel', rfl⟩ := Nat.exists_eq_add_of_le' (show 1 ≤ fuel' by omega)
              rw [extractLoop, hp]
              rfl
          | true =>
              have hlt := hgrow rfl
              have hle := hI₁.length_le
              obtain ⟨r, hr⟩ := ih hI₁ (by omega)
              refine ⟨r, fun fuel' hle' ↦ ?_⟩
              obtain ⟨fuel', rfl⟩ := Nat.exists_eq_add_of_le' (show 1 ≤ fuel' by omega)
              rw [extractLoop, hp]
              exact hr fuel' (by omega)

/-- Nothing is taken before the loop. -/
theorem extracting_start (ho : objects ≠ [])
    (h : objectRequirements labelCapacity objects entry = .ok required) :
    Extracting labelCapacity objects members entry ⟨required, []⟩ where
  tracks := by simpa using objectRequirements_tracks ho h
  justified := .nil
  lt m hm := absurd hm List.not_mem_nil
  nodup := List.nodup_nil

end Loop

/-! ## The selection -/

section Selected

variable {labelCapacity objects members entry} {archives : List Text}

theorem length_archiveMembersFrom {capacity fuel : Nat} {rest : Text}
    (h : archiveMembersFrom capacity fuel rest = some members) : members.length ≤ capacity := by
  induction fuel generalizing capacity rest members with
  | zero =>
      rw [archiveMembersFrom] at h
      split at h <;> cases h
      exact Nat.zero_le _
  | succ fuel ih =>
      cases rest with
      | nil =>
          cases h
          exact Nat.zero_le _
      | cons c rest =>
          rw [archiveMembersFrom] at h
          split at h
          · cases h
          split at h
          · exact ih h
          split at h
          · cases h
          case h_2.isFalse.isFalse hc =>
            obtain ⟨after, ha, rfl⟩ := Option.map_eq_some_iff.mp h
            have := ih ha
            rw [List.length_cons]
            omega

/-- All archives together have no more members than one link may take. -/
theorem length_allMembers (h : allMembers archives = some members) :
    members.length ≤ maxArchiveMembers := by
  have hfold : ∀ (archives before members : List Text), before.length ≤ maxArchiveMembers →
      archives.foldlM (fun members archive ↦ do
        let added ← archiveMembers (maxArchiveMembers - members.length) archive
        some (members ++ added)) before = some members → members.length ≤ maxArchiveMembers := by
    intro archives
    induction archives with
    | nil =>
        rintro before members hle h
        cases h
        exact hle
    | cons archive archives ih =>
        intro before members hle h
        rw [List.foldlM_cons] at h
        obtain ⟨now, hn, h⟩ := Option.bind_eq_some_iff.mp h
        obtain ⟨added, ha, he⟩ := Option.bind_eq_some_iff.mp hn
        cases he
        refine ih _ members ?_ h
        unfold archiveMembers at ha
        split at ha
        · have := length_archiveMembersFrom ha
          rw [List.length_append]
          omega
        · nomatch ha
  exact hfold archives [] members (Nat.zero_le _) h

/-- The selected members of a link that succeeds. -/
theorem linkArchives_eq_ok {fuel : Nat} {s : Selected}
    (h : linkArchives labelCapacity objects entry archives fuel = some (.ok s)) :
    ∃ required, Extracting labelCapacity objects s.members entry ⟨required, s.taken⟩ ∧
      ∀ m < s.members.length, m ∉ s.taken →
        Unneeded labelCapacity objects s.members entry ⟨required, s.taken⟩ m := by
  unfold linkArchives at h
  split at h
  · nomatch h
  case isFalse hinput =>
    split at h
    · nomatch h
    split at h
    · nomatch h
    split at h
    · nomatch h
    case h_2 required hreq =>
      obtain ⟨r, hr, he⟩ := Option.map_eq_some_iff.mp h
      cases r with
      | error message => nomatch he
      | ok e =>
          cases he
          obtain ⟨hI, hun⟩ := extractLoop_spec
            (extracting_start (fun ho ↦ hinput (.inl ho)) hreq) hr
          exact ⟨e.required, hI, hun⟩

/-- The extraction comes to an end. -/
theorem linkArchives_isSome (labelCapacity : Nat) (objects : List Text) (entry : Text)
    (archives : List Text) : ∃ r, ∀ fuel, maxArchiveMembers < fuel →
      linkArchives labelCapacity objects entry archives fuel = some r := by
  unfold linkArchives
  split
  · exact ⟨_, fun _ _ ↦ rfl⟩
  case isFalse hinput =>
    split
    · exact ⟨_, fun _ _ ↦ rfl⟩
    case h_2 members hm =>
      split
      · exact ⟨_, fun _ _ ↦ rfl⟩
      split
      · exact ⟨_, fun _ _ ↦ rfl⟩
      case h_2 required hreq =>
        have hle := length_allMembers hm
        obtain ⟨r, hr⟩ := extractLoop_isSome
          (extracting_start (fun ho ↦ hinput (.inl ho)) hreq)
          (Nat.lt_succ_of_le (Nat.sub_le members.length 0))
        refine ⟨r.map fun e ↦ ⟨members, e.taken⟩, fun fuel hf ↦ ?_⟩
        rw [hr fuel (by omega)]
        rfl

theorem extracted_subset {required : ObjectNames} {s : Selected}
    (hI : Extracting labelCapacity objects s.members entry ⟨required, s.taken⟩) :
    s.extracted ⊆ s.members := by
  intro unit hu
  obtain ⟨m, hm, rfl⟩ := List.mem_map.mp hu
  have hlt := hI.lt m hm
  rw [List.getD_eq_getElem?_getD, List.getElem?_eq_getElem hlt, Option.getD_some]
  exact List.getElem_mem hlt

/-- When no member is needed, none of the texts that were left out is. -/
theorem closed_of_unneeded {required : ObjectNames} {s : Selected}
    (hun : ∀ m < s.members.length, m ∉ s.taken →
      Unneeded labelCapacity objects s.members entry ⟨required, s.taken⟩ m) :
    Closed (Defines labelCapacity) (References labelCapacity) (· = entry)
      (EntryDefined labelCapacity objects entry) s.members objects s.extracted := by
  intro unit hu hnot name hd
  obtain ⟨m, hm, rfl⟩ := List.getElem_of_mem hu
  have hget : s.members.getD m [] = s.members[m] := by
    rw [List.getD_eq_getElem?_getD, List.getElem?_eq_getElem hm, Option.getD_some]
  refine hun m hm (fun htaken ↦ hnot ?_) name (by rwa [hget])
  rw [← hget]
  exact List.mem_map_of_mem htaken

end Selected

/-- Every name that was needed during the selection is defined by one member at most. -/
def OneDefinition (labelCapacity : Nat) (objects : List Text) (entry : Text) (s : Selected) :
    Prop :=
  Unambiguous (Defines labelCapacity) (References labelCapacity) (· = entry)
    (EntryDefined labelCapacity objects entry) s.members objects s.extracted

end CopySpace.Link
