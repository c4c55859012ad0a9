import CopySpace.Link.Emits
import CopySpace.Emit.Effect

/-!
# Copies, lookups and sums

The pieces of the operators that are in one layer: a copy, a lookup of a bit by other bits, and an
operation on words.
-/

namespace CopySpace.Link

open Emit BitMachine

variable {cfg : Config} {ctx ctx' ctx₁ ctx₂ : Context} {F : Linked}
  {m m' D D' : Bits} {R R' : Bits → Bits → Prop} {rows : List Instruction} {n d s : Nat}

/-! ## Room -/

theorem Context.onProgram_eq_some {r : Int × CopyProgram} (h : ctx.onProgram r = some ctx') :
    ∃ program, r = (0, program) ∧ ctx' = { ctx with program := program } := by
  unfold Context.onProgram at h
  split at h
  · next h0 => exact ⟨r.2, Prod.ext h0 rfl, (Option.some.inj h).symm⟩
  · cases h

/-- A new layer may be begun first. -/
theorem emits_room (hs : ctx.Sound cfg) {program : CopyProgram}
    (hq : program = ctx.program ∨ csCopyProgramNext ctx.program = (0, program))
    (h : Context.Sound cfg { ctx with program := program } →
      Emits cfg { ctx with program := program } R ctx') : Emits cfg ctx R ctx' := by
  obtain rfl | hq := hq
  · exact h hs
  · have hnext : ctx.next = some { ctx with program := program } := by
      rw [Context.next, Context.onProgram, hq]
      rfl
    have hs' := (step_next hs hnext).1
    refine ((emits_next hs hnext).trans hs (h hs')).imp fun F hF D D' _ _ hR ↦ ?_
    obtain ⟨D₁, rfl, hR⟩ := hR
    exact hR

theorem Context.fitSlots_eq_some {limit : Nat} (h : ctx.fitSlots limit = some ctx') :
    ctx' = ctx ∧ ctx.program.image.slot ≤ limit ∨ ctx.next = some ctx' := by
  unfold Context.fitSlots at h
  split at h
  · exact .inr h
  · next hle => exact .inl ⟨(Option.some.inj h).symm, Nat.not_lt.mp hle⟩

theorem spot_slot (hs : ctx.Sound cfg) (h : ctx.next = some ctx') :
    ctx'.program.image.slot = 3 := congrArg Spot.slot (spot_next hs h)

/-- Room for rows that belong together. -/
theorem emits_room_of_fitSlots (hs : ctx.Sound cfg) {limit : Nat} (hlimit : 3 ≤ limit)
    (h : ctx.fitSlots limit = some ctx') :
    Emits cfg ctx (fun D D' ↦ D' = D) ctx' ∧ ctx'.program.image.slot ≤ limit := by
  obtain ⟨rfl, hle⟩ | hnext := Context.fitSlots_eq_some h
  · exact ⟨.refl hs, hle⟩
  · exact ⟨emits_next hs hnext, (spot_slot hs hnext).trans_le hlimit⟩

/-- Rows that belong together. -/
theorem emits_fitSlots (hs : ctx.Sound cfg) {limit : Nat} (hlimit : 3 ≤ limit)
    (h : ctx.fitSlots limit = some ctx₁)
    (h' : ctx₁.Sound cfg → ctx₁.program.image.slot ≤ limit → Emits cfg ctx₁ R ctx') :
    Emits cfg ctx R ctx' := by
  obtain ⟨hroom, hslot⟩ := emits_room_of_fitSlots hs hlimit h
  refine (hroom.trans hs (h' hroom.sound hslot)).imp fun F hF D D' _ _ hR ↦ ?_
  obtain ⟨D₁, rfl, hR⟩ := hR
  exact hR

/-- Rows that are emitted one after the other where there is room for them. -/
def Context.emitRows (rows : List Instruction) (ctx : Context) : Option Context :=
  rows.foldlM (fun ctx row ↦ ctx.emit row.n row.dst row.src) ctx

theorem Context.emit_of_slot (hs : ctx.Sound cfg) (hslot : ctx.program.image.slot < 255)
    (h : ctx.emit n d s = some ctx') :
    Instruction.Valid cfg ⟨n, d, s⟩ ∧ ctx' = ctx.append cfg id [⟨n, d, s⟩] := by
  obtain ⟨program, hr, rfl⟩ := Context.onProgram_eq_some h
  unfold csCopyProgramEmit at hr
  split at hr
  · cases hr
  · next hv =>
      have hfor := hs.laid.toFor.image
      have hvalid : Instruction.Valid cfg ⟨n, d, s⟩ :=
        (rowValid_iff hfor (by decide)).mp (not_not.mp hv)
      refine ⟨hvalid, ?_⟩
      have hroom : room ctx.program 1 = (0, ctx.program) := by
        rw [room, if_neg (by decide), if_pos (by omega)]
      rw [afterRoom, hroom, csCopyEmit_eq hfor hslot hvalid] at hr
      rw [← (Prod.mk.inj hr).2]
      rfl

theorem Context.emitRows_eq_some (hs : ctx.Sound cfg)
    (hslot : ctx.program.image.slot + rows.length ≤ 255) (h : ctx.emitRows rows = some ctx') :
    (∀ row ∈ rows, row.Valid cfg) ∧ ctx' = ctx.append cfg id rows := by
  induction rows generalizing ctx with
  | nil => exact ⟨fun _ h ↦ absurd h List.not_mem_nil, (Option.some.inj h).symm⟩
  | cons row rows ih =>
      rw [List.length_cons] at hslot
      rw [Context.emitRows, List.foldlM_cons] at h
      obtain ⟨ctx₁, h₁, h⟩ := Option.bind_eq_some_iff.mp h
      obtain ⟨hrow, rfl⟩ := Context.emit_of_slot hs (by omega) h₁
      have hs₁ : (ctx.append cfg id [row]).Sound cfg := (step_append hs (by
        rw [List.length_singleton]
        omega) (fun _ _ _ ↦ rfl) (.of_eq ctx.codeBegin_ge fun _ _ ↦ rfl)).1
      obtain ⟨hrows, rfl⟩ := ih hs₁ (by
        change ctx.program.image.slot + 1 + rows.length ≤ 255
        omega) h
      refine ⟨List.forall_mem_cons.mpr ⟨hrow, hrows⟩, ?_⟩
      exact congrArg (fun program ↦ ({ ctx with program := program } : Context))
        (CopyProgram.append_append [row] rows)

/-- Rows that are emitted where there is room for them do what they perform. -/
theorem emits_emitRows (hs : ctx.Sound cfg) (hslot : ctx.program.image.slot + rows.length ≤ 255)
    (h : ctx.emitRows rows = some ctx') {E : Bits → Bits}
    (hperform : ∀ D, Performs cfg ctx.program.image.slot rows D (E D))
    (hkept : ∀ F : Linked, F.Final cfg ctx' → ∀ D p, F.Kept p → E D p = D p) :
    Emits cfg ctx (fun D D' ↦ D' = E D) ctx' := by
  obtain ⟨hv, rfl⟩ := Context.emitRows_eq_some hs hslot h
  exact emits_append hs hv hslot (fun _ _ _ ↦ rfl) (.of_eq ctx.codeBegin_ge fun _ _ ↦ rfl)
    hperform hkept

/-! ## Copies -/

theorem emits_emit (hs : ctx.Sound cfg) (h : ctx.emit n d s = some ctx')
    (hd : Behind cfg d n) (hsrc : Behind cfg s n)
    (hkept : ∀ F : Linked, F.Final cfg ctx' → ∀ p, d ≤ p → p < d + n → ¬ F.Kept p) :
    Emits cfg ctx (fun D D' ↦ D' = D.blit n d s) ctx' := by
  obtain ⟨program', hr, rfl⟩ := Context.onProgram_eq_some h
  obtain ⟨program, hq, hslot, hvalid, rfl⟩ := hs.laid.emit hs.target hr
  refine emits_room hs (hq.imp (fun h ↦ h.1) id) fun hs' ↦ ?_
  refine emits_append hs' (List.forall_mem_singleton.mpr hvalid) (by
    rw [List.length_singleton]
    dsimp only
    omega) (fun _ _ _ ↦ rfl) (.of_eq ctx.codeBegin_ge fun _ _ ↦ rfl)
    (fun D ↦ .copy hs'.laid.three_le (fun _ ↦ hd) (fun _ ↦ hsrc) performs_nil) fun F hF D p hp ↦ ?_
  exact Bits.blit_of_notMem _ fun hmem ↦ hkept F hF p hmem.1 hmem.2 hp

/-- A copy to cells of the operators. -/
theorem emits_copy (hs : ctx.Sound cfg) (h : ctx.emit n d s = some ctx') (hd : Scratch d n)
    (hsrc : Behind cfg s n) : Emits cfg ctx (fun D D' ↦ D' = D.blit n d s) ctx' :=
  emits_emit hs h (hd.behind hs) hsrc fun _ _ _ hp hp' ↦ hd.not_kept hp hp'

/-! ## Lookups -/

section Lookup

variable {destination table a b c i : Nat}

/-- The rows of a lookup by two bits. -/
def lookupRows (cfg : Config) (destination table a b i : Nat) : List Instruction :=
  [⟨1, cfg.srcBit (i + 2) 0, a⟩, ⟨1, cfg.srcBit (i + 2) 1, b⟩, ⟨1, destination, table⟩]

/-- The rows of a lookup by three bits. -/
def lookupRows₃ (cfg : Config) (destination table a b c i : Nat) : List Instruction :=
  [⟨1, cfg.srcBit (i + 3) 0, a⟩, ⟨1, cfg.srcBit (i + 3) 1, b⟩, ⟨1, cfg.srcBit (i + 3) 2, c⟩,
    ⟨1, destination, table⟩]

theorem performs_lookupRows (hi : 3 ≤ i) (h5 : 5 ≤ cfg.addressSize) (htable : table % 4 = 0)
    (hd : Behind cfg destination 1) (ha : Behind cfg a 1) (hb : Behind cfg b 1)
    (ht : Behind cfg table 4) : Performs cfg i (lookupRows cfg destination table a b i) D
      (Function.update D destination (D (table + (D a).toNat + 2 * (D b).toNat))) := by
  have h₁ := Bits.field_lt D a 1
  have h₂ := Bits.field_lt D b 1
  have hsrc₁ : Bits.splice 0 1 (D.field a 1) table = table + D.field a 1 := by
    rw [Bits.splice_of_zero h₁ (by omega), Nat.pow_zero, Nat.one_mul]
  have hsrc₂ : Bits.splice 1 1 (D.field b 1) (table + D.field a 1) =
      table + D.field a 1 + 2 * D.field b 1 := Bits.splice_of_zero h₂ (by omega)
  have hupdate : Function.update D destination (D (table + (D a).toNat + 2 * (D b).toNat)) =
      D.blit 1 destination (table + D.field a 1 + 2 * D.field b 1) := by
    funext p
    rw [blit_one, Bits.field_one, Bits.field_one, Function.update_apply]
  rw [hupdate]
  unfold Behind at ht
  refine .patchSrc (k := 1) hi one_ne_zero (by omega) (by simp) ha ?_
  simp only [List.modify_succ_cons, List.modify_zero_cons, Instruction.patchSrc, hsrc₁]
  refine .patchSrc (k := 0) (by omega) one_ne_zero (by omega) (by simp) hb ?_
  simp only [List.modify_zero_cons, Instruction.patchSrc, hsrc₂]
  exact .copy (by omega) (fun _ ↦ hd) (fun _ ↦ ⟨by omega, by omega⟩) performs_nil

theorem performs_lookupRows₃ (hi : 3 ≤ i) (h5 : 5 ≤ cfg.addressSize) (htable : table % 8 = 0)
    (hd : Behind cfg destination 1) (ha : Behind cfg a 1) (hb : Behind cfg b 1)
    (hc : Behind cfg c 1) (ht : Behind cfg table 8) :
    Performs cfg i (lookupRows₃ cfg destination table a b c i) D
      (Function.update D destination
        (D (table + (D a).toNat + 2 * (D b).toNat + 4 * (D c).toNat))) := by
  have h₁ := Bits.field_lt D a 1
  have h₂ := Bits.field_lt D b 1
  have h₃ := Bits.field_lt D c 1
  have hsrc₁ : Bits.splice 0 1 (D.field a 1) table = table + D.field a 1 := by
    rw [Bits.splice_of_zero h₁ (by omega), Nat.pow_zero, Nat.one_mul]
  have hsrc₂ : Bits.splice 1 1 (D.field b 1) (table + D.field a 1) =
      table + D.field a 1 + 2 * D.field b 1 := Bits.splice_of_zero h₂ (by omega)
  have hsrc₃ : Bits.splice 2 1 (D.field c 1) (table + D.field a 1 + 2 * D.field b 1) =
      table + D.field a 1 + 2 * D.field b 1 + 4 * D.field c 1 :=
    Bits.splice_of_zero h₃ (by omega)
  have hupdate : Function.update D destination
      (D (table + (D a).toNat + 2 * (D b).toNat + 4 * (D c).toNat)) =
      D.blit 1 destination (table + D.field a 1 + 2 * D.field b 1 + 4 * D.field c 1) := by
    funext p
    rw [blit_one, Bits.field_one, Bits.field_one, Bits.field_one, Function.update_apply]
  rw [hupdate]
  unfold Behind at ht
  refine .patchSrc (k := 2) hi one_ne_zero (by omega) (by simp) ha ?_
  simp only [List.modify_succ_cons, List.modify_zero_cons, Instruction.patchSrc, hsrc₁]
  refine .patchSrc (k := 1) (by omega) one_ne_zero (by omega) (by simp) hb ?_
  simp only [List.modify_succ_cons, List.modify_zero_cons, Instruction.patchSrc, hsrc₂]
  refine .patchSrc (k := 0) (by omega) one_ne_zero (by omega) (by simp) hc ?_
  simp only [List.modify_zero_cons, Instruction.patchSrc, hsrc₃]
  exact .copy (by omega) (fun _ ↦ hd) (fun _ ↦ ⟨by omega, by omega⟩) performs_nil

/-- What a table of a bit operation holds. -/
def bitOf : BitOperation → Bool → Bool → Bool
  | .and => Bool.and
  | .or => Bool.or
  | .xor => Bool.xor

theorem Linked.Runs.bitTable (hF : F.Final cfg ctx) (hD : F.Runs D) (operation : BitOperation)
    (x y : Bool) :
    D (Context.bitTable operation + x.toNat + 2 * y.toNat) = bitOf operation x y := by
  have hi : x.toNat + 2 * y.toNat < 4 := by cases x <;> cases y <;> decide
  have htable : addTable ≤ Context.bitTable operation ∧
      Context.bitTable operation + 4 ≤ temporary := by cases operation <;> decide
  rw [Nat.add_assoc, hD _ (.inr (.inl ⟨by omega, by omega⟩)), hF.tables.bit operation _ hi]
  cases operation <;> cases x <;> cases y <;> decide

theorem Linked.Runs.eqTable (hF : F.Final cfg ctx) (hD : F.Runs D) (x y z : Bool) :
    D (eqTable + x.toNat + 2 * y.toNat + 4 * z.toNat) = ((x == y) && z) := by
  have hi : x.toNat + 2 * y.toNat + 4 * z.toNat < 8 := by cases x <;> cases y <;> cases z <;> decide
  rw [Nat.add_assoc, Nat.add_assoc, ← Nat.add_assoc x.toNat,
    hD _ (.inr (.inr (.inr (.inl ⟨by omega, by omega⟩)))), hF.tables.eq _ hi]
  cases x <;> cases y <;> cases z <;> decide

theorem Linked.Runs.ltTable (hF : F.Final cfg ctx) (hD : F.Runs D) (x y z : Bool) :
    D (ltTable + x.toNat + 2 * y.toNat + 4 * z.toNat) = if x = y then z else y := by
  have hi : x.toNat + 2 * y.toNat + 4 * z.toNat < 8 := by cases x <;> cases y <;> cases z <;> decide
  have htable : Link.ltTable = Link.eqTable + 8 := rfl
  rw [Nat.add_assoc, Nat.add_assoc, ← Nat.add_assoc x.toNat,
    hD _ (.inr (.inr (.inr (.inl ⟨by omega, by omega⟩)))), hF.tables.lt _ hi]
  cases x <;> cases y <;> cases z <;> decide

theorem Context.sourceField_eq (hs : ctx.Sound cfg) (ahead : Nat) :
    ctx.sourceField ahead = cfg.srcBit (ctx.program.image.slot + ahead) 0 :=
  srcBit_eq hs.laid.toFor.image _ 0

/-- A lookup by two bits. -/
theorem emits_lookup (operation : BitOperation) (hs : ctx.Sound cfg)
    (h : ctx.lookup destination (Context.bitTable operation) a b c 2 = some ctx')
    (hd : Scratch destination 1) (ha : Behind cfg a 1) (hb : Behind cfg b 1) :
    Emits cfg ctx
      (fun D D' ↦ D' = Function.update D destination (bitOf operation (D a) (D b))) ctx' := by
  unfold Context.lookup at h
  obtain ⟨ctx₁, hfit, h⟩ := Option.bind_eq_some_iff.mp h
  refine emits_fitSlots hs (by decide) hfit fun hs₁ hslot ↦ ?_
  have hrows : ctx₁.emitRows (lookupRows cfg destination (Context.bitTable operation) a b
      ctx₁.program.image.slot) = some ctx' := by
    rw [← h]
    simp only [Context.emitRows, lookupRows, List.foldlM_cons, List.foldlM_nil, bind_pure,
      Context.sourceField_eq hs₁]
    rfl
  have h5 := hs.target.five_le
  have htable : Context.bitTable operation % 4 = 0 := by cases operation <;> rfl
  refine (emits_emitRows hs₁ (by change _ + 3 ≤ 255; omega) hrows (fun D ↦ performs_lookupRows
    hs₁.laid.three_le h5 htable (hd.behind hs) ha hb (hs.behind ?_ ?_)) fun F hF D p hp ↦ ?_).imp ?_
  · cases operation <;> decide
  · cases operation <;> decide
  · rw [Function.update_of_ne]
    rintro rfl
    exact hd.not_kept le_rfl (Nat.lt_succ_self _) hp
  · rintro F hF D D' hD - rfl
    rw [hD.bitTable hF]

/-- A lookup by three bits. -/
theorem emits_lookup₃ (hs : ctx.Sound cfg) (h : ctx.lookup destination table a b c 3 = some ctx')
    (hd : Scratch destination 1) (ha : Behind cfg a 1) (hb : Behind cfg b 1) (hc : Behind cfg c 1)
    (htable : table % 8 = 0) (ht : Behind cfg table 8) {v : Bool → Bool → Bool → Bool}
    (hv : ∀ F : Linked, F.Final cfg ctx' → ∀ D, F.Runs D → ∀ x y z : Bool,
      D (table + x.toNat + 2 * y.toNat + 4 * z.toNat) = v x y z) :
    Emits cfg ctx
      (fun D D' ↦ D' = Function.update D destination (v (D a) (D b) (D c))) ctx' := by
  unfold Context.lookup at h
  obtain ⟨ctx₁, hfit, h⟩ := Option.bind_eq_some_iff.mp h
  refine emits_fitSlots hs (by decide) hfit fun hs₁ hslot ↦ ?_
  have hrows : ctx₁.emitRows (lookupRows₃ cfg destination table a b c
      ctx₁.program.image.slot) = some ctx' := by
    rw [← h]
    simp only [Context.emitRows, lookupRows₃, List.foldlM_cons, List.foldlM_nil, bind_pure,
      Context.sourceField_eq hs₁]
    rfl
  have h5 := hs.target.five_le
  refine (emits_emitRows hs₁ (by change _ + 4 ≤ 255; omega) hrows (fun D ↦ performs_lookupRows₃
    hs₁.laid.three_le h5 htable (hd.behind hs) ha hb hc ht) fun F hF D p hp ↦ ?_).imp ?_
  · rw [Function.update_of_ne]
    rintro rfl
    exact hd.not_kept le_rfl (Nat.lt_succ_self _) hp
  · rintro F hF D D' hD - rfl
    rw [hv F hF D hD]

/-- The lookup of a comparison for equality. -/
theorem emits_lookupEq (hs : ctx.Sound cfg)
    (h : ctx.lookup destination eqTable a b c 3 = some ctx') (hd : Scratch destination 1)
    (ha : Behind cfg a 1) (hb : Behind cfg b 1) (hc : Behind cfg c 1) :
    Emits cfg ctx
      (fun D D' ↦ D' = Function.update D destination ((D a == D b) && D c)) ctx' :=
  emits_lookup₃ hs h hd ha hb hc rfl (hs.behind (by decide) (by decide))
    fun _ hF _ hD ↦ hD.eqTable hF

/-- The lookup of a comparison for the order. -/
theorem emits_lookupLt (hs : ctx.Sound cfg)
    (h : ctx.lookup destination ltTable a b c 3 = some ctx') (hd : Scratch destination 1)
    (ha : Behind cfg a 1) (hb : Behind cfg b 1) (hc : Behind cfg c 1) :
    Emits cfg ctx
      (fun D D' ↦ D' = Function.update D destination (if D a = D b then D c else D b)) ctx' :=
  emits_lookup₃ hs h hd ha hb hc rfl (hs.behind (by decide) (by decide))
    fun _ hF _ hD ↦ hD.ltTable hF

end Lookup

/-! ## Words -/

section Word

variable {call : Call} {subtract : Bool} {l r : Nat}

/-- A call on the program, for which the tables are there when the image is finished. -/
theorem emits_call (hs : ctx.Sound cfg) {program : CopyProgram}
    (h : call.Succeeds cfg ctx.capacities.codeBegin ctx.program.codeLimit ctx.program program)
    (htables : ∀ m p, ¬(addTable ≤ p ∧ p ≤ carry) → call.tables m p = m p)
    (hcells : ∀ m, Tables m → Tables (call.tables m))
    (harithmetic : ∀ m s, HasArithmetic s m → HasArithmetic s (call.tables m))
    (hset : ∀ F : Linked, F.Final cfg { ctx with program := program } → ∀ D, F.Runs D →
      call.TableSet D) (hkept : ∀ F : Linked, ∀ p, call.Writes p → ¬ F.Kept p) :
    Emits cfg ctx (fun D D' ↦ D' = call.effect D) { ctx with program := program } := by
  obtain ⟨q, hq, hslot, hv, rfl⟩ := hs.laid.call hs.target h
  have hcode := ctx.codeBegin_ge
  refine (emits_room hs hq fun hs' ↦ emits_append
    (f := call.tables) (E := call.lookup) hs' hv hslot (fun m p hp ↦ htables m p ?_)
    ⟨hcells _, harithmetic _, fun p _ hp ↦ htables _ p (by omega)⟩
    (fun D ↦ Call.performs_rows hs.target h.placed hs'.laid.three_le)
    fun F _ D p hp ↦ Call.lookup_of_not_writes fun hw ↦ hkept F p hw hp).imp ?_
  · dsimp only [carry, branchTable] at *
    omega
  · rintro F hF D D' hD - rfl
    exact Call.lookup_eq_effect h.apart (hset F hF D hD)

theorem arithmeticTables_of_notMem {table carry p : Nat} (hp : ¬(table ≤ p ∧ p < table + 16))
    (hc : p ≠ carry) : arithmeticTables subtract table carry m p = m p := by
  have hcall : ¬(Call.arithmetic32 subtract (p + 1) 0 0 table (p + 1) carry).Writes p := by
    rintro ⟨w, hw, h₁, h₂⟩
    simp only [Call.writes, List.mem_cons, List.not_mem_nil, or_false] at hw
    rcases hw with rfl | rfl | rfl <;> dsimp only at h₁ h₂ <;> omega
  exact Call.tables_of_not_writes hcall hp

theorem arithmeticTable_bounds (subtract : Bool) : addTable ≤ arithmeticTable subtract ∧
    arithmeticTable subtract + 16 ≤ andTable := by cases subtract <;> decide

theorem tables_arithmetic
    (ha : (Call.arithmetic32 subtract d l r (arithmeticTable subtract) temporary carry).Apart) :
    HasArithmetic subtract ((Call.arithmetic32 subtract d l r (arithmeticTable subtract) temporary
      carry).tables m) := fun _ hi ↦
  (Call.tables_of_inTable ha ⟨Nat.le_add_right _ _, Nat.add_lt_add_left hi _⟩).trans
    (congrArg _ (Nat.add_sub_cancel_left _ _))

/-- A sum or a difference: the word, and what else is changed. -/
structure Sums (subtract : Bool) (d l r : Nat) (D D' : Bits) : Prop where
  result : word D' d = rippleResult subtract (word D l) (word D r)
  rest : ∀ p, ¬(d ≤ p ∧ p < d + 32) → ¬(temporary ≤ p ∧ p ≤ carry) → D' p = D p

theorem Call.sums_effect {table : Nat}
    (ha : (Call.arithmetic32 subtract d l r table temporary carry).Apart) :
    Sums subtract d l r D
      ((Call.arithmetic32 subtract d l r table temporary carry).effect D) := by
  obtain ⟨hsep, -⟩ := ha
  obtain ⟨-, htemporary, hcarry⟩ := hsep d (by simp)
  unfold Separate at htemporary hcarry
  refine ⟨Bits.toBitVec_eq fun i hi ↦ ?_, fun p hp hp' ↦ ?_⟩
  · dsimp only [Call.effect]
    rw [Bits.putField_of_notMem _ (by omega), Bits.putField_of_notMem _ (by omega),
      Bits.putField_of_mem _ (by omega), Nat.add_sub_cancel_left]
    rfl
  · dsimp only [Call.effect, carry, temporary] at *
    rw [Bits.putField_of_notMem _ (by omega), Bits.putField_of_notMem _ (by omega),
      Bits.putField_of_notMem _ (by omega)]

/-- The table of an addition or a subtraction is in the program when it has been emitted. -/
theorem hasArithmetic_of_succeeds (hs : ctx.Sound cfg) {program : CopyProgram}
    (h : (Call.arithmetic32 subtract d l r (arithmeticTable subtract) temporary carry).Succeeds cfg
      ctx.capacities.codeBegin ctx.program.codeLimit ctx.program program) :
    HasArithmetic subtract program.image.data := by
  obtain ⟨q, hq, hslot, hv, rfl⟩ := hs.laid.call hs.target h
  have hcode := ctx.codeBegin_ge
  have hlo : ctx.capacities.codeBegin ≤ q.image.layer := by
    obtain rfl | hnext := hq
    · exact hs.laid.lo_le
    · exact (hs.laid.next hs.target hnext).1.lo_le
  have hbounds := arithmeticTable_bounds subtract
  intro i hi
  rw [CopyProgram.data_append_of_notMem (by
    dsimp only [andTable, branchTable] at *
    omega)]
  exact tables_arithmetic h.apart i hi

theorem emits_arithmetic (hs : ctx.Sound cfg)
    (h : ctx.onProgram ((Call.arithmetic32 subtract d l r (arithmeticTable subtract) temporary
      carry).run ctx.program) = some ctx') (hd : Scratch d 32) :
    Emits cfg ctx (Sums subtract d l r) ctx' := by
  obtain ⟨program, hr, rfl⟩ := Context.onProgram_eq_some h
  have hbounds := arithmeticTable_bounds subtract
  have hsucceeds : (Call.arithmetic32 subtract d l r (arithmeticTable subtract) temporary
      carry).Succeeds cfg ctx.capacities.codeBegin ctx.program.codeLimit ctx.program program :=
    Call.succeeds hs.target hs.laid.toFor trivial hr
  have hrest : ∀ (m : Bits) p, ¬(arithmeticTable subtract ≤ p ∧ p < arithmeticTable subtract + 16) →
      p ≠ carry → (Call.arithmetic32 subtract d l r (arithmeticTable subtract) temporary
        carry).tables m p = m p := fun m p hp hc ↦ arithmeticTables_of_notMem hp hc
  refine (emits_call hs hsucceeds (fun m p hp ↦ hrest m p ?_ ?_) (fun m hm ↦ hm.congr fun p hp ↦
    hrest m p ?_ ?_) (fun m s hm ↦ ?_) (fun F hF D hD i hi ↦ ?_) fun F p hw ↦ ?_).imp ?_
  · dsimp only [addTable, andTable, carry] at *
    omega
  · rintro rfl
    exact hp ⟨by decide, le_rfl⟩
  · dsimp only [InTables, andTable, temporary, shiftZero, eqTable] at *
    omega
  · rintro rfl
    dsimp only [InTables, andTable, temporary, shiftZero, eqTable, carry] at hp
    omega
  · by_cases hsub : s = subtract
    · subst hsub
      exact tables_arithmetic hsucceeds.apart
    · intro i hi
      rw [hrest]
      · exact hm i hi
      · revert hsub
        cases s <;> cases subtract <;> dsimp only [arithmeticTable] <;> simp <;>
          dsimp only [addTable, subTable] <;> omega
      · have := arithmeticTable_bounds s
        dsimp only [andTable, carry] at *
        omega
  · have hdata := hF.arithmetic subtract (hasArithmetic_of_succeeds hs hsucceeds) i hi
    refine Eq.trans (hD _ (.inr (.inl ⟨?_, ?_⟩))) hdata
    · exact hbounds.1.trans (Nat.le_add_right _ _)
    · have hi : i < 16 := hi
      dsimp only [andTable, temporary, Call.table] at hbounds ⊢
      omega
  · obtain ⟨w, hw, h₁, h₂⟩ := hw
    simp only [Call.writes, List.mem_cons, List.not_mem_nil, or_false] at hw
    rcases hw with rfl | rfl | rfl
    · exact hd.not_kept h₁ h₂
    · exact Scratch.not_kept (a := temporary) (n := 2) (by decide) h₁ h₂
    · exact Scratch.not_kept (a := carry) (n := 1) (by decide) h₁ h₂
  · rintro F - D D' - - rfl
    exact Call.sums_effect hsucceeds.apart

theorem emits_add32 (hs : ctx.Sound cfg) (h : ctx.add32 d l r = some ctx') (hd : Scratch d 32) :
    Emits cfg ctx (Sums false d l r) ctx' := emits_arithmetic hs h hd

theorem emits_sub32 (hs : ctx.Sound cfg) (h : ctx.sub32 d l r = some ctx') (hd : Scratch d 32) :
    Emits cfg ctx (Sums true d l r) ctx' := emits_arithmetic hs h hd

end Word

end CopySpace.Link
