import CopySpace.Rv32i.Execute
import Mathlib.Data.List.Forall2

/-!
# Tables and gates

A lookup copies bits into the index of a table and reads the entry; a gate is a lookup of one
bit.  `Image.Good` says of an image under construction that its constants and tables are among
its data, and under which key which table is found.
-/

namespace CopySpace.Rv32i

variable {κ : Type} (labels : String → Nat) {I I₁ : Image κ} {m : Bits}

/-- The number whose bits stand at the positions `indices`. -/
def index (m : Bits) : List Nat → Nat
  | [] => 0
  | p :: ps => (m p).toNat + 2 * index m ps

theorem index_lt (m : Bits) (ps : List Nat) : index m ps < 2 ^ ps.length := by
  induction ps with
  | nil => exact Nat.one_pos
  | cons p ps ih =>
      have := Bool.toNat_lt (m p)
      rw [index, List.length_cons, Nat.pow_succ]
      omega

theorem index_bit (m : Bits) (ps : List Nat) {j : Nat} (hj : j < ps.length) :
    (index m ps >>> j) &&& 1 = (m ps[j]).toNat := by
  induction ps generalizing j with
  | nil => nomatch hj
  | cons p ps ih =>
      have hp := Bool.toNat_lt (m p)
      cases j with
      | zero =>
          rw [index, Nat.shiftRight_zero, Nat.and_one_is_mod, List.getElem_cons_zero]
          omega
      | succ j =>
          rw [List.getElem_cons_succ, ← ih (Nat.lt_of_succ_lt_succ hj), index,
            Nat.add_comm j 1, Nat.shiftRight_add]
          congr 2
          rw [Nat.shiftRight_one]
          omega

/-- Bits that are spliced in one after the other. -/
theorem splice_splice {a w v w' v' N : Nat} (hv : v < 2 ^ w) :
    Bits.splice (a + w) w' v' (Bits.splice a w v N) = Bits.splice a (w + w') (v + 2 ^ w * v') N := by
  apply Nat.eq_of_testBit_eq
  intro p
  rw [Bits.testBit_splice, Bits.testBit_splice, Bits.testBit_splice, Nat.add_comm v,
    Nat.testBit_two_pow_mul_add _ hv]
  by_cases h : a + w ≤ p ∧ p < a + w + w'
  · rw [if_pos h, if_pos (by omega), if_neg (by omega)]
    exact congrArg v'.testBit (by omega)
  · rw [if_neg h]
    by_cases h' : a ≤ p ∧ p < a + w
    · rw [if_pos h', if_pos (by omega), if_pos (by omega)]
    · rw [if_neg h', if_neg (by omega)]

theorem field_one (m : Bits) (a : Nat) : m.field a 1 = (m a).toNat := by
  refine Bits.field_eq (Bool.toNat_lt _) fun i hi ↦ ?_
  obtain rfl : i = 0 := by omega
  cases m a <;> rfl

/-! ## Emitting -/

theorem emit_eq (n : Nat) (dst src : Operand) (I : Image κ) : emit n dst src I =
    .ok ((), { I with ops := I.ops ++ [⟨I.next, n, dst, src⟩], next := I.next + 1 }) := rfl

/-- `emit` of a copy from the space to the space. -/
theorem emit_emits {n dst src : Nat} (h : emit n (.int dst) (.int src) I = .ok ((), I₁)) :
    Emits labels I I₁ {p | dst ≤ p ∧ p < dst + n} (Bits.blit n dst src) := by
  rw [emit_eq] at h
  cases h
  refine ⟨List.Subset.refl _, Nat.le_succ _, fun m p hp ↦ Bits.blit_of_notMem m hp, _, rfl, ?_,
    List.pairwise_singleton _ _, ?_⟩
  · simp
  · intro s _ _ hrow
    have hex := execute_int rfl rfl (hrow _ List.mem_cons_self)
    exact ⟨congrArg State.space hex, fun id _ ↦ congrFun (congrArg State.row hex) id⟩

/-- The patches of a lookup put the bits `first`, `first + 1`, ... and those of `indices` into the
source of the read. -/
theorem lookupRuns_eq {read stride at_ first count : Nat} {indices : List Nat} (I : Image κ)
    (hr : read < I.next) : ∃ ops, lookupRuns read stride at_ first count indices I =
      .ok ((), { I with ops := I.ops ++ ops, next := I.next + ops.length }) ∧
    (∀ c ∈ ops, I.next ≤ c.id ∧ c.id < I.next + ops.length) ∧ (ops.map Copy.id).Nodup ∧
    ∀ s : State, (∀ c ∈ ops, s.row c.id = c.row labels) → execute ops s =
      { s with row := Function.update s.row read { s.row read with
        src := Bits.splice (stride + at_) (count + indices.length)
          (s.space.field first count + 2 ^ count * index s.space indices) (s.row read).src } } := by
  induction indices generalizing at_ first count I with
  | nil =>
      refine ⟨_, rfl, by simp, List.pairwise_singleton _ _, fun s hrow ↦ ?_⟩
      refine (execute_field rfl rfl (hrow _ List.mem_cons_self)).trans ?_
      simp only [Instruction.set, Instruction.get, Copy.row, Operand.value, index, Nat.mul_zero,
        Nat.add_zero, List.length_nil]
  | cons i indices ih =>
      rw [lookupRuns]
      split
      case isTrue hi =>
        obtain ⟨ops, e, hid, hn, hs⟩ := @ih at_ first (count + 1) I hr
        refine ⟨ops, e, hid, hn, fun s hrow ↦ (hs s hrow).trans ?_⟩
        rw [Bits.field_add, field_one, ← hi, index, List.length_cons, Nat.add_assoc count,
          Nat.add_comm 1, Nat.pow_succ, Nat.mul_add, Nat.mul_assoc, Nat.add_assoc]
      case isFalse =>
        let c : Copy := ⟨I.next, count, .field read .src (stride + at_), .int first⟩
        obtain ⟨ops, e, hid, hn, hs⟩ := @ih (at_ + count) i 1
          { I with ops := I.ops ++ [c], next := I.next + 1 } (Nat.lt_succ_of_lt hr)
        refine ⟨c :: ops, bind_eq_ok.mpr ⟨(), _, emit_eq .., ?_⟩, ?_, ?_, fun s hrow ↦ ?_⟩
        · rw [e, List.append_assoc, List.singleton_append, List.length_cons, Nat.add_assoc,
            Nat.add_comm 1]
        · intro d hd
          rw [List.length_cons]
          rcases List.mem_cons.mp hd with rfl | hd
          · exact ⟨Nat.le_refl _, Nat.lt_add_of_pos_right (Nat.succ_pos _)⟩
          · have := hid d hd
            simp only at this
            omega
        · refine List.nodup_cons.mpr ⟨fun hmem ↦ ?_, hn⟩
          obtain ⟨d, hd, he⟩ := List.mem_map.mp hmem
          have := (hid d hd).1
          simp only [c] at this he
          omega
        · have hc := execute_field rfl rfl (hrow c List.mem_cons_self)
          have hne : ∀ d ∈ ops, d.id ≠ read := fun d hd ↦ by
            have := (hid d hd).1
            simp only at this
            omega
          rw [show c :: ops = [c] ++ ops from rfl, execute_append,
            show execute [c] s = c.execute s from rfl, hc, hs]
          · simp only [Function.update_self, Function.update_idem, Instruction.set,
              Instruction.get, Copy.row, Operand.value, c]
            rw [← Nat.add_assoc stride, splice_splice (Bits.field_lt _ _ _), field_one, index,
              List.length_cons, Nat.add_comm 1, Nat.pow_one]
          · intro d hd
            simp only [Function.update_of_ne (hne d hd)]
            exact hrow d (List.mem_cons_of_mem _ hd)

/-- The generator has allocated nothing. -/
structure Image.SameTables (I I₁ : Image κ) : Prop where
  gates : I₁.gates = I.gates
  constants : I₁.constants = I.constants
  data : I₁.data = I.data

/-- A lookup reads the entry that the bits at `indices` select. -/
theorem lookup_emits {dst base width stride : Nat} {indices : List Nat}
    (hbase : base % 2 ^ (stride + indices.length) = 0)
    (h : lookup (.int dst) base indices width stride I = .ok ((), I₁)) :
    I.SameTables I₁ ∧ Emits labels I I₁ {p | dst ≤ p ∧ p < dst + width} fun m ↦
      m.putField dst width (m.field (base + 2 ^ stride * index m indices) width) := by
  obtain ⟨read, I', e, h⟩ := bind_eq_ok.mp h
  cases e
  obtain ⟨ops, hI₁, hid, hn, hs⟩ : ∃ ops, I₁ = { I with
      ops := I.ops ++ (ops ++ [⟨I.next, width, .int dst, .int base⟩])
      next := I.next + 1 + ops.length } ∧
      (∀ c ∈ ops, I.next + 1 ≤ c.id ∧ c.id < I.next + 1 + ops.length) ∧
      (ops.map Copy.id).Nodup ∧ ∀ s : State, (∀ c ∈ ops, s.row c.id = c.row labels) → execute ops s =
        { s with row := Function.update s.row I.next { s.row I.next with
          src := Bits.splice stride indices.length (index s.space indices)
            (s.row I.next).src } } := by
    cases indices with
    | nil =>
        cases h
        refine ⟨[], rfl, by simp, List.nodup_nil, fun s _ ↦ ?_⟩
        simp [execute, Bits.splice]
    | cons i indices =>
        obtain ⟨⟨⟩, I', e, h⟩ := bind_eq_ok.mp h
        cases h
        obtain ⟨ops, e', hid, hn, hs⟩ := @lookupRuns_eq κ labels I.next stride 0 i 1 indices
          { I with next := I.next + 1 } (Nat.lt_succ_self _)
        cases e.symm.trans e'
        refine ⟨ops, by rw [List.append_assoc], hid, hn, fun s hrow ↦ ?_⟩
        rw [hs s hrow, field_one, index, List.length_cons, Nat.add_comm 1, Nat.pow_one,
          Nat.add_zero]
  subst hI₁
  refine ⟨⟨rfl, rfl, rfl⟩, List.Subset.refl _, by simp only; omega,
    fun m p hp ↦ Bits.putField_of_notMem m hp, _, rfl, fun c hc ↦ ?_, ?_, fun s _ _ hrow ↦ ?_⟩
  · rcases List.mem_append.mp hc with hc | hc
    · have := hid c hc
      simp only
      omega
    · rw [List.mem_singleton.mp hc]
      simp only
      omega
  · rw [List.map_append]
    refine List.nodup_append.mpr ⟨hn, List.pairwise_singleton _ _, fun id h₁ id' h₂ he ↦ ?_⟩
    obtain ⟨c, hc, rfl⟩ := List.mem_map.mp h₁
    have := (hid c hc).1
    have hread : id' = I.next := by simpa using h₂
    omega
  · have hsplice : Bits.splice stride indices.length (index s.space indices) base =
        base + 2 ^ stride * index s.space indices := by
      refine Bits.splice_of_zero (index_lt _ _) ?_
      rw [← Nat.mod_mul_right_div_self, ← Nat.pow_add, hbase, Nat.zero_div]
    have hread := hrow ⟨I.next, width, .int dst, .int base⟩ (by simp)
    have hpatches := hs s fun c hc ↦ hrow c (List.mem_append_left _ hc)
    have hex : execute (ops ++ [⟨I.next, width, .int dst, .int base⟩]) s =
        { space := s.space.blit width dst (base + 2 ^ stride * index s.space indices)
          row := Function.update s.row I.next
            ⟨width, dst, base + 2 ^ stride * index s.space indices⟩ } := by
      rw [execute_append, hpatches, hread]
      simp only [Copy.row, Operand.value, hsplice]
      refine execute_int (c := ⟨I.next, width, .int dst, .int base⟩)
        (r := ⟨width, dst, base + 2 ^ stride * index s.space indices⟩) rfl rfl ?_
      exact Function.update_self ..
    rw [hex]
    refine ⟨(putField_field ..).symm, fun id hid' ↦ Function.update_of_ne ?_ _ _⟩
    simp only at hid'
    omega

/-! ## Tables -/

/-- The table stands among the data. -/
structure TableAt (data : List Datum) (base stride : Nat) (values : List Nat) : Prop where
  aligned : base % (values.length <<< stride) = 0
  entry : ∀ i (h : i < values.length), ⟨base + i <<< stride, 1 <<< stride, values[i]⟩ ∈ data

theorem TableAt.mono {data data' : List Datum} {base stride : Nat} {values : List Nat}
    (h : TableAt data base stride values) (hs : data ⊆ data') :
    TableAt data' base stride values := ⟨h.aligned, fun i hi ↦ hs (h.entry i hi)⟩

/-- The entry of a table in the space. -/
theorem TableAt.field_eq {data : List Datum} {base stride i : Nat} {values : List Nat}
    (h : TableAt data base stride values) (hm : Installed data m) (hi : i < values.length) :
    m.field (base + 2 ^ stride * i) (2 ^ stride) = values[i] := by
  have := hm _ (h.entry i hi)
  rwa [Nat.shiftLeft_eq, Nat.one_shiftLeft, Nat.mul_comm i] at this

/-- The constants and the tables of an image are among its data; `T` says which tables a key may
have. -/
structure Image.Good (T : κ → Nat → List Nat → Prop) (I : Image κ) : Prop where
  constant : ∀ value address, I.constants value = some address → ⟨address, 32, value⟩ ∈ I.data
  gate : ∀ key base, I.gates key = some base →
    ∃ stride values, T key stride values ∧ TableAt I.data base stride values

variable {T : κ → Nat → List Nat → Prop}

/-- `Image.__init__`, as far as it concerns the allocation. -/
def Image.new (κ : Type) (codeBase constantBase tableBase : Nat) : Image κ where
  constants _ := none
  gates _ := none
  data := []
  constantEnd := constantBase
  constantLimit := tableBase
  tableEnd := tableBase
  codeBase := codeBase
  ops := []
  next := 0

theorem Image.new_good (codeBase constantBase tableBase : Nat) :
    (Image.new κ codeBase constantBase tableBase).Good T :=
  ⟨fun _ _ h ↦ (nomatch h), fun _ _ h ↦ (nomatch h)⟩

theorem Image.Good.of_same (h : I.Good T) (hs : I.SameTables I₁) : I₁.Good T :=
  ⟨by rw [hs.constants, hs.data]; exact h.constant, by rw [hs.gates, hs.data]; exact h.gate⟩

theorem constant_emits {value address : Nat} (hI : I.Good T)
    (h : constant value I = .ok (address, I₁)) : I₁.Good T ∧ Emits labels I I₁ ∅ id ∧
      ⟨address, 32, value⟩ ∈ I₁.data := by
  unfold constant at h
  split at h
  case h_1 a ha =>
    cases h
    exact ⟨hI, .refl (List.Subset.refl _) (Nat.le_refl _) rfl, hI.constant _ _ ha⟩
  case h_2 =>
    dsimp only at h
    split at h
    · cases h
    · cases h
      refine ⟨⟨fun v a hv ↦ ?_, fun key base hk ↦ ?_⟩,
        .refl (List.subset_append_left _ _) (Nat.le_refl _) rfl,
        List.mem_append_right _ (List.mem_singleton.mpr rfl)⟩
      · dsimp only at hv ⊢
        by_cases hv' : v = value
        · subst hv'
          rw [Function.update_self] at hv
          cases hv
          exact List.mem_append_right _ (List.mem_singleton.mpr rfl)
        · rw [Function.update_of_ne hv'] at hv
          exact List.mem_append_left _ (hI.constant v a hv)
      · obtain ⟨stride, values, hT, htable⟩ := hI.gate key base hk
        exact ⟨stride, values, hT, htable.mono (List.subset_append_left _ _)⟩

theorem table_eq {values : List Nat} {stride base : Nat}
    (h : table values stride I = .ok (base, I₁)) : TableAt I₁.data base stride values ∧
      I.data ⊆ I₁.data ∧ I₁.constants = I.constants ∧ I₁.gates = I.gates ∧
      I₁.next = I.next ∧ I₁.ops = I.ops := by
  unfold table at h
  simp only at h
  split at h
  · cases h
  · split at h
    · cases h
    · cases h
      refine ⟨⟨Nat.mul_mod_left _ _, fun i hi ↦ List.mem_append_right _ ?_⟩,
        List.subset_append_left _ _, rfl, rfl, rfl, rfl⟩
      exact List.mem_mapIdx.mpr ⟨i, hi, rfl⟩

theorem Image.Good.table {values : List Nat} {stride base : Nat} (hI : I.Good T)
    (h : table values stride I = .ok (base, I₁)) : I₁.Good T := by
  obtain ⟨-, hd, hc, hg, -, -⟩ := table_eq h
  refine ⟨fun value a hv ↦ hd (hI.constant value a (hc ▸ hv)), fun key b hk ↦ ?_⟩
  obtain ⟨stride', v, hT, htable⟩ := hI.gate key b (hg ▸ hk)
  exact ⟨stride', v, hT, htable.mono hd⟩

theorem gateTable_emits [DecidableEq κ] {key : κ} {values : Except String (List Nat)}
    {stride base : Nat} (hI : I.Good T) (hT : ∀ v, values = .ok v → T key stride v)
    (h : gateTable key values stride I = .ok (base, I₁)) :
    I₁.Good T ∧ Emits labels I I₁ ∅ id ∧
      ∃ stride v, T key stride v ∧ TableAt I₁.data base stride v := by
  unfold gateTable at h
  split at h
  case h_1 b hb =>
    cases h
    exact ⟨hI, .refl (List.Subset.refl _) (Nat.le_refl _) rfl, hI.gate _ _ hb⟩
  case h_2 =>
    cases values with
    | error => cases h
    | ok v =>
        cases ht : table v stride I with
        | error e =>
            have h : (table v stride I >>= fun r ↦ _) = Except.ok (base, I₁) := h
            rw [ht] at h
            cases h
        | ok r =>
            obtain ⟨b, I'⟩ := r
            have h : (table v stride I >>= fun r ↦ _) = Except.ok (base, I₁) := h
            rw [ht] at h
            cases h
            obtain ⟨htable, hd, hc, hg, hn, ho⟩ := table_eq ht
            refine ⟨⟨fun w a hw ↦ hd (hI.constant w a (hc ▸ hw)), fun k b' hk ↦ ?_⟩,
              .refl hd (Nat.le_of_eq hn.symm) ho, stride, v, hT v rfl, htable⟩
            by_cases hk' : k = key
            · subst hk'
              dsimp only at hk
              rw [Function.update_self] at hk
              cases hk
              exact ⟨stride, v, hT v rfl, htable⟩
            · dsimp only at hk
              rw [Function.update_of_ne hk', hg] at hk
              obtain ⟨stride', v', hT', htable'⟩ := hI.gate k b' hk
              exact ⟨stride', v', hT', htable'.mono hd⟩

/-! ## Gates -/

theorem mapM_eq_ok {α β : Type} {f : α → Except String β} {l : List α} {ys : List β}
    (h : l.mapM f = .ok ys) : List.Forall₂ (fun x y ↦ f x = .ok y) l ys := by
  induction l generalizing ys with
  | nil =>
      cases h
      exact .nil
  | cons x l ih =>
      rw [List.mapM_cons] at h
      cases hx : f x with
      | error e =>
          rw [hx] at h
          cases h
      | ok y =>
          rw [hx] at h
          cases hl : l.mapM f with
          | error e =>
              rw [hl] at h
              cases h
          | ok ys' =>
              rw [hl] at h
              cases h
              exact .cons hx (ih hl)

/-- The values of a gate's table. -/
theorem gateValues_eq {function : List Nat → Except String Nat} {count : Nat} {values : List Nat}
    (h : gateValues function count = .ok values) : values.length = 2 ^ count ∧
      ∀ i (hi : i < values.length),
        function ((List.range count).map fun j ↦ (i >>> j) &&& 1) = .ok values[i] := by
  have h := mapM_eq_ok h
  have hlen := h.length_eq
  rw [List.length_range, Nat.one_shiftLeft] at hlen
  refine ⟨hlen.symm, fun i hi ↦ ?_⟩
  have := h.get (i := i) (by rw [List.length_range, Nat.one_shiftLeft, hlen]; exact hi) hi
  simpa using this

/-- The inputs of a gate, as its table numbers them. -/
theorem map_index (m : Bits) (inputs : List Nat) :
    (List.range inputs.length).map (fun j ↦ (index m inputs >>> j) &&& 1) =
      inputs.map fun p ↦ (m p).toNat := by
  refine List.ext_getElem (by simp) fun j h₁ h₂ ↦ ?_
  rw [List.length_map] at h₂
  rw [List.getElem_map, List.getElem_range, index_bit m inputs h₂, List.getElem_map]

theorem putField_toNat (m : Bits) (p : Nat) (b : Bool) :
    m.putField p 1 b.toNat = Function.update m p b := by
  funext q
  by_cases h : q = p
  · subst h
    rw [Bits.putField_of_mem _ (by omega), Nat.sub_self, Function.update_self]
    cases b <;> rfl
  · rw [Bits.putField_of_notMem _ (by omega), Function.update_of_ne h]

theorem blit_one (m : Bits) (dst src : Nat) :
    m.blit 1 dst src = Function.update m dst (m src) := by
  rw [← putField_field, field_one, putField_toNat]

theorem setOf_bit (dst : Nat) : {p | dst ≤ p ∧ p < dst + 1} = ({dst} : Set Nat) := by
  ext p
  refine ⟨fun h ↦ Nat.le_antisymm (Nat.le_of_lt_succ h.2) h.1, ?_⟩
  rintro rfl
  exact ⟨Nat.le_refl _, Nat.lt_succ_self _⟩

/-- `emit` of one bit. -/
theorem emit_bit_emits {dst src : Nat} (h : emit 1 (.int dst) (.int src) I = .ok ((), I₁)) :
    I.SameTables I₁ ∧ Emits labels I I₁ {dst} fun m ↦ Function.update m dst (m src) := by
  refine ⟨?_, ?_⟩
  · rw [emit_eq] at h
    cases h
    exact ⟨rfl, rfl, rfl⟩
  · have he := emit_emits labels h
    rw [setOf_bit] at he
    exact he.congr (fun m _ ↦ blit_one m dst src) fun m p hp ↦ Function.update_of_ne hp _ _

/-- A gate computes its function. -/
theorem gateAt_emits [DecidableEq κ] {key : κ} {function : List Nat → Except String Nat}
    {dst : Nat} {inputs : List Nat} {e : Bits → Bool} (hI : I.Good T)
    (hT : ∀ stride values, T key stride values ↔
      stride = 0 ∧ gateValues function inputs.length = .ok values)
    (h : gateAt key function dst inputs I = .ok ((), I₁))
    (he : ∀ m, Installed I₁.data m →
      function (inputs.map fun p ↦ (m p).toNat) = .ok (e m).toNat) :
    I₁.Good T ∧ Emits labels I I₁ {dst} fun m ↦ Function.update m dst (e m) := by
  obtain ⟨base, I', h', h⟩ := bind_eq_ok.mp h
  obtain ⟨hI', he', stride, values, hTv, htable⟩ := gateTable_emits labels hI
    (fun v hv ↦ (hT 0 v).mpr ⟨rfl, hv⟩) h'
  obtain ⟨rfl, hv⟩ := (hT stride values).mp hTv
  obtain ⟨hlen, hval⟩ := gateValues_eq hv
  have hbase : base % 2 ^ (0 + inputs.length) = 0 := by
    have := htable.aligned
    rwa [Nat.shiftLeft_zero, hlen, ← Nat.zero_add inputs.length] at this
  obtain ⟨hsame, hlook⟩ := lookup_emits labels hbase h
  rw [setOf_bit] at hlook
  refine ⟨hI'.of_same hsame, ?_⟩
  have hboth := he'.trans hlook
  rw [Set.empty_union] at hboth
  refine hboth.congr (fun m hm ↦ ?_) fun m p hp ↦ Function.update_of_ne hp _ _
  have hlt : index m inputs < values.length := hlen ▸ index_lt m inputs
  have hentry := (htable.mono (List.Subset.refl _)).field_eq (hsame.data ▸ hm) hlt
  have hfun := hval _ hlt
  rw [map_index, he m hm] at hfun
  have hbit : (e m).toNat = values[index m inputs] := Except.ok.inj hfun
  rw [← putField_toNat, hbit, ← hentry]
  rfl

end CopySpace.Rv32i
