import CopySpace.Rv32i.Image
import CopySpace.Space.Machine

/-!
# Copies executed in list order

What a generator means by a list of copies: they are executed one after the other, and a copy
into a `Field` of another copy changes the row that this one will be executed with.

`Emits` says what the copies do that a step of a generator has appended, as a function on the
space.  They do so wherever the data of the image stand in the space, and they leave all but
some positions alone.
-/

namespace CopySpace

open Bulk (FieldName)

/-- A field of a row. -/
def Instruction.get (row : Instruction) : FieldName → Nat
  | .n => row.n
  | .dst => row.dst
  | .src => row.src

def Instruction.set (row : Instruction) (value : Nat) : FieldName → Instruction
  | .n => { row with n := value }
  | .dst => { row with dst := value }
  | .src => { row with src := value }

namespace Rv32i

/-- A space, and the rows of the copies. -/
structure State where
  space : Bits
  row : Nat → Instruction

/-- What `encode` writes for an operand that is not a field. -/
def Operand.value (labels : String → Nat) : Operand → Nat
  | .int value => value
  | .field .. => 0
  | .label name => labels name

/-- The row of a copy before anything is copied into its fields. -/
def Copy.row (labels : String → Nat) (c : Copy) : Instruction :=
  ⟨c.n, c.dst.value labels, c.src.value labels⟩

/-- The `n` bits that an operand names; `value` is what the row of the copy says. -/
def State.read (s : State) (operand : Operand) (value n : Nat) : Nat :=
  match operand with
  | .field target name offset => ((s.row target).get name >>> offset) % 2 ^ n
  | _ => s.space.field value n

def State.write (s : State) (operand : Operand) (value n bits : Nat) : State :=
  match operand with
  | .field target name offset =>
      { s with row := Function.update s.row target ((s.row target).set
          (Bits.splice offset n bits ((s.row target).get name)) name) }
  | _ => { s with space := s.space.putField value n bits }

/-- Execute a copy. -/
def Copy.execute (s : State) (c : Copy) : State :=
  let row := s.row c.id
  s.write c.dst row.dst row.n (s.read c.src row.src row.n)

/-- Execute copies in list order. -/
def execute (ops : List Copy) (s : State) : State := ops.foldl Copy.execute s

/-- The space `m`, and the rows of the copies before anything is copied into their fields. -/
def start (labels : String → Nat) (ops : List Copy) (m : Bits) : State where
  space := m
  row id := ((ops.find? (·.id = id)).map (Copy.row labels)).getD ⟨0, 0, 0⟩

/-- The data of an image stand in the space. -/
def Installed (data : List Datum) (m : Bits) : Prop :=
  ∀ e ∈ data, m.field e.address e.width = e.value

instance (data : List Datum) (m : Bits) : Decidable (Installed data m) := by
  unfold Installed; infer_instance

/-- None of the data lie at the position. -/
def Clear (data : List Datum) (p : Nat) : Prop :=
  ∀ e ∈ data, ¬(e.address ≤ p ∧ p < e.address + e.width)

section Execute

variable {labels : String → Nat} {s : State} {c : Copy} {m m' : Bits} {data data' : List Datum}

theorem execute_append (ops ops' : List Copy) (s : State) :
    execute (ops ++ ops') s = execute ops' (execute ops s) := List.foldl_append

theorem start_row {ops : List Copy} (hn : (ops.map Copy.id).Nodup) (hc : c ∈ ops) :
    (start labels ops m).row c.id = c.row labels := by
  have hfind : ops.find? (·.id = c.id) = some c := by
    induction ops with
    | nil => nomatch hc
    | cons d ops ih =>
        rw [List.map_cons, List.nodup_cons] at hn
        rcases List.mem_cons.mp hc with rfl | hc
        · exact List.find?_cons_of_pos (by simp)
        · have hne : d.id ≠ c.id := fun h ↦ hn.1 (h ▸ List.mem_map_of_mem hc)
          rw [List.find?_cons_of_neg (by simpa using hne)]
          exact ih hn.2 hc
  change ((ops.find? (·.id = c.id)).map (Copy.row labels)).getD _ = _
  rw [hfind]
  rfl

theorem Installed.mono (h : Installed data' m) (hs : data ⊆ data') : Installed data m :=
  fun e he ↦ h e (hs he)

/-- Data survive what is written elsewhere. -/
theorem Installed.congr (h : Installed data m) (hm : ∀ p, ¬ Clear data p → m' p = m p) :
    Installed data m' := fun e he ↦ by
  rw [← h e he]
  refine Bits.field_congr fun i hi ↦ hm _ fun hc ↦ hc e he ?_
  omega

theorem putField_field (m : Bits) (n dst src : Nat) :
    m.putField dst n (m.field src n) = m.blit n dst src := by
  funext p
  by_cases h : dst ≤ p ∧ p < dst + n
  · rw [Bits.putField_of_mem _ h, Bits.blit_of_mem _ h, Bits.testBit_field]
    simp [show p - dst < n by omega]
  · rw [Bits.putField_of_notMem _ h, Bits.blit_of_notMem _ h]

/-- A copy from the space to the space. -/
theorem execute_int {a b : Nat} {r : Instruction} (hd : c.dst = .int a) (hs : c.src = .int b)
    (h : s.row c.id = r) :
    c.execute s = { s with space := s.space.blit r.n r.dst r.src } := by
  simp only [Copy.execute, State.write, State.read, hd, hs, h, putField_field]

/-- A copy from the space into a field. -/
theorem execute_field {a target offset : Nat} {name : FieldName} {r : Instruction}
    (hd : c.dst = .field target name offset) (hs : c.src = .int a) (h : s.row c.id = r) :
    c.execute s = { s with row := Function.update s.row target ((s.row target).set
      (Bits.splice offset r.n (s.space.field r.src r.n) ((s.row target).get name)) name) } := by
  simp only [Copy.execute, State.write, State.read, hd, hs, h]

end Execute

/-! ## What a generator emits -/

section Emits

variable {κ : Type} {labels : String → Nat} {I I₁ I₂ : Image κ} {W W₁ W₂ : Set Nat}
  {f g : Bits → Bits}

variable (labels I I₁ W f) in
/-- From `I` to `I₁` a generator has appended copies that do `f` and write only into `W`. -/
structure Emits : Prop where
  data : I.data ⊆ I₁.data
  next : I.next ≤ I₁.next
  frame : ∀ m, ∀ p ∉ W, f m p = m p
  ops : ∃ ops, I₁.ops = I.ops ++ ops ∧ (∀ c ∈ ops, I.next ≤ c.id ∧ c.id < I₁.next) ∧
    (ops.map Copy.id).Nodup ∧ ∀ s : State, Installed I₁.data s.space → (∀ p ∈ W, Clear I₁.data p) →
      (∀ c ∈ ops, s.row c.id = c.row labels) → (execute ops s).space = f s.space ∧
        ∀ id, id < I.next ∨ I₁.next ≤ id → (execute ops s).row id = s.row id

namespace Emits

theorem refl (hd : I.data ⊆ I₁.data) (hn : I.next ≤ I₁.next) (ho : I₁.ops = I.ops) :
    Emits labels I I₁ ∅ id :=
  ⟨hd, hn, fun _ _ _ ↦ rfl, [], by rw [ho, List.append_nil], fun _ h ↦ absurd h List.not_mem_nil,
    List.nodup_nil, fun _ _ _ _ ↦ ⟨rfl, fun _ _ ↦ rfl⟩⟩

theorem trans (h₁ : Emits labels I I₁ W₁ f) (h₂ : Emits labels I₁ I₂ W₂ g) :
    Emits labels I I₂ (W₁ ∪ W₂) (g ∘ f) where
  data := List.Subset.trans h₁.data h₂.data
  next := h₁.next.trans h₂.next
  frame m p hp := by
    rw [Function.comp_apply, h₂.frame _ p fun h ↦ hp (.inr h), h₁.frame m p fun h ↦ hp (.inl h)]
  ops := by
    obtain ⟨ops₁, e₁, hid₁, hn₁, hs₁⟩ := h₁.ops
    obtain ⟨ops₂, e₂, hid₂, hn₂, hs₂⟩ := h₂.ops
    refine ⟨ops₁ ++ ops₂, by rw [e₂, e₁, List.append_assoc], fun c hc ↦ ?_, ?_,
      fun s hi hW hrow ↦ ?_⟩
    · have := h₁.next
      have := h₂.next
      rcases List.mem_append.mp hc with hc | hc
      · have := hid₁ c hc
        omega
      · have := hid₂ c hc
        omega
    · rw [List.map_append]
      refine List.nodup_append.mpr ⟨hn₁, hn₂, fun id hid₁' id' hid₂' he ↦ ?_⟩
      obtain ⟨c, hc, rfl⟩ := List.mem_map.mp hid₁'
      obtain ⟨d, hd, rfl⟩ := List.mem_map.mp hid₂'
      have := hid₁ c hc
      have := hid₂ d hd
      omega
    · obtain ⟨hspace, hrows⟩ := hs₁ s (hi.mono h₂.data)
        (fun p hp e he ↦ hW p (.inl hp) e (h₂.data he))
        fun c hc ↦ hrow c (List.mem_append_left _ hc)
      have hi' : Installed I₂.data (execute ops₁ s).space := hi.congr fun p hp ↦ by
        rw [hspace]
        exact h₁.frame _ p fun h ↦ hp (hW p (.inl h))
      obtain ⟨hspace', hrows'⟩ := hs₂ _ hi' (fun p hp ↦ hW p (.inr hp)) fun c hc ↦ by
        rw [hrows c.id (.inr (hid₂ c hc).1)]
        exact hrow c (List.mem_append_right _ hc)
      rw [execute_append]
      refine ⟨by rw [hspace', hspace]; rfl, fun id hid ↦ ?_⟩
      have := h₁.next
      have := h₂.next
      rw [hrows' id (by omega), hrows id (by omega)]

/-- Another description of the effect. -/
theorem congr (h : Emits labels I I₁ W f) (hf : ∀ m, Installed I₁.data m → f m = g m)
    (hg : ∀ m, ∀ p ∉ W, g m p = m p) : Emits labels I I₁ W g := by
  obtain ⟨ops, e, hid, hn, hs⟩ := h.ops
  exact ⟨h.data, h.next, hg, ops, e, hid, hn, fun s hi hW hrow ↦
    ⟨(hs s hi hW hrow).1.trans (hf _ hi), (hs s hi hW hrow).2⟩⟩

/-- More may be declared to be written. -/
theorem mono (h : Emits labels I I₁ W₁ f) (hW : W₁ ⊆ W₂) : Emits labels I I₁ W₂ f := by
  obtain ⟨ops, e, hid, hn, hs⟩ := h.ops
  exact ⟨h.data, h.next, fun m p hp ↦ h.frame m p fun h' ↦ hp (hW h'), ops, e, hid, hn,
    fun s hi hc ↦ hs s hi fun p hp ↦ hc p (hW hp)⟩

/-- The copies are executed on a space in which the data stand. -/
theorem space_eq (h : Emits labels I I₁ W f) {ops : List Copy} (ho : I₁.ops = I.ops ++ ops)
    {m : Bits} (hm : Installed I₁.data m) (hW : ∀ p ∈ W, Clear I₁.data p) :
    (execute ops (start labels ops m)).space = f m := by
  obtain ⟨ops', e, -, hn, hs⟩ := h.ops
  obtain rfl : ops = ops' := List.append_cancel_left (ho.symm.trans e)
  exact (hs _ hm hW fun c hc ↦ start_row hn hc).1

end Emits

/-- A step after another one. -/
theorem bind_eq_ok {α β : Type} {x : Gen κ α} {k : α → Gen κ β} {b : β} :
    (x >>= k) I = .ok (b, I₂) ↔ ∃ a I₁, x I = .ok (a, I₁) ∧ k a I₁ = .ok (b, I₂) := by
  change (x I >>= fun r ↦ k r.1 r.2) = _ ↔ _
  cases x I with
  | error => exact ⟨nofun, nofun⟩
  | ok r => exact ⟨fun h ↦ ⟨r.1, r.2, rfl, h⟩, fun ⟨a, I₁, e, h⟩ ↦ by cases e; exact h⟩

/-- A loop, with an invariant of the image. -/
theorem forM_emits (Inv : Image κ → Prop) {α : Type} {body : α → Gen κ Unit}
    {f : α → Bits → Bits} {l : List α}
    (hbody : ∀ i ∈ l, ∀ I I₁, Inv I → body i I = .ok ((), I₁) →
      Inv I₁ ∧ Emits labels I I₁ W (f i))
    (hI : Inv I) (h : l.forM body I = .ok ((), I₁)) :
    Inv I₁ ∧ Emits labels I I₁ W (fun m ↦ l.foldl (fun m i ↦ f i m) m) := by
  induction l generalizing I with
  | nil =>
      cases h
      exact ⟨hI, (Emits.refl (List.Subset.refl _) (Nat.le_refl _) rfl).mono (Set.empty_subset W)⟩
  | cons i l ih =>
      have h : (body i >>= fun _ ↦ l.forM body) I = .ok ((), I₁) := h
      obtain ⟨⟨⟩, I', h', h⟩ := bind_eq_ok.mp h
      obtain ⟨hI', he'⟩ := hbody i List.mem_cons_self _ _ hI h'
      obtain ⟨hI₁, he⟩ := ih (fun j hj ↦ hbody j (List.mem_cons_of_mem _ hj)) hI' h
      exact ⟨hI₁, (he'.trans he).mono (Set.union_self W).subset⟩

end Emits

end Rv32i

end CopySpace
