import CopySpace.Space.Machine

/-!
# The emulator on bits

What `space.c` is for: a machine whose state is a string of bits and two streams, and whose
step services the channel rows and then executes the other rows in slot order, each as a
snapshot copy, each fetched only when its turn comes.  `BitMachine` says this with
`Bits.field` and `Bits.blit` and knows nothing of bytes, loads or the processor cache.

`does_spaceStep` is the refinement: in a configuration whose processor lies in the space,
the C code is defined, stays inside the space, and takes the same step.
-/

namespace CopySpace

/-- The state of a run, seen as bits. -/
structure BitMachine (φ : Type) where
  bits : Bits
  inp : φ
  out : φ

/-- The row that stands in slot `i`. -/
def Bits.row (cfg : Config) (m : Bits) (i : Nat) : Instruction :=
  ⟨m.field (i * cfg.instructionSize) cfg.nSize,
    m.field (i * cfg.instructionSize + cfg.nSize) cfg.addressSize,
    m.field (i * cfg.instructionSize + (cfg.nSize + cfg.addressSize)) cfg.addressSize⟩

namespace BitMachine

variable {φ : Type} (cfg : Config) (dev : Device φ)

/-- The copies of slots `i, …, i + k - 1` on a string of bits. -/
def computationFrom : Nat → Nat → Bits → Int × Bits
  | 0, _, m => (0, m)
  | k + 1, i, m =>
      if i = 1 ∨ i = 2 then computationFrom k (i + 1) m
      else
        let row := m.row cfg i
        if row.n = 0 then computationFrom k (i + 1) m
        else if row.Leaves cfg then (-1, m)
        else computationFrom k (i + 1) (m.blit row.n row.dst row.src)

def transfer (output : Bool) (a n : Nat) (x : BitMachine φ) : (Nat × Bool) × BitMachine φ :=
  if output then
    let r := dev.fwrite x.out (x.bits.bytes (a / 8) (n / 8))
    ((r.1, r.2.1), { x with out := r.2.2 })
  else
    let r := dev.fread x.inp (n / 8)
    ((r.1.length, r.2.1), { x with bits := x.bits.putBytes (a / 8) r.1, inp := r.2.2 })

def channelTransfer (n a : Nat) (output : Bool) (x : BitMachine φ) :
    (Nat × Nat) × BitMachine φ :=
  if ChannelRejects cfg n a then ((0, 2), x)
  else
    let r := transfer dev output a n x
    ((r.1.1, if r.1.1 ≠ n / 8 then (if r.1.2 ∨ output then 2 else 1) else 0), r.2)

/-- The position of the status of the channel in slot `slot`. -/
def statusAt (slot : Nat) : Nat := slot * cfg.instructionSize + (cfg.nSize + cfg.addressSize)

/-- Service the channel row `row` of slot `slot`. -/
def channel (slot : Nat) (output : Bool) (row : Instruction) (x : BitMachine φ) :
    BitMachine φ :=
  if row.n = 0 then x
  else
    let r := channelTransfer cfg dev row.n row.dst output x
    let status := channelStatus r.1.1 r.1.2
    { r.2 with bits := r.2.bits.putField (statusAt cfg slot) cfg.addressSize status }

/-- Both rows are fetched before either is serviced. -/
def channels (x : BitMachine φ) : BitMachine φ :=
  channel cfg dev 1 false (x.bits.row cfg 1) (channel cfg dev 2 true (x.bits.row cfg 2) x)

def active (m : Bits) : Prop := ∃ i < cfg.processorN, (m.row cfg i).n ≠ 0

instance (m : Bits) : Decidable (active cfg m) := by unfold active; infer_instance

def step (x : BitMachine φ) : SpaceStepResult × BitMachine φ :=
  if active cfg x.bits then
    let y := channels cfg dev x
    let r := computationFrom cfg cfg.processorN 0 y.bits
    (if r.1 = 0 then .done else .error, { y with bits := r.2 })
  else (.idle, x)

end BitMachine

/-- The packed status holds the number of bits moved, and the error below it. -/
theorem channelStatus_eq {copied code : Nat} (h : copied < 2 ^ 28) :
    channelStatus copied code = 2 * (8 * copied) + (if code = 2 then 1 else 0) := by
  rw [channelStatus, u32_of_lt (by omega), show copied * 8 * 2 = 2 ^ 1 * (8 * copied) by omega,
    ← Nat.two_pow_add_eq_or_of_lt (by split <;> decide)]

namespace BitMachine

variable {φ : Type} {cfg : Config} {m : Bits} {k i : Nat}

/-- A slot that copies nothing is passed over. -/
theorem computationFrom_of_zero (h : (m.row cfg i).n = 0) :
    computationFrom cfg (k + 1) i m = computationFrom cfg k (i + 1) m := by
  simp [computationFrom, h]

theorem computationFrom_of_channel (h : i = 1 ∨ i = 2) :
    computationFrom cfg (k + 1) i m = computationFrom cfg k (i + 1) m := by
  simp [computationFrom, h]

/-- A slot whose copy stays in the space. -/
theorem computationFrom_of_copy (h : ¬(i = 1 ∨ i = 2)) (h0 : (m.row cfg i).n ≠ 0)
    (hl : ¬ (m.row cfg i).Leaves cfg) : computationFrom cfg (k + 1) i m =
      computationFrom cfg k (i + 1) (m.blit (m.row cfg i).n (m.row cfg i).dst (m.row cfg i).src) := by
  simp [computationFrom, h, h0, hl]

theorem computationFrom_of_empty (h : ∀ j, i ≤ j → j < i + k → (m.row cfg j).n = 0) :
    computationFrom cfg k i m = (0, m) := by
  induction k generalizing i with
  | zero => rfl
  | succ k ih =>
      rw [computationFrom_of_zero (h i le_rfl (by omega)),
        ih fun j h₁ h₂ ↦ h j (by omega) (by omega)]

/-- A channel row that copies nothing leaves everything as it is. -/
theorem channel_of_zero (cfg : Config) (dev : Device φ) (slot : Nat) (output : Bool)
    (row : Instruction) (x : BitMachine φ) (h : row.n = 0) :
    channel cfg dev slot output row x = x := if_pos h

/-- A read that is not rejected. -/
theorem channel_input (dev : Device φ) (slot : Nat) (row : Instruction) (x : BitMachine φ)
    (h0 : row.n ≠ 0) (h : ¬ ChannelRejects cfg row.n row.dst) :
    let r := dev.fread x.inp (row.n / 8)
    channel cfg dev slot false row x =
      ⟨(x.bits.putBytes (row.dst / 8) r.1).putField (statusAt cfg slot) cfg.addressSize
        (channelStatus r.1.length (if r.1.length ≠ row.n / 8 then (if r.2.1 then 2 else 1) else 0)),
        r.2.2, x.out⟩ := by
  simp only [channel, if_neg h0, channelTransfer, if_neg h, transfer, Bool.false_eq_true, if_false,
    or_false]

/-- A write that is not rejected. -/
theorem channel_output (dev : Device φ) (slot : Nat) (row : Instruction) (x : BitMachine φ)
    (h0 : row.n ≠ 0) (h : ¬ ChannelRejects cfg row.n row.dst) :
    let r := dev.fwrite x.out (x.bits.bytes (row.dst / 8) (row.n / 8))
    channel cfg dev slot true row x =
      ⟨x.bits.putField (statusAt cfg slot) cfg.addressSize
        (channelStatus r.1 (if r.1 ≠ row.n / 8 then 2 else 0)), x.inp, r.2.2⟩ := by
  simp only [channel, if_neg h0, channelTransfer, if_neg h, transfer, or_true, if_true]

/-- A tick whose copies all stay in the space. -/
theorem step_eq_done {dev : Device φ} {x y : BitMachine φ} (h : active cfg x.bits)
    (hy : channels cfg dev x = y) (hm : computationFrom cfg cfg.processorN 0 y.bits = (0, m)) :
    step cfg dev x = (.done, { y with bits := m }) := by
  subst hy
  rw [step, if_pos h]
  simp only [hm, if_true]

theorem row_congr {m' : Bits}
    (h : ∀ j < cfg.instructionSize, m (i * cfg.instructionSize + j) =
      m' (i * cfg.instructionSize + j)) : m.row cfg i = m'.row cfg i := by
  have hIS : cfg.instructionSize = cfg.nSize + 2 * cfg.addressSize := rfl
  unfold Bits.row
  congr 1 <;> refine Bits.field_congr fun j hj ↦ ?_
  · exact h j (by omega)
  · rw [Nat.add_assoc]; exact h _ (by omega)
  · rw [Nat.add_assoc]; exact h _ (by omega)

/-- A row whose bits are all zero. -/
theorem row_eq_zero (h : ∀ j < cfg.instructionSize, m (i * cfg.instructionSize + j) = false) :
    m.row cfg i = ⟨0, 0, 0⟩ := by
  have hIS : cfg.instructionSize = cfg.nSize + 2 * cfg.addressSize := rfl
  unfold Bits.row
  congr 1 <;> refine Bits.field_eq_zero_iff.mpr fun j hj ↦ ?_
  · exact h j (by omega)
  · rw [Nat.add_assoc]; exact h _ (by omega)
  · rw [Nat.add_assoc]; exact h _ (by omega)

end BitMachine

/-- The bits and streams of a machine. -/
def Machine.view {φ : Type} (σ : Machine φ) : BitMachine φ := ⟨σ.heap.bit .space, σ.inp, σ.out⟩

/-! ## Executions that stay inside the space -/

/-- A byte access inside the array `space`. -/
def SpaceAccess (cfg : Config) : Access Obj → Prop
  | .read o i => o = .space ∧ i < cfg.vmSpaceBytes
  | .write o i => o = .space ∧ i < cfg.vmSpaceBytes

/-- The machine's array has the size the configuration says. -/
def Machine.Sized {φ : Type} (cfg : Config) (σ : Machine φ) : Prop :=
  σ.heap.size .space = cfg.vmSpaceBytes

/-- From `σ` to `σ'` only bytes of `space` are accessed and only bit positions below
`SPACE_SIZE` are addressed. -/
structure Machine.Inside {φ : Type} (cfg : Config) (σ σ' : Machine φ) : Prop where
  heap : σ.heap.Evolves (SpaceAccess cfg) σ'.heap
  positions : ∃ new, σ'.positions = new ++ σ.positions ∧
    ∀ r ∈ new, r.1 + r.2 ≤ cfg.spaceSize

namespace Machine.Inside

variable {φ : Type} {cfg : Config} {σ σ₁ σ₂ : Machine φ}

theorem refl (cfg : Config) (σ : Machine φ) : Inside cfg σ σ :=
  ⟨.refl _ _, [], rfl, by simp⟩

theorem trans (h₁ : Inside cfg σ σ₁) (h₂ : Inside cfg σ₁ σ₂) : Inside cfg σ σ₂ := by
  obtain ⟨e₁, new₁, p₁, r₁⟩ := h₁
  obtain ⟨e₂, new₂, p₂, r₂⟩ := h₂
  refine ⟨e₁.trans e₂, new₂ ++ new₁, by rw [p₂, p₁, List.append_assoc], fun r hr ↦ ?_⟩
  rcases List.mem_append.mp hr with hr | hr
  · exact r₂ r hr
  · exact r₁ r hr

theorem sized (h : Inside cfg σ σ₁) (hs : σ.Sized cfg) : σ₁.Sized cfg := by
  unfold Sized
  rw [h.heap.size_eq]
  exact hs

end Machine.Inside

/-- Total correctness of an emulator program: it is defined, stays inside the space, and
ends in `Q`. -/
def VDoes {φ α : Type} (cfg : Config) (x : VM φ α) (σ : Machine φ)
    (Q : α → Machine φ → Prop) : Prop :=
  ∃ a σ', x σ = some (a, σ') ∧ σ.Inside cfg σ' ∧ Q a σ'

namespace VDoes

variable {φ α β : Type} {cfg : Config} {σ : Machine φ} {Q : α → Machine φ → Prop}

theorem pure {a : α} (hq : Q a σ) : VDoes cfg (pure a) σ Q := ⟨a, σ, rfl, .refl cfg σ, hq⟩

theorem bind {x : VM φ α} {f : α → VM φ β} {R : β → Machine φ → Prop} (hx : VDoes cfg x σ Q)
    (hf : ∀ a σ', σ.Inside cfg σ' → Q a σ' → VDoes cfg (f a) σ' R) : VDoes cfg (x >>= f) σ R := by
  obtain ⟨a, σ₁, e₁, i₁, q₁⟩ := hx
  obtain ⟨b, σ₂, e₂, i₂, q₂⟩ := hf a σ₁ i₁ q₁
  exact ⟨b, σ₂, by simp [StateT.bind, Bind.bind, e₁, e₂], i₁.trans i₂, q₂⟩

theorem imp {x : VM φ α} {R : α → Machine φ → Prop} (hx : VDoes cfg x σ Q)
    (hqr : ∀ a σ', σ.Inside cfg σ' → Q a σ' → R a σ') : VDoes cfg x σ R := by
  obtain ⟨a, σ', e, i, q⟩ := hx
  exact ⟨a, σ', e, i, hqr a σ' i q⟩

/-- A step that only changes fields the space does not know of. -/
theorem modify {a : α} {f : Machine φ → Machine φ} (hh : (f σ).heap = σ.heap)
    (hp : (f σ).positions = σ.positions) (hq : Q a (f σ)) :
    VDoes cfg (fun σ ↦ some (a, f σ)) σ Q :=
  ⟨a, f σ, rfl, ⟨by rw [hh]; exact .refl _ _, [], by simp [hp], by simp⟩, hq⟩

theorem addressed {a n : Nat} {Q : Unit → Machine φ → Prop} (ha : a + n ≤ cfg.spaceSize)
    (hq : Q () { σ with positions := (a, n) :: σ.positions }) :
    VDoes cfg (VM.addressed a n) σ Q :=
  ⟨(), _, rfl, ⟨.refl _ _, [(a, n)], rfl, by simpa using ha⟩, hq⟩

/-- A heap program that stays inside the array. -/
theorem heap {A : Access Obj → Prop} {x : CM Obj α} {R : α → Heap Obj → Prop}
    (hx : Does A x σ.heap R) (hA : ∀ a, A a → SpaceAccess cfg a)
    (hq : ∀ a h, σ.heap.Evolves A h → R a h → Q a { σ with heap := h }) :
    VDoes cfg (VM.heap x) σ Q := by
  obtain ⟨a, h, e, ev, r⟩ := hx
  exact ⟨a, { σ with heap := h }, by simp [VM.heap, e], ⟨ev.mono hA, [], rfl, by simp⟩,
    hq a h ev r⟩

theorem forUp {f : Nat → VM φ Unit} {n : Nat} (I : Nat → Machine φ → Prop) (h0 : I 0 σ)
    (hstep : ∀ i < n, ∀ σ', σ.Inside cfg σ' → I i σ' → VDoes cfg (f i) σ' fun _ ↦ I (i + 1)) :
    VDoes cfg (forUp f n) σ fun _ ↦ I n := by
  induction n with
  | zero => exact pure h0
  | succ n ih =>
      refine bind (ih fun i hi ↦ hstep i (by omega)) fun _ σ' ins hI ↦ ?_
      exact hstep n (by omega) σ' ins hI

end VDoes

/-! ## The refinement -/

/-- What every build that the check means to admit satisfies. -/
structure Config.Good (cfg : Config) : Prop where
  four_le : 4 ≤ cfg.processorN
  one_lt : 1 < cfg.addressSize
  processor_lt : cfg.processorN * cfg.instructionSize < cfg.spaceSize

theorem Config.SpaceConfigurationValid.good {cfg : Config} (hv : cfg.SpaceConfigurationValid)
    (he : cfg.Exact) : cfg.Good :=
  ⟨hv.1, hv.2.1, by rw [← he.processorBits_eq]; exact hv.2.2.2⟩

namespace Config.Good

variable {cfg : Config} {i : Nat}

/-- The fields of slot `i` lie in the space, below `2 ^ 32`. -/
theorem field_le (hg : cfg.Good) (hi : i < cfg.processorN) {a : Nat} (ha : a < 3) :
    i * cfg.instructionSize + cfg.o a + cfg.s a ≤ cfg.spaceSize := by
  have h₁ := slot_end_le hi
  have h₂ := hg.processor_lt
  have h₃ : cfg.o a + cfg.s a ≤ cfg.instructionSize := by
    unfold instructionSize
    interval_cases a <;> simp <;> omega
  omega

theorem u32_field (hg : cfg.Good) (hi : i < cfg.processorN) {a : Nat} (ha : a < 3) :
    u32 (processorStart + i * cfg.instructionSize + cfg.o a) =
      i * cfg.instructionSize + cfg.o a := by
  have h₁ := hg.field_le hi ha
  have h₂ := cfg.spaceSize_lt
  rw [processorStart, Nat.zero_add, u32_of_lt (by omega)]

end Config.Good

theorem Config.s_lt (cfg : Config) {a : Nat} (ha : a < 3) : cfg.s a < 32 := by
  have h := cfg.addressSize_le
  interval_cases a
  · simp [nSize]; omega
  · simp; omega
  · simp; omega

section Refinement

variable {φ : Type} {cfg : Config} {dev : Device φ} {σ : Machine φ} (hg : cfg.Good)

include hg

theorem does_fetchField (hs : σ.Sized cfg) {i a : Nat} (hi : i < cfg.processorN) (ha : a < 3) :
    VDoes cfg (fetchField cfg i a) σ fun v σ' ↦
      v = σ.view.bits.field (i * cfg.instructionSize + cfg.o a) (cfg.s a) ∧
        σ'.view = σ.view ∧ σ'.processor = σ.processor := by
  have hle := hg.field_le hi ha
  have hsp := cfg.spaceSize_le
  have h32 := cfg.spaceSize_lt
  unfold fetchField
  simp only [hg.u32_field hi ha]
  refine .bind (.addressed (Q := fun _ σ' ↦ σ'.heap = σ.heap ∧ σ'.view = σ.view ∧
    σ'.processor = σ.processor) hle ⟨rfl, rfl, rfl⟩) fun _ σ₁ _ ⟨hh, hv, hp⟩ ↦ ?_
  have hsz : σ.heap.size .space = cfg.vmSpaceBytes := hs
  refine .heap (does_getArgument (p := .space) (h := σ₁.heap) (cfg.s_lt ha)
    (by rw [hh, hsz]; omega) (by omega)) (fun x hx ↦ ?_) fun v h _ ⟨hv', ho⟩ ↦ ⟨?_, ?_, hp⟩
  · rw [hh] at hx
    cases x with
    | read o k => exact ⟨hx.1, by have := hx.2; omega⟩
    | write o k => exact hx.elim
  · rw [hv', hh]; rfl
  · rw [← hv]
    simp only [Machine.view, Heap.bit, ho]

theorem does_fetchInstruction (hs : σ.Sized cfg) {i : Nat} (hi : i < cfg.processorN) :
    VDoes cfg (fetchInstruction cfg i) σ fun _ σ' ↦ σ'.view = σ.view ∧
      σ'.processor = fun j ↦ if j = i then σ.view.bits.row cfg i else σ.processor j := by
  refine .bind (does_fetchField hg hs hi (by decide : 0 < 3)) fun n σ₁ i₁ ⟨hn, v₁, p₁⟩ ↦ ?_
  refine .bind (does_fetchField hg (i₁.sized hs) hi (by decide : 1 < 3))
    fun d σ₂ i₂ ⟨hd, v₂, p₂⟩ ↦ ?_
  refine .bind (does_fetchField hg (i₂.sized (i₁.sized hs)) hi (by decide : 2 < 3))
    fun s σ₃ i₃ ⟨hs', v₃, p₃⟩ ↦ ?_
  refine .modify (f := fun σ ↦ { σ with processor := fun j ↦ if j = i then _ else σ.processor j })
    rfl rfl ⟨by rw [← v₁, ← v₂, ← v₃]; rfl, ?_⟩
  funext j
  simp only [p₃, p₂, p₁]
  rw [v₂, v₁] at hs'
  rw [v₁] at hd
  subst hn hd hs'
  rfl

theorem does_spaceReadProcessor (hs : σ.Sized cfg) :
    VDoes cfg (spaceReadProcessor cfg) σ fun _ σ' ↦ σ'.view = σ.view ∧
      ∀ i < cfg.processorN, σ'.processor i = σ.view.bits.row cfg i := by
  refine .forUp (fun k σ' ↦ σ'.view = σ.view ∧
    ∀ i < k, σ'.processor i = σ.view.bits.row cfg i) ⟨rfl, by simp⟩
    fun k hk σ₁ i₁ ⟨hv, hp⟩ ↦ ?_
  refine (does_fetchInstruction hg (i₁.sized hs) hk).imp fun _ σ₂ _ ⟨hv', hp'⟩ ↦
    ⟨hv'.trans hv, fun i hi ↦ ?_⟩
  rw [hp', hv]
  by_cases hik : i = k
  · simp [hik]
  · simp [hik, hp i (by omega)]

theorem does_computationFrom {k i : Nat} (hs : σ.Sized cfg) (hk : i + k = cfg.processorN) :
    VDoes cfg (computationFrom cfg k i) σ fun r σ' ↦
      (r, σ'.view.bits) = BitMachine.computationFrom cfg k i σ.view.bits ∧
        σ'.inp = σ.inp ∧ σ'.out = σ.out := by
  induction k generalizing i σ with
  | zero => exact .pure ⟨rfl, rfl, rfl⟩
  | succ k ih =>
      unfold computationFrom BitMachine.computationFrom
      split
      case isTrue => exact ih hs (by omega)
      refine .bind (does_fetchInstruction hg hs (i := i) (by omega)) fun _ σ₁ i₁ ⟨hv, hp⟩ ↦ ?_
      have hin : σ₁.inp = σ.inp ∧ σ₁.out = σ.out :=
        ⟨congrArg BitMachine.inp hv, congrArg BitMachine.out hv⟩
      refine .bind (Q := fun row σ' ↦ row = σ.view.bits.row cfg i ∧ σ' = σ₁)
        (.modify (f := id) rfl rfl ⟨by rw [hp]; simp, rfl⟩) fun row σ₂ _ ⟨hrow, h₂⟩ ↦ ?_
      subst hrow h₂
      dsimp only
      split
      case isTrue =>
        refine (ih (i₁.sized hs) (by omega)).imp fun r σ₃ _ ⟨hr, h₃⟩ ↦ ⟨?_, ?_⟩
        · rw [hr, hv]
        · rwa [hin.1, hin.2] at h₃
      refine .bind (Q := fun _ σ' ↦ σ'.view = σ₂.view ∧ σ'.heap = σ₂.heap)
        (.modify rfl rfl ⟨rfl, rfl⟩) fun _ σ₃ i₃ ⟨h₃, hh₃⟩ ↦ ?_
      split
      case isTrue => exact .pure ⟨by rw [h₃, hv], by rw [← hin.1]; exact congrArg BitMachine.inp h₃,
        by rw [← hin.2]; exact congrArg BitMachine.out h₃⟩
      rename_i hleave
      unfold Instruction.Leaves at hleave
      have hsp := cfg.spaceSize_le
      have hsz : σ₃.heap.size .space = cfg.vmSpaceBytes := by
        rw [hh₃]; exact i₁.sized hs
      generalize hrow : σ.view.bits.row cfg i = row at hleave ⊢
      refine .bind (Q := fun _ σ' ↦ σ'.heap = σ₃.heap ∧ σ'.view = σ₃.view)
        (.addressed (by omega) ⟨rfl, rfl⟩) fun _ σ₄ i₄ ⟨hh₄, h₄⟩ ↦ ?_
      refine .bind (Q := fun _ σ' ↦ σ'.heap = σ₃.heap ∧ σ'.view = σ₃.view)
        (.addressed (by omega) ⟨hh₄, h₄⟩) fun _ σ₅ i₅ ⟨hh₅, h₅⟩ ↦ ?_
      have hrange : InRange σ₅.heap row.n Obj.space row.src Obj.space row.dst :=
        ⟨by rw [hh₅, hsz]; omega, by rw [hh₅, hsz]; omega⟩
      have hcopy := does_bitcpy hrange
      refine .bind (Q := fun _ σ' ↦ σ'.view.bits = σ.view.bits.blit row.n row.dst row.src ∧
        σ'.inp = σ.inp ∧ σ'.out = σ.out) (.heap hcopy ?_ ?_) fun _ σ₆ i₆ ⟨hb, h₆⟩ ↦ ?_
      · intro a ha
        cases a with
        | read o j =>
            rcases ha with ⟨rfl, hc⟩ | ⟨rfl, hc⟩ <;> exact ⟨rfl, by unfold Covers at hc; omega⟩
        | write o j => exact ⟨ha.1, by obtain ⟨-, hc⟩ := ha; unfold Covers at hc; omega⟩
      · intro _ h _ hc
        refine ⟨?_, by rw [← hin.1]; exact congrArg BitMachine.inp (h₅.trans h₃),
          by rw [← hin.2]; exact congrArg BitMachine.out (h₅.trans h₃)⟩
        have hbit : σ₅.heap.bit .space = σ.view.bits :=
          congrArg BitMachine.bits (h₅.trans (h₃.trans hv))
        funext p
        change h.bit .space p = _
        rw [hc, hbit, Bits.blit]
        simp only [true_and]
      · have hs₆ : σ₆.Sized cfg := i₆.sized (i₅.sized (i₄.sized (i₃.sized (i₁.sized hs))))
        refine (ih hs₆ (by omega)).imp fun r σ₇ _ ⟨hr, h₇⟩ ↦ ⟨?_, ?_⟩
        · rw [hr, hb]
        · rwa [h₆.1, h₆.2] at h₇

/-! ### Channels -/

omit hg in
theorem does_transfer {output : Bool} {a n : Nat} (hs : σ.Sized cfg)
    (hr : ¬ ChannelRejects cfg n a) : VDoes cfg (transfer dev output a n) σ fun r σ' ↦
      (r, σ'.view) = BitMachine.transfer dev output a n σ.view ∧
        σ'.processor = σ.processor ∧ σ'.events = σ.events := by
  unfold ChannelRejects at hr
  have hsp := cfg.spaceSize_le
  have hsz : σ.heap.size .space = cfg.vmSpaceBytes := hs
  unfold transfer BitMachine.transfer
  refine .bind (Q := fun f σ' ↦ f = (if output then σ.out else σ.inp) ∧ σ' = σ)
    (.modify (f := id) rfl rfl ⟨rfl, rfl⟩) fun f σ₁ _ hf ↦ ?_
  obtain ⟨hf, h₁⟩ := hf
  subst h₁ hf
  refine .bind (Q := fun _ σ' ↦ σ'.heap = σ₁.heap ∧ σ'.view = σ₁.view ∧
    σ'.processor = σ₁.processor ∧ σ'.events = σ₁.events)
    (.addressed (by omega) ⟨rfl, rfl, rfl, rfl⟩) fun _ σ₂ _ hsame ↦ ?_
  obtain ⟨hh, hv, hp⟩ := hsame
  cases output with
  | true =>
      have hl := Does.loadBytes (A := SpaceAccess cfg) (h := σ₂.heap) (o := Obj.space)
        (j := a / 8) (n := n / 8) (by rw [hh, hsz]; omega) fun k hk ↦ ⟨rfl, by omega⟩
      refine .bind (Q := fun bs σ' ↦ bs = σ₁.view.bits.bytes (a / 8) (n / 8) ∧
        σ'.view = σ₁.view ∧ σ'.processor = σ₁.processor ∧ σ'.events = σ₁.events)
        (.heap hl (fun _ h ↦ h) ?_) fun bs σ₃ _ hread ↦ ?_
      · rintro bs h - ⟨ho, hb⟩
        refine ⟨by rw [hb, hh]; rfl, ?_, hp⟩
        rw [← hv]
        simp only [Machine.view, Heap.bit, ho]
      · obtain ⟨rfl, hv₃, hp₃⟩ := hread
        refine .bind (Q := fun _ σ' ↦ σ'.view = { σ₁.view with
            out := (dev.fwrite σ₁.out (σ₁.view.bits.bytes (a / 8) (n / 8))).2.2 } ∧
          σ'.processor = σ₁.processor ∧ σ'.events = σ₁.events)
          (.modify rfl rfl ⟨by rw [← hv₃]; rfl, hp₃⟩) fun _ σ₄ _ hwritten ↦ ?_
        obtain ⟨hv₄, hp₄⟩ := hwritten
        refine .pure ⟨?_, hp₄⟩
        rw [hv₄]; rfl
  | false =>
      have hlen := dev.fread_le σ₁.inp (n / 8)
      have hl := Does.storeBytes (A := SpaceAccess cfg) (h := σ₂.heap) (o := Obj.space)
        (i := a / 8) (dev.fread σ₁.inp (n / 8)).1 (by rw [hh, hsz]; omega)
        fun k hk ↦ ⟨rfl, by omega⟩
      refine .bind (Q := fun _ σ' ↦ σ'.view = { σ₁.view with
          bits := σ₁.view.bits.putBytes (a / 8) (dev.fread σ₁.inp (n / 8)).1 } ∧
        σ'.processor = σ₁.processor ∧ σ'.events = σ₁.events)
        (.heap hl (fun _ h ↦ h) ?_) fun _ σ₃ _ hstored ↦ ?_
      · intro _ h _ hb
        refine ⟨?_, hp⟩
        have hb' := hb .space
        rw [if_pos rfl, hh] at hb'
        simp only [Machine.view, hb']
        rw [show σ₂.inp = σ₁.inp from congrArg BitMachine.inp hv,
          show σ₂.out = σ₁.out from congrArg BitMachine.out hv]
      · obtain ⟨hv₃, hp₃⟩ := hstored
        refine .bind (Q := fun _ σ' ↦ σ'.view = { σ₃.view with
            inp := (dev.fread σ₁.inp (n / 8)).2.2 } ∧ σ'.processor = σ₁.processor ∧
            σ'.events = σ₁.events)
          (.modify rfl rfl ⟨rfl, hp₃⟩) fun _ σ₄ _ hread ↦ ?_
        obtain ⟨hv₄, hp₄⟩ := hread
        refine .pure ⟨?_, hp₄⟩
        rw [hv₄, hv₃]; rfl

omit hg in
theorem does_channelTransfer {output : Bool} {a n : Nat} (hs : σ.Sized cfg) :
    VDoes cfg (channelTransfer cfg dev n a output) σ fun r σ' ↦
      (r, σ'.view) = BitMachine.channelTransfer cfg dev n a output σ.view ∧
        σ'.processor = σ.processor ∧ σ'.events = σ.events := by
  unfold channelTransfer BitMachine.channelTransfer
  split
  · exact .pure ⟨rfl, rfl, rfl⟩
  · rename_i hr
    refine .bind (does_transfer hs hr) fun r σ₁ _ ⟨h₁, hp⟩ ↦ .pure ⟨?_, hp⟩
    rw [← h₁]

/-- What an observer learns from a channel: the bits moved and the error. -/
def ChannelEvent (cfg : Config) (dev : Device φ) (slot : Nat) (output : Bool) (σ : Machine φ)
    (e : SpaceEvent) : Prop :=
  let row := σ.processor slot
  let r := (BitMachine.channelTransfer cfg dev row.n row.dst output σ.view).1
  e = ⟨true, slot, row.n, row.dst, row.src, u32 (r.1 * 8), r.2 = 2⟩

variable (dev) in
theorem does_channel {slot : Nat} (output : Bool) (hs : σ.Sized cfg)
    (hslot : slot < cfg.processorN) : VDoes cfg (channel cfg dev slot output) σ fun _ σ' ↦
      σ'.view = BitMachine.channel cfg dev slot output (σ.processor slot) σ.view ∧
        σ'.processor = σ.processor ∧ ((σ.processor slot).n ≠ 0 →
          ∃ e, σ'.events = e :: σ.events ∧ ChannelEvent cfg dev slot output σ e) := by
  unfold channel BitMachine.channel
  refine .bind (Q := fun row σ' ↦ row = σ.processor slot ∧ σ' = σ)
    (.modify (f := id) rfl rfl ⟨rfl, rfl⟩) fun row σ₁ _ ⟨hrow, h₁⟩ ↦ ?_
  subst h₁ hrow
  split
  case isTrue h0 => exact .pure ⟨rfl, rfl, fun hn ↦ absurd h0 hn⟩
  refine .bind (does_channelTransfer hs) fun r σ₂ i₂ ⟨h₂, hp₂, he₂⟩ ↦ ?_
  have hle := hg.field_le hslot (by decide : 2 < 3)
  have hsp := cfg.spaceSize_le
  simp only [hg.u32_field hslot (by decide : 2 < 3)]
  refine .bind (Q := fun _ σ' ↦ σ'.heap = σ₂.heap ∧ σ'.view = σ₂.view ∧
    σ'.processor = σ₁.processor ∧ σ'.events = σ₁.events)
    (.addressed hle ⟨rfl, rfl, hp₂, he₂⟩) fun _ σ₃ i₃ ⟨hh₃, hv₃, hp₃⟩ ↦ ?_
  have hsz : σ₃.heap.size .space = cfg.vmSpaceBytes := i₃.sized (i₂.sized hs)
  have hw := does_writeFieldBits (h := σ₃.heap) (p := Obj.space)
    (a := slot * cfg.instructionSize + cfg.o 2) (v := channelStatus r.1 r.2) (w := cfg.s 2)
    (by rw [hsz]; omega)
  have hr : (BitMachine.channelTransfer cfg dev (σ₁.processor slot).n (σ₁.processor slot).dst
      output σ₁.view).1 = r := by rw [← h₂]
  rw [← h₂]
  refine .bind (Q := fun _ σ' ↦ σ'.view = { σ₂.view with
      bits := σ₂.view.bits.putField (BitMachine.statusAt cfg slot) cfg.addressSize
        (channelStatus r.1 r.2) } ∧ σ'.processor = σ₁.processor ∧ σ'.events = σ₁.events)
    (.heap hw ?_ ?_) fun _ σ₄ _ ⟨h₄, hp₄, he₄⟩ ↦
      .modify rfl rfl ⟨h₄, hp₄, fun _ ↦ ⟨_, congrArg _ he₄, by rw [ChannelEvent, hr]⟩⟩
  · intro a ha
    cases a with
    | read o j => exact ⟨ha.1, by obtain ⟨-, hc⟩ := ha; unfold Covers at hc; omega⟩
    | write o j => exact ⟨ha.1, by obtain ⟨-, hc⟩ := ha; unfold Covers at hc; omega⟩
  · intro _ h _ hb
    refine ⟨?_, hp₃⟩
    have hb' := hb .space
    rw [if_pos rfl] at hb'
    simp only [Machine.view, hb']
    rw [show σ₃.heap.bit .space = σ₂.heap.bit .space from congrArg BitMachine.bits hv₃,
      show σ₃.inp = σ₂.inp from congrArg BitMachine.inp hv₃,
      show σ₃.out = σ₂.out from congrArg BitMachine.out hv₃]
    rfl

theorem does_channels (hs : σ.Sized cfg) : VDoes cfg (channels cfg dev) σ fun _ σ' ↦
    σ'.view = BitMachine.channels cfg dev σ.view := by
  have h4 := hg.four_le
  refine .bind (does_fetchInstruction hg hs (i := 2) (by omega)) fun _ σ₁ i₁ ⟨v₁, p₁⟩ ↦ ?_
  refine .bind (does_fetchInstruction hg (i₁.sized hs) (i := 1) (by omega))
    fun _ σ₂ i₂ ⟨v₂, p₂⟩ ↦ ?_
  refine .bind (does_channel dev hg true (i₂.sized (i₁.sized hs)) (by omega)) fun _ σ₃ i₃ ⟨v₃, p₃, _⟩ ↦ ?_
  refine (does_channel dev hg false (i₃.sized (i₂.sized (i₁.sized hs))) (by omega)).imp
    fun _ σ₄ _ ⟨v₄, _⟩ ↦ ?_
  rw [v₄, v₃, p₃, p₂, p₁, v₂, v₁]
  rfl

/-! ### Steps -/

omit hg in
theorem anyActive_eq_true (σ : Machine φ) (n : Nat) :
    anyActive σ n = true ↔ ∃ i < n, (σ.processor i).n ≠ 0 := by
  induction n with
  | zero => simp [anyActive]
  | succ n ih =>
      simp only [anyActive, Bool.or_eq_true, ih, decide_eq_true_eq, Nat.lt_succ_iff_lt_or_eq]
      constructor
      · rintro (⟨i, hi, h⟩ | h)
        · exact ⟨i, .inl hi, h⟩
        · exact ⟨n, .inr rfl, h⟩
      · rintro ⟨i, hi | rfl, h⟩
        · exact .inl ⟨i, hi, h⟩
        · exact .inr h

theorem does_spaceActive (hs : σ.Sized cfg) : VDoes cfg (spaceActive cfg) σ fun b σ' ↦
    (b = true ↔ BitMachine.active cfg σ.view.bits) ∧ σ'.view = σ.view ∧
      ∀ i < cfg.processorN, σ'.processor i = σ.view.bits.row cfg i := by
  refine .bind (does_spaceReadProcessor hg hs) fun _ σ₁ _ ⟨hv, hp⟩ ↦ ?_
  refine .modify (f := id) rfl rfl ⟨?_, hv, hp⟩
  rw [anyActive_eq_true]
  constructor
  · rintro ⟨i, hi, h⟩
    exact ⟨i, hi, by rwa [hp i hi] at h⟩
  · rintro ⟨i, hi, h⟩
    exact ⟨i, hi, by rwa [hp i hi]⟩

variable (dev) in
/-- The refinement: `space_step` is defined, stays inside the space and takes the step of
the bit machine. -/
theorem does_spaceStep (hs : σ.Sized cfg) : VDoes cfg (spaceStep cfg dev) σ fun r σ' ↦
    (r, σ'.view) = BitMachine.step cfg dev σ.view := by
  refine .bind (does_spaceActive hg hs) fun b σ₁ i₁ ⟨hb, hv, _⟩ ↦ ?_
  unfold BitMachine.step
  split
  · rename_i hf
    rw [if_neg fun hc ↦ by rw [hb.mpr hc] at hf; exact absurd hf (by simp)]
    exact .pure (by rw [hv])
  · rename_i ht
    rw [if_pos (hb.mp (by simpa using ht))]
    refine .bind (does_channels hg (i₁.sized hs)) fun _ σ₂ i₂ hv₂ ↦ ?_
    refine .bind (does_computationFrom hg (i₂.sized (i₁.sized hs)) (Nat.zero_add _))
      fun r σ₃ _ ⟨hr, h₃⟩ ↦ .pure ?_
    rw [hv] at hv₂
    dsimp only
    rw [← hv₂, ← hr]
    simp only [Machine.view, h₃]

end Refinement

/-! ## `space_init` -/

/-- The accesses of `space_init`: the image is read, all of the space is written. -/
def InitAccess (o : Obj) (bytes size : Nat) : Access Obj → Prop
  | .read q i => q = o ∧ i < bytes
  | .write q i => q = .space ∧ i < size

/-- `space_init` copies the image and clears the rest of the space. -/
theorem does_spaceInit {h : Heap Obj} {o : Obj} {n : Nat} (hb : n ≤ h.size .space)
    (ho : n ≤ h.size o) :
    Does (InitAccess o n (h.size .space)) (spaceInit (some o) n) h fun r h' ↦
      r = 0 ∧ ∀ q p, h'.bit q p =
        if q = .space then (if p < 8 * n then h.bit o p else false) else h.bit q p := by
  refine .bind (.sizeof (Q := fun k h' ↦ k = h.size .space ∧ h' = h) ⟨rfl, rfl⟩)
    fun k h₀ _ ⟨hk, hh⟩ ↦ ?_
  subst hk hh
  rw [if_neg (by omega)]
  refine .bind (Q := fun _ h' ↦ ∀ q p, h'.bit q p =
      if q = .space ∧ p < 8 * n then h₀.bit o p else h₀.bit q p)
    (.doIf (fun _ ↦ ?_) fun h0 q p ↦ ?_) fun _ h₁ ev hc ↦ ?_
  · refine (Does.memmove (by omega) (by omega) (fun k hk ↦ ⟨rfl, by omega⟩)
      fun k hk ↦ ⟨rfl, by omega⟩).imp fun _ h' _ hm q p ↦ ?_
    rw [hm]
    simp only [Nat.mul_zero, Nat.zero_le, true_and, Nat.zero_add, Nat.sub_zero]
  · rw [if_neg (by omega)]
  · refine .bind (Q := fun _ h' ↦ ∀ q, h'.bit q = if q = .space then
        (h₁.bit .space).putBytes n (List.replicate (h₀.size .space - n) 0) else h₁.bit q)
      (Does.storeBytes _ ?_ fun k hk ↦ ⟨rfl, ?_⟩) fun _ h₂ _ hz ↦ .pure ⟨rfl, fun q p ↦ ?_⟩
    · rw [List.length_replicate, ev.size_eq]; omega
    · rw [List.length_replicate] at hk; omega
    · rw [hz]
      by_cases hq : q = .space
      · subst hq
        rw [if_pos rfl, if_pos rfl]
        by_cases hp : p < 8 * n
        · rw [Bits.putBytes_of_notMem _ (by omega), hc, if_pos ⟨rfl, hp⟩, if_pos hp]
        · rw [if_neg hp]
          by_cases hin : p / 8 < h₀.size .space
          · rw [Bits.putBytes_of_mem _ (by rw [List.length_replicate]; omega)]
            simp [List.getD_eq_getElem?_getD, List.getElem?_replicate]
            split <;> simp
          · rw [Bits.putBytes_of_notMem _ (by rw [List.length_replicate]; omega), hc,
              if_neg fun hc ↦ hp hc.2]
            exact Buffer.bits_of_size_le (by simp only [Heap.size] at hin; omega)
      · rw [if_neg hq, if_neg hq, hc, if_neg fun hc ↦ hq hc.1]

end CopySpace
