import CopySpace.Space.Bitwise
import CopySpace.Lib.Lockstep
import Mathlib.Logic.Relation

/-!
# The emulator stays inside the space

`StepContract` is what one call of `space_step` promises from a given machine: it is
defined, touches only bytes of the array and positions below `SPACE_SIZE`, reports an error
exactly when a copy leaves the space, and stores channel statuses that can be read back.

In a configuration that passes the compile-time check the contract holds in every reachable
state if and only if the check itself did not overflow (`Config.Exact`).  The overflow is
real: `PROCESSOR_N * INSTRUCTION_SIZE` is a 32-bit product, and when it wraps around the
first thing a step does, decoding all slots, addresses positions beyond the space.
-/

namespace CopySpace

/-! ## The copies of a step, slot by slot -/

/-- The row a step finds in slot `i` when its turn comes is not executable: it copies
something and one of its ranges leaves the space. -/
def Instruction.Offends (cfg : Config) (row : Instruction) : Prop :=
  row.n ≠ 0 ∧ (cfg.spaceSize < row.dst + row.n ∨ cfg.spaceSize < row.src + row.n)

theorem Instruction.offends_iff {cfg : Config} {row : Instruction} :
    row.Offends cfg ↔ row.n ≠ 0 ∧ row.Leaves cfg := by
  unfold Offends Leaves
  omega

/-- The space when slot `i` has its turn, `m` being the space after the channels. -/
def slotSpace (cfg : Config) (m : Bits) : Nat → Bits
  | 0 => m
  | i + 1 =>
      let m' := slotSpace cfg m i
      let row := m'.row cfg i
      if i = 1 ∨ i = 2 ∨ row.n = 0 then m' else m'.blit row.n row.dst row.src

/-- The row of slot `i`, as fetched at its turn. -/
def slotRow (cfg : Config) (m : Bits) (i : Nat) : Instruction := (slotSpace cfg m i).row cfg i

/-- Slot `i` is where the step stops with an error. -/
def StopsAt (cfg : Config) (m : Bits) (i : Nat) : Prop :=
  i ≠ 1 ∧ i ≠ 2 ∧ (slotRow cfg m i).Offends cfg ∧
    ∀ j < i, j ≠ 1 → j ≠ 2 → ¬ (slotRow cfg m j).Offends cfg

/-- `computation` executes the copies in slot order up to the first one that leaves the
space. -/
theorem computationFrom_slotSpace (cfg : Config) (m : Bits) {k i : Nat}
    (hi : ∀ j < i, j ≠ 1 → j ≠ 2 → ¬ (slotRow cfg m j).Offends cfg) :
    let r := BitMachine.computationFrom cfg k i (slotSpace cfg m i)
    (r.1 = 0 ∧ r.2 = slotSpace cfg m (i + k) ∧
      ∀ j < i + k, j ≠ 1 → j ≠ 2 → ¬ (slotRow cfg m j).Offends cfg) ∨
    (r.1 = -1 ∧ ∃ j, j < i + k ∧ StopsAt cfg m j ∧ r.2 = slotSpace cfg m j) := by
  induction k generalizing i with
  | zero => exact .inl ⟨rfl, rfl, hi⟩
  | succ k ih =>
      have hnext : slotSpace cfg m (i + 1) = if i = 1 ∨ i = 2 ∨ (slotRow cfg m i).n = 0 then
          slotSpace cfg m i else (slotSpace cfg m i).blit (slotRow cfg m i).n
            (slotRow cfg m i).dst (slotRow cfg m i).src := rfl
      have hrec := ih (i := i + 1)
      rw [show i + 1 + k = i + (k + 1) by omega] at hrec
      simp only [BitMachine.computationFrom]
      change _ ∨ _
      rw [show (slotSpace cfg m i).row cfg i = slotRow cfg m i from rfl]
      by_cases h12 : i = 1 ∨ i = 2
      · rw [if_pos h12]
        rw [if_pos (by tauto)] at hnext
        rw [← hnext]
        exact hrec fun j hj h₁ h₂ ↦ hi j (by omega) h₁ h₂
      rw [if_neg h12]
      by_cases h0 : (slotRow cfg m i).n = 0
      · rw [if_pos h0]
        rw [if_pos (by tauto)] at hnext
        rw [← hnext]
        refine hrec fun j hj h₁ h₂ ↦ ?_
        by_cases hji : j = i
        · exact fun ho ↦ ho.1 (by rw [hji]; exact h0)
        · exact hi j (by omega) h₁ h₂
      rw [if_neg h0]
      by_cases hl : (slotRow cfg m i).Leaves cfg
      · rw [if_pos hl]
        exact .inr ⟨rfl, i, by omega, ⟨by omega, by omega,
          Instruction.offends_iff.mpr ⟨h0, hl⟩, hi⟩, rfl⟩
      · rw [if_neg hl]
        rw [if_neg (by tauto)] at hnext
        rw [← hnext]
        refine hrec fun j hj h₁ h₂ ↦ ?_
        by_cases hji : j = i
        · rw [hji, Instruction.offends_iff]
          exact fun ho ↦ hl ho.2
        · exact hi j (by omega) h₁ h₂

/-! ## Channel statuses -/

/-- A completed channel has stored `2 * copied_bits + error` in full: the number is below
`2 ^ ADDRESS_SIZE`, the field holds it, and it gives back both parts. -/
def ChannelStored {φ : Type} (cfg : Config) (dev : Device φ) (slot : Nat) (output : Bool)
    (σ : Machine φ) : Prop :=
  (σ.processor slot).n ≠ 0 → ∃ σ' e, channel cfg dev slot output σ = some ((), σ') ∧
    σ'.events = e :: σ.events ∧ 2 * e.copied + e.error.toNat < 2 ^ cfg.addressSize ∧
    let status := σ'.view.bits.field (BitMachine.statusAt cfg slot) cfg.addressSize
    status = 2 * e.copied + e.error.toNat ∧ e.copied = status / 2 ∧
      e.error = decide (status % 2 = 1)

section Status

variable {φ : Type} {cfg : Config} {dev : Device φ} {σ : Machine φ}

variable (cfg dev) in
theorem BitMachine.channelTransfer_le (n a : Nat) (output : Bool) (x : BitMachine φ) :
    8 * (channelTransfer cfg dev n a output x).1.1 ≤ n := by
  unfold channelTransfer
  split
  · simp
  · unfold transfer
    cases output with
    | true =>
        have := dev.fwrite_le x.out (x.bits.bytes (a / 8) (n / 8))
        rw [Bits.length_bytes] at this
        simp only [if_true]
        omega
    | false =>
        have := dev.fread_le x.inp (n / 8)
        simp only [Bool.false_eq_true, if_false]
        omega

theorem channelStored (hg : cfg.Good) (hs : σ.Sized cfg) {slot : Nat} (output : Bool)
    (hslot : slot < cfg.processorN) (hn : (σ.processor slot).n < 2 ^ cfg.nSize) :
    ChannelStored cfg dev slot output σ := by
  intro h0
  obtain ⟨_, σ', e, _, hview, _, hev⟩ := does_channel dev hg output hs hslot
  obtain ⟨ev, hevs, hev⟩ := hev h0
  have hle := BitMachine.channelTransfer_le cfg dev (σ.processor slot).n (σ.processor slot).dst
    output σ.view
  unfold ChannelEvent at hev
  dsimp only at hev
  simp only [BitMachine.channel, if_neg h0] at hview
  generalize BitMachine.channelTransfer cfg dev (σ.processor slot).n (σ.processor slot).dst output
    σ.view = r at hle hev hview
  have hpow := cfg.two_pow_addressSize (by have := hg.one_lt; omega)
  have hA : 2 ^ cfg.addressSize ≤ 2 ^ 31 := Nat.pow_le_pow_right (by decide) cfg.addressSize_le
  have hcop : ev.copied = 8 * r.1.1 := by rw [hev, u32_of_lt (by omega), Nat.mul_comm]
  have herr : ev.error.toNat = if r.1.2 = 2 then 1 else 0 := by
    rw [hev]
    dsimp only
    split
    · rename_i h; simp [h]
    · rename_i h; simp [h]
  have hstat : channelStatus r.1.1 r.1.2 = 2 * ev.copied + ev.error.toNat := by
    rw [channelStatus_eq (by omega), hcop, herr]
  have h1 := Bool.toNat_le ev.error
  have hlt : 2 * ev.copied + ev.error.toNat < 2 ^ cfg.addressSize := by omega
  have hfield : σ'.view.bits.field (BitMachine.statusAt cfg slot) cfg.addressSize =
      2 * ev.copied + ev.error.toNat := by
    rw [hview, Bits.field_putField_self, hstat, Nat.mod_eq_of_lt hlt]
  refine ⟨σ', ev, e, hevs, hlt, hfield, ?_, ?_⟩
  · rw [hfield]; omega
  · rw [hfield]
    cases ev.error with
    | false => simp
    | true => simp [Nat.add_mod]

end Status

/-! ## The contract of a step -/

section Contract

variable {φ : Type} (cfg : Config) (dev : Device φ)

/-- What `space_step` promises in the state `σ`. -/
structure StepContract (σ : Machine φ) : Prop where
  /-- The step is defined, inside the space; an error means that some slot's copy leaves
  the space when its turn comes, and that it and the later copies are not executed. -/
  step : ∃ r σ', spaceStep cfg dev σ = some (r, σ') ∧ σ.Inside cfg σ' ∧
    let m := (BitMachine.channels cfg dev σ.view).bits
    (r = .error ↔ ∃ i < cfg.processorN, StopsAt cfg m i) ∧
    (∀ i < cfg.processorN, StopsAt cfg m i → σ'.view.bits = slotSpace cfg m i) ∧
    (r ≠ .error → σ'.view.bits = slotSpace cfg m cfg.processorN)
  /-- The channels, serviced after the activity check with both rows fetched, store their
  statuses without loss. -/
  status : ∀ σ₁ σ₂, spaceActive cfg σ = some (true, σ₁) →
    (do fetchInstruction cfg 2; fetchInstruction cfg 1) σ₁ = some ((), σ₂) →
    ChannelStored cfg dev 2 true σ₂ ∧
      ∀ σ₃, channel cfg dev 2 true σ₂ = some ((), σ₃) → ChannelStored cfg dev 1 false σ₃

/-- The states that calls of `space_step` lead to. -/
def Reaches (σ σ' : Machine φ) : Prop :=
  Relation.ReflTransGen (fun σ σ' ↦ ∃ r, spaceStep cfg dev σ = some (r, σ')) σ σ'

variable {cfg dev}

/-- With no active slot nothing happens in any slot. -/
theorem slotSpace_of_inactive {m : Bits} (h : ¬ BitMachine.active cfg m) {i : Nat}
    (hi : i ≤ cfg.processorN) : slotSpace cfg m i = m := by
  induction i with
  | zero => rfl
  | succ i ih =>
      have h0 : (m.row cfg i).n = 0 := by
        by_contra hc
        exact h ⟨i, by omega, hc⟩
      simp [slotSpace, ih (by omega), h0]

theorem row_n_of_inactive {m : Bits} (h : ¬ BitMachine.active cfg m) {i : Nat}
    (hi : i < cfg.processorN) : (m.row cfg i).n = 0 := by
  by_contra hc
  exact h ⟨i, hi, hc⟩

theorem BitMachine.channels_of_inactive (hg : cfg.Good) {x : BitMachine φ}
    (h : ¬ active cfg x.bits) : channels cfg dev x = x := by
  have h4 := hg.four_le
  simp [channels, channel, row_n_of_inactive h (show 1 < cfg.processorN by omega),
    row_n_of_inactive h (show 2 < cfg.processorN by omega)]

theorem step_contract (hg : cfg.Good) {σ : Machine φ} (hs : σ.Sized cfg) :
    StepContract cfg dev σ := by
  constructor
  case step =>
    obtain ⟨r, σ', e, ins, hv⟩ := does_spaceStep dev hg hs
    refine ⟨r, σ', e, ins, ?_⟩
    intro m
    unfold BitMachine.step at hv
    by_cases ha : BitMachine.active cfg σ.view.bits
    · rw [if_pos ha] at hv
      obtain ⟨rfl, hview⟩ := Prod.mk.inj hv
      have hbits : σ'.view.bits = (BitMachine.computationFrom cfg cfg.processorN 0 m).2 := by
        rw [hview]
      have hcomp := computationFrom_slotSpace cfg m (k := cfg.processorN) (i := 0) (by simp)
      rw [Nat.zero_add] at hcomp
      rcases hcomp with ⟨h0, hm, hno⟩ | ⟨h1, i, hi, hstop, hm⟩
      · rw [show slotSpace cfg m 0 = m from rfl] at h0 hm
        rw [if_pos h0]
        refine ⟨⟨fun hc ↦ by simp at hc, fun ⟨i, hi, hst⟩ ↦ ?_⟩, fun i hi hst ↦ ?_,
          fun _ ↦ hbits.trans hm⟩
        · exact absurd hst.2.2.1 (hno i hi hst.1 hst.2.1)
        · exact absurd hst.2.2.1 (hno i hi hst.1 hst.2.1)
      · rw [show slotSpace cfg m 0 = m from rfl] at h1 hm
        rw [if_neg (by rw [h1]; decide)]
        refine ⟨⟨fun _ ↦ ⟨i, hi, hstop⟩, fun _ ↦ rfl⟩, fun j hj hst ↦ ?_, fun hc ↦ absurd rfl hc⟩
        -- two slots where the step stops are the same slot
        have hij : j = i := by
          rcases Nat.lt_trichotomy j i with h | h | h
          · exact absurd hst.2.2.1 (hstop.2.2.2 j h hst.1 hst.2.1)
          · exact h
          · exact absurd hstop.2.2.1 (hst.2.2.2 i h hstop.1 hstop.2.1)
        rw [hij, hbits, hm]
    · rw [if_neg ha] at hv
      obtain ⟨rfl, hview⟩ := Prod.mk.inj hv
      have hm : m = σ.view.bits := congrArg BitMachine.bits (BitMachine.channels_of_inactive hg ha)
      have hno : ∀ i < cfg.processorN, ¬ StopsAt cfg m i := fun i hi hst ↦ by
        have := hst.2.2.1.1
        rw [slotRow, hm, slotSpace_of_inactive ha hi.le] at this
        exact this (row_n_of_inactive ha hi)
      refine ⟨⟨fun hc ↦ by simp at hc, fun ⟨i, hi, hst⟩ ↦ absurd hst (hno i hi)⟩,
        fun i hi hst ↦ absurd hst (hno i hi), fun _ ↦ ?_⟩
      rw [hview, hm, slotSpace_of_inactive ha le_rfl]
  case status =>
    intro σ₁ σ₂ h₁ h₂
    have h4 := hg.four_le
    obtain ⟨_, σ₁', e₁, i₁, _, v₁, _⟩ := does_spaceActive hg hs
    obtain ⟨-, rfl⟩ := Prod.mk.inj (Option.some.inj (e₁.symm.trans h₁))
    have hfetch : VDoes cfg (do fetchInstruction cfg 2; fetchInstruction cfg 1) σ₁' fun _ σ' ↦
        (σ'.processor 1).n < 2 ^ cfg.nSize ∧ (σ'.processor 2).n < 2 ^ cfg.nSize := by
      refine .bind (does_fetchInstruction hg (i₁.sized hs) (i := 2) (by omega))
        fun _ σa ia ⟨_, pa⟩ ↦ ?_
      refine (does_fetchInstruction hg (ia.sized (i₁.sized hs)) (i := 1) (by omega)).imp
        fun _ σb _ ⟨_, pb⟩ ↦ ⟨?_, ?_⟩
      · rw [pb]; exact Bits.field_lt _ _ _
      · rw [pb, pa]; exact Bits.field_lt _ _ _
    obtain ⟨_, σ₂', e₂, i₂, hn₁, hn₂⟩ := hfetch
    obtain ⟨-, rfl⟩ := Prod.mk.inj (Option.some.inj (e₂.symm.trans h₂))
    have hs₂ := i₂.sized (i₁.sized hs)
    refine ⟨channelStored hg hs₂ true (by omega) hn₂, fun σ₃ h₃ ↦ ?_⟩
    obtain ⟨_, σ₃', e₃, i₃, _, p₃, _⟩ := does_channel dev hg true hs₂
      (show 2 < cfg.processorN by omega)
    obtain ⟨-, rfl⟩ := Prod.mk.inj (Option.some.inj (e₃.symm.trans h₃))
    exact channelStored hg (i₃.sized hs₂) false (by omega) (by rw [p₃]; exact hn₁)

/-- The array keeps its size along every run. -/
theorem Reaches.sized (hg : cfg.Good) {σ σ' : Machine φ} (h : Reaches cfg dev σ σ')
    (hs : σ.Sized cfg) : σ'.Sized cfg := by
  induction h with
  | refl => exact hs
  | tail _ hstep ih =>
      obtain ⟨r, hr⟩ := hstep
      obtain ⟨r', σ₂, e, ins, _⟩ := does_spaceStep dev hg ih
      obtain ⟨-, rfl⟩ := Prod.mk.inj (Option.some.inj (e.symm.trans hr))
      exact ins.sized ih

end Contract

/-! ## Where the compile-time check overflows -/

/-- `σ'` has the positions addressed in `σ`, and perhaps more. -/
def Machine.Extends {φ : Type} (σ σ' : Machine φ) : Prop := σ.positions <:+ σ'.positions

instance {φ : Type} : Std.Refl (@Machine.Extends φ) := ⟨fun _ ↦ List.suffix_refl _⟩

instance {φ : Type} : IsTrans (Machine φ) Machine.Extends := ⟨fun _ _ _ h₁ h₂ ↦ h₁.trans h₂⟩

/-- A program only adds to the positions addressed so far. -/
abbrev Grows {φ α : Type} (x : VM φ α) : Prop := Moves Machine.Extends x

namespace Grows

variable {φ α : Type}

theorem same {g : Machine φ → α} {f : Machine φ → Machine φ}
    (hf : ∀ σ, (f σ).positions = σ.positions) : Grows (fun σ ↦ some (g σ, f σ) : VM φ α) :=
  Moves.modify fun σ ↦ show σ.positions <:+ (f σ).positions from
    (hf σ).symm ▸ List.suffix_refl σ.positions

theorem observe (event : SpaceEvent) : Grows (VM.observe event : VM φ Unit) :=
  same (f := fun σ ↦ { σ with events := event :: σ.events }) fun _ ↦ rfl

theorem setProcessor (i : Nat) (row : Instruction) : Grows (VM.setProcessor i row : VM φ Unit) :=
  same (f := fun σ ↦ { σ with processor := fun j ↦ if j = i then row else σ.processor j })
    fun _ ↦ rfl

theorem processor (i : Nat) : Grows (VM.processor i : VM φ Instruction) :=
  same (f := fun σ ↦ σ) fun _ ↦ rfl

theorem stream (output : Bool) : Grows (stream output : VM φ φ) :=
  same (f := fun σ ↦ σ) fun _ ↦ rfl

theorem setStream (output : Bool) (f : φ) : Grows (setStream output f : VM φ Unit) :=
  same (f := fun σ ↦ if output then { σ with out := f } else { σ with inp := f }) fun σ ↦ by
    cases output <;> rfl

theorem heap (x : CM Obj α) : Grows (VM.heap x : VM φ α) := by
  intro σ a σ' h
  unfold VM.heap at h
  cases hx : x σ.heap with
  | none => simp [hx] at h
  | some r =>
      simp only [hx, Option.map_some, Option.some.injEq, Prod.mk.injEq] at h
      rw [← h.2]
      exact List.suffix_refl _

theorem addressed (a n : Nat) : Grows (VM.addressed a n : VM φ Unit) :=
  Moves.modify fun _ ↦ List.suffix_cons _ _

variable (cfg : Config) (dev : Device φ)

theorem fetchField (i a : Nat) : Grows (fetchField cfg i a : VM φ Nat) :=
  (addressed _ _).bind fun _ ↦ heap _

theorem fetchInstruction (i : Nat) : Grows (fetchInstruction cfg i : VM φ Unit) :=
  (fetchField cfg i 0).bind fun _ ↦ (fetchField cfg i 1).bind fun _ ↦
    (fetchField cfg i 2).bind fun _ ↦ setProcessor _ _

theorem computationFrom (k i : Nat) : Grows (computationFrom cfg k i : VM φ Int) := by
  induction k generalizing i with
  | zero => exact .pure 0
  | succ k ih =>
      unfold CopySpace.computationFrom
      refine .ite (ih _) ((fetchInstruction cfg i).bind fun _ ↦ (processor i).bind fun row ↦
        .ite (ih _) ((observe _).bind fun _ ↦ .ite (.pure _) ?_))
      exact (addressed _ _).bind fun _ ↦ (addressed _ _).bind fun _ ↦ (heap _).bind fun _ ↦ ih _

theorem transfer (output : Bool) (a n : Nat) : Grows (transfer dev output a n) := by
  refine (stream _).bind fun f ↦ (addressed _ _).bind fun _ ↦ .ite ?_ ?_
  · exact (heap _).bind fun _ ↦ (setStream _ _).bind fun _ ↦ .pure _
  · exact (heap _).bind fun _ ↦ (setStream _ _).bind fun _ ↦ .pure _

theorem channel (slot : Nat) (output : Bool) : Grows (channel cfg dev slot output) := by
  refine (processor _).bind fun row ↦ .ite (.pure _) (.bind ?_ fun r ↦
    (addressed _ _).bind fun _ ↦ (heap _).bind fun _ ↦ observe _)
  exact .ite (.pure _) ((transfer dev _ _ _).bind fun _ ↦ .pure _)

theorem afterActive (active : Bool) : Grows (if active = false then Pure.pure .idle else do
    channels cfg dev
    let r ← computation cfg
    Pure.pure (if r = 0 then .done else .error) : VM φ SpaceStepResult) := by
  refine .ite (.pure _) (.bind ?_ fun _ ↦ (computationFrom cfg _ _).bind fun _ ↦ .pure _)
  exact (fetchInstruction cfg 2).bind fun _ ↦ (fetchInstruction cfg 1).bind fun _ ↦
    (channel cfg dev 2 true).bind fun _ ↦ channel cfg dev 1 false

end Grows

section Overflow

variable {φ : Type} {cfg : Config} {dev : Device φ}

theorem mem_positions_fetchField {i a : Nat} {σ σ' : Machine φ} {v : Nat}
    (h : fetchField cfg i a σ = some (v, σ')) :
    (u32 (processorStart + i * cfg.instructionSize + cfg.o a), cfg.s a) ∈ σ'.positions := by
  unfold fetchField at h
  obtain ⟨new, hnew⟩ := Grows.heap (getArgument .space _ (cfg.s a)) _ v σ' h
  rw [← hnew]
  simp

/-- Decoding slot `i` addresses its three fields. -/
theorem mem_positions_fetchInstruction {i a : Nat} (ha : a < 3) {σ σ' : Machine φ}
    (h : fetchInstruction cfg i σ = some ((), σ')) :
    (u32 (processorStart + i * cfg.instructionSize + cfg.o a), cfg.s a) ∈ σ'.positions := by
  unfold fetchInstruction at h
  cases h0 : fetchField cfg i 0 σ with
  | none => simp [StateT.bind, Bind.bind, h0] at h
  | some r0 =>
    cases h1 : fetchField cfg i 1 r0.2 with
    | none => simp [StateT.bind, Bind.bind, h0, h1] at h
    | some r1 =>
      cases h2 : fetchField cfg i 2 r1.2 with
      | none => simp [StateT.bind, Bind.bind, h0, h1, h2] at h
      | some r2 =>
        have hpos : σ'.positions = r2.2.positions := by
          simp only [StateT.bind, Bind.bind, h0, h1, h2, Option.bind_some, VM.setProcessor,
            Option.some.injEq, Prod.mk.injEq] at h
          rw [← h.2]
        have g₁ := Grows.fetchField cfg i 1 _ _ _ h1
        have g₂ := Grows.fetchField cfg i 2 _ _ _ h2
        rw [hpos]
        interval_cases a
        · exact g₂.subset (g₁.subset (mem_positions_fetchField h0))
        · exact g₂.subset (mem_positions_fetchField h1)
        · exact mem_positions_fetchField h2

theorem mem_positions_forUp {i a n : Nat} (hi : i < n) (ha : a < 3) {σ σ' : Machine φ}
    (h : forUp (fetchInstruction cfg) n σ = some ((), σ')) :
    (u32 (processorStart + i * cfg.instructionSize + cfg.o a), cfg.s a) ∈ σ'.positions := by
  induction n generalizing σ' with
  | zero => omega
  | succ n ih =>
      cases h1 : forUp (fetchInstruction cfg) n σ with
      | none => simp [forUp, StateT.bind, Bind.bind, h1] at h
      | some r =>
          have h2 : fetchInstruction cfg n r.2 = some ((), σ') := by
            simpa [forUp, StateT.bind, Bind.bind, h1] using h
          by_cases hin : i = n
          · exact hin ▸ mem_positions_fetchInstruction ha h2
          · exact (Grows.fetchInstruction cfg n _ _ _ h2).subset (ih (by omega) h1)

/-- A step that is defined has addressed every field of every slot. -/
theorem mem_positions_spaceStep {i a : Nat} (hi : i < cfg.processorN) (ha : a < 3)
    {σ σ' : Machine φ} {r : SpaceStepResult} (h : spaceStep cfg dev σ = some (r, σ')) :
    (u32 (processorStart + i * cfg.instructionSize + cfg.o a), cfg.s a) ∈ σ'.positions := by
  unfold spaceStep spaceActive spaceReadProcessor at h
  cases h1 : forUp (fetchInstruction cfg) cfg.processorN σ with
  | none => simp [StateT.bind, Bind.bind, h1] at h
  | some r1 =>
      have h2 := Grows.afterActive cfg dev (anyActive r1.2 cfg.processorN) r1.2 r σ'
        (by simpa only [StateT.bind, Bind.bind, h1, Option.bind_some] using h)
      exact h2.subset (mem_positions_forUp hi ha h1)

/-- When the number of processor bits does not fit in 32 bits, some field of some slot
leaves the space. -/
theorem exists_field_outside (hv : cfg.SpaceConfigurationValid) (he : ¬ cfg.Exact) :
    ∃ i < cfg.processorN, ∃ a < 3, cfg.spaceSize <
      u32 (processorStart + i * cfg.instructionSize + cfg.o a) + cfg.s a := by
  have hA := hv.2.1
  have hI : cfg.instructionSize = cfg.nSize + 2 * cfg.addressSize := rfl
  have hN : cfg.nSize + 1 = cfg.addressSize := by unfold Config.nSize; omega
  have hS := cfg.spaceSize_lt
  have hle : 2 ^ 32 ≤ cfg.processorN * cfg.instructionSize := Nat.le_of_not_lt he
  -- the slot in which the space ends
  have hlo : cfg.spaceSize / cfg.instructionSize * cfg.instructionSize ≤ cfg.spaceSize :=
    Nat.div_mul_le_self _ _
  have hhi : cfg.spaceSize <
      cfg.spaceSize / cfg.instructionSize * cfg.instructionSize + cfg.instructionSize :=
    Nat.lt_div_mul_add (by omega)
  have hi : cfg.spaceSize / cfg.instructionSize < cfg.processorN := by
    rw [Nat.div_lt_iff_lt_mul (by omega)]
    omega
  refine ⟨_, hi, ?_⟩
  generalize cfg.spaceSize / cfg.instructionSize * cfg.instructionSize = b at hlo hhi
  rw [processorStart, Nat.zero_add]
  by_cases h2 : b + cfg.o 2 < 2 ^ 32
  · refine ⟨2, by decide, ?_⟩
    rw [u32_of_lt h2]
    simp only [Config.o_two, Config.s_two]
    omega
  · by_cases h1 : b + cfg.o 1 < 2 ^ 32
    · refine ⟨1, by decide, ?_⟩
      rw [u32_of_lt h1]
      simp only [Config.o_one, Config.s_one, Config.o_two] at h2 ⊢
      omega
    · refine ⟨0, by decide, ?_⟩
      rw [u32_of_lt (by simp only [Config.o_zero]; omega)]
      simp only [Config.o_zero, Config.s_zero, Config.o_one] at h1 ⊢
      omega

/-- Where the check overflows no step keeps the contract. -/
theorem not_stepContract (hv : cfg.SpaceConfigurationValid) (he : ¬ cfg.Exact) (σ : Machine φ)
    (h0 : σ.positions = []) : ¬ StepContract cfg dev σ := by
  rintro ⟨⟨r, σ', hstep, ⟨_, new, hnew, hin⟩, _⟩, _⟩
  obtain ⟨i, hi, a, ha, hout⟩ := exists_field_outside hv he
  have hmem := mem_positions_spaceStep hi ha hstep
  rw [hnew, h0, List.append_nil] at hmem
  exact absurd (hin _ hmem) (by simpa using hout)

end Overflow

/-- The machine a build starts with: every byte zero and nothing accessed yet. -/
def Machine.zero {φ : Type} (cfg : Config) (inp out : φ) : Machine φ where
  heap := ⟨fun _ ↦ ⟨Array.replicate cfg.vmSpaceBytes 0, by simpa using cfg.addressable⟩, []⟩
  processor := fun _ ↦ ⟨0, 0, 0⟩
  inp := inp
  out := out
  positions := []
  events := []

theorem Machine.zero_sized {φ : Type} (cfg : Config) (inp out : φ) :
    (Machine.zero cfg inp out).Sized cfg := by
  simp [Sized, zero, Heap.size, Buffer.size]

/-- A stream at its end: nothing is read and nothing is accepted. -/
def Device.closed : Device Unit where
  fread := fun f _ ↦ ([], false, f)
  fwrite := fun f _ ↦ (0, true, f)
  fread_le := fun _ _ ↦ Nat.zero_le _
  fwrite_le := fun _ _ ↦ Nat.zero_le _

/-- Every step of every run keeps the contract, from any contents of the space and over any
streams, if and only if the number of processor bits fits in 32 bits. -/
theorem steps_safe_iff_exact (cfg : Config) (hv : cfg.SpaceConfigurationValid) :
    (∀ (φ : Type) (dev : Device φ) (σ₀ σ : Machine φ), σ₀.Sized cfg → Reaches cfg dev σ₀ σ →
      StepContract cfg dev σ) ↔ cfg.Exact := by
  constructor
  · intro hsafe
    by_contra he
    exact not_stepContract hv he (Machine.zero cfg () ()) rfl
      (hsafe Unit Device.closed _ _ (Machine.zero_sized cfg () ()) .refl)
  · intro he φ dev σ₀ σ hs hr
    have hg := hv.good he
    exact step_contract hg (hr.sized hg hs)

/-- The emulator's own tests are built with 512 bytes and 117 slots. -/
theorem steps_safe_small : (∀ (φ : Type) (dev : Device φ) (σ₀ σ : Machine φ),
    σ₀.Sized ⟨512, 117, by decide, by decide⟩ → Reaches ⟨512, 117, by decide, by decide⟩ dev σ₀ σ →
      StepContract ⟨512, 117, by decide, by decide⟩ dev σ) ↔
    Config.Exact ⟨512, 117, by decide, by decide⟩ :=
  steps_safe_iff_exact ⟨512, 117, by decide, by decide⟩ (by decide)

/-- With 2 MiB and 60492498 slots the product of 4294967358 bits wraps around to 62, the
check passes, and already the first step of a zeroed space is not safe. -/
theorem overflow_unsafe : let cfg : Config := ⟨2097152, 60492498, by decide, by decide⟩
    cfg.SpaceConfigurationValid ∧
      ¬ StepContract cfg Device.closed (Machine.zero cfg () ()) := by
  intro cfg
  have hv : cfg.SpaceConfigurationValid := by decide
  exact ⟨hv, not_stepContract hv (by decide) _ rfl⟩

end CopySpace
