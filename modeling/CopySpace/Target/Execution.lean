import CopySpace.Target.Start

/-!
# Linked leaves are executed

The emulator loads the first layer of a leaf and follows the program.  When the program returns,
the emulator writes the four bytes of the result and comes to rest; when the program faults, it
comes to rest without writing anything.
-/

namespace CopySpace.Target

open Link Emit BitMachine

variable {φ : Type} {cfg : Config} {dev : Device φ} {G : LeafImage} {F : Linked}
  {program : List (Statement Key)} {s : State} {D D' m : Bits} {x y : BitMachine φ} {e : Spot}
  {arguments : List Word} {lo b : Nat}

/-! ## The last layers -/

/-- The bytes of the result, the lowest first. -/
def resultBytes (s : State) : List Byte :=
  (List.range 4).map fun i ↦ (s.register 2).extractLsb' (8 * i) 8

/-- What has been copied into the output are the bytes of the result. -/
theorem bytes_of_copied {v : Word} (h : Copied 32 D D') (hv : word D (registerAt 2) = v) :
    D'.bytes (output / 8) 4 = (List.range 4).map fun i ↦ v.extractLsb' (8 * i) 8 := by
  subst hv
  refine List.map_congr_left fun k hk ↦ ?_
  rw [List.mem_range] at hk
  refine BitVec.eq_of_getLsbD_eq fun j hj ↦ ?_
  have hbit := h.result (8 * k + j) (by omega)
  rw [outputBit, show output + (8 * k + j) / 8 * 8 + 7 - (8 * k + j) % 8 =
    8 * (output / 8 + k) + (7 - j) by dsimp only [output]; omega] at hbit
  rw [Bits.getLsbD_byte _ _ hj, hbit, BitVec.getLsbD_extractLsb', decide_eq_true hj, Bool.true_and,
    getLsbD_word D _ (by omega)]
  rfl

/-- The image is executed by an emulator with 256 slots whose space is large enough. -/
structure Executable (cfg : Config) (F : Linked) : Prop where
  target : Target cfg
  address_le : cfg.addressSize ≤ 31
  begin_le : branchTable ≤ F.codeLimit
  limit_le : F.codeLimit ≤ cfg.spaceSize

namespace Executable

variable (h : Executable cfg F)

include h

theorem layerBits_le : cfg.layerBits ≤ constantBase := by
  have hL := h.target.layerBits_eq
  have hI := h.target.instructionSize_eq
  have ha := h.address_le
  dsimp only [constantBase]
  omega

theorem layerBits_ne : cfg.layerBits ≠ 0 := by
  have hL := h.target.layerBits_eq
  have hI := h.target.instructionSize_eq
  have h5 := h.target.five_le
  omega

theorem slots_ge : 4 ≤ cfg.processorN := by
  rw [h.target.slots]
  decide

theorem good : cfg.Good := by
  have hlayer := h.target.layer
  have hpow := h.target.two_pow_le
  have h5 := h.target.five_le
  refine ⟨h.slots_ge, by omega, ?_⟩
  rw [Config.layerBits] at hlayer
  omega

theorem behind_zeroLayer : Behind cfg zeroLayer cfg.layerBits := by
  have hL := h.target.layerBits_eq
  have hI := h.target.instructionSize_eq
  have ha := h.address_le
  have hbegin := h.begin_le
  have hlimit := h.limit_le
  have hle := h.layerBits_le
  refine ⟨?_, ?_⟩ <;> dsimp only [constantBase, zeroLayer, branchTable] at * <;> omega

end Executable

/-- The machine comes to rest when it has loaded the empty layer. -/
theorem idle_of_loaded (hzero : ∀ p < cfg.layerBits, F.data (zeroLayer + p) = false)
    (h : Executable cfg F) (hD : F.Runs D) (hm : Loaded cfg zeroLayer D m) (inp out : φ) :
    BitMachine.step cfg dev ⟨m, inp, out⟩ = (.idle, ⟨m, inp, out⟩) := by
  refine step_idle (fun p hp ↦ ?_) inp out
  rw [hm.layer p hp, hD _ ?_, hzero p hp]
  have hbehind := h.begin_le
  have hL := h.target.layerBits_eq
  have hI := h.target.instructionSize_eq
  have ha := h.address_le
  refine .inr (.inr (.inr (.inr (.inl ⟨Nat.le_add_right _ _, ?_⟩))))
  dsimp only [zeroLayer, branchTable] at *
  omega

/-- The machine comes to rest, with `out` as its output. -/
def Rests (cfg : Config) (dev : Device φ) (x : BitMachine φ) (out : φ) : Prop :=
  ∃ y, Ticks cfg dev x y ∧ BitMachine.step cfg dev y = (.idle, y) ∧ y.inp = x.inp ∧ y.out = out

/-- A run is stopped. -/
theorem rests_of_stops (hzero : ∀ p < cfg.layerBits, F.data (zeroLayer + p) = false)
    (h : Executable cfg F) {a : Nat} (hstop : Stops cfg F a) (hD : F.Runs D)
    (hx : At cfg dev F.data ⟨a, 3⟩ D x) : Rests cfg dev x x.out := by
  have hN := h.target.slots
  have hexecutes : Executes cfg 3 (rowsFrom cfg F.data a 3) D (cfg.processorN - 1)
      [⟨cfg.layerBits, 0, zeroLayer⟩] D := by
    have hperform : Performs cfg 3 _ D D := performs_empty le_rfl 252
    have hperform := hperform [⟨cfg.layerBits, 0, zeroLayer⟩]
    rw [List.length_replicate] at hperform
    rw [hstop, hN]
    exact hperform
  obtain ⟨m, hstep, hload⟩ := hx.load h.slots_ge hexecutes h.behind_zeroLayer
  exact ⟨_, .single hstep, idle_of_loaded hzero h hD hload _ _, rfl, rfl⟩

theorem bytes_congr {i n : Nat} (h : ∀ p, 8 * i ≤ p → m p = D p) : m.bytes i n = D.bytes i n :=
  List.map_congr_left fun k _ ↦ Bits.toBitVec_congr fun j _ ↦ h _ (by omega)

/-- The slots in front of the first copy, when a channel has written its status. -/
theorem exec_channel {v : Nat} (h : m.row cfg 0 = ⟨0, 0, 0⟩) :
    Exec cfg 0 3 (m.putField (statusAt cfg 2) cfg.addressSize v)
      (m.putField (statusAt cfg 2) cfg.addressSize v) := by
  refine (Exec.trans ⟨1, rfl, fun k ↦ computationFrom_of_zero ?_⟩
    ⟨1, rfl, fun k ↦ computationFrom_of_channel (.inl rfl)⟩).trans
      ⟨1, rfl, fun k ↦ computationFrom_of_channel (.inr rfl)⟩
  have hrow : (m.putField (statusAt cfg 2) cfg.addressSize v).row cfg 0 = m.row cfg 0 :=
    rowAt_congr fun p hp ↦ Bits.putField_of_notMem _ (by
      unfold statusAt
      omega)
  rw [hrow, h]

theorem length_reportRows : (reportRows cfg).length = 256 := by
  rw [reportRows, List.length_append, List.length_append, List.length_replicate]
  rfl

/-- The last layer writes the output, and loads the empty layer. -/
theorem step_report (h : Executable cfg F) (hrows : RowsAt cfg F.data b (reportRows cfg))
    (hb : branchTable ≤ b) (hlimit : b + cfg.layerBits ≤ F.codeLimit) (hD : F.Runs D)
    (hm : Loaded cfg b D m) (inp out : φ) : ∃ m', BitMachine.step cfg dev ⟨m, inp, out⟩ =
      (.done, ⟨m', inp, (dev.fwrite out (D.bytes (output / 8) 4)).2.2⟩) ∧
        Loaded cfg zeroLayer D m' := by
  have hN := h.target.slots
  have hL := h.target.layerBits_eq
  have hI : cfg.instructionSize = cfg.nSize + 2 * cfg.addressSize := rfl
  have hle := h.layerBits_le
  have hspace := h.limit_le
  have hbegin := h.begin_le
  have hrows : RowsAt cfg m (0 * cfg.instructionSize) (reportRows cfg) :=
    hrows.congr fun p hp ↦ by
      rw [length_reportRows, ← hL] at hp
      rw [Nat.zero_mul, Nat.zero_add, hm.layer p hp]
      refine hD _ (.inr (.inr (.inr (.inr (.inl ⟨?_, by omega⟩)))))
      dsimp only [zeroLayer, branchTable] at *
      omega
  have hrow₀ : m.row cfg 0 = ⟨0, 0, 0⟩ := hrows.get (k := 0) rfl
  have hrow₁ : m.row cfg 1 = ⟨0, 0, 0⟩ := hrows.get (k := 1) rfl
  have hrow₂ : m.row cfg 2 = ⟨32, output, status⟩ := hrows.get (k := 2) rfl
  have hrest := (rowsAt_append.mp hrows).2
  have hreject : ¬ ChannelRejects cfg 32 output := by
    unfold ChannelRejects
    dsimp only [output, branchTable] at *
    omega
  obtain ⟨v, hchannels⟩ : ∃ v, BitMachine.channels cfg dev ⟨m, inp, out⟩ =
      ⟨m.putField (statusAt cfg 2) cfg.addressSize v, inp,
        (dev.fwrite out (m.bytes (output / 8) 4)).2.2⟩ :=
    ⟨_, (channel_of_zero cfg dev 1 false (m.row cfg 1) _ (by rw [hrow₁])).trans
      ((congrArg (fun row ↦ BitMachine.channel cfg dev 2 true row ⟨m, inp, out⟩) hrow₂).trans
        (channel_output dev 2 ⟨32, output, status⟩ _ (by decide) hreject))⟩
  have hactive : active cfg m := ⟨2, by omega, by rw [hrow₂]; decide⟩
  have hholds : Holds cfg 3 (List.replicate 252 ⟨0, 0, 0⟩ ++ [⟨cfg.layerBits, 0, zeroLayer⟩]) D
      (m.putField (statusAt cfg 2) cfg.addressSize v) := by
    refine ⟨?_, hrest.congr fun p hp ↦ ?_, fun p hp ↦ ?_⟩
    · rw [List.length_append, List.length_replicate, hN]
      rfl
    · rw [Nat.zero_mul, Nat.zero_add]
      refine Bits.putField_of_notMem _ ?_
      unfold statusAt
      omega
    · refine (Bits.putField_of_notMem _ ?_).trans (hm.data p hp)
      unfold statusAt
      omega
  have hperform : Performs cfg 3 _ D D := performs_empty le_rfl 252
  have hperform := hperform [⟨cfg.layerBits, 0, zeroLayer⟩]
  rw [List.length_replicate] at hperform
  obtain ⟨m₁, hexec, hlast⟩ := hperform _ hholds
  rw [show (3 + 252 : Nat) = cfg.processorN - 1 by rw [hN]] at hexec hlast
  rw [← bytes_congr fun p hp ↦ hm.data p (by dsimp only [constantBase, output] at *; omega)]
  exact step_of_exec h.slots_ge hactive hchannels ((exec_channel hrow₀).trans hexec) hlast
    h.behind_zeroLayer

/-- The result is reported. -/
theorem rests_of_reports (hzero : ∀ p < cfg.layerBits, F.data (zeroLayer + p) = false)
    (h : Executable cfg F) (hr : Reports cfg F e b) (hD : F.Runs D)
    (hx : At cfg dev F.data ⟨F.target none, 3⟩ D x) : Rests cfg dev x
      (dev.fwrite x.out ((List.range 4).map fun i ↦
        (word D (registerAt 2)).extractLsb' (8 * i) 8)).2.2 := by
  have hN := h.target.slots
  have hbegin := hr.begin_le
  have hlimit := hr.limit
  have hspace := h.limit_le
  have hle := h.layerBits_le
  obtain ⟨D', hcopied, hD', hl⟩ := hr.copied D hD
  obtain ⟨y, hxy, hin, hout, hy⟩ := hl φ dev x hx
  have hexecutes : Executes cfg e.slot (rowsFrom cfg F.data e.layer e.slot) D' (cfg.processorN - 1)
      [⟨cfg.layerBits, 0, b⟩] D' := by
    have hslot := hr.slot_le
    have hperform : Performs cfg e.slot _ D' D' := performs_empty hr.three_le (255 - e.slot)
    have hperform := hperform [⟨cfg.layerBits, 0, b⟩]
    rw [List.length_replicate, show e.slot + (255 - e.slot) = cfg.processorN - 1 by omega]
      at hperform
    rw [hr.rows]
    exact hperform
  obtain ⟨m, hstep, hload⟩ := At.load h.slots_ge hy hexecutes
    ⟨by dsimp only [constantBase, branchTable] at *; omega, by omega⟩
  obtain ⟨m', hstep', hload'⟩ := step_report h hr.last hbegin hlimit hD' hload y.inp y.out
  have hbytes := bytes_of_copied hcopied (v := word D (registerAt 2)) rfl
  rw [hbytes] at hstep'
  refine ⟨_, (hxy.tail hstep).tail hstep', idle_of_loaded hzero h hD' hload' _ _, hin, ?_⟩
  dsimp only
  rw [hout]

/-! ## Whole runs -/

namespace Carries

variable (h : Carries cfg lo arguments program G)

include h

theorem executable : Executable cfg G.image := by
  obtain ⟨hbegin, hlimit, -⟩ := h.landing
  exact ⟨h.target, h.address_le, by omega, h.limit⟩

/-- The first tick loads the first layer. -/
theorem follows (hm : ∀ p < cfg.spaceSize, m p = G.image.data p) (inp out : φ) :
    LeafImage.Follows cfg dev G ⟨m, inp, out⟩ (program, initialState arguments) := by
  have he := h.executable
  have hN := he.target.slots
  have hL := he.target.layerBits_eq
  have hbegin := he.begin_le
  have hlimit := he.limit_le
  have hle := he.layerBits_le
  have hbase : constantBase ≤ branchTable := by decide
  have hN' : ([] : List Instruction).length + 4 ≤ cfg.processorN := he.slots_ge
  have hrows : RowsAt cfg m 0 (layerRows cfg [] lo) := h.boot.congr fun p hp ↦ by
    rw [length_layerRows hN', hN] at hp
    exact hm _ (by omega)
  obtain ⟨m', hstep, hload⟩ := step_layer dev hN' hrows (fun _ _ ↦ rfl) performs_nil
    he.layerBits_ne h.landing.2.2.behind inp out
  have hbehind := h.landing.2.2.behind.2
  exact ⟨_, h.located, m, _, h.initial m hm, .single hstep, rfl, rfl,
    hload.at he.slots_ge he.layerBits_ne h.landing.2.2 (fun p hp ↦ hm _ (by omega)) inp out⟩

end Carries

/-- What the machine does in the end. -/
def Outcome (cfg : Config) (dev : Device φ) (x : BitMachine φ) : Progress Key → Prop
  | .onward _ _ => True
  | .returned s => Rests cfg dev x (dev.fwrite x.out (resultBytes s)).2.2
  | .fault => Rests cfg dev x x.out
  | .stuck => False

theorem Rests.of_arrives {P : Bits → Prop} {a : Spot} {f : φ → φ}
    (h : LeafImage.Arrives cfg dev G x a P)
    (hf : ∀ D y, P D → At cfg dev G.image.data a D y → Rests cfg dev y (f y.out)) :
    Rests cfg dev x (f x.out) := by
  obtain ⟨D, y, hD, hxy, hin, hout, hy⟩ := h
  obtain ⟨z, hyz, hidle, hin', hout'⟩ := hf D y hD hy
  exact ⟨z, hxy.trans hyz, hidle, hin'.trans hin, by rw [hout', hout]⟩

theorem Carries.outcome_of_continues (h : Carries cfg lo arguments program G) {p : Progress Key}
    (hp : LeafImage.Continues cfg dev G x p) : Outcome cfg dev x p := by
  cases p with
  | onward rest s => trivial
  | returned s =>
      obtain ⟨e, b, hr⟩ := h.reports
      refine Rests.of_arrives (f := fun out ↦ (dev.fwrite out (resultBytes s)).2.2) hp
        fun D y hD hy ↦ ?_
      have hword := hD.represents.word 2
      have hrest := rests_of_reports h.zero h.executable hr hD.runs hy
      rwa [hword] at hrest
  | fault =>
      obtain ⟨a, hstop, hp⟩ := hp
      exact Rests.of_arrives (f := id) hp fun D y hD hy ↦
        rests_of_stops h.zero h.executable (h.stops a hstop) hD hy
  | stuck => exact hp.elim

/-- A run of the target machine, and the machine that executes the image. -/
theorem Carries.outcome (h : Carries cfg lo arguments program G)
    (hm : ∀ p < cfg.spaceSize, m p = G.image.data p) (inp out : φ) (n : Nat) :
    Outcome cfg dev ⟨m, inp, out⟩
      (runFor leafMemory program n program (initialState arguments)) := by
  by_cases hend : ∃ rest s, runFor leafMemory program n program (initialState arguments) =
      .onward rest s
  · obtain ⟨rest, s, he⟩ := hend
    rw [he]
    trivial
  · push Not at hend
    obtain ⟨c, hreaches, hc⟩ := reaches_of_runFor rfl hend
    rw [← hc]
    exact h.outcome_of_continues (h.holds.continues hreaches (h.follows hm inp out))

/-- `space_step` comes to rest after some calls, with `out` as its output. -/
def SpaceRests (cfg : Config) (dev : Device φ) (σ : Machine φ) (out : φ) : Prop :=
  ∃ σ' τ, SpaceTicks cfg dev σ σ' ∧ spaceStep cfg dev σ' = some (.idle, τ) ∧ τ.inp = σ.inp ∧
    τ.out = out

theorem Rests.spaceRests {σ : Machine φ} {out : φ} (hg : cfg.Good) (hs : σ.Sized cfg)
    (h : Rests cfg dev σ.view out) : SpaceRests cfg dev σ out := by
  obtain ⟨y, hticks, hidle, hin, rfl⟩ := h
  obtain ⟨σ', hσ, hs', rfl⟩ := hticks.spaceTicks hg hs
  obtain ⟨τ, hτ, -, hview⟩ := spaceStep_of_step hg hs' hidle
  exact ⟨σ', τ, hσ, hτ, (congrArg BitMachine.inp hview).trans hin, congrArg BitMachine.out hview⟩

/-- What `cs_copy_link_leaf` accepts is a program of the target machine, and the emulator does with
the image what the program does: when this returns, the emulator comes to rest after it has written
the four bytes of the result and nothing else, and when it faults, without having written
anything.  A label is never missing. -/
theorem csCopyLinkLeaf_runs {capacities : Capacities} {bytes addressBits : Nat}
    {assembly entry : Text} {E : Bits} (hN : cfg.processorN = 256)
    (hS : cfg.spaceSize = 2 ^ addressBits)
    (h : csCopyLinkLeaf capacities bytes addressBits assembly entry arguments = .ok E) :
    ∃ l, Target.program assembly = some l ∧ ∀ {φ : Type} (dev : Device φ) (σ : Machine φ),
      σ.Sized cfg → (∀ p < cfg.spaceSize, σ.heap.bit .space p = E p) → ∀ n,
        (∀ s, runFor leafMemory l n l (initialState arguments) = .returned s →
          SpaceRests cfg dev σ (dev.fwrite σ.out (resultBytes s)).2.2) ∧
        (runFor leafMemory l n l (initialState arguments) = .fault →
          SpaceRests cfg dev σ σ.out) ∧
        runFor leafMemory l n l (initialState arguments) ≠ .stuck := by
  obtain ⟨l, G, hl, rfl, hcarries⟩ := carries_csCopyLinkLeaf hN hS h
  refine ⟨l, hl, fun {φ} dev σ hs hσ n ↦ ?_⟩
  have hg := hcarries.executable.good
  have houtcome : Outcome cfg dev σ.view (runFor leafMemory l n l (initialState arguments)) :=
    hcarries.outcome hσ σ.inp σ.out n
  refine ⟨fun s hrun ↦ ?_, fun hrun ↦ ?_, fun hrun ↦ ?_⟩
  all_goals rw [hrun] at houtcome
  · exact Rests.spaceRests hg hs houtcome
  · exact Rests.spaceRests hg hs houtcome
  · exact houtcome

/-- A leaf that subtracts its second argument from its first one. -/
def differenceText : Text := "f:\ncopy.sub $r0, $r1\ncopy.ret\n".toList

/-- As much as this leaf needs. -/
def smallCapacities : Capacities := ⟨4, 4, 1, 1, 1⟩

theorem leaf_addressable : 8 * 32768 < 2 ^ 64 := by decide

theorem leaf_unsigned : 256 < 2 ^ 32 := by decide

/-- An emulator whose space is as large as the smallest image. -/
def leafConfig : Config := ⟨32768, 256, leaf_addressable, leaf_unsigned⟩

theorem accepts_difference : ∃ E, csCopyLinkLeaf smallCapacities 32768 18 differenceText
    "f".toList [7#32, 5#32] = .ok E := by
  have hsome : (unfinishedLeaf smallCapacities 32768 18 differenceText "f".toList
      [7#32, 5#32]).isSome = true := by decide +kernel
  obtain ⟨ctx, hctx⟩ := Option.isSome_iff_exists.mp hsome
  have hN : leafConfig.processorN = 256 := by decide
  have hS : leafConfig.spaceSize = 2 ^ 18 := by decide
  exact ok_of_unfinished hN hS (by decide) hctx

theorem result_difference : ((Target.program differenceText).bind fun l ↦
    (runFor leafMemory l 4 l (initialState [7#32, 5#32])).result).map resultBytes =
      some [2, 0, 0, 0] := by
  decide +kernel

/-- The image of the leaf writes the difference of the arguments. -/
theorem csCopyLinkLeaf_runs_difference : ∃ E, csCopyLinkLeaf smallCapacities 32768 18
    differenceText "f".toList [7#32, 5#32] = .ok E ∧
      SpaceRests leafConfig File.device (Machine.ofBits leafConfig E) ⟨[2, 0, 0, 0], 0⟩ := by
  obtain ⟨E, hE⟩ := accepts_difference
  have hN : leafConfig.processorN = 256 := by decide
  have hS : leafConfig.spaceSize = 2 ^ 18 := by decide
  obtain ⟨l, hl, hruns⟩ := csCopyLinkLeaf_runs hN hS hE
  have hresult := result_difference
  rw [hl] at hresult
  obtain ⟨s, hs, hbytes⟩ := Option.map_eq_some_iff.mp hresult
  have hrests := (hruns File.device (Machine.ofBits leafConfig E) (Machine.sized_ofBits _ E)
    (fun p hp ↦ Machine.bit_ofBits E hp) 4).1 s (Progress.eq_returned hs)
  rw [hbytes] at hrests
  exact ⟨E, hE, hrests⟩

end CopySpace.Target
