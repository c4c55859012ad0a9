import CopySpace.Target.Labels
import CopySpace.Target.Machine

/-!
# The state of the target machine in the space

The registers are words of the space, the last comparison is five bits of it, and the memory is at
its end.  `Implements` says that what is emitted for an operation changes these as the operation
changes the state, or goes where a run is stopped.
-/

namespace CopySpace.Target

open Link Emit BitMachine

variable {cfg : Config} {ctx ctx' ctx₁ : Context} {F : Linked} {D D' : Bits} {base n : Nat}
  {s s' : State} {d r : Register} {v : Word} {k : Key} {R : Bits → Bits → Prop} {o : Operation}

/-! ## Registers -/

/-- The position of a register. -/
def registerAt (r : Register) : Nat := regBase + 32 * r.val

theorem isRegister_registerAt (r : Register) : IsRegister (registerAt r) := ⟨r.val, r.isLt, rfl⟩

theorem registerAt_ne (h : r ≠ d) : registerAt r ≠ registerAt d := by
  intro he
  refine h (Fin.ext ?_)
  unfold registerAt at he
  omega

/-- The registers in some data. -/
def registersIn (D : Bits) (r : Register) : Word := word D (registerAt r)

/-! ## Bytes -/

/-- The byte at a position. -/
def byteAt (D : Bits) (p : Nat) : BitVec 8 := Bits.toBitVec 8 fun i ↦ D (p + i)

theorem getLsbD_byteAt (D : Bits) (p : Nat) {i : Nat} (hi : i < 8) :
    (byteAt D p).getLsbD i = D (p + i) := Bits.getLsbD_toBitVec 8 _ hi

theorem byteAt_congr {p q : Nat} (h : ∀ i < 8, D' (p + i) = D (q + i)) : byteAt D' p = byteAt D q :=
  Bits.toBitVec_congr h

/-! ## The state in the data -/

/-- The data show the state, with the memory of `n` bytes at `base`; without a base there is no
memory. -/
structure Represents (base n : Nat) (s : State) (D : Bits) : Prop where
  registers : registersIn D = s.register
  eq : D cmpEq = s.comparison.eq
  ltu : D cmpLtu = s.comparison.ltu
  lts : D cmpLts = s.comparison.lts
  leu : D cmpLeu = s.comparison.leu
  les : D cmpLes = s.comparison.les
  memory : base ≠ 0 → ∀ a < n, byteAt D (base + 8 * a) = s.memory a

theorem Represents.word (h : Represents base n s D) (r : Register) :
    Emit.word D (registerAt r) = s.register r := congrFun h.registers r

/-- A position that the state may depend on. -/
def Visible (p : Nat) : Prop :=
  regBase ≤ p ∧ p < regBase + 512 ∨ cmpEq ≤ p ∧ p ≤ cmpLes ∨ branchTable ≤ p

/-- The memory, if there is one, is above the tables. -/
def Based (ctx : Context) (base : Nat) : Prop :=
  (ctx.dataBegin ≠ 0 → base = ctx.dataBegin) ∧ (base ≠ 0 → branchTable ≤ base)

theorem Based.mono {cfg : Config} (h : Based ctx' base) (hx : Extends cfg ctx ctx') :
    Based ctx base := by
  refine ⟨fun h0 ↦ ?_, h.2⟩
  have hmemory := (hx.memory h0).dataBegin
  rw [h.1 (by rwa [hmemory]), hmemory]

theorem visible_registerAt (r : Register) {i : Nat} (hi : i < 32) : Visible (registerAt r + i) := by
  have hr := r.isLt
  refine .inl ⟨?_, ?_⟩ <;> unfold registerAt <;> omega

/-- Only what is visible matters. -/
theorem Represents.congr (h : Represents base n s D) (hbase : base ≠ 0 → branchTable ≤ base)
    (hD : ∀ p, Visible p → D' p = D p) : Represents base n s D' where
  registers := by
    rw [← h.registers]
    funext r
    exact word_congr fun i hi ↦ hD _ (visible_registerAt r hi)
  eq := (hD _ (.inr (.inl (by decide)))).trans h.eq
  ltu := (hD _ (.inr (.inl (by decide)))).trans h.ltu
  lts := (hD _ (.inr (.inl (by decide)))).trans h.lts
  leu := (hD _ (.inr (.inl (by decide)))).trans h.leu
  les := (hD _ (.inr (.inl (by decide)))).trans h.les
  memory h0 a ha := by
    have hle := hbase h0
    rw [← h.memory h0 a ha]
    exact byteAt_congr fun i hi ↦ hD _ (.inr (.inr (by omega)))

/-- A register is given a value, and nothing else that is visible changes. -/
structure Sets (d : Register) (v : Word) (D D' : Bits) : Prop where
  word : word D' (registerAt d) = v
  rest : ∀ p, Visible p → ¬(registerAt d ≤ p ∧ p < registerAt d + 32) → D' p = D p

theorem Sets.of_places (h : Places (registerAt d) v D D') : Sets d v D D' :=
  ⟨h.word, fun p _ hp ↦ h.rest p hp⟩

theorem Represents.set (h : Represents base n s D) (hbase : base ≠ 0 → branchTable ≤ base)
    (hd : Sets d v D D') : Represents base n (s.set d v) D' := by
  have hbounds := (isRegister_registerAt d).bounds
  have hflag : ∀ p, cmpEq ≤ p → p ≤ cmpLes → D' p = D p := fun p hp hp' ↦
    hd.rest p (.inr (.inl ⟨hp, hp'⟩)) (by
      dsimp only [cmpEq, regBase] at hp hbounds
      omega)
  refine ⟨?_, (hflag _ (by decide) (by decide)).trans h.eq,
    (hflag _ (by decide) (by decide)).trans h.ltu, (hflag _ (by decide) (by decide)).trans h.lts,
    (hflag _ (by decide) (by decide)).trans h.leu, (hflag _ (by decide) (by decide)).trans h.les,
    fun h0 a ha ↦ ?_⟩
  · funext r
    by_cases hr : r = d
    · subst hr
      rw [State.register_set_self]
      exact hd.word
    · rw [State.register_set_of_ne hr, ← h.registers]
      have happart := (isRegister_registerAt r).separate (isRegister_registerAt d)
        (registerAt_ne hr)
      unfold Separate at happart
      exact word_congr fun i hi ↦ hd.rest _ (visible_registerAt r hi) (by omega)
  · have hle := hbase h0
    rw [State.memory_set, ← h.memory h0 a ha]
    refine byteAt_congr fun i hi ↦ hd.rest _ (.inr (.inr (by omega))) ?_
    dsimp only [branchTable, regBase] at hle hbounds
    omega

/-- The flags of a comparison are set, and nothing else that is visible changes. -/
theorem Represents.compare (h : Represents base n s D) (hbase : base ≠ 0 → branchTable ≤ base)
    {l r : Register} (hc : Compares (registerAt l) (registerAt r) D D') :
    Represents base n { s with comparison := .of (s.register l) (s.register r) } D' := by
  obtain ⟨heq, hltu, hlts, hleu, hles⟩ := hc.flags
  rw [h.word, h.word] at heq hltu hlts hleu hles
  refine ⟨?_, heq, hltu, hlts, hleu, hles, fun h0 a ha ↦ ?_⟩
  · rw [← h.registers]
    funext r
    have hbounds := (isRegister_registerAt r).bounds
    refine word_congr fun i hi ↦ hc.rest _ ?_
    dsimp only [regBase, cmpEq, cmpSign] at hbounds ⊢
    omega
  · have hle := hbase h0
    rw [← h.memory h0 a ha]
    refine byteAt_congr fun i hi ↦ hc.rest _ ?_
    dsimp only [branchTable, cmpEq, cmpSign] at hle ⊢
    omega

/-! ## Operations -/

/-- A label of the linker that has not been defined yet, although something jumps there. -/
structure Awaited (ctx : Context) (k : Key) : Prop where
  pending : Pending ctx k
  jump : ∃ j ∈ ctx.jumps, j.label = some k

/-- What stands between two contexts does an operation. -/
structure Implements (cfg : Config) (ctx : Context) (o : Operation) (ctx' : Context) : Prop where
  sound : ctx'.Sound cfg
  extension : Extends cfg ctx ctx'
  completes : ∀ F : Linked, F.Final cfg ctx' → ∀ base, Based ctx' base → ∀ D s, F.Runs D →
    Represents base ctx.memoryBytes s D → ∀ s', o.run ctx.memoryBytes s = some s' →
      ∃ D', Represents base ctx.memoryBytes s' D' ∧ F.Runs D' ∧
        Leads cfg F.data ctx.spot D ctx'.spot D'
  faults : ∀ F : Linked, F.Final cfg ctx' → ∀ base, Based ctx' base → ∀ D s, F.Runs D →
    Represents base ctx.memoryBytes s D → o.run ctx.memoryBytes s = none →
      ∃ k, Awaited ctx' k ∧ ∃ D', F.Runs D' ∧
        Leads cfg F.data ctx.spot D ⟨F.target (some k), 3⟩ D'

/-- An operation that does not fail. -/
theorem Implements.of_emits {f : State → State} (h : Emits cfg ctx R ctx')
    (hrun : ∀ n s, o.run n s = some (f s))
    (hR : ∀ base n, (base ≠ 0 → branchTable ≤ base) → ∀ D D' s, Represents base n s D → R D D' →
      Represents base n (f s) D') : Implements cfg ctx o ctx' := by
  refine ⟨h.sound, h.extension, fun F hF base hbase D s hD hs s' hs' ↦ ?_,
    fun F hF base hbase D s hD hs hnone ↦ ?_⟩
  · obtain ⟨D', hDD, hD', hl⟩ := h.leads F hF D hD
    rw [hrun, Option.some.injEq] at hs'
    subst hs'
    exact ⟨D', hR base _ hbase.2 D D' s hs hDD, hD', hl⟩
  · rw [hrun] at hnone
    cases hnone

/-- An operation that gives a register a value. -/
theorem Implements.of_sets {f : (Register → Word) → Word}
    (h : Emits cfg ctx (fun D D' ↦ Sets d (f (registersIn D)) D D') ctx')
    (hrun : ∀ n s, o.run n s = some (s.set d (f s.register))) : Implements cfg ctx o ctx' := by
  refine .of_emits h hrun fun base n hbase D D' s hs hset ↦ ?_
  rw [hs.registers] at hset
  exact hs.set hbase hset

end CopySpace.Target
