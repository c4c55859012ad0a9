import CopySpace.Emit.Program
import CopySpace.Lib.Ripple

/-!
# The operations

What the calls of a program are for: copies, additions and subtractions modulo `2 ^ 32`, and
the bitwise operations.  `Call.effect` says it without rows and tables, and `lookup_eq_effect`
that the rows do it as long as the table of the call holds what the call has written there.
-/

namespace CopySpace.Emit

open BitMachine

/-! ## The effect of a call -/

/-- The word at `a`. -/
def word (m : Bits) (a : Nat) : BitVec 32 := Bits.toBitVec 32 fun i ↦ m (a + i)

theorem getLsbD_word (m : Bits) (a : Nat) {i : Nat} (hi : i < 32) :
    (word m a).getLsbD i = m (a + i) := Bits.getLsbD_toBitVec 32 _ hi

def BitOperation.apply : BitOperation → BitVec 32 → BitVec 32 → BitVec 32
  | and => fun x y ↦ x &&& y
  | or => fun x y ↦ x ||| y
  | xor => fun x y ↦ x ^^^ y

/-- The carry of a sum, the borrow of a difference. -/
def carryOut (subtract : Bool) (x y : BitVec 32) : Bool :=
  if subtract then decide (x < y) else decide (2 ^ 32 ≤ x.toNat + y.toNat)

/-- What a call is for.  An addition leaves the carry behind, and in `temporary` the entry of
its table that it used last. -/
def Call.effect : Call → Bits → Bits
  | emit count destination source, m => m.blit count destination source
  | arithmetic32 subtract destination left right _ temporary carry, m =>
      let result := rippleResult subtract (word m left) (word m right)
      let carryOut := carryOut subtract (word m left) (word m right)
      ((m.putField destination 32 result.toNat).putField temporary 2
        (result.msb.toNat + 2 * carryOut.toNat)).putField carry 1 carryOut.toNat
  | bits32 operation destination left right _, m =>
      m.putField destination 32 (operation.apply (word m left) (word m right)).toNat

/-- Bit `i` of the table of a call. -/
def Call.tableBit : Call → Nat → Bool
  | emit .., _ => false
  | arithmetic32 subtract .., i => (arithmeticTruth subtract (i / 2)).testBit (i % 2)
  | bits32 operation .., i => operation.truth.testBit i

/-- The table of the call is in place. -/
def Call.TableSet (call : Call) (m : Bits) : Prop :=
  ∀ i < call.table.2, m (call.table.1 + i) = call.tableBit i

theorem blit_one (m : Bits) (d s p : Nat) : m.blit 1 d s p = if p = d then m s else m p := by
  by_cases hp : p = d
  · rw [if_pos hp, Bits.blit_of_mem m (by omega), hp, Nat.sub_self, Nat.add_zero]
  · rw [if_neg hp, Bits.blit_of_notMem m (by omega)]

/-! ## Bit operations -/

theorem BitOperation.truth_testBit (operation : BitOperation) (x y : BitVec 32) (i : Nat) :
    operation.truth.testBit ((x.getLsbD i).toNat + 2 * (y.getLsbD i).toNat) =
      (operation.apply x y).getLsbD i := by
  cases operation with
  | and =>
      rw [apply, BitVec.getLsbD_and]
      cases x.getLsbD i <;> cases y.getLsbD i <;> rfl
  | or =>
      rw [apply, BitVec.getLsbD_or]
      cases x.getLsbD i <;> cases y.getLsbD i <;> rfl
  | xor =>
      rw [apply, BitVec.getLsbD_xor]
      cases x.getLsbD i <;> cases y.getLsbD i <;> rfl

section Bits

variable {operation : BitOperation} {destination left right table : Nat} {D : Bits}

/-- After the rows of the bits below `n`, these bits of the result are in place. -/
theorem foldl_bitsStep (ha : (Call.bits32 operation destination left right table).Apart)
    (ht : (Call.bits32 operation destination left right table).TableSet D) {n : Nat} (hn : n ≤ 32)
    (p : Nat) : (List.range n).foldl (bitsStep destination left right table) D p =
      if destination ≤ p ∧ p < destination + n then
        (operation.apply (word D left) (word D right)).getLsbD (p - destination)
      else D p := by
  induction n generalizing p with
  | zero =>
      rw [if_neg (by omega)]
      rfl
  | succ n ih =>
      have ih := fun p ↦ ih (by omega) p
      have hdest := ha.2
      have htable := ha.1 destination (by simp)
      simp only [List.mem_cons, List.not_mem_nil, or_false, forall_eq_or_imp, forall_eq,
        Separate] at htable hdest
      -- the inputs are still in place, and so is the table
      have hread : ∀ a, a = left ∨ a = right →
          (List.range n).foldl (bitsStep destination left right table) D (a + n) = D (a + n) := by
        rintro a (rfl | rfl)
        all_goals rw [ih, if_neg (by omega)]
      have hentry : ∀ i < 4, (List.range n).foldl (bitsStep destination left right table) D
          (table + i) = operation.truth.testBit i := fun i hi ↦ by
        rw [ih, if_neg (by omega)]
        exact ht i hi
      have hx := Bool.toNat_lt ((word D left).getLsbD n)
      have hy := Bool.toNat_lt ((word D right).getLsbD n)
      rw [List.range_succ, List.foldl_append, List.foldl_cons, List.foldl_nil, bitsStep, blit_one,
        Bits.field_one, Bits.field_one, hread left (.inl rfl), hread right (.inr rfl),
        ← getLsbD_word D left (by omega), ← getLsbD_word D right (by omega), Nat.add_assoc table,
        hentry _ (by omega), BitOperation.truth_testBit, ih]
      by_cases hp : p = destination + n
      · rw [if_pos hp, if_pos (by omega), hp, Nat.add_sub_cancel_left]
      · rw [if_neg hp]
        by_cases hp' : destination ≤ p ∧ p < destination + n
        · rw [if_pos hp', if_pos (by omega)]
        · rw [if_neg hp', if_neg (by omega)]

theorem bits32Lookup_eq (ha : (Call.bits32 operation destination left right table).Apart)
    (ht : (Call.bits32 operation destination left right table).TableSet D) :
    bits32Lookup destination left right table D =
      (Call.bits32 operation destination left right table).effect D := by
  funext p
  rw [bits32Lookup, foldl_bitsStep ha ht le_rfl, Call.effect, Bits.putField]
  rfl

end Bits

/-! ## Additions and subtractions -/

theorem arithmeticTruth_testBit (subtract a b c : Bool) :
    (arithmeticTruth subtract (a.toNat + 2 * b.toNat + 4 * c.toNat)).testBit 0 =
        rippleBit a b c ∧
      (arithmeticTruth subtract (a.toNat + 2 * b.toNat + 4 * c.toNat)).testBit 1 =
        rippleNext subtract a b c := by
  cases subtract <;> cases a <;> cases b <;> cases c <;> decide

section Arithmetic

variable {subtract : Bool} {destination left right table temporary carry : Nat} {D : Bits}

/-- The rows of the bits below `n` have been executed: these bits of the result and the carry
are in place, and nothing else has changed. -/
structure Rippled (subtract : Bool) (destination left right temporary carry : Nat) (D : Bits)
    (n : Nat) (m : Bits) : Prop where
  result : ∀ i < n, m (destination + i) =
    (rippleResult subtract (word D left) (word D right)).getLsbD i
  next : m carry = rippleCarry subtract (word D left) (word D right) n
  entry : 0 < n → m temporary =
      (rippleResult subtract (word D left) (word D right)).getLsbD (n - 1) ∧
    m (temporary + 1) = rippleCarry subtract (word D left) (word D right) n
  rest : ∀ p, ¬(destination ≤ p ∧ p < destination + n) → p ≠ carry →
    ¬(temporary ≤ p ∧ p < temporary + 2) → m p = D p

theorem Rippled.step
    (ha : (Call.arithmetic32 subtract destination left right table temporary carry).Apart)
    (ht : (Call.arithmetic32 subtract destination left right table temporary carry).TableSet D)
    {n : Nat} (hn : n < 32) {m : Bits}
    (h : Rippled subtract destination left right temporary carry D n m) :
    Rippled subtract destination left right temporary carry D (n + 1)
      (arithmeticStep destination left right table temporary carry m n) := by
  obtain ⟨hop, htm, htc, hmc, hdest⟩ := ha
  simp only [List.mem_cons, List.not_mem_nil, or_false, forall_eq_or_imp, forall_eq,
    Separate] at hop htm htc hmc hdest
  have hx : m (left + n) = (word D left).getLsbD n := by
    rw [getLsbD_word D left hn]
    exact h.rest _ (by omega) (by omega) (by omega)
  have hy : m (right + n) = (word D right).getLsbD n := by
    rw [getLsbD_word D right hn]
    exact h.rest _ (by omega) (by omega) (by omega)
  have htable : ∀ i < 16, m (table + i) = (arithmeticTruth subtract (i / 2)).testBit (i % 2) :=
    fun i hi ↦ (h.rest _ (by omega) (by omega) (by omega)).trans (ht i hi)
  -- the entry of the table is the result bit and the next carry
  obtain ⟨htruth₀, htruth₁⟩ := arithmeticTruth_testBit subtract ((word D left).getLsbD n)
    ((word D right).getLsbD n) (rippleCarry subtract (word D left) (word D right) n)
  rw [← getLsbD_rippleResult subtract _ _ hn] at htruth₀
  rw [← rippleCarry_succ subtract _ _ hn] at htruth₁
  have hentry : arithmeticEntry left right table carry m n = table + 2 *
      (((word D left).getLsbD n).toNat + 2 * ((word D right).getLsbD n).toNat +
        4 * (rippleCarry subtract (word D left) (word D right) n).toNat) := by
    rw [arithmeticEntry, Bits.field_one, Bits.field_one, Bits.field_one, hx, hy, h.next]
    omega
  have h₁ := Bool.toNat_lt ((word D left).getLsbD n)
  have h₂ := Bool.toNat_lt ((word D right).getLsbD n)
  have h₃ := Bool.toNat_lt (rippleCarry subtract (word D left) (word D right) n)
  obtain ⟨e, he⟩ : ∃ e, ((word D left).getLsbD n).toNat + 2 * ((word D right).getLsbD n).toNat +
    4 * (rippleCarry subtract (word D left) (word D right) n).toNat = e := ⟨_, rfl⟩
  have hlow := htable (2 * e) (by omega)
  have hhigh := htable (2 * e + 1) (by omega)
  rw [he] at htruth₀ htruth₁ hentry
  rw [show 2 * e / 2 = e by omega, show 2 * e % 2 = 0 by omega, htruth₀] at hlow
  rw [show (2 * e + 1) / 2 = e by omega, show (2 * e + 1) % 2 = 1 by omega, htruth₁,
    ← Nat.add_assoc] at hhigh
  -- the three copies one after the other
  have hcopied : ∀ p, m.blit 2 temporary (table + 2 * e) p =
      if p = temporary then m (table + 2 * e) else if p = temporary + 1 then
        m (table + 2 * e + 1) else m p := fun p ↦ by
    by_cases hp : temporary ≤ p ∧ p < temporary + 2
    · rw [Bits.blit_of_mem m hp]
      obtain rfl | rfl : p = temporary ∨ p = temporary + 1 := by omega
      · rw [if_pos rfl, Nat.sub_self, Nat.add_zero]
      · rw [if_neg (by omega), if_pos rfl, Nat.add_sub_cancel_left]
    · rw [Bits.blit_of_notMem m hp, if_neg (by omega), if_neg (by omega)]
  have hstep : ∀ p, arithmeticStep destination left right table temporary carry m n p =
      if p = carry ∨ p = temporary + 1 then
        rippleCarry subtract (word D left) (word D right) (n + 1)
      else if p = destination + n ∨ p = temporary then
        (rippleResult subtract (word D left) (word D right)).getLsbD n
      else m p := fun p ↦ by
    simp only [arithmeticStep, hentry, blit_one, hcopied, hlow, hhigh]
    split_ifs <;> first | rfl | omega
  refine ⟨fun i hi ↦ ?_, ?_, fun _ ↦ ⟨?_, ?_⟩, fun p h₁ h₂ h₃ ↦ ?_⟩
  · rw [hstep, if_neg (by omega)]
    by_cases hin : i = n
    · rw [if_pos (by omega), hin]
    · rw [if_neg (by omega)]
      exact h.result i (by omega)
  · rw [hstep, if_pos (.inl rfl)]
  · rw [hstep, if_neg (by omega), if_pos (.inr rfl)]
    rfl
  · rw [hstep, if_pos (.inr rfl)]
  · rw [hstep, if_neg (by omega), if_neg (by omega)]
    exact h.rest p (by omega) h₂ h₃

theorem arithmetic32Lookup_eq
    (ha : (Call.arithmetic32 subtract destination left right table temporary carry).Apart)
    (ht : (Call.arithmetic32 subtract destination left right table temporary carry).TableSet D) :
    arithmetic32Lookup destination left right table temporary carry D =
      (Call.arithmetic32 subtract destination left right table temporary carry).effect D := by
  have h : ∀ n ≤ 32, Rippled subtract destination left right temporary carry D n
      ((List.range n).foldl (arithmeticStep destination left right table temporary carry)
        (D.blit 1 carry table)) := fun n hn ↦ by
    induction n with
    | zero =>
        refine ⟨nofun, ?_, nofun, fun p _ h₂ _ ↦ ?_⟩
        · -- the first bit of the table is zero
          have h0 := ht 0 (show 0 < 16 by decide)
          rw [List.range_zero, List.foldl_nil, blit_one, if_pos rfl, rippleCarry_zero]
          refine h0.trans ?_
          cases subtract <;> rfl
        · rw [List.range_zero, List.foldl_nil, blit_one, if_neg h₂]
    | succ n ih =>
        rw [List.range_succ, List.foldl_append, List.foldl_cons, List.foldl_nil]
        exact (ih (by omega)).step ha ht hn
  obtain ⟨hresult, hnext, hentry, hrest⟩ := h 32 le_rfl
  obtain ⟨hbit, hcarry⟩ := hentry (by decide)
  rw [rippleCarry_width] at hnext hcarry
  obtain ⟨hop, htm, htc, hmc, hdest⟩ := ha
  simp only [List.mem_cons, List.not_mem_nil, or_false, forall_eq_or_imp, forall_eq,
    Separate] at hop htm htc hmc hdest
  have hpair : ∀ a b : Bool, (a.toNat + 2 * b.toNat).testBit 0 = a ∧
      (a.toNat + 2 * b.toNat).testBit 1 = b := by decide
  funext p
  rw [arithmetic32Lookup, Call.effect]
  by_cases hc : p = carry
  · rw [Bits.putField_of_mem _ (by omega), hc, Nat.sub_self, hnext]
    exact (Nat.testBit_bool_toNat _ 0).symm
  · rw [Bits.putField_of_notMem _ (by omega)]
    by_cases hm : temporary ≤ p ∧ p < temporary + 2
    · rw [Bits.putField_of_mem _ hm]
      obtain rfl | rfl : p = temporary ∨ p = temporary + 1 := by omega
      · rw [Nat.sub_self, (hpair _ _).1, hbit, BitVec.msb_eq_getLsbD_last]
      · rw [Nat.add_sub_cancel_left, (hpair _ _).2, hcarry]
        rfl
    · rw [Bits.putField_of_notMem _ hm]
      by_cases hd : destination ≤ p ∧ p < destination + 32
      · rw [Bits.putField_of_mem _ hd]
        have hp := hresult (p - destination) (by omega)
        rwa [Nat.add_sub_cancel' hd.1] at hp
      · rw [Bits.putField_of_notMem _ hd]
        exact hrest p hd hc hm

end Arithmetic

/-- With its table in place, the rows of a call do what the call is for. -/
theorem Call.lookup_eq_effect {call : Call} {D : Bits} (ha : call.Apart) (ht : call.TableSet D) :
    call.lookup D = call.effect D := by
  cases call with
  | emit => rfl
  | arithmetic32 => exact arithmetic32Lookup_eq ha ht
  | bits32 => exact bits32Lookup_eq ha ht

/-! ## The tables of a program -/

section Tables

variable {cfg : Config} {lo hi : Nat} {bodies : List (Body cfg lo hi)} {last : Body cfg lo hi}
  {program program' : CopyProgram} {call : Call} {calls : List Call} {m : Bits} {p : Nat}

/-- A call writes its table. -/
theorem Call.tables_of_inTable (ha : call.Apart) (h : call.InTable p) :
    call.tables m p = call.tableBit (p - call.table.1) := by
  cases call with
  | emit => exact absurd h.2 (Nat.not_lt_zero p)
  | arithmetic32 subtract destination left right table temporary carry =>
      have hentries : ∀ n ≤ 8, table ≤ p → p < table + 2 * n → (List.range n).foldl
          (fun m i ↦ m.putField (table + 2 * i) 2 (arithmeticTruth subtract i)) m p =
            (arithmeticTruth subtract ((p - table) / 2)).testBit ((p - table) % 2) := by
        intro n hn h₁ h₂
        induction n with
        | zero => omega
        | succ n ih =>
            rw [List.range_succ, List.foldl_append, List.foldl_cons, List.foldl_nil]
            by_cases hp : table + 2 * n ≤ p
            · rw [Bits.putField_of_mem _ ⟨hp, by omega⟩, show (p - table) / 2 = n by omega]
              exact congrArg _ (by omega)
            · rw [Bits.putField_of_notMem _ (by omega), ih (by omega) (by omega)]
      obtain ⟨-, -, hc, -, -⟩ := ha
      obtain ⟨h₁, h₂⟩ := h
      unfold Separate at hc
      dsimp only [Call.table] at h₁ h₂
      rw [tables, arithmeticTables, Bits.putField_of_notMem _ (by omega)]
      exact hentries 8 le_rfl h₁ h₂
  | bits32 => exact Bits.putField_of_mem _ h

/-- A call changes nothing outside the code but its table and what its rows write. -/
theorem Written.frame (hg : Target cfg) (h : Written cfg lo hi bodies last program)
    (hraw : call.RawOutside cfg lo hi) (hr : call.run program = (0, program')) :
    program'.image.bytes = program.image.bytes ∧ ∀ p, ¬(lo ≤ p ∧ p < hi) →
      (call.InTable p → program'.image.data p = call.tableBit (p - call.table.1)) ∧
      (¬ call.InTable p → ¬ call.Writes p → program'.image.data p = program.image.data p) := by
  have hN : 4 ≤ cfg.processorN := by rw [hg.slots]; decide
  have hlayer := hg.layerBits_eq
  obtain ⟨-, ha, -, -, q, hroom, hq⟩ := Call.succeeds hg h.toFor hraw hr
  obtain ⟨hbytes, hdata⟩ := h.room_frame hg hroom
  obtain ⟨bodies', last', hw, hs, -⟩ := h.room hg hN hroom
  have hlo := hw.lo_le
  have hend := hw.codeEnd
  have hend' := hw.codeEnd_le
  cases hq hw.image
  have hrows : (q.image.slot + (call.rows cfg q.image.slot).length) * cfg.instructionSize ≤
      255 * cfg.instructionSize := by
    rw [Call.length_rows]
    exact Nat.mul_le_mul_right _ hs
  rw [Nat.add_mul] at hrows
  have hdata' : ∀ p, ¬(lo ≤ p ∧ p < hi) → ((q.image.onData call.tables).append cfg
      (call.rows cfg q.image.slot)).data p = call.tables q.image.data p := fun p hp ↦
    Bits.putRows_of_notMem (by dsimp only [CopyImage.onData]; omega)
  refine ⟨hbytes, fun p hp ↦ ⟨fun ht ↦ ?_, fun ht hw ↦ ?_⟩⟩
  · exact (hdata' p hp).trans (Call.tables_of_inTable ha ht)
  · exact (hdata' p hp).trans ((Call.tables_of_not_writes hw ht).trans (hdata p hp))

theorem Written.bytes_of_runCalls (hg : Target cfg) (h : Written cfg lo hi bodies last program)
    (hraw : ∀ call ∈ calls, call.RawOutside cfg lo hi)
    (hr : runCalls calls program = some program') :
    program'.image.bytes = program.image.bytes := by
  induction calls generalizing program bodies last with
  | nil =>
      cases hr
      rfl
  | cons call calls ih =>
      rw [runCalls] at hr
      split at hr
      · rename_i h0
        have hrun : call.run program = (0, (call.run program).2) := Prod.ext h0 rfl
        obtain ⟨bodies', last', h', -⟩ := h.of_run hg (hraw call List.mem_cons_self) hrun
        exact (ih h' (fun c hc ↦ hraw c (List.mem_cons_of_mem _ hc)) hr).trans
          (h.frame hg (hraw call List.mem_cons_self) hrun).1
      · cases hr

/-- A position outside the code keeps its value while the calls that write it write this value. -/
theorem Written.data_of_runCalls (hg : Target cfg) (h : Written cfg lo hi bodies last program)
    (hraw : ∀ call ∈ calls, call.RawOutside cfg lo hi)
    (hr : runCalls calls program = some program') (hp : ¬(lo ≤ p ∧ p < hi)) {v : Bool}
    (hw : ∀ call ∈ calls, ¬ call.Writes p)
    (ht : ∀ call ∈ calls, call.InTable p → call.tableBit (p - call.table.1) = v)
    (hv : program.image.data p = v) : program'.image.data p = v := by
  induction calls generalizing program bodies last with
  | nil =>
      cases hr
      exact hv
  | cons call calls ih =>
      rw [runCalls] at hr
      split at hr
      · rename_i h0
        have hrun : call.run program = (0, (call.run program).2) := Prod.ext h0 rfl
        obtain ⟨bodies', last', h', -⟩ := h.of_run hg (hraw call List.mem_cons_self) hrun
        obtain ⟨-, hframe⟩ := h.frame hg (hraw call List.mem_cons_self) hrun
        refine ih h' (fun c hc ↦ hraw c (List.mem_cons_of_mem _ hc)) hr
          (fun c hc ↦ hw c (List.mem_cons_of_mem _ hc))
          (fun c hc ↦ ht c (List.mem_cons_of_mem _ hc)) ?_
        by_cases hin : call.InTable p
        · rw [(hframe p hp).1 hin]
          exact ht call List.mem_cons_self hin
        · rw [(hframe p hp).2 hin (hw call List.mem_cons_self), hv]
      · cases hr

/-- No call writes into the table of a call. -/
def TablesKept (calls : List Call) : Prop :=
  ∀ call ∈ calls, ∀ call' ∈ calls, ∀ p, call.Writes p → ¬ call'.InTable p

/-- Where the tables of two calls overlap, they hold the same. -/
def TablesAgree (calls : List Call) : Prop :=
  ∀ call ∈ calls, ∀ call' ∈ calls, ∀ p, call.InTable p → call'.InTable p →
    call.tableBit (p - call.table.1) = call'.tableBit (p - call'.table.1)

/-- After the calls, every call has its table in the image, and its operands are apart. -/
theorem Written.tables_of_runCalls (hg : Target cfg) (h : Written cfg lo hi bodies last program)
    (hraw : ∀ call ∈ calls, call.RawOutside cfg lo hi)
    (hr : runCalls calls program = some program') (hk : TablesKept calls)
    (ha : TablesAgree calls) : ∀ call ∈ calls, call.Placed cfg ∧ call.Apart ∧
      call.TableSet program'.image.data ∧ call.table.1 + call.table.2 ≤ program.image.bytes * 8 ∧
        ∀ p, lo ≤ p → p < hi → ¬ call.InTable p := by
  induction calls generalizing program bodies last with
  | nil => nofun
  | cons call calls ih =>
      rw [runCalls] at hr
      split at hr
      · rename_i h0
        have hrun : call.run program = (0, (call.run program).2) := Prod.ext h0 rfl
        have hraw' : ∀ c ∈ calls, c.RawOutside cfg lo hi := fun c hc ↦
          hraw c (List.mem_cons_of_mem _ hc)
        obtain ⟨bodies', last', h', -⟩ := h.of_run hg (hraw call List.mem_cons_self) hrun
        obtain ⟨hbytes, hframe⟩ := h.frame hg (hraw call List.mem_cons_self) hrun
        obtain ⟨hplaced, hapart, hout, htable, -⟩ :=
          Call.succeeds hg h.toFor (hraw call List.mem_cons_self) hrun
        have hrest := ih h' hraw' hr
          (fun c hc c' hc' ↦ hk c (List.mem_cons_of_mem _ hc) c' (List.mem_cons_of_mem _ hc'))
          (fun c hc c' hc' ↦ ha c (List.mem_cons_of_mem _ hc) c' (List.mem_cons_of_mem _ hc'))
        rw [hbytes] at hrest
        refine List.forall_mem_cons.mpr ⟨⟨hplaced, hapart, fun i hi' ↦ ?_, htable,
          fun p h₁ h₂ ↦ (hout p h₁ h₂).2⟩, hrest⟩
        have hin : call.InTable (call.table.1 + i) := ⟨Nat.le_add_right _ _, by omega⟩
        have hcode : ¬(lo ≤ call.table.1 + i ∧ call.table.1 + i < hi) := fun hc ↦
          (hout _ hc.1 hc.2).2 hin
        refine h'.data_of_runCalls hg hraw' hr hcode (fun c hc hw ↦
          hk c (List.mem_cons_of_mem _ hc) call List.mem_cons_self _ hw hin) (fun c hc hin' ↦ ?_) ?_
        · rw [ha c (List.mem_cons_of_mem _ hc) call List.mem_cons_self _ hin' hin,
            Nat.add_sub_cancel_left]
        · rw [(hframe _ hcode).1 hin, Nat.add_sub_cancel_left]
      · cases hr

/-- The operations, one after the other. -/
def operations (calls : List Call) (m : Bits) : Bits := calls.foldl (fun m call ↦ call.effect m) m

/-- While the tables are in place and kept, the rows do the operations. -/
theorem lookups_eq_operations (ha : ∀ call ∈ calls, call.Apart)
    (ht : ∀ call ∈ calls, call.TableSet m) (hk : TablesKept calls) :
    lookups calls m = operations calls m := by
  induction calls generalizing m with
  | nil => rfl
  | cons call calls ih =>
      have heff := Call.lookup_eq_effect (ha call List.mem_cons_self) (ht call List.mem_cons_self)
      rw [lookups, operations, List.foldl_cons, List.foldl_cons, ← heff]
      refine ih (fun c hc ↦ ha c (List.mem_cons_of_mem _ hc)) (fun c hc i hi ↦ ?_)
        fun c hc c' hc' ↦ hk c (List.mem_cons_of_mem _ hc) c' (List.mem_cons_of_mem _ hc')
      rw [← ht c (List.mem_cons_of_mem _ hc) i hi]
      exact Call.lookup_of_not_writes fun hw ↦ hk call List.mem_cons_self c
        (List.mem_cons_of_mem _ hc) _ hw ⟨Nat.le_add_right _ _, by omega⟩

end Tables

/-- Layer chaining is transparent.  The emulator executes a finished program as the operations
of its calls in order, wherever the layers end, and is then at rest; at no time does the code
differ from the image.  The operations must leave each other's tables and the empty layer
alone. -/
theorem layers_transparent {φ : Type} (dev : Device φ) {cfg : Config} {data : Bits}
    {bytes addressBits codeBegin codeLimit zeroLayer : Nat} {calls : List Call}
    {program program' finished : CopyProgram} {σ : Machine φ} (hN : cfg.processorN = 256)
    (hS : cfg.spaceSize = 2 ^ addressBits)
    (hinit : csCopyProgramInit data bytes addressBits codeBegin codeLimit = some program)
    (hcalls : runCalls calls program = some program')
    (hfinish : csCopyProgramFinish program' zeroLayer = (0, finished))
    (hraw : ∀ call ∈ calls, call.RawOutside cfg codeBegin codeLimit)
    (hzero : ∀ call ∈ calls, ∀ p, InLayer cfg zeroLayer p → ¬ call.Writes p)
    (hkept : TablesKept calls) (hagree : TablesAgree calls) (hs : σ.Sized cfg)
    (hload : ∀ p < finished.image.bytes * 8, σ.heap.bit .space p = finished.image.data p) :
    ∃ ticks σ', Runs cfg dev none σ ⟨ticks, .idle⟩ σ' ∧ σ'.inp = σ.inp ∧ σ'.out = σ.out ∧
      (∀ p, cfg.layerBits ≤ p →
        σ'.heap.bit .space p = operations calls (σ.heap.bit .space) p) ∧
      ∀ limit r σ'', Runs cfg dev limit σ r σ'' →
        ∀ p, codeBegin ≤ p → p < codeLimit → σ''.heap.bit .space p = finished.image.data p := by
  obtain ⟨ticks, σ', hruns, hinp, hout, hdata, hcode⟩ :=
    runs_lookups dev hN hS hinit hcalls hfinish hraw hzero hs hload
  obtain ⟨hg, rfl⟩ := target_of_init hN hS hinit
  have hw := written_init hg (show 4 ≤ cfg.processorN by rw [hN]; decide) hinit
  have hbytes := hw.bytes_of_runCalls hg hraw hcalls
  have htables := hw.tables_of_runCalls hg hraw hcalls hkept hagree
  obtain ⟨bodies, last, hw', -⟩ := hw.of_runCalls hg hraw hcalls
  obtain ⟨-, -, hframe, hbytes'⟩ := hw'.finish hg hfinish
  have hlimit := hw'.limit_le
  refine ⟨ticks, σ', hruns, hinp, hout, fun p hp ↦ ?_, fun limit r σ'' hr p h₁ h₂ ↦ ?_⟩
  · rw [hdata p hp, lookups_eq_operations (fun c hc ↦ (htables c hc).2.1) ?_ hkept]
    intro call hc i hi
    obtain ⟨hplaced, -, hset, hle, hapart⟩ := htables call hc
    have hin : call.InTable (call.table.1 + i) := ⟨Nat.le_add_right _ _, by omega⟩
    rw [hload _ (by omega), hframe _ ?_ fun h ↦ hapart _ h.1 h.2 hin]
    · exact hset i hi
    · -- the table lies behind the processor
      cases call with
      | emit => exact absurd hi (Nat.not_lt_zero i)
      | arithmetic32 =>
          obtain ⟨-, -, -, -, ht, -, -⟩ := hplaced
          exact ht.1.trans (Nat.le_add_right _ _)
      | bits32 =>
          obtain ⟨-, -, -, -, ht⟩ := hplaced
          exact ht.1.trans (Nat.le_add_right _ _)
  · rw [hcode limit r σ'' hr p h₁ h₂]
    exact hload p (by omega)

/-! ## Two programs -/

section Small

theorem small_addressable : 8 * 8192 < 2 ^ 64 := by decide

theorem small_unsigned : 256 < 2 ^ 32 := by decide

/-- A space of 8192 bytes. -/
def smallConfig : Config := ⟨8192, 256, small_addressable, small_unsigned⟩

/-- Bit 50000 is set. -/
def smallData : Bits := fun p ↦ decide (p = 50000)

/-- A program with room for two layers. -/
def smallProgram : CopyProgram :=
  ⟨⟨smallData.putField 12032 12032 0, 8192, 65536, 12032, 12032, 16, 15, 47, 3⟩, 12032, 24064, 36096⟩

theorem smallProgram_init :
    csCopyProgramInit smallData 8192 16 12032 36096 = some smallProgram := rfl

/-- A machine with these bits in its space. -/
def smallMachine (m : Bits) : Machine File := .ofBits smallConfig m

theorem smallMachine_sized (m : Bits) : (smallMachine m).Sized smallConfig :=
  Machine.sized_ofBits _ m

/-- The program can be finished, with an empty layer behind the code. -/
theorem smallProgram_finish {calls : List Call} {program : CopyProgram}
    (h : runCalls calls smallProgram = some program)
    (hraw : ∀ call ∈ calls, call.RawOutside smallConfig 12032 36096)
    (hw : ∀ call ∈ calls, ∀ p, InLayer smallConfig 36096 p → ¬ call.Writes p)
    (ht : ∀ call ∈ calls, ∀ p, InLayer smallConfig 36096 p → ¬ call.InTable p) :
    csCopyProgramFinish program 36096 = (0, (csCopyProgramFinish program 36096).2) := by
  obtain ⟨hg, -⟩ := target_of_init (show smallConfig.processorN = 256 from rfl) rfl smallProgram_init
  have hlayer : smallConfig.layerBits = 12032 := rfl
  have hinit := written_init hg (show 4 ≤ smallConfig.processorN by decide) smallProgram_init
  obtain ⟨bodies, last, hwritten, -⟩ := hinit.of_runCalls hg hraw h
  refine Prod.ext (csCopyProgramFinish_succeeds hg hwritten (by decide) (by decide) ?_ (.inr le_rfl)
    fun i hi ↦ ?_) rfl
  · rw [hinit.bytes_of_runCalls hg hraw h]
    decide
  · have hin : InLayer smallConfig 36096 (36096 + i) := ⟨Nat.le_add_right _ _, by omega⟩
    refine hinit.data_of_runCalls hg hraw h (by omega) (fun c hc ↦ hw c hc _ hin)
      (fun c hc hin' ↦ absurd hin' (ht c hc _ hin)) ?_
    exact (Bits.putField_of_notMem (a := 12032) (w := 12032) (v := 0) smallData (by omega)).trans
      (decide_eq_false (by omega))

theorem smallProgram_loaded {calls : List Call} {program finished : CopyProgram}
    (h : runCalls calls smallProgram = some program)
    (hraw : ∀ call ∈ calls, call.RawOutside smallConfig 12032 36096)
    (hfinish : csCopyProgramFinish program 36096 = (0, finished)) :
    (∀ p < finished.image.bytes * 8,
      (smallMachine finished.image.data).heap.bit .space p = finished.image.data p) ∧
    ∀ p, 36096 ≤ p → p < 65536 →
      (smallMachine finished.image.data).heap.bit .space p = program.image.data p := by
  have hlayer : smallConfig.layerBits = 12032 := rfl
  obtain ⟨hg, -⟩ := target_of_init (show smallConfig.processorN = 256 from rfl) rfl smallProgram_init
  have hinit := written_init hg (show 4 ≤ smallConfig.processorN by decide) smallProgram_init
  obtain ⟨bodies, last, hwritten, -⟩ := hinit.of_runCalls hg hraw h
  obtain ⟨-, -, hframe, hbytes⟩ := hwritten.finish hg hfinish
  have hbits : ∀ p < 65536,
      (smallMachine finished.image.data).heap.bit .space p = finished.image.data p := fun p hp ↦
    Machine.bit_ofBits _ (show p < 8 * 8192 by omega)
  refine ⟨fun p hp ↦ ?_, fun p h₁ h₂ ↦ (hbits p h₂).trans (hframe p (by omega) (by omega))⟩
  rw [hbytes, hinit.bytes_of_runCalls hg hraw h] at hp
  exact hbits p hp

/-- Add the word at 50032 to the one at 50000. -/
def smallSum : Call := .arithmetic32 false 50000 50000 50032 50064 50080 50082

theorem smallSum_writes {p : Nat} (h : smallSum.Writes p) :
    (50000 ≤ p ∧ p < 50032) ∨ (50080 ≤ p ∧ p < 50083) := by
  simp only [smallSum, Call.Writes, Call.writes, List.mem_cons, List.not_mem_nil, or_false,
    exists_eq_or_imp, exists_eq_left] at h
  omega

theorem smallSum_inTable {p : Nat} (h : smallSum.InTable p) : 50064 ≤ p ∧ p < 50080 := h

/-- Two sums in two layers, with one table. -/
theorem layers_transparent_small : ∃ program finished,
    runCalls (List.replicate 2 smallSum) smallProgram = some program ∧
      csCopyProgramFinish program 36096 = (0, finished) ∧ ∃ ticks σ',
        Runs smallConfig File.device none (smallMachine finished.image.data) ⟨ticks, .idle⟩ σ' ∧
          ∀ p, 12032 ≤ p → σ'.heap.bit .space p = operations (List.replicate 2 smallSum)
            ((smallMachine finished.image.data).heap.bit .space) p := by
  have hlayer : smallConfig.layerBits = 12032 := rfl
  obtain ⟨program, hcalls⟩ : ∃ program,
      runCalls (List.replicate 2 smallSum) smallProgram = some program :=
    Option.isSome_iff_exists.mp (by decide +kernel)
  have hall : ∀ {P : Call → Prop}, P smallSum → ∀ call ∈ List.replicate 2 smallSum, P call :=
    fun h call hc ↦ List.eq_of_mem_replicate hc ▸ h
  have hraw := hall (P := fun call ↦ call.RawOutside smallConfig 12032 36096) trivial
  have hw := hall (P := fun call ↦ ∀ p, InLayer smallConfig 36096 p → ¬ call.Writes p)
    fun p hin hp ↦ by
      have := smallSum_writes hp
      unfold InLayer at hin
      omega
  have hkept : TablesKept (List.replicate 2 smallSum) := hall (hall fun p hp ht ↦ by
    have := smallSum_writes hp
    have := smallSum_inTable ht
    omega)
  have hagree : TablesAgree (List.replicate 2 smallSum) := hall (hall fun p _ _ ↦ rfl)
  have hfinish := smallProgram_finish hcalls hraw hw (hall fun p hin ht ↦ by
    have := smallSum_inTable ht
    unfold InLayer at hin
    omega)
  obtain ⟨ticks, σ', hruns, -, -, hdata, -⟩ := layers_transparent File.device rfl rfl
    smallProgram_init hcalls hfinish hraw hw hkept hagree (smallMachine_sized _)
    (smallProgram_loaded hcalls hraw hfinish).1
  exact ⟨program, _, hcalls, hfinish, ticks, σ', hruns, hdata⟩

/-- A bitwise and of two words, and then an or that uses the same table. -/
def sharedTable : List Call :=
  [.bits32 .and 50100 50000 50040 50400, .bits32 .or 50200 50000 50040 50400]

/-- The and has become an or: where the operands differ, the result is not theirs. -/
theorem layers_shared_table : ∃ program finished,
    runCalls sharedTable smallProgram = some program ∧
      csCopyProgramFinish program 36096 = (0, finished) ∧
      (∀ call ∈ sharedTable, call.RawOutside smallConfig 12032 36096) ∧
      let σ := smallMachine finished.image.data
      ∃ ticks σ', Runs smallConfig File.device none σ ⟨ticks, .idle⟩ σ' ∧
        σ'.heap.bit .space 50100 = true ∧
          operations sharedTable (σ.heap.bit .space) 50100 = false := by
  have hlayer : smallConfig.layerBits = 12032 := rfl
  obtain ⟨program, hcalls, hbits⟩ := Option.map_eq_some_iff.mp
    (show (runCalls sharedTable smallProgram).map (fun program ↦
      [50000, 50040, 50400, 50401, 50402, 50403].map program.image.data) =
        some [true, false, false, true, true, true] by decide +kernel)
  simp only [List.map_cons, List.map_nil, List.cons.injEq, and_true] at hbits
  obtain ⟨h₀, h₁, h₂, h₃, h₄, h₅⟩ := hbits
  have hall : ∀ {P : Call → Prop}, P (.bits32 .and 50100 50000 50040 50400) →
      P (.bits32 .or 50200 50000 50040 50400) → ∀ call ∈ sharedTable, P call :=
    fun h₁ h₂ call hc ↦ by
      simp only [sharedTable, List.mem_cons, List.not_mem_nil, or_false] at hc
      rcases hc with rfl | rfl
      · exact h₁
      · exact h₂
  have hraw := hall (P := fun call ↦ call.RawOutside smallConfig 12032 36096) trivial trivial
  have hfar : ∀ call ∈ sharedTable, ∀ p, InLayer smallConfig 36096 p →
      ¬ call.Writes p ∧ ¬ call.InTable p := by
    refine hall ?_ ?_
    all_goals
      rintro p ⟨-, hp⟩
      rw [hlayer] at hp
      refine ⟨?_, fun ht ↦ absurd ht.1 (by dsimp only [Call.table]; omega)⟩
      rintro ⟨w, hw, h₁, -⟩
      cases List.mem_singleton.mp hw
      dsimp only at h₁
      omega
  have hfinish := smallProgram_finish hcalls hraw (fun c hc p hp ↦ (hfar c hc p hp).1)
    fun c hc p hp ↦ (hfar c hc p hp).2
  refine ⟨program, _, hcalls, hfinish, hraw, ?_⟩
  obtain ⟨hloaded, hbits⟩ := smallProgram_loaded hcalls hraw hfinish
  obtain ⟨ticks, σ', hruns, -, -, hdata, -⟩ := runs_lookups File.device rfl rfl
    smallProgram_init hcalls hfinish hraw (fun c hc p hp ↦ (hfar c hc p hp).1)
    (smallMachine_sized _) hloaded
  intro σ
  refine ⟨ticks, σ', hruns, ?_⟩
  have hleft : σ.heap.bit .space 50000 = true := (hbits 50000 (by decide) (by decide)).trans h₀
  have hright : σ.heap.bit .space 50040 = false := (hbits 50040 (by decide) (by decide)).trans h₁
  have hD : ∀ i < 4, σ.heap.bit .space (50400 + i) = BitOperation.or.truth.testBit i := by
    intro i hi
    refine (hbits (50400 + i) (by omega) (by omega)).trans ?_
    interval_cases i
    · exact h₂
    · exact h₃
    · exact h₄
    · exact h₅
  rw [hdata 50100 (by decide)]
  generalize σ.heap.bit .space = D at hleft hright hD ⊢
  have heffect : ∀ operation : BitOperation,
      (Call.bits32 operation 50100 50000 50040 50400).effect D 50100 =
        operation.truth.testBit 1 := fun operation ↦ by
    rw [Call.effect, Bits.putField, if_pos (by decide), BitVec.testBit_toNat, Nat.sub_self,
      ← BitOperation.truth_testBit, getLsbD_word _ _ (by decide), getLsbD_word _ _ (by decide),
      Nat.add_zero, Nat.add_zero, hleft, hright]
    rfl
  have hlast : ¬ (Call.bits32 .or 50200 50000 50040 50400).Writes 50100 := by
    rintro ⟨w, hw, h₁, -⟩
    cases List.mem_singleton.mp hw
    exact absurd h₁ (by decide)
  constructor
  · -- the table is that of the second operation, with which the first one works
    have hapart : (Call.bits32 .or 50100 50000 50040 50400).Apart := by
      simp [Call.Apart, Separate]
    have hand : (Call.bits32 .and 50100 50000 50040 50400).lookup D =
        (Call.bits32 .or 50100 50000 50040 50400).effect D := bits32Lookup_eq hapart hD
    rw [lookups, sharedTable, List.foldl_cons, List.foldl_cons, List.foldl_nil,
      Call.lookup_of_not_writes hlast, hand, heffect]
    rfl
  · rw [operations, sharedTable, List.foldl_cons, List.foldl_cons, List.foldl_nil, Call.effect,
      Bits.putField, if_neg (by decide), heffect]
    rfl

end Small

end CopySpace.Emit
