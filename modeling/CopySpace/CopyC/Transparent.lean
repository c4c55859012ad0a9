import CopySpace.CopyC.Simulation

/-!
# The emission words are transparent

`Proceeds` is what a sequence of words means: every word does its operation on the cells, and a
jump goes on with the word before which the layer with that address was begun.  It knows nothing of
slots, nor of the places where one layer is full and the next one begins.  The emulator that
executes the layers does the same: `words_transparent`.
-/

namespace CopySpace.CopyC

open BitMachine Emission

/-! ## The meaning of the words -/

/-- The inputs of a look-up. -/
def inputBits (D : Bits) (inputs : List Nat) : List Nat := inputs.map fun a ↦ D.field (resolve D a) 1

/-- A look-up copies the entry that its inputs select. -/
def lookUp (D : Bits) (width dst base stride : Nat) (inputs : List Nat) : Bits :=
  D.blit width (resolve D dst) (lutEntry base stride (inputBits D inputs))

/-- The address in the table of a branch that stands for the condition. -/
def branchEntry (e : Emission) (D : Bits) (condition : Nat) : Nat :=
  e.align.constants + 32 * D.field (resolve D condition) 1

namespace Call

/-- What the word does to the cells. -/
def effect (e : Emission) (D : Bits) : Call → Bits
  | op n dst src => D.blit n (resolve D dst) (resolve D src)
  | lut1 dst base a => lookUp D 1 dst base 0 [a]
  | lut2 dst base a b => lookUp D 1 dst base 0 [a, b]
  | lut3 width dst base a b c stride => lookUp D width dst base stride [a, b, c]
  | branch condition => D.blit 24 ccJaddr (branchEntry e D condition)
  | dynamic _ | boundary | jump _ | patch .. => D

/-- The address of the layer to go to. -/
def target (e : Emission) (D : Bits) : Call → Option Nat
  | branch condition => some (D.field (branchEntry e D condition) 24)
  | dynamic source => some (D.field (resolve D source) 24)
  | jump target => some target
  | _ => none

def operands : Call → List Nat
  | op _ dst src => [dst, src]
  | lut1 dst _ a => [dst, a]
  | lut2 dst _ a b => [dst, a, b]
  | lut3 _ dst _ a b c _ => [dst, a, b, c]
  | branch condition => [condition]
  | dynamic source => [source]
  | boundary | jump _ | patch .. => []

/-- There is a current frame if the word needs one. -/
def Ready (D : Bits) (call : Call) : Prop := ∀ a ∈ call.operands, ccFrame a → StackOk D

end Call

/-- An operand that is written: fixed cells are not in the code. -/
def Destination (address n : Nat) : Prop :=
  Operand address n ∧ (¬ ccFrame address → address + n ≤ ccCodeBase ∨ ccCodeEnd ≤ address)

/-- A table at a fixed address, for `k` inputs. -/
def Table (base stride k width : Nat) : Prop :=
  ¬ ccFrame base ∧ base < 2 ^ 24 ∧ ∀ bits : List Nat, bits.length = k → (∀ bit ∈ bits, bit < 2) →
    ccLayerBits ≤ lutEntry base stride bits ∧ lutEntry base stride bits + width ≤ 2 ^ 24

/-- The operands are cells, fixed or of the current frame, and the tables are fixed. -/
def Call.Placed : Call → Prop
  | op n dst src => n < 2 ^ 23 ∧ Destination dst n ∧ Operand src n
  | lut1 dst base a => Table base 0 1 1 ∧ Destination dst 1 ∧ Operand a 1
  | lut2 dst base a b => Table base 0 2 1 ∧ Destination dst 1 ∧ ∀ x ∈ [a, b], Operand x 1
  | lut3 width dst base a b c stride => width < 2 ^ 23 ∧ stride + 3 ≤ 24 ∧
      Table base stride 3 width ∧ Destination dst width ∧ ∀ x ∈ [a, b, c], Operand x 1
  | branch condition => Operand condition 1
  | dynamic source => Operand source 24
  | boundary => True
  | jump target => target < 2 ^ 24
  | patch target _ => target + 32 ≤ ccCodeBase

/-- What a sequence of words means, one word after the other: `(k, D)` is the space `D` before the
word with the number `k`. -/
inductive Proceeds (calls : List Call) (e : Emission) : Nat × Bits → Nat × Bits → Prop
  /-- A word that does not jump. -/
  | next {k : Nat} {D : Bits} {call : Call} {e₁ : Emission} : calls[k]? = some call →
      runCalls (calls.take k) e = some e₁ → call.Ready D → call.target e₁ D = none →
      Proceeds calls e (k, D) (k + 1, call.effect e₁ D)
  /-- A jump to a layer that was begun before the word with the number `k'`. -/
  | go {k k' : Nat} {D : Bits} {call : Call} {e₁ e₂ : Emission} : calls[k]? = some call →
      runCalls (calls.take k) e = some e₁ → call.Ready D →
      runCalls (calls.take k') e = some e₂ → e₂.slot = 3 →
      call.target e₁ D = some e₂.ccCurrent →
      Proceeds calls e (k, D) (k', call.effect e₁ D)

/-! ## One word -/

section Word

variable {φ : Type} {cfg : Config} {dev : Device φ} {I D D' : Bits} {e e' e₁ : Emission}
  {call : Call} {inp out : φ} {x : BitMachine φ} {stride k width base dst n : Nat}
  {inputs : List Nat}

theorem inputBits_lt (D : Bits) (inputs : List Nat) : ∀ bit ∈ inputBits D inputs, bit < 2 := by
  rintro _ hbit
  obtain ⟨a, -, rfl⟩ := List.mem_map.mp hbit
  exact D.field_lt _ 1

theorem Table.behind (hc : Sizes cfg) (h : Table base stride inputs.length width) :
    Behind cfg (lutEntry base stride (inputBits D inputs)) width := by
  obtain ⟨-, -, h⟩ := h
  obtain ⟨h₁, h₂⟩ := h (inputBits D inputs) (List.length_map _) (inputBits_lt D inputs)
  exact hc.behind h₁ h₂

theorem Destination.frame (h : Destination dst n) (hs : ccFrame dst → StackOk D) {p src : Nat}
    (h₁ : ccCodeBase ≤ p) (h₂ : p < ccCodeEnd) : D.blit n (resolve D dst) src p = D p := by
  refine Bits.blit_of_notMem D fun hw ↦ ?_
  by_cases hf : ccFrame dst
  · -- frames are behind the code
    obtain ⟨-, hlow, -⟩ := hs hf
    have hend : ccCodeEnd ≤ ccStackBase := by decide
    rw [resolve_of_frame hf] at hw
    omega
  · rw [resolve_of_not_frame hf] at hw
    have := h.2 hf
    omega

/-- No word writes into the code. -/
theorem Call.effect_code (h : call.Placed) (hr : call.Ready D) {p : Nat} (h₁ : ccCodeBase ≤ p)
    (h₂ : p < ccCodeEnd) : call.effect e D p = D p := by
  cases call with
  | op => exact h.2.1.frame (hr _ List.mem_cons_self) h₁ h₂
  | lut1 | lut2 => exact h.2.1.frame (hr _ List.mem_cons_self) h₁ h₂
  | lut3 => exact h.2.2.2.1.frame (hr _ List.mem_cons_self) h₁ h₂
  | branch =>
      refine Bits.blit_of_notMem D fun hw ↦ ?_
      unfold ccJaddr at hw
      unfold ccCodeBase at h₁
      omega
  | dynamic | boundary | jump | patch => rfl

theorem branchEntry_eq {condition : Nat} :
    lutEntry e.align.constants 5 (inputBits D [condition]) = branchEntry e D condition := by
  refine (lutEntry_of_aligned (inputBits_lt D _) ?_).trans ?_
  · change (e.constants + 63) / 64 * 64 % 2 ^ (5 + 1) = 0
    omega
  · simp [branchEntry, inputBits]

/-- The table of a branch lies behind the processor. -/
theorem branchTable (h : ccConstantBase ≤ e.constants) (hlimit : e.align.constants + 64 ≤ 180224) :
    Table e.align.constants 5 1 24 := by
  have hle : e.constants ≤ e.align.constants := by
    change e.constants ≤ (e.constants + 63) / 64 * 64
    omega
  have halign : e.align.constants % 2 ^ (5 + 1) = 0 := by
    change (e.constants + 63) / 64 * 64 % 2 ^ (5 + 1) = 0
    omega
  unfold ccConstantBase at h
  refine ⟨fun hf ↦ ?_, by omega, fun bits hlength hbits ↦ ?_⟩
  · have hlt := hf.2
    unfold ccDataBase ccFrameBits at hlt
    omega
  · rw [lutEntry_of_aligned hbits (hlength ▸ halign)]
    obtain ⟨bit, rfl⟩ := List.length_eq_one_iff.mp hlength
    have := hbits bit List.mem_cons_self
    rw [Nat.ofDigits_singleton]
    unfold ccLayerBits
    omega

theorem performs_lookUp (hc : Sizes cfg) (hstride : stride + inputs.length ≤ 24)
    (ht : Table base stride inputs.length width) (hd : Destination dst width)
    (hin : ∀ a ∈ inputs, Operand a 1) (hr : ∀ a ∈ dst :: inputs, ccFrame a → StackOk D)
    {slot : Nat} (hi : 3 ≤ slot) :
    Performs cfg slot (lutRows slot stride width dst base inputs) D
      (lookUp D width dst base stride inputs) := by
  obtain ⟨hrd, hrin⟩ := List.forall_mem_cons.mp hr
  exact performs_lutRows hc hi hrd (hc.behind_resolve hd.1 hrd) hstride hrin
    (fun a ha ↦ hc.behind_resolve (hin a ha) (hrin a ha)) (ht.behind hc)

/-- A look-up is executed. -/
theorem At.lookUp (hc : Sizes cfg) (h : At cfg dev I e D inp out x) (he : e.Fresh)
    (hcode : CodeLoaded I D) {count : Nat}
    (ha : Adds cfg e e' count (lutRows · stride width dst base inputs))
    (hcount : selectCount inputs + (1 + ccFrameExtra dst) = count) (hwidth : width < 2 ^ 23)
    (hstride : stride + inputs.length ≤ 24) (ht : Table base stride inputs.length width)
    (hd : Destination dst width) (hin : ∀ a ∈ inputs, Operand a 1)
    (hr : ∀ a ∈ dst :: inputs, ccFrame a → StackOk D) (hkept : Kept I e') :
    ∃ x', Ticks cfg dev x x' ∧
      At cfg dev I e' (CopyC.lookUp D width dst base stride inputs) inp out x' :=
  h.adds hc he hcode ha (fun _ ↦ length_lutRows.trans hcount)
    (fun _ hslot ↦ fits_lutRows hc (hcount ▸ hslot) hstride hwidth hd.1 ht.2.1 hin)
    (fun _ hi ↦ performs_lookUp hc hstride ht hd hin hr hi) hkept

/-- A word that does not jump is executed. -/
theorem At.next (hc : Sizes cfg) (h : At cfg dev I e D inp out x) (he : e.Fresh)
    (hcode : CodeLoaded I D) (hp : call.Placed) (hr : call.Ready D)
    (hrun : call.run e = some e') (hkept : Kept I e') (ht : call.target e D = none) :
    ∃ x', Ticks cfg dev x x' ∧ At cfg dev I e' (call.effect e D) inp out x' := by
  cases call with
  | op n dst src =>
      obtain ⟨hn, hd, hs⟩ := hp
      have hrd := hr dst List.mem_cons_self
      have hrs := hr src (List.mem_cons_of_mem _ List.mem_cons_self)
      exact h.adds hc he hcode (ccOp_adds hc he.evaluated hrun) (fun _ ↦ length_opRows)
        (fun _ hslot ↦ fits_opRows hc hslot hn hd.1 hs) (fun _ hi ↦ performs_opRows hc hi hrd hrs
          (hc.behind_resolve hd.1 hrd) (hc.behind_resolve hs hrs)) hkept
  | lut1 dst base a =>
      obtain ⟨htable, hd, ha⟩ := hp
      refine h.lookUp hc he hcode (ccLut1_adds hc he.evaluated htable.1 hrun) ?_ (by decide)
        (show 0 + 1 ≤ 24 by decide) htable hd (List.forall_mem_singleton.mpr ha) hr hkept
      rw [selectCount_cons, selectCount, List.map_nil, List.sum_nil]
      omega
  | lut2 dst base a b =>
      obtain ⟨htable, hd, hin⟩ := hp
      refine h.lookUp hc he hcode (ccLut2_adds hc he.evaluated htable.1 hrun) ?_ (by decide)
        (show 0 + 2 ≤ 24 by decide) htable hd hin hr hkept
      rw [selectCount_cons, selectCount_cons, selectCount, List.map_nil, List.sum_nil]
      omega
  | lut3 width dst base a b c stride =>
      obtain ⟨hwidth, hstride, htable, hd, hin⟩ := hp
      refine h.lookUp hc he hcode (ccLut3_adds hc he.evaluated htable.1 hstride hrun) ?_ hwidth
        hstride htable hd hin hr hkept
      rw [selectCount_cons, selectCount_cons, selectCount_cons, selectCount, List.map_nil,
        List.sum_nil]
      omega
  | branch | dynamic | jump => cases ht
  | boundary =>
      change (if e.slot ≠ 3 then e.ccJump (e.ccCurrent + ccLayerBits) else some e) = _ at hrun
      split at hrun
      · obtain ⟨hlayer, rfl⟩ := (ccJump_eq_some hc he.evaluated).mp hrun
        exact h.close hc he hcode hlayer hkept
      · cases hrun
        exact ⟨x, Relation.ReflTransGen.refl, h⟩
  | patch target value =>
      change some (e.ccPatch target value) = some e' at hrun
      rw [ccPatch, if_neg (not_not.mpr he.evaluated)] at hrun
      cases hrun
      exact ⟨x, Relation.ReflTransGen.refl, h.inp, h.out, h.begun, h.active⟩

/-- A branch goes to the address that its table has for the condition. -/
theorem At.branch (hc : Sizes cfg) (h : At cfg dev I e D inp out x) (he : e.Fresh)
    (hcode : CodeLoaded I D) {condition table : Nat} (hp : Operand condition 1)
    (hr : ccFrame condition → StackOk D) (hrun : e.ccBranch condition = some (table, e'))
    (hkept : Kept I e') (hnext : Behind cfg (D.field (branchEntry e D condition) 24) ccLayerBits) :
    ∃ x', Ticks cfg dev x x' ∧ x'.inp = inp ∧ x'.out = out ∧
      Loaded cfg (D.field (branchEntry e D condition) 24)
        (D.blit 24 ccJaddr (branchEntry e D condition)) x'.bits := by
  obtain ⟨rfl, hlimit, e₁, ha, hjump⟩ := ccBranch_adds hc he.evaluated he.constants_ge hrun
  have hjaddr : ¬ ccFrame ccJaddr := by decide
  have hcount : selectCount [condition] + (1 + ccFrameExtra ccJaddr) =
      2 + ccFrameExtra condition := by
    rw [selectCount_cons, selectCount, List.map_nil, List.sum_nil,
      ccFrameExtra_of_not_frame hjaddr]
    omega
  have hlength : ∀ slot, (lutRows slot 5 24 ccJaddr e.align.constants [condition]).length =
      2 + ccFrameExtra condition := fun slot ↦ length_lutRows.trans hcount
  have htable := branchTable he.constants_ge hlimit
  have hd : Destination ccJaddr 24 := by
    unfold Destination
    decide
  have hin : ∀ a ∈ [condition], Operand a 1 := List.forall_mem_singleton.mpr hp
  have hr' : ∀ a ∈ [ccJaddr, condition], ccFrame a → StackOk D :=
    List.forall_mem_cons.mpr ⟨fun hf ↦ absurd hf hjaddr, List.forall_mem_singleton.mpr hr⟩
  have hperforms : ∀ slot, 3 ≤ slot → Performs cfg slot
      (lutRows slot 5 24 ccJaddr e.align.constants [condition]) D
        (D.blit 24 ccJaddr (branchEntry e D condition)) := fun slot hi ↦ by
    have hlook := performs_lookUp hc (show 5 + 1 ≤ 24 by decide) htable hd hin hr' hi
    rwa [CopyC.lookUp, branchEntry_eq, resolve_of_not_frame hjaddr] at hlook
  -- the address that is read in the last slot is the entry of the table
  have hentry : (D.blit 24 ccJaddr (branchEntry e D condition)).field ccJaddr 24 =
      D.field (branchEntry e D condition) 24 :=
    Bits.field_blit_of_subset D (show 0 + 24 ≤ 24 by decide)
  have hat : At cfg dev I e.allocate D inp out x := ⟨h.inp, h.out, h.begun, h.active⟩
  refine hat.addsLeave hc (he.allocate hlimit).1 hcode ha hjump (by decide)
    (fun _ ↦ length_branchRows) (fun slot hslot ↦ ?_) (fun slot hi hslot ↦ ?_) hnext hkept
  · rw [branchRows, List.forall_mem_append]
    exact ⟨fits_lutRows hc (by rw [hcount]; omega) (show 5 + 1 ≤ 24 by decide) (by decide) hd.1
        htable.2.1 hin,
      fits_srcRows hc (by rw [ccFrameExtra_of_not_frame hjaddr]; omega) (by decide) (by decide)
        hd.1⟩
  · have hexec := executes_dynamic hc hi (by
      rw [hlength, ccFrameExtra_of_not_frame hjaddr]; omega) (fun hf ↦ absurd hf hjaddr)
        (hc.behind_resolve hd.1 fun hf ↦ absurd hf hjaddr) (hperforms slot hi)
    rwa [hlength, resolve_of_not_frame hjaddr, hentry, ← Nat.add_assoc] at hexec

/-- A word that jumps goes to its target. -/
theorem At.go (hc : Sizes cfg) (h : At cfg dev I e D inp out x) (he : e.Fresh)
    (hcode : CodeLoaded I D) (hp : call.Placed) (hr : call.Ready D)
    (hrun : call.run e = some e') (hkept : Kept I e') {next : Nat}
    (ht : call.target e D = some next) (hnext : Behind cfg next ccLayerBits) :
    ∃ x', Ticks cfg dev x x' ∧ x'.inp = inp ∧ x'.out = out ∧
      Loaded cfg next (call.effect e D) x'.bits := by
  cases call with
  | op | lut1 | lut2 | lut3 | boundary | patch => cases ht
  | jump target =>
      cases ht
      have hnil : Adds cfg e e 0 fun _ ↦ [] := ⟨e, ccRoom_of_le he.slot_le, he.slot_le,
        append_nil.symm⟩
      exact h.addsLeave hc he hcode hnil hrun hp (fun _ ↦ rfl) (fun _ _ ↦ List.forall_mem_nil _)
        (fun _ hi hslot ↦ executes_restRows hi hslot performs_nil) hnext hkept
  | dynamic source =>
      cases ht
      have hrs := hr source List.mem_cons_self
      obtain ⟨e₁, ha, hjump⟩ := ccDynamic_adds hc he.evaluated hrun
      exact h.addsLeave hc he hcode ha hjump (by decide) (fun _ ↦ length_srcRows)
        (fun _ hslot ↦ fits_srcRows hc hslot (by decide) (by decide) hp)
        (fun slot hi hslot ↦ executes_dynamic hc hi
          (show slot + ([] : List Instruction).length + _ ≤ 255 from hslot) hrs
          (hc.behind_resolve hp hrs) performs_nil) hnext hkept
  | branch condition =>
      cases ht
      obtain ⟨⟨table, e₂⟩, hbranch, rfl⟩ := Option.map_eq_some_iff.mp hrun
      exact h.branch hc he hcode hp (hr condition List.mem_cons_self) hbranch hkept hnext

end Word

/-! ## All words -/

section Words

variable {φ : Type} {cfg : Config} {dev : Device φ} {I D D' : Bits} {e e' e₁ : Emission}
  {call : Call} {calls calls' : List Call} {k : Nat} {inp out : φ} {σ : Machine φ}

/-- The word does not patch the position. -/
def Call.Spares (p : Nat) : Call → Prop
  | patch target _ => ¬(target ≤ p ∧ p < target + 32)
  | _ => True

/-- What a word leaves as it is while it emits. -/
theorem Call.run_extends (hc : Sizes cfg) (he : e.Fresh) (hp : call.Placed)
    (hrun : call.run e = some e') : e'.Fresh ∧ e.Extends e' ∧
      ∀ p, p < ccCodeBase → p < e.constants → call.Spares p → e'.image p = e.image p := by
  have hadds : ∀ {count} {rows : Nat → List Instruction}, Adds cfg e e' count rows →
      (∀ slot, (rows slot).length = count) → e'.Fresh ∧ e.Extends e' ∧
        ∀ p, p < ccCodeBase → p < e.constants → True → e'.image p = e.image p :=
    fun ha hlength ↦ by
      obtain ⟨h₁, hx₁⟩ := he.adds hc ha hlength
      exact ⟨h₁, hx₁, fun p h h' _ ↦ he.keeps_adds hc ha p h h'⟩
  have hjump : ∀ {e : Emission} {target}, e.Fresh → e.ccJump target = some e' →
      e'.Fresh ∧ e.Extends e' ∧ Keeps e e' := fun he hr ↦ by
    obtain ⟨h₁, hx₁⟩ := he.ccJump hc hr
    exact ⟨h₁, hx₁, he.keeps_ccJump hc hr⟩
  cases call with
  | op => exact hadds (ccOp_adds hc he.evaluated hrun) fun _ ↦ length_opRows
  | lut1 dst base a =>
      refine hadds (ccLut1_adds hc he.evaluated hp.1.1 hrun) fun slot ↦ length_lutRows.trans ?_
      rw [selectCount_cons, selectCount, List.map_nil, List.sum_nil]
      omega
  | lut2 dst base a b =>
      refine hadds (ccLut2_adds hc he.evaluated hp.1.1 hrun) fun slot ↦ length_lutRows.trans ?_
      rw [selectCount_cons, selectCount_cons, selectCount, List.map_nil, List.sum_nil]
      omega
  | lut3 width dst base a b c stride =>
      refine hadds (ccLut3_adds hc he.evaluated hp.2.2.1.1 hp.2.1 hrun) fun slot ↦
        length_lutRows.trans ?_
      rw [selectCount_cons, selectCount_cons, selectCount_cons, selectCount, List.map_nil,
        List.sum_nil]
      omega
  | dynamic source =>
      obtain ⟨e₁, ha, hr⟩ := ccDynamic_adds hc he.evaluated hrun
      obtain ⟨h₁, hx₁⟩ := he.adds hc ha fun _ ↦ length_srcRows
      obtain ⟨h₂, hx₂, hk⟩ := hjump h₁ hr
      exact ⟨h₂, hx₁.trans hx₂, fun p h h' _ ↦ (he.keeps_adds hc ha).trans hk hx₁ p h h'⟩
  | branch condition =>
      obtain ⟨⟨table, _⟩, hbranch, rfl⟩ := Option.map_eq_some_iff.mp hrun
      obtain ⟨rfl, hlimit, e₁, ha, hr⟩ := ccBranch_adds hc he.evaluated he.constants_ge hbranch
      obtain ⟨h₀, hx₀⟩ := he.allocate hlimit
      obtain ⟨h₁, hx₁⟩ := h₀.adds hc ha fun _ ↦ length_branchRows
      obtain ⟨h₂, hx₂, hk⟩ := hjump h₁ hr
      exact ⟨h₂, hx₀.trans (hx₁.trans hx₂), fun p h h' _ ↦
        keeps_allocate.trans ((h₀.keeps_adds hc ha).trans hk hx₁) hx₀ p h h'⟩
  | boundary =>
      change (if e.slot ≠ 3 then e.ccJump (e.ccCurrent + ccLayerBits) else some e) = _ at hrun
      split at hrun
      · obtain ⟨h₁, hx₁, hk⟩ := hjump he hrun
        exact ⟨h₁, hx₁, fun p h h' _ ↦ hk p h h'⟩
      · cases hrun
        exact ⟨he, .refl e, fun _ _ _ _ ↦ rfl⟩
  | jump target =>
      obtain ⟨h₁, hx₁, hk⟩ := hjump he hrun
      exact ⟨h₁, hx₁, fun p h h' _ ↦ hk p h h'⟩
  | patch target value =>
      cases hrun
      obtain ⟨h₁, hx₁⟩ := @Fresh.ccPatch e target value he hp
      refine ⟨h₁, hx₁, fun p _ _ hs ↦ ?_⟩
      rw [ccPatch, if_neg (not_not.mpr he.evaluated)]
      exact Bits.putField_of_notMem _ hs

theorem runCalls_append :
    runCalls (calls ++ calls') e = (runCalls calls e).bind (runCalls calls') := by
  induction calls generalizing e with
  | nil => rfl
  | cons call calls ih =>
      rw [List.cons_append, runCalls, runCalls, Option.bind_assoc]
      exact Option.bind_congr fun e₁ _ ↦ ih

theorem runCalls_extends (hc : Sizes cfg) (he : e.Fresh) (hp : ∀ call ∈ calls, call.Placed)
    (hrun : runCalls calls e = some e') : e'.Fresh ∧ e.Extends e' ∧
      ∀ p, p < ccCodeBase → p < e.constants → (∀ call ∈ calls, call.Spares p) →
        e'.image p = e.image p := by
  induction calls generalizing e with
  | nil =>
      cases hrun
      exact ⟨he, .refl _, fun _ _ _ _ ↦ rfl⟩
  | cons call calls ih =>
      obtain ⟨hcall, hp⟩ := List.forall_mem_cons.mp hp
      obtain ⟨e₁, hcall', hrun⟩ := Option.bind_eq_some_iff.mp hrun
      obtain ⟨h₁, hx₁, hk₁⟩ := call.run_extends hc he hcall hcall'
      obtain ⟨h₂, hx₂, hk₂⟩ := ih h₁ hp hrun
      refine ⟨h₂, hx₁.trans hx₂, fun p hlt hlt' hs ↦ ?_⟩
      obtain ⟨hs₁, hs⟩ := List.forall_mem_cons.mp hs
      exact (hk₂ p hlt (hlt'.trans_le hx₁.constants_le) hs).trans (hk₁ p hlt hlt' hs₁)

/-- The words before one, and the words from there on. -/
theorem runCalls_take (hrun : runCalls calls e = some e') (k : Nat) :
    ∃ e₁, runCalls (calls.take k) e = some e₁ ∧ runCalls (calls.drop k) e₁ = some e' := by
  rw [← List.take_append_drop k calls, runCalls_append] at hrun
  exact Option.bind_eq_some_iff.mp hrun

/-- One word of a sequence. -/
theorem runCalls_get (hrun : runCalls calls e = some e') (hk : calls[k]? = some call)
    (h₁ : runCalls (calls.take k) e = some e₁) :
    ∃ e₂, call.run e₁ = some e₂ ∧ runCalls (calls.take (k + 1)) e = some e₂ ∧
      runCalls (calls.drop (k + 1)) e₂ = some e' := by
  obtain ⟨e₂, h₂, hrest⟩ := runCalls_take hrun (k + 1)
  obtain ⟨hlt, rfl⟩ := List.getElem?_eq_some_iff.mp hk
  refine ⟨e₂, ?_, h₂, hrest⟩
  rw [List.take_succ_eq_append_getElem hlt, runCalls_append, h₁, Option.bind_some, runCalls] at h₂
  obtain ⟨e₃, h₃, hnil⟩ := Option.bind_eq_some_iff.mp h₂
  cases hnil
  exact h₃

/-- The emulator follows the words. -/
theorem At.proceeds (hc : Sizes cfg) (he : e.Fresh) (hp : ∀ call ∈ calls, call.Placed)
    (hrun : runCalls calls e = some e') {s s' : Nat × Bits} {x : BitMachine φ}
    (h₁ : runCalls (calls.take s.1) e = some e₁) (hat : At cfg dev e'.image e₁ s.2 inp out x)
    (hcode : CodeLoaded e'.image s.2) (h : Proceeds calls e s s') :
    ∃ x' e₂, Ticks cfg dev x x' ∧ runCalls (calls.take s'.1) e = some e₂ ∧
      At cfg dev e'.image e₂ s'.2 inp out x' ∧ CodeLoaded e'.image s'.2 := by
  have hfresh : ∀ {k e₁}, runCalls (calls.take k) e = some e₁ → e₁.Fresh ∧ Kept e'.image e₁ := by
    intro k e₁ h₁
    obtain ⟨e₂, h₂, hrest⟩ := runCalls_take hrun k
    cases h₁.symm.trans h₂
    obtain ⟨h₁, -, -⟩ := runCalls_extends hc he (fun c hc ↦ hp c (List.mem_of_mem_take hc)) h₂
    obtain ⟨-, hx, -⟩ := runCalls_extends hc h₁ (fun c hc ↦ hp c (List.mem_of_mem_drop hc)) hrest
    exact ⟨h₁, hx.kept⟩
  cases h with
  | @next k D call e₁' hk h₁' hr ht =>
      cases h₁.symm.trans h₁'
      have hcall := hp call (List.mem_of_getElem? hk)
      obtain ⟨e₂, hrun', h₂, -⟩ := runCalls_get hrun hk h₁
      obtain ⟨x', hticks, hat'⟩ :=
        hat.next hc (hfresh h₁).1 hcode hcall hr hrun' (hfresh h₂).2 ht
      exact ⟨x', e₂, hticks, h₂, hat', fun p hlow hhigh ↦
        (call.effect_code hcall hr hlow hhigh).trans (hcode p hlow hhigh)⟩
  | @go k k' D call e₁' e₂ hk h₁' hr h₂ h3 ht =>
      cases h₁.symm.trans h₁'
      have hcall := hp call (List.mem_of_getElem? hk)
      obtain ⟨e₃, hrun', h₃, -⟩ := runCalls_get hrun hk h₁
      obtain ⟨he₂, hkept₂⟩ := hfresh h₂
      have hnext : Behind cfg e₂.ccCurrent ccLayerBits := by
        have hlow := he₂.ccCurrent_ge
        have hlayer := he₂.layer_lt
        refine hc.behind (le_trans (by decide) hlow) ?_
        unfold ccCurrent
        rw [he₂.origin]
        unfold ccLayerMax at hlayer
        unfold ccLayerBits ccCodeBase
        omega
      obtain ⟨x', hticks, rfl, rfl, hloaded⟩ :=
        hat.go hc (hfresh h₁).1 hcode hcall hr hrun' (hfresh h₃).2 ht hnext
      have hcode' : CodeLoaded e'.image (call.effect e₁ D) := fun p hlow hhigh ↦
        (call.effect_code hcall hr hlow hhigh).trans (hcode p hlow hhigh)
      exact ⟨x', e₂, hticks, h₂, .of_loaded hc he₂ h3 hkept₂ hcode' hloaded, hcode'⟩

/-- After every word the state of the emulator corresponds to that of the compiler. -/
theorem At.reaches (hc : Sizes cfg) (he : e.Fresh) (hp : ∀ call ∈ calls, call.Placed)
    (hrun : runCalls calls e = some e') {x : BitMachine φ} {s : Nat × Bits}
    (hat : At cfg dev e'.image e D inp out x) (hcode : CodeLoaded e'.image D)
    (h : Relation.ReflTransGen (Proceeds calls e) (0, D) s) :
    ∃ x' e₁, Ticks cfg dev x x' ∧ runCalls (calls.take s.1) e = some e₁ ∧
      At cfg dev e'.image e₁ s.2 inp out x' ∧ CodeLoaded e'.image s.2 := by
  induction h with
  | refl => exact ⟨x, e, Relation.ReflTransGen.refl, rfl, hat, hcode⟩
  | tail _ hstep ih =>
      obtain ⟨x₁, e₁, hticks, h₁, hat₁, hcode₁⟩ := ih
      obtain ⟨x₂, e₂, hticks', h₂, hat₂, hcode₂⟩ := hat₁.proceeds hc he hp hrun h₁ hcode₁ hstep
      exact ⟨x₂, e₂, Relation.ReflTransGen.trans hticks hticks', h₂, hat₂, hcode₂⟩

/-- An address that was put into a table stays there, if no word after it patches it. -/
theorem field_patch (hc : Sizes cfg) (he : e.Fresh) (hp : ∀ call ∈ calls, call.Placed)
    (hrun : runCalls calls e = some e') {target value : Nat}
    (hk : calls[k]? = some (.patch target value)) (h₁ : runCalls (calls.take k) e = some e₁)
    (hle : target + 32 ≤ e₁.constants)
    (hs : ∀ call ∈ calls.drop (k + 1), ∀ p, target ≤ p → p < target + 32 → call.Spares p) :
    e'.image.field target 32 = value % 2 ^ 32 := by
  obtain ⟨e₂, hpatch, h₂, hrest⟩ := runCalls_get hrun hk h₁
  obtain ⟨he₁, -, -⟩ := runCalls_extends hc he (fun c hc ↦ hp c (List.mem_of_mem_take hc)) h₁
  obtain ⟨he₂, -, -⟩ := runCalls_extends hc he (fun c hc ↦ hp c (List.mem_of_mem_take hc)) h₂
  obtain ⟨-, -, hkeep⟩ :=
    runCalls_extends hc he₂ (fun c hc ↦ hp c (List.mem_of_mem_drop hc)) hrest
  have hplaced : target + 32 ≤ ccCodeBase := hp _ (List.mem_of_getElem? hk)
  have himage : e₂ = e₁.ccValue value 32 target := by
    change some (e₁.ccPatch target value) = some e₂ at hpatch
    rw [ccPatch, if_neg (not_not.mpr he₁.evaluated)] at hpatch
    exact (Option.some.inj hpatch).symm
  have hconstants : e₂.constants = e₁.constants := by
    rw [himage]
    rfl
  refine (Bits.field_congr fun i hi ↦ hkeep _ (by omega) (by omega) fun call hcall ↦
    hs call hcall _ (Nat.le_add_right _ _) (by omega)).trans ?_
  rw [himage]
  exact Bits.field_putField_self target 32 value e₁.image

/-- The words are transparent.  Started at any slot, the emulator executes what has been emitted
as the words say: whatever they lead to it reaches, wherever the layers end, and from there it goes
where the next word jumps to.  The tables of the branches hold the addresses they were last patched
with. -/
theorem words_transparent (dev : Device φ) (hN : cfg.processorN = 256)
    (hS : cfg.spaceSize = 2 ^ 24) (he : e.Fresh) (hp : ∀ call ∈ calls, call.Placed)
    (hrun : runCalls calls e = some e') (hs : σ.Sized cfg) (hcode : CodeLoaded e'.image D)
    (hat : At cfg dev e'.image e D inp out σ.view)
    (h : Relation.ReflTransGen (Proceeds calls e) (0, D) (k, D')) :
    (∃ σ' e₁, SpaceTicks cfg dev σ σ' ∧ runCalls (calls.take k) e = some e₁ ∧
      At cfg dev e'.image e₁ D' inp out σ'.view ∧ CodeLoaded e'.image D' ∧
      ∀ call next, calls[k]? = some call → call.Ready D' → call.target e₁ D' = some next →
        Behind cfg next ccLayerBits → ∃ σ'', SpaceTicks cfg dev σ' σ'' ∧ σ''.inp = inp ∧
          σ''.out = out ∧ Loaded cfg next (call.effect e₁ D') (σ''.heap.bit .space)) ∧
    ∀ i target value e₁, calls[i]? = some (.patch target value) →
      runCalls (calls.take i) e = some e₁ → target + 32 ≤ e₁.constants →
      (∀ call ∈ calls.drop (i + 1), ∀ p, target ≤ p → p < target + 32 → call.Spares p) →
      e'.image.field target 32 = value % 2 ^ 32 := by
  have hc := sizes hN hS
  refine ⟨?_, fun i target value e₁ hi h₁ hle hs ↦ field_patch hc he hp hrun hi h₁ hle hs⟩
  obtain ⟨x', e₁, hticks, h₁, hat', hcode'⟩ := hat.reaches hc he hp hrun hcode h
  obtain ⟨σ', hσ, hs', rfl⟩ := hticks.spaceTicks hc.good hs
  refine ⟨σ', e₁, hσ, h₁, hat', hcode', fun call next hk hr ht hnext ↦ ?_⟩
  obtain ⟨e₂, hcall, h₂, hrest⟩ := runCalls_get hrun hk h₁
  obtain ⟨he₁, -, -⟩ := runCalls_extends hc he (fun c hc ↦ hp c (List.mem_of_mem_take hc)) h₁
  obtain ⟨he₂, -, -⟩ := runCalls_extends hc he (fun c hc ↦ hp c (List.mem_of_mem_take hc)) h₂
  obtain ⟨-, hx, -⟩ := runCalls_extends hc he₂ (fun c hc ↦ hp c (List.mem_of_mem_drop hc)) hrest
  obtain ⟨x₂, hticks', hinp, hout, hloaded⟩ := hat'.go hc he₁ hcode'
    (hp call (List.mem_of_getElem? hk)) hr hcall hx.kept ht hnext
  obtain ⟨σ'', hσ', -, rfl⟩ := hticks'.spaceTicks hc.good hs'
  exact ⟨σ'', hσ', hinp, hout, hloaded⟩

end Words

/-! ## Two sequences -/

section Example

/-- The emulator with a space of 2 MiB. -/
def config : Config := ⟨2097152, 256, by decide, by decide⟩

/-- The compiler before its first word. -/
def start : Emission := ⟨fun _ ↦ false, 0, 3, ccConstantBase, ccCodeBase, 0⟩

theorem start_fresh : start.Fresh :=
  ⟨rfl, rfl, le_rfl, le_rfl, by decide, by decide, fun _ _ _ ↦ rfl, fun _ _ _ _ ↦ rfl⟩

/-- The finished image is in the space, its first layer is loaded, and `cc-a` is one, `cc-sp` the
lowest frame, and the second bit of that frame one. -/
def finished (e : Emission) : Bits := fun p ↦
  if p < ccLayerBits then e.image (ccCodeBase + p)
  else decide (p ∈ [151552, 152151, 8388609]) || e.image p

variable {e' : Emission} {calls : List Call}

theorem finished_code (e : Emission) {p : Nat} (h₁ : ccCodeBase ≤ p) (h₂ : p < ccCodeEnd) :
    finished e p = e.image p := by
  have hend : ccCodeEnd = 7241728 := rfl
  have hlist : p ∉ [151552, 152151, 8388609] := by
    unfold ccCodeBase at h₁
    simp only [List.mem_cons, List.not_mem_nil, or_false]
    omega
  unfold ccCodeBase at h₁
  rw [finished, if_neg (by unfold ccLayerBits; omega), decide_eq_false hlist, Bool.false_or]

theorem finished_data (h : ∀ p < ccConstantBase, e'.image p = false) {p : Nat}
    (h₁ : ccLayerBits ≤ p) (h₂ : p < ccConstantBase) :
    finished e' p = decide (p ∈ [151552, 152151, 8388609]) := by
  rw [finished, if_neg (Nat.not_lt.mpr h₁), h p h₂, Bool.or_false]

/-- `cc-sp` is the lowest frame. -/
theorem finished_sp (h : ∀ p < ccConstantBase, e'.image p = false) :
    (finished e').field ccSp 32 = ccStackBase := by
  have hbits : ∀ i < 32, decide (152128 + i ∈ [151552, 152151, 8388609]) =
      Nat.testBit 8388608 i := by decide
  refine Bits.field_eq (by decide) fun i hi ↦ ?_
  have hp : ccSp + i < ccConstantBase := by
    unfold ccSp ccConstantBase
    omega
  exact (finished_data h (le_trans (by decide) (Nat.le_add_right ccSp i)) hp).trans (hbits i hi)

/-- The space of the emulator before its first tick. -/
theorem space_finished (h : ∀ p < ccConstantBase, e'.image p = false) {D : Bits}
    (hD : D = (Machine.ofBits config (finished e')).heap.bit .space) :
    (∀ p < 2 ^ 24, D p = finished e' p) ∧ D.field ccSp 32 = ccStackBase ∧ StackOk D ∧
      (Machine.ofBits config (finished e')).view = ⟨D, ⟨[], 0⟩, ⟨[], 0⟩⟩ := by
  have hm : ∀ p < 2 ^ 24, D p = finished e' p := fun p hp ↦ by
    rw [hD]
    exact Machine.bit_ofBits _ hp
  have hsp : D.field ccSp 32 = ccStackBase :=
    (Bits.field_congr fun i hi ↦ hm _ (by unfold ccSp; omega)).trans (finished_sp h)
  refine ⟨hm, hsp, ?_, by rw [hD]; rfl⟩
  rw [StackOk, hsp]
  decide

/-- The emulator begins with the first layer. -/
theorem at_start (hx : start.Extends e') {m : Bits} (hm : ∀ p < 2 ^ 24, m p = finished e' p)
    (inp out : File) : CodeLoaded e'.image m ∧
      At config File.device e'.image start m inp out ⟨m, inp, out⟩ := by
  have hend : ccCodeEnd = 7241728 := rfl
  have hcode : CodeLoaded e'.image m := fun p h₁ h₂ ↦ by
    rw [hm p (by omega), finished_code e' h₁ h₂]
  have hloaded : Loaded config start.ccCurrent m m := by
    refine ⟨fun p hp ↦ ?_, fun _ _ ↦ rfl⟩
    change p < 18176 at hp
    change m p = m (0 * ccLayerBits + ccCodeBase + p)
    rw [Nat.zero_mul, Nat.zero_add, hcode _ (Nat.le_add_right _ _) (by unfold ccCodeBase; omega),
      hm p (by omega)]
    exact if_pos hp
  have hc : Sizes config := sizes rfl rfl
  exact ⟨hcode, At.of_loaded hc start_fresh rfl hx.kept hcode
    (show Loaded config start.ccCurrent m (BitMachine.mk m inp out).bits from hloaded)⟩

/-- A word is copied into the frame, in the first layer, and the second layer jumps away. -/
def frameCalls : List Call := [.op 32 131072 151552, .boundary, .jump 65536]

theorem words_transparent_frame : ∃ e' σ', runCalls frameCalls start = some e' ∧
    SpaceTicks config File.device (.ofBits config (finished e')) σ' ∧
      (Machine.ofBits config (finished e')).heap.bit .space 151552 = true ∧
        σ'.heap.bit .space 8388608 = true := by
  obtain ⟨e', hrun⟩ := Option.isSome_iff_exists.mp
    (show (runCalls frameCalls start).isSome by decide)
  have hp : ∀ call ∈ frameCalls, call.Placed := by
    refine List.forall_mem_cons.mpr ⟨⟨by decide, ?_, by decide⟩, List.forall_mem_cons.mpr
      ⟨trivial, List.forall_mem_singleton.mpr (show 65536 < 2 ^ 24 by decide)⟩⟩
    unfold Destination
    decide
  have hc : Sizes config := sizes rfl rfl
  obtain ⟨-, hx, hkeep⟩ := runCalls_extends hc start_fresh hp hrun
  have himage : ∀ p < ccConstantBase, e'.image p = false := fun p hp ↦
    hkeep p (hp.trans (by decide)) hp (by simp [frameCalls, Call.Spares])
  obtain ⟨D, hD⟩ : ∃ D, D = (Machine.ofBits config (finished e')).heap.bit .space := ⟨_, rfl⟩
  obtain ⟨hm, hsp, hstack, hview⟩ := space_finished himage hD
  have hcell : D 151552 = true := by
    rw [hm _ (by decide), finished_data himage (by decide) (by decide)]
    decide
  obtain ⟨hcode, hat⟩ := at_start hx hm ⟨[], 0⟩ ⟨[], 0⟩
  have heffect : (Call.op 32 131072 151552).effect start D = D.blit 32 8388608 151552 := by
    change D.blit 32 (resolve D 131072) (resolve D 151552) = _
    rw [resolve_of_frame (by decide), resolve_of_not_frame (by decide), hsp]
    rfl
  have hword : Proceeds frameCalls start (0, D) (1, D.blit 32 8388608 151552) :=
    heffect ▸ .next rfl rfl (fun _ _ _ ↦ hstack) rfl
  obtain ⟨e₁, h₁, -⟩ := runCalls_take hrun 1
  have hboundary : Proceeds frameCalls start (1, D.blit 32 8388608 151552)
      (2, D.blit 32 8388608 151552) := .next rfl h₁ nofun rfl
  obtain ⟨⟨σ', e₂, hticks, -, -, -, hjump⟩, -⟩ := words_transparent File.device rfl rfl
    start_fresh hp hrun (Machine.sized_ofBits config _) hcode (hview ▸ hat)
    (Relation.ReflTransGen.tail (Relation.ReflTransGen.single hword) hboundary)
  obtain ⟨σ'', hticks', -, -, hloaded⟩ := hjump (.jump 65536) 65536 rfl nofun rfl
    (hc.behind (by decide) (by decide))
  refine ⟨e', σ'', hrun, Relation.ReflTransGen.trans hticks hticks', hD ▸ hcell, ?_⟩
  refine (hloaded.data _ (by rw [hc.layerBits]; decide)).trans ?_
  exact (Bits.blit_of_mem D (by decide)).trans hcell

/-- A look-up in a table of the frame, and a jump. -/
def tableCalls : List Call := [.lut1 151808 131072 151552, .jump 65536]

/-- The row of the input is followed by that of the table, which puts `cc-sp` into its address. -/
def tableRows : List Instruction := [⟨1, 331, 151552⟩, ⟨10, 416, 152142⟩, ⟨1, 151808, 8388608⟩]

theorem tableCalls_eq (hrun : runCalls tableCalls start = some e') :
    e' = (start.append config tableRows).close config 65536 := by
  have hc : Sizes config := sizes rfl rfl
  obtain ⟨e₁, hlut, hrun⟩ := Option.bind_eq_some_iff.mp hrun
  obtain ⟨e₂, hjump, hnil⟩ := Option.bind_eq_some_iff.mp hrun
  cases hnil
  have hrows : start.ccLut1 151808 131072 151552 = some (start.append config tableRows) := by
    rw [ccLut1, ccRoom_of_le (by decide)]
    simp only [Option.bind_eq_bind, Option.bind_some]
    rw [ccOp_eq hc rfl (by decide), Option.bind_some]
    exact ccOp_append hc rfl (by decide)
  obtain rfl := Option.some.inj (hrows.symm.trans hlut)
  exact ((ccJump_eq_some hc rfl).mp hjump).2

/-- The input changes the row that puts `cc-sp` into the address of the table. -/
theorem performs_tableRows {D : Bits} (hinput : D.field 151552 1 = 1)
    (hsp : D.field 152143 10 = 256) :
    Performs config 3 tableRows D (D.blit 1 151808 4194304) := by
  have hc : Sizes config := sizes rfl rfl
  have hrow₁ : 331 = config.srcBit (3 + 1 + 0) 0 := (hc.srcBit 4 0).symm
  have hrow₂ : 416 = config.srcBit (4 + 1 + 0) 14 := (hc.srcBit 5 14).symm
  have h₁ : 0 + 1 ≤ config.addressSize := by
    rw [hc.addressSize]
    decide
  have h₂ : 14 + 10 ≤ config.addressSize := by rw [hc.addressSize]
  rw [tableRows, hrow₁, hrow₂]
  refine .patchSrc le_rfl Nat.one_ne_zero h₁ (by decide) (hc.behind (by decide) (by decide)) ?_
  rw [hinput]
  refine .patchSrc (by decide) (by decide) h₂ Nat.zero_lt_one
    (hc.behind (by decide) (by decide)) ?_
  rw [show Bits.splice 0 1 1 152142 = 152143 by decide, hsp]
  exact .copy (by decide) (fun _ ↦ hc.behind (by decide) (by decide))
    (fun _ ↦ hc.behind (by decide) (by decide)) performs_nil

/-- Another entry is read than the one that the input selects. -/
theorem lut1_frame_table : ∃ e' σ' D', runCalls tableCalls start = some e' ∧
    StackOk ((Machine.ofBits config (finished e')).heap.bit .space) ∧
      (Machine.ofBits config (finished e')).heap.bit .space
        (lutEntry (resolve ((Machine.ofBits config (finished e')).heap.bit .space) 131072) 0
          (inputBits ((Machine.ofBits config (finished e')).heap.bit .space) [151552])) = true ∧
        SpaceTicks config File.device (.ofBits config (finished e')) σ' ∧
          Loaded config 65536 D' (σ'.heap.bit .space) ∧ D' 151808 = false := by
  have hc : Sizes config := sizes rfl rfl
  obtain ⟨e', hrun⟩ := Option.isSome_iff_exists.mp
    (show (runCalls tableCalls start).isSome by decide)
  have hcode : (runCalls tableCalls start).map (·.image 4194304) = some false := by decide
  rw [hrun] at hcode
  have he' := tableCalls_eq hrun
  have hslot : start.slot + tableRows.length ≤ 255 := by decide
  obtain ⟨h₁, hx₁⟩ := start_fresh.append hc hslot
  have hjump : (start.append config tableRows).ccJump 65536 = some e' :=
    (ccJump_eq_some hc rfl).mpr ⟨by decide, he'⟩
  obtain ⟨-, hx₂⟩ := h₁.ccJump hc hjump
  have himage : ∀ p < ccConstantBase, e'.image p = false := fun p hp ↦
    (h₁.keeps_ccJump hc hjump p (hp.trans (by decide)) hp).trans
      (start_fresh.keeps_append p (hp.trans (by decide)) hp)
  obtain ⟨D, hD⟩ : ∃ D, D = (Machine.ofBits config (finished e')).heap.bit .space := ⟨_, rfl⟩
  obtain ⟨hm, hsp, hstack, hview⟩ := space_finished himage hD
  have hcell : ∀ p, ccLayerBits ≤ p → p < ccConstantBase →
      D p = decide (p ∈ [151552, 152151, 8388609]) := fun p h₁ h₂ ↦
    (hm p (h₂.trans (by decide))).trans (finished_data himage h₁ h₂)
  have hinput : D.field 151552 1 = 1 := Bits.field_eq (by decide) fun i hi ↦ by
    obtain rfl := Nat.lt_one_iff.mp hi
    exact hcell _ (by decide) (by decide)
  have hsp' : D.field 152143 10 = 256 := by
    have hbits : ∀ i < 10, decide (152143 + i ∈ [151552, 152151, 8388609]) =
        Nat.testBit 256 i := by decide
    refine Bits.field_eq (by decide) fun i hi ↦ (hcell _ ?_ ?_).trans (hbits i hi)
    · exact le_trans (by decide) (Nat.le_add_right 152143 i)
    · exact (Nat.add_lt_add_left hi 152143).trans (by decide)
  have hentry : lutEntry (resolve D 131072) 0 (inputBits D [151552]) = 8388609 := by
    rw [inputBits, List.map_singleton, resolve_of_frame (by decide),
      resolve_of_not_frame (by decide), hsp, hinput]
    decide
  have htable : D 8388609 = true := by
    rw [hm _ (by decide), finished, if_neg (by decide)]
    rfl
  have hother : D 4194304 = false := by
    rw [hm _ (by decide), finished_code e' (by decide) (by decide)]
    exact Option.some.inj hcode
  obtain ⟨-, hat⟩ := at_start (hx₁.trans hx₂) hm ⟨[], 0⟩ ⟨[], 0⟩
  have hfits : ∀ row ∈ tableRows, row.Fits config := by
    refine List.forall_mem_cons.mpr ⟨?_, List.forall_mem_cons.mpr ⟨?_,
      List.forall_mem_singleton.mpr ?_⟩⟩ <;> exact hc.fits (by decide) (by decide) (by decide)
  have hkept : Kept e'.image ((start.append config tableRows).close config 65536) := by
    rw [← he']
    exact fun _ _ _ ↦ rfl
  have hnext : Behind config 65536 ccLayerBits := hc.behind (by decide) (by decide)
  obtain ⟨x, hstep, -, -, hloaded⟩ := hat.leave hc start_fresh hfits hslot
    (show 65536 < 2 ^ 24 by decide) (by decide) hkept
    (executes_restRows le_rfl hslot (performs_tableRows hinput hsp')) hnext
  have hticks : Ticks config File.device (Machine.ofBits config (finished e')).view x :=
    hview ▸ Relation.ReflTransGen.single hstep
  obtain ⟨σ', hσ, -, rfl⟩ := hticks.spaceTicks hc.good (Machine.sized_ofBits config _)
  refine ⟨e', σ', _, hrun, hD ▸ hstack, ?_, hσ, hloaded, ?_⟩
  · rw [← hD, hentry]
    exact htable
  · exact (Bits.blit_of_mem D (by decide)).trans hother

end Example

end CopySpace.CopyC
