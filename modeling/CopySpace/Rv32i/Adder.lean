import CopySpace.Lib.Prefix
import CopySpace.Rv32i.Gates

/-!
# The ripple adder of `rv32i.py`

`Image.add` adds bit by bit: the two bits and the carry select an entry of the table of a full
adder.  For a difference the bits of the right operand are complemented and the first carry is
one.  What the copies leave in the destination and in `CARRY` is the sum or difference and its
carry (`add_emits`), also when the destination is one of the operands.
-/

namespace CopySpace.Rv32i

variable (labels : String → Nat) {dst a b : Nat} {subtract : Bool} {m : Bits}

/-- Two words do not overlap. -/
def Apart (p q : Nat) : Prop := p + 32 ≤ q ∨ q + 32 ≤ p

instance (p q : Nat) : Decidable (Apart p q) := by unfold Apart; infer_instance

/-- The operands of an addition that works in `words`. -/
structure Operands (words : List Nat) (dst a b : Nat) : Prop where
  left : dst = a ∨ Apart dst a
  right : dst = b ∨ Apart dst b
  apart : ∀ w ∈ words, Apart w dst ∧ Apart w a ∧ Apart w b

/-- The positions that an addition writes. -/
def Written (words : List Nat) (dst : Nat) : Set Nat :=
  {p | ∃ w ∈ dst :: words, w ≤ p ∧ p < w + 32}

theorem mem_written {words : List Nat} {w i : Nat} (hw : w ∈ dst :: words) (hi : i < 32) :
    w + i ∈ Written words dst := ⟨w, hw, Nat.le_add_right _ _, Nat.add_lt_add_left hi _⟩

/-- The words lie apart from the data. -/
def WordsClear (data : List Datum) (words : List Nat) : Prop :=
  ∀ w ∈ words, ∀ e ∈ data, w + 32 ≤ e.address ∨ e.address + e.width ≤ w

instance (data : List Datum) (words : List Nat) : Decidable (WordsClear data words) := by
  unfold WordsClear; infer_instance

theorem WordsClear.clear {data : List Datum} {words : List Nat}
    (h : WordsClear data (dst :: words)) : ∀ p ∈ Written words dst, Clear data p := by
  rintro p ⟨w, hw, h₁, h₂⟩ e he hp
  have := h w hw e he
  omega

/-- The word at `p` holds `x`. -/
def HasWord (m : Bits) (p : Nat) (x : BitVec 32) : Prop := ∀ i < 32, m (p + i) = x.getLsbD i

instance (m : Bits) (p : Nat) (x : BitVec 32) : Decidable (HasWord m p x) := by
  unfold HasWord; infer_instance

/-- The carry out of a sum; of a difference, that nothing is borrowed. -/
def carryOut (subtract : Bool) (x y : BitVec 32) : Bool :=
  if subtract then decide (y ≤ x) else decide (2 ^ 32 ≤ x.toNat + y.toNat)

/-! ## One bit -/

/-- The words that `Image.add` works in. -/
def addWords : List Nat := [temp, pair, carry]

/-- What the copies for one bit do. -/
def addBitEffect (dst a b : Nat) (subtract : Bool) (i : Nat) (m : Bits) : Bits :=
  let m : Bits := if subtract then Function.update m (temp + i) (!m (b + i)) else m
  let second := m (if subtract then temp + i else b + i)
  let m := m.putField pair 2 ((m (a + i)).toNat + second.toNat + (m carry).toNat)
  let m := Function.update m (dst + i) (m pair)
  Function.update m carry (m (pair + 1))

theorem addBitEffect_of_ne {i p : Nat} (hd : p ≠ dst + i) (ht : p ≠ temp + i)
    (hp : ¬(pair ≤ p ∧ p < pair + 2)) (hc : p ≠ carry) :
    addBitEffect dst a b subtract i m p = m p := by
  unfold addBitEffect
  rw [Function.update_of_ne hc, Function.update_of_ne hd, Bits.putField_of_notMem _ hp]
  split
  · exact Function.update_of_ne ht _ _
  · rfl

theorem addBitEffect_of_notMem {i p : Nat} (hi : i < 32) (hp : p ∉ Written addWords dst) :
    addBitEffect dst a b subtract i m p = m p := by
  have hne : ∀ w ∈ dst :: addWords, ∀ j < 32, p ≠ w + j := by
    rintro w hw j hj rfl
    exact hp (mem_written hw hj)
  have h₁ := hne dst (by simp) i hi
  have h₂ := hne temp (by simp [addWords]) i hi
  have h₃ := hne pair (by simp [addWords]) 0 (by decide)
  have h₄ := hne pair (by simp [addWords]) 1 (by decide)
  have h₅ := hne carry (by simp [addWords]) 0 (by decide)
  exact addBitEffect_of_ne h₁ h₂ (by omega) h₅

section Bit

variable (hop : Operands addWords dst a b) {i : Nat} (hi : i < 32)

include hop hi

/-- A full adder. -/
theorem addBitEffect_bits :
    addBitEffect dst a b subtract i m (dst + i) =
        (m (a + i) ^^ ((m (b + i) ^^ subtract) ^^ m carry)) ∧
      addBitEffect dst a b subtract i m carry =
        Bool.atLeastTwo (m (a + i)) (m (b + i) ^^ subtract) (m carry) := by
  have hpair : pair = temp + 32 := rfl
  have hcarry : carry = temp + 64 := rfl
  obtain ⟨ht, hta, -⟩ := hop.apart temp (by simp [addWords])
  obtain ⟨hp, -⟩ := hop.apart pair (by simp [addWords])
  obtain ⟨hc, -⟩ := hop.apart carry (by simp [addWords])
  unfold Apart at ht hta hp hc
  let m₁ : Bits := if subtract then Function.update m (temp + i) (!m (b + i)) else m
  let second := m₁ (if subtract then temp + i else b + i)
  have h₁ : ∀ p, p ≠ temp + i → m₁ p = m p := fun p hne ↦ by
    simp only [m₁]
    split
    · exact Function.update_of_ne hne _ _
    · rfl
  have h₂ : second = (m (b + i) ^^ subtract) := by
    cases hs : subtract with
    | false => simp [second, m₁, hs]
    | true => simp [second, m₁, hs]
  let v := (m₁ (a + i)).toNat + second.toNat + (m₁ carry).toNat
  have hv : v = (m (a + i)).toNat + (m (b + i) ^^ subtract).toNat + (m carry).toNat := by
    simp only [v]
    rw [h₁ (a + i) (by omega), h₁ carry (by omega), h₂]
  have hlow : m₁.putField pair 2 v pair = v.testBit 0 := by
    rw [Bits.putField_of_mem _ (by omega), Nat.sub_self]
  have hhigh : m₁.putField pair 2 v (pair + 1) = v.testBit 1 := by
    rw [Bits.putField_of_mem _ (by omega), Nat.add_sub_cancel_left]
  constructor
  · change Function.update (Function.update (m₁.putField pair 2 v) (dst + i) _) carry _ _ = _
    rw [Function.update_of_ne (by omega), Function.update_self, hlow, hv]
    cases m (a + i) <;> cases (m (b + i) ^^ subtract) <;> cases m carry <;> rfl
  · change Function.update (Function.update (m₁.putField pair 2 v) (dst + i) _) carry
      (Function.update (m₁.putField pair 2 v) (dst + i) _ (pair + 1)) carry = _
    rw [Function.update_self, Function.update_of_ne (by omega), hhigh, hv]
    cases m (a + i) <;> cases (m (b + i) ^^ subtract) <;> cases m carry <;> rfl

/-- The bits above are still to come. -/
theorem addBitEffect_above {j : Nat} (hij : i < j) (hj : j < 32) {q : Nat} (hq : q = a ∨ q = b) :
    addBitEffect dst a b subtract i m (q + j) = m (q + j) := by
  have hpair : pair = temp + 32 := rfl
  have hcarry : carry = temp + 64 := rfl
  have happ : Apart temp q ∧ Apart pair q ∧ Apart carry q ∧ (dst = q ∨ Apart dst q) := by
    obtain ⟨-, h₁, h₁'⟩ := hop.apart temp (by simp [addWords])
    obtain ⟨-, h₂, h₂'⟩ := hop.apart pair (by simp [addWords])
    obtain ⟨-, h₃, h₃'⟩ := hop.apart carry (by simp [addWords])
    rcases hq with rfl | rfl
    · exact ⟨h₁, h₂, h₃, hop.left⟩
    · exact ⟨h₁', h₂', h₃', hop.right⟩
  unfold Apart at happ
  refine addBitEffect_of_ne ?_ ?_ ?_ ?_ <;> omega

end Bit

/-- The bits up to `n`. -/
theorem foldl_addBitEffect (hop : Operands addWords dst a b) {x y : BitVec 32}
    (hx : HasWord m a x) (hy : HasWord m b y) (hc : m carry = subtract) {n : Nat} (hn : n ≤ 32) :
    let m' := (List.range n).foldl (fun m i ↦ addBitEffect dst a b subtract i m) m
    (∀ j < n, m' (dst + j) = (rippleResult subtract x y).getLsbD j) ∧
      m' carry = BitVec.carry n x (Prefix.addend subtract y) subtract ∧
      ∀ j, n ≤ j → j < 32 → m' (a + j) = x.getLsbD j ∧ m' (b + j) = y.getLsbD j := by
  induction n with
  | zero => exact ⟨nofun, hc.trans BitVec.carry_zero.symm, fun j _ hj ↦ ⟨hx j hj, hy j hj⟩⟩
  | succ n ih =>
      obtain ⟨hlow, hcarry, hab⟩ := ih (by omega)
      have hn' : n < 32 := hn
      simp only [List.range_succ, List.foldl_append, List.foldl_cons, List.foldl_nil]
      generalize (List.range n).foldl (fun m i ↦ addBitEffect dst a b subtract i m) m = m'
        at hlow hcarry hab
      obtain ⟨ha, hb⟩ := hab n (Nat.le_refl _) hn'
      obtain ⟨hsum, hnext⟩ := @addBitEffect_bits dst a b subtract m' hop n hn'
      rw [ha, hb, hcarry, ← Prefix.getLsbD_addend y subtract hn'] at hsum hnext
      refine ⟨fun j hj ↦ ?_, ?_, fun j hj hj' ↦ ?_⟩
      · rcases Nat.lt_succ_iff_lt_or_eq.mp hj with hj | rfl
        · rw [← hlow j hj]
          have hpair : pair = temp + 32 := rfl
          have hcarry : carry = temp + 64 := rfl
          obtain ⟨h₁, -⟩ := hop.apart temp (by simp [addWords])
          obtain ⟨h₂, -⟩ := hop.apart pair (by simp [addWords])
          obtain ⟨h₃, -⟩ := hop.apart carry (by simp [addWords])
          unfold Apart at h₁ h₂ h₃
          refine addBitEffect_of_ne ?_ ?_ ?_ ?_ <;> omega
        · rw [hsum, Prefix.getLsbD_result x y subtract hn']
      · rw [hnext, BitVec.carry_succ]
      · rw [addBitEffect_above hop hn' hj hj' (.inl rfl),
          addBitEffect_above hop hn' hj hj' (.inr rfl)]
        exact hab j (Nat.le_of_lt hj) hj'

/-! ## The copies of the adder -/

/-- The tables under the keys of `Image.gates`. -/
def Image.tables : GateKey → Nat → List Nat → Prop
  | .gate name, stride, values =>
      stride = 0 ∧ ∃ count, gateValues name.function count = .ok values
  | .adder, stride, values => stride = 1 ∧ values = adderValues

section Emits

variable {I I₁ : Image GateKey} {adder i : Nat}

/-- The number of inputs of a gate is known from its values. -/
theorem gateValues_arity {function : List Nat → Except String Nat} {arity count : Nat}
    {values : List Nat} (hf : ∀ l v, function l = .ok v → l.length = arity)
    (h : gateValues function count = .ok values) : count = arity := by
  obtain ⟨hlen, hval⟩ := gateValues_eq h
  have := hf _ _ (hval 0 (hlen ▸ Nat.two_pow_pos count))
  rwa [List.length_map, List.length_range] at this

theorem tables_not (stride : Nat) (values : List Nat) :
    Image.tables (.gate .not) stride values ↔
      stride = 0 ∧ gateValues GateName.not.function 1 = .ok values := by
  refine and_congr_right fun _ ↦ ⟨fun ⟨count, h⟩ ↦ ?_, fun h ↦ ⟨1, h⟩⟩
  obtain rfl : count = 1 := gateValues_arity (fun l v hl ↦ by
    match l with
    | [] | _ :: _ :: _ => cases hl
    | [_] => rfl) h
  exact h

/-- `Image.gate` for the complement. -/
theorem gate_not_emits {p q : Nat} (hI : I.Good Image.tables)
    (h : Image.gate .not p [q] I = .ok ((), I₁)) : I₁.Good Image.tables ∧
      Emits labels I I₁ {p} fun m ↦ Function.update m p (!m q) :=
  gateAt_emits labels hI tables_not h fun m _ ↦ by cases hq : m q <;> simp [GateName.function, hq]

/-- The entry of the adder's table for two bits and a carry. -/
theorem adder_entry {data : List Datum} (ht : TableAt data adder 1 adderValues)
    (hm : Installed data m) (p q r : Nat) :
    m.field (adder + 2 ^ 1 * index m [p, q, r]) 2 =
      (m p).toNat + (m q).toNat + (m r).toNat := by
  have hval : ∀ x y z : Bool, adderValues[x.toNat + 2 * (y.toNat + 2 * (z.toNat + 2 * 0))]? =
      some (x.toNat + y.toNat + z.toNat) := by decide
  have hlt : index m [p, q, r] < adderValues.length := index_lt m [p, q, r]
  obtain ⟨_, hsum⟩ := List.getElem?_eq_some_iff.mp (hval (m p) (m q) (m r))
  exact (ht.field_eq hm hlt).trans hsum

theorem word_subset {words : List Nat} {w p n : Nat} (hw : w ∈ dst :: words)
    (hp : w ≤ p) (hn : p + n ≤ w + 32) : {q | p ≤ q ∧ q < p + n} ⊆ Written words dst :=
  fun _ hq ↦ ⟨w, hw, hp.trans hq.1, hq.2.trans_le hn⟩

theorem bit_subset (words : List Nat) {w : Nat} (hw : w ∈ dst :: words) {j : Nat} (hj : j < 32) :
    {w + j} ⊆ Written words dst := Set.singleton_subset_iff.mpr (mem_written hw hj)

/-- The copies for one bit. -/
theorem addBit_emits (hi : i < 32) (hI : I.Good Image.tables)
    (ht : TableAt I.data adder 1 adderValues)
    (h : Image.addBit dst a b subtract adder i I = .ok ((), I₁)) :
    (I₁.Good Image.tables ∧ TableAt I₁.data adder 1 adderValues) ∧
      Emits labels I I₁ (Written addWords dst) (addBitEffect dst a b subtract i) := by
  obtain ⟨second, I₂, h₂, h⟩ := bind_eq_ok.mp h
  obtain ⟨⟨⟩, I₃, h₃, h'⟩ := bind_eq_ok.mp h
  obtain ⟨⟨⟩, I₄, h₄, h₁⟩ := bind_eq_ok.mp h'
  have hsecond : I₂.Good Image.tables ∧ second = (if subtract then temp + i else b + i) ∧
      Emits labels I I₂ (Written addWords dst) fun m ↦
        if subtract then Function.update m (temp + i) (!m (b + i)) else m := by
    cases subtract with
    | false =>
        cases h₂
        exact ⟨hI, rfl,
          (Emits.refl (List.Subset.refl _) (Nat.le_refl _) rfl).mono (Set.empty_subset _)⟩
    | true =>
        obtain ⟨⟨⟩, I', h', e⟩ := bind_eq_ok.mp h₂
        cases e
        obtain ⟨hI', he⟩ := gate_not_emits labels hI h'
        exact ⟨hI', rfl, he.mono (bit_subset addWords (w := temp) (by simp [addWords]) hi)⟩
  obtain ⟨hI₂, rfl, he₂⟩ := hsecond
  have ht₂ := ht.mono he₂.data
  have haligned : adder % 2 ^ (1 + 3) = 0 := ht.aligned
  obtain ⟨hs₃, he₃⟩ := lookup_emits labels (by exact haligned) h₃
  obtain ⟨hs₄, he₄⟩ := emit_bit_emits labels h₄
  obtain ⟨hs₁, he₁⟩ := emit_bit_emits labels h₁
  have hI₁ := ((hI₂.of_same hs₃).of_same hs₄).of_same hs₁
  have hpair : pair ∈ dst :: addWords := by simp [addWords]
  have hcarry : carry ∈ dst :: addWords := by simp [addWords]
  have ht₃ := ht₂.mono he₃.data
  have he₃ := (he₃.congr (fun m hm ↦ congrArg (m.putField pair 2) (adder_entry ht₃ hm _ _ _))
    fun m p hp ↦ Bits.putField_of_notMem m hp).mono
      (word_subset hpair (Nat.le_refl _) (Nat.add_le_add_left (by decide) _))
  have he₄ := he₄.mono (bit_subset addWords List.mem_cons_self hi)
  have he₁ := he₁.mono (bit_subset addWords (j := 0) hcarry (by decide))
  have hall := ((he₂.trans he₃).trans he₄).trans he₁
  simp only [Set.union_self] at hall
  exact ⟨⟨hI₁, ht₃.mono (he₄.trans he₁).data⟩,
    hall.congr (fun m _ ↦ rfl) fun m p hp ↦ addBitEffect_of_notMem hi hp⟩

/-- What `Image.add` emits leaves the result in the destination, and its carry in `CARRY`. -/
theorem add_emits (hop : Operands addWords dst a b) (hI : I.Good Image.tables)
    (h : Image.add dst a b subtract I = .ok ((), I₁)) : I₁.Good Image.tables ∧
      ∃ f, Emits labels I I₁ (Written addWords dst) f ∧ ∀ m x y, HasWord m a x → HasWord m b y →
        HasWord (f m) dst (rippleResult subtract x y) ∧ f m carry = carryOut subtract x y := by
  obtain ⟨adder, I₂, h₂, h⟩ := bind_eq_ok.mp h
  obtain ⟨start, I₃, h₃, h'⟩ := bind_eq_ok.mp h
  obtain ⟨⟨⟩, I₄, h₄, h₁⟩ := bind_eq_ok.mp h'
  have hT : ∀ v, (.ok adderValues : Except String (List Nat)) = .ok v →
      Image.tables .adder 1 v := fun v hv ↦ ⟨rfl, (Except.ok.inj hv).symm⟩
  obtain ⟨hI₂, he₂, stride, values, ⟨rfl, rfl⟩, ht₂⟩ := gateTable_emits labels hI hT h₂
  obtain ⟨hI₃, he₃, hstart⟩ := constant_emits labels hI₂ h₃
  obtain ⟨hs₄, he₄⟩ := emit_bit_emits labels h₄
  have ht₄ := (ht₂.mono he₃.data).mono he₄.data
  have he₄ : Emits labels I₃ I₄ {carry} fun m ↦ Function.update m carry subtract := by
    refine he₄.congr (fun m hm ↦ congrArg (Function.update m carry) ?_) fun m p hp ↦
      Function.update_of_ne hp _ _
    have hbit : m (start + 0) = subtract.toNat.testBit 0 :=
      Bits.bit_of_field (hm _ (he₄.data hstart)) (Nat.succ_pos 31)
    exact hbit.trans (by cases subtract <;> rfl)
  obtain ⟨⟨hI₁, -⟩, he₁⟩ := forM_emits
    (fun I ↦ I.Good Image.tables ∧ TableAt I.data adder 1 adderValues)
    (fun i hi I I₁ hInv h ↦ addBit_emits labels (List.mem_range.mp hi) hInv.1 hInv.2 h)
    ⟨hI₃.of_same hs₄, ht₄⟩ h₁
  have hsub : {carry + 0} ⊆ Written addWords dst := bit_subset addWords (by simp [addWords]) (by decide)
  have hall := ((he₂.trans he₃).trans (he₄.mono hsub)).trans he₁
  simp only [Set.union_self, Set.empty_union] at hall
  refine ⟨hI₁, _, hall, fun m x y hx hy ↦ ?_⟩
  have hne : ∀ q, Apart carry q → ∀ j < 32, q + j ≠ carry := fun q hq j hj ↦ by
    unfold Apart at hq
    omega
  obtain ⟨-, hca, hcb⟩ := hop.apart carry (by simp [addWords])
  obtain ⟨hlow, hcarry, -⟩ := foldl_addBitEffect (m := Function.update m carry subtract) hop
    (fun j hj ↦ (Function.update_of_ne (hne a hca j hj) _ _).trans (hx j hj))
    (fun j hj ↦ (Function.update_of_ne (hne b hcb j hj) _ _).trans (hy j hj))
    (Function.update_self _ _ _) (Nat.le_refl 32)
  simp only [Function.comp_apply, id_eq]
  exact ⟨hlow, hcarry.trans (Prefix.carry_width x y subtract)⟩

end Emits

end CopySpace.Rv32i
