import CopySpace.PForth.Clib

/-!
# Words are copied like bytes

A step of the loops over words is four steps of the loops over bytes.  In a copy this needs that the
two addresses differ by whole words: no byte of the word that is read is written before it is read.
-/

namespace CopySpace.PForth

variable {n : Nat} {a out source : Address} {m : Memory} {value : Byte} {word : Word}

/-! ## Bytes and words -/

theorem Memory.store_of_ne {b : Byte} (h : a ≠ out) : m.store out b a = m a := by
  rw [Memory.store, Function.update_of_ne h]

/-- A byte of the word is the byte it was made of. -/
theorem getLsbD_spread (value : Byte) {i j : Nat} (hi : i < 4) (hj : j < 8) :
    (spread value).getLsbD (8 * i + j) = value.getLsbD j := by
  have hword (k : Nat) : (value.setWidth 32).getLsbD k = (decide (k < 8) && value.getLsbD k) := by
    rw [BitVec.getLsbD_setWidth]
    by_cases hk : k < 8
    · simp [hk, show k < 32 by omega]
    · rw [BitVec.getLsbD_of_ge value k (by omega), Bool.and_false, Bool.and_false]
  obtain rfl | rfl | rfl | rfl : i = 0 ∨ i = 1 ∨ i = 2 ∨ i = 3 := by omega
  all_goals
    simp only [spread, BitVec.getLsbD_or, BitVec.getLsbD_shiftLeft, hword]
  · simp [hj, show j < 16 by omega]
  · simp [hj, show 8 + j < 32 by omega, show 8 + j < 16 by omega]
  · simp [hj, show 16 + j < 32 by omega, show 16 + j - 8 = 8 + j by omega,
      show ¬ 16 + j < 8 by omega, show ¬ 16 + j < 16 by omega]
  · simp [hj, show 24 + j < 32 by omega, show 24 + j - 8 = 16 + j by omega,
      show 24 + j - 16 = 8 + j by omega, show 8 + j < 32 by omega, show ¬ 24 + j < 8 by omega,
      show ¬ 16 + j < 8 by omega, show ¬ 24 + j < 16 by omega]

theorem extractLsb'_spread (value : Byte) {i : Nat} (hi : i < 4) :
    (spread value).extractLsb' (8 * i) 8 = value := by
  apply BitVec.eq_of_getLsbD_eq
  intro j hj
  rw [BitVec.getLsbD_extractLsb', decide_eq_true hj, Bool.true_and, getLsbD_spread value hi hj]

theorem toNat_and_three (a : Address) : (a &&& 3).toNat = a.toNat % 4 := by
  rw [BitVec.toNat_and]
  exact Nat.and_two_pow_sub_one_eq_mod a.toNat 2

theorem aligned_iff : a &&& 3 = 0 ↔ a.toNat % 4 = 0 := by
  rw [← BitVec.toNat_inj, toNat_and_three]
  rfl

theorem coaligned_iff : (a ^^^ out) &&& 3 = 0 ↔ a.toNat % 4 = out.toNat % 4 := by
  have hxor : (a ^^^ out) &&& 3 = (a &&& 3) ^^^ (out &&& 3) := by
    apply BitVec.eq_of_getLsbD_eq
    intro i hi
    rw [BitVec.getLsbD_and, BitVec.getLsbD_xor, BitVec.getLsbD_xor, BitVec.getLsbD_and,
      BitVec.getLsbD_and, Bool.and_xor_distrib_right]
  rw [hxor, ← toNat_and_three, ← toNat_and_three, BitVec.toNat_inj]
  exact BitVec.xor_eq_zero_iff

/-- Bytes at different places of aligned words are different. -/
theorem add_ne_add {i j : Nat} (ha : a.toNat % 4 = out.toNat % 4) (hi : i < 4) (hj : j < 4)
    (hij : i ≠ j) : a + BitVec.ofNat 32 i ≠ out + BitVec.ofNat 32 j := by
  intro h
  have := congrArg BitVec.toNat h
  simp only [BitVec.toNat_add, BitVec.toNat_ofNat] at this
  omega

theorem toNat_add_one_mod (a : Address) : (a + 1).toNat % 4 = (a.toNat + 1) % 4 := by
  rw [BitVec.toNat_add]
  change (a.toNat + 1) % 2 ^ 32 % 4 = _
  omega

theorem toNat_add_four_mod (a : Address) : (a + 4).toNat % 4 = a.toNat % 4 := by
  rw [BitVec.toNat_add]
  change (a.toNat + 4) % 2 ^ 32 % 4 = _
  omega

/-! ## Four bytes at a time -/

theorem setBytes_four : setBytes value (n + 4) out m =
    setBytes value n (out + 4) (m.storeBytes out (spread value)) := by
  have hbyte {i : Nat} (hi : i < 4) := extractLsb'_spread value hi
  rw [Memory.storeBytes, hbyte (i := 0) (by decide), hbyte (i := 1) (by decide),
    hbyte (i := 2) (by decide), hbyte (i := 3) (by decide)]
  simp only [setBytes, BitVec.add_assoc]
  rfl

/-- The bytes of a word in memory. -/
theorem extractLsb'_loadBytes (m : Memory) (a : Address) :
    (m.loadBytes a).extractLsb' 0 8 = m a ∧ (m.loadBytes a).extractLsb' 8 8 = m (a + 1) ∧
      (m.loadBytes a).extractLsb' 16 8 = m (a + 2) ∧
      (m.loadBytes a).extractLsb' 24 8 = m (a + 3) := by
  refine ⟨?_, ?_, ?_, ?_⟩ <;>
  · apply BitVec.eq_of_getLsbD_eq
    intro j hj
    simp only [Memory.loadBytes, BitVec.getLsbD_extractLsb', BitVec.getLsbD_append]
    split_ifs <;> first | omega | simp [hj, Nat.sub_sub]

theorem copyBytes_four (h : out.toNat % 4 = source.toNat % 4) :
    copyBytes (n + 4) out source m =
      copyBytes n (out + 4) (source + 4) (m.storeBytes out (m.loadBytes source)) := by
  obtain ⟨h₀, h₁, h₂, h₃⟩ := extractLsb'_loadBytes m source
  rw [Memory.storeBytes, h₀, h₁, h₂, h₃]
  have hne {i j : Nat} (hi : i < 4) (hj : j < 4) (hij : i ≠ j) :
      source + BitVec.ofNat 32 i ≠ out + BitVec.ofNat 32 j := add_ne_add h.symm hi hj hij
  have hzero : out + BitVec.ofNat 32 0 = out := BitVec.add_zero out
  have h10 : source + 1 ≠ out := hzero ▸ hne (i := 1) (j := 0) (by decide) (by decide) (by decide)
  have h20 : source + 2 ≠ out := hzero ▸ hne (i := 2) (j := 0) (by decide) (by decide) (by decide)
  have h30 : source + 3 ≠ out := hzero ▸ hne (i := 3) (j := 0) (by decide) (by decide) (by decide)
  have h21 : source + 2 ≠ out + 1 := hne (i := 2) (j := 1) (by decide) (by decide) (by decide)
  have h31 : source + 3 ≠ out + 1 := hne (i := 3) (j := 1) (by decide) (by decide) (by decide)
  have h32 : source + 3 ≠ out + 2 := hne (i := 3) (j := 2) (by decide) (by decide) (by decide)
  have hadd (b : Address) : b + 1 + 1 = b + 2 ∧ b + 2 + 1 = b + 3 ∧ b + 3 + 1 = b + 4 := by
    simp only [BitVec.add_assoc]
    exact ⟨rfl, rfl, rfl⟩
  simp only [copyBytes, hadd]
  rw [Memory.store_of_ne h10, Memory.store_of_ne h21, Memory.store_of_ne h20,
    Memory.store_of_ne h32, Memory.store_of_ne h31, Memory.store_of_ne h30]

/-! ## The loops -/

/-- What is left after the head is aligned, and gives the same. -/
theorem setHead_spec (value : Byte) (n : Nat) (out : Address) (m : Memory) :
    let r := setHead value n out m
    setBytes value r.1 r.2.1 r.2.2 = setBytes value n out m ∧ (0 < r.1 → r.2.1.toNat % 4 = 0) := by
  induction n generalizing out m with
  | zero => exact ⟨rfl, fun h ↦ absurd h (Nat.lt_irrefl 0)⟩
  | succ n ih =>
      rw [setHead]
      split_ifs with h
      · exact ih (out + 1) (m.store out value)
      · exact ⟨rfl, fun _ ↦ aligned_iff.mp (not_not.mp h)⟩

theorem setWords_spec (value : Byte) (h : 0 < n → out.toNat % 4 = 0) :
    ∃ r, setWords (spread value) n out m = some r ∧
      setBytes value r.1 r.2.1 r.2.2 = setBytes value n out m := by
  induction n using Nat.strong_induction_on generalizing out m with
  | _ n ih =>
    obtain hlt | ⟨n, rfl⟩ : n < 4 ∨ ∃ k, n = k + 4 := by
      rcases Nat.lt_or_ge n 4 with h | h
      · exact .inl h
      · exact .inr ⟨n - 4, by omega⟩
    · refine ⟨(n, out, m), ?_, rfl⟩
      unfold setWords
      split
      · omega
      · rfl
    · have hout := h (by omega)
      obtain ⟨r, hr, hsame⟩ := @ih n (by omega) (out + 4) (m.storeBytes out (spread value))
        fun _ ↦ (toNat_add_four_mod out).trans hout
      refine ⟨r, ?_, hsame.trans setBytes_four.symm⟩
      rw [setWords, Memory.storeWord, if_pos (aligned_iff.mpr hout), Option.bind_some, hr]

theorem copyHead_spec (n : Nat) (m : Memory) (h : out.toNat % 4 = source.toNat % 4) :
    let r := copyHead n out source m
    copyBytes r.1 r.2.1 r.2.2.1 r.2.2.2 = copyBytes n out source m ∧
      (0 < r.1 → r.2.1.toNat % 4 = 0) ∧ r.2.1.toNat % 4 = r.2.2.1.toNat % 4 := by
  induction n generalizing out source m with
  | zero => exact ⟨rfl, fun h ↦ absurd h (Nat.lt_irrefl 0), h⟩
  | succ n ih =>
      rw [copyHead]
      split_ifs with hout
      · refine ih (m.store out (m source)) ?_
        rw [toNat_add_one_mod, toNat_add_one_mod]
        omega
      · exact ⟨rfl, fun _ ↦ aligned_iff.mp (not_not.mp hout), h⟩

theorem copyWords_spec (h : 0 < n → out.toNat % 4 = 0)
    (hsource : out.toNat % 4 = source.toNat % 4) :
    ∃ r, copyWords n out source m = some r ∧
      copyBytes r.1 r.2.1 r.2.2.1 r.2.2.2 = copyBytes n out source m := by
  induction n using Nat.strong_induction_on generalizing out source m with
  | _ n ih =>
    obtain hlt | ⟨n, rfl⟩ : n < 4 ∨ ∃ k, n = k + 4 := by
      rcases Nat.lt_or_ge n 4 with h | h
      · exact .inl h
      · exact .inr ⟨n - 4, by omega⟩
    · refine ⟨(n, out, source, m), ?_, rfl⟩
      unfold copyWords
      split
      · omega
      · rfl
    · have hout := h (by omega)
      have hstep : (out + 4).toNat % 4 = (source + 4).toNat % 4 := by
        rw [toNat_add_four_mod, toNat_add_four_mod, hsource]
      obtain ⟨r, hr, hsame⟩ := @ih n (by omega) (out + 4) (source + 4)
        (m.storeBytes out (m.loadBytes source))
        (fun _ ↦ (toNat_add_four_mod out).trans hout) hstep
      refine ⟨r, ?_, hsame.trans (copyBytes_four hsource).symm⟩
      rw [copyWords, Memory.load, if_pos (aligned_iff.mpr (hsource ▸ hout)), Option.bind_some,
        Memory.storeWord, if_pos (aligned_iff.mpr hout), Option.bind_some, hr]

/-! ## What is written -/

/-- A byte that is not among the `n` behind an address is none of the others behind it either. -/
theorem toNat_sub_add_one (hn : n + 1 ≤ 2 ^ 32) (h : n + 1 ≤ (a - out).toNat) :
    a ≠ out ∧ n ≤ (a - (out + 1)).toNat := by
  constructor
  · rintro rfl
    rw [BitVec.sub_self] at h
    exact absurd h (Nat.not_succ_le_zero n)
  · rw [BitVec.toNat_sub] at h ⊢
    have ha := a.isLt
    have hout := out.isLt
    rw [BitVec.toNat_add]
    change _ ≤ (2 ^ 32 - (out.toNat + 1) % 2 ^ 32 + a.toNat) % 2 ^ 32
    omega

theorem setBytes_of_notMem (hn : n ≤ 2 ^ 32) (h : n ≤ (a - out).toNat) :
    setBytes value n out m a = m a := by
  induction n generalizing out m with
  | zero => rfl
  | succ n ih =>
      obtain ⟨hne, hrest⟩ := toNat_sub_add_one hn h
      rw [setBytes, ih (Nat.le_of_succ_le hn) hrest, Memory.store_of_ne hne]

theorem copyBytes_of_notMem (hn : n ≤ 2 ^ 32) (h : n ≤ (a - out).toNat) :
    copyBytes n out source m a = m a := by
  induction n generalizing out source m with
  | zero => rfl
  | succ n ih =>
      obtain ⟨hne, hrest⟩ := toNat_sub_add_one hn h
      rw [copyBytes, ih (Nat.le_of_succ_le hn) hrest, Memory.store_of_ne hne]

/-! ## The primitives -/

/-- **The primitives over words are those over bytes**, every word they access is aligned, and
nothing is written but the bytes that are counted. -/
theorem words_eq_bytes (m : Memory) (destination source : Address) (byte count : Word) :
    pfSetMemory m destination byte count = some (pfSetByteMemory m destination byte count) ∧
      pfCopyMemory m destination source count = some (pfCopyByteMemory m destination source count) ∧
      ∀ a : Address, count.toInt ≤ (a - destination).toNat →
        pfSetByteMemory m destination byte count a = m a ∧
          pfCopyByteMemory m destination source count a = m a := by
  have hcount : count.toInt.toNat ≤ 2 ^ 32 := by
    have := BitVec.toInt_lt (x := count)
    omega
  refine ⟨?_, ?_, fun a ha ↦ ?_⟩
  · rw [pfSetMemory]
    split_ifs with hle
    · rw [pfSetByteMemory, Int.toNat_of_nonpos hle, setBytes]
    · obtain ⟨hhead, haligned⟩ := setHead_spec (byte.setWidth 8) count.toInt.toNat destination m
      obtain ⟨r, hr, hsame⟩ := setWords_spec (byte.setWidth 8) haligned
      dsimp only
      rw [hr, Option.map_some, hsame, hhead, pfSetByteMemory]
  · rw [pfCopyMemory]
    split_ifs with hle hco
    · rw [pfCopyByteMemory, Int.toNat_of_nonpos hle, copyBytes]
    · rfl
    · obtain ⟨hhead, haligned, hsource⟩ :=
        copyHead_spec count.toInt.toNat m (coaligned_iff.mp (not_not.mp hco))
      obtain ⟨r, hr, hsame⟩ := copyWords_spec haligned hsource
      dsimp only
      rw [hr, Option.map_some, hsame, hhead, pfCopyByteMemory]
  · have hle : count.toInt.toNat ≤ (a - destination).toNat := Int.toNat_le.mpr ha
    exact ⟨setBytes_of_notMem hcount hle, copyBytes_of_notMem hcount hle⟩

end CopySpace.PForth
