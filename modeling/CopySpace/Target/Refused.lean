import CopySpace.Emit.Atomic
import CopySpace.Target.Execution

/-!
# Accepted and refused leaves

The program of an accepted leaf is well formed: no label is defined twice, and none is missing.

The first access of a leaf makes the label of the layer that stops a run, also when a `copy.trap`
has made it before.  Nothing defines the label of the trap then, and the linker refuses the leaf: a
trap may stand behind the first access, or in a leaf that does not access the memory.
-/

namespace CopySpace.Target

open Link Emit

variable {l l₁ l₂ : List (Statement Key)} {s : Statement Key} {ctx : Context}
  {capacities : Capacities} {bytes addressBits : Nat} {assembly entry : Text}
  {arguments : List Word} {E : Bits}

/-! ## Phases of a text -/

namespace Phase

theorem after_lost (s : Statement Key) : lost.after s = lost := by
  cases s <;> rfl

theorem after_trapped (h : s.accesses = false) : trapped.after s = trapped := by
  cases s with
  | operation o =>
      rw [Statement.accesses] at h
      simp [after, h]
  | label | branch | jump | ret | trap => rfl

theorem after_clear (h : s.accesses = false) : clear.after s = clear ∨ clear.after s = trapped := by
  cases s with
  | operation o =>
      rw [Statement.accesses] at h
      simp [after, h]
  | trap => exact .inr rfl
  | label | branch | jump | ret => exact .inl rfl

theorem after_trapped_of_accesses (h : s.accesses = true) : trapped.after s = lost := by
  cases s with
  | operation o =>
      rw [Statement.accesses] at h
      simp [after, h]
  | label | branch | jump | ret | trap => cases h

theorem foldl_lost (l : List (Statement Key)) : l.foldl after lost = lost := by
  induction l with
  | nil => rfl
  | cons s l ih => rw [List.foldl_cons, after_lost, ih]

theorem foldl_trapped (hs : s ∈ l) (h : s.accesses = true) : l.foldl after trapped = lost := by
  induction l with
  | nil => cases hs
  | cons s' l ih =>
      rw [List.foldl_cons]
      cases h' : s'.accesses with
      | true => rw [after_trapped_of_accesses h', foldl_lost]
      | false =>
          rw [after_trapped h']
          obtain rfl | hs := List.mem_cons.mp hs
          · rw [h] at h'
            cases h'
          · exact ih hs

/-- Without accesses there are traps at most. -/
theorem foldl_clear {p : Phase} (hp : p = clear ∨ p = trapped)
    (h : ∀ s ∈ l, s.accesses = false) : l.foldl after p = clear ∨ l.foldl after p = trapped := by
  induction l generalizing p with
  | nil => exact hp
  | cons s l ih =>
      have hs := h s List.mem_cons_self
      refine ih ?_ fun s' hs' ↦ h s' (List.mem_cons_of_mem s hs')
      obtain rfl | rfl := hp
      · exact after_clear hs
      · exact .inr (after_trapped hs)

theorem foldl_of_trap (h₁ : ∀ s ∈ l₁, s.accesses = false) (hs : s ∈ l₂)
    (h : s.accesses = true) : (l₁ ++ .trap :: l₂).foldl after clear = lost := by
  rw [List.foldl_append, List.foldl_cons]
  obtain he | he := foldl_clear (.inl rfl) h₁
  all_goals
    rw [he]
    exact foldl_trapped hs h

end Phase

/-! ## Accepted leaves -/

/-- There is an emulator for what the linker begins with. -/
theorem exists_emulator
    (h : leafStart capacities bytes addressBits assembly arguments = some ctx) :
    ∃ cfg : Config, cfg.processorN = 256 ∧ cfg.spaceSize = 2 ^ addressBits := by
  obtain ⟨program, hinit, -⟩ := Option.bind_eq_some_iff.mp h
  unfold csCopyProgramInit at hinit
  split at hinit
  · cases hinit
  next haddress =>
  dsimp only at hinit
  split at hinit
  · cases hinit
  next hlayer =>
  have hhalf := Nat.pow_le_pow_right (show 0 < 2 by decide) (Nat.sub_le addressBits 1)
  obtain ⟨cfg, hroomy, rfl⟩ := exists_roomy (show addressBits ≤ 31 by omega) (by omega) (by omega)
  exact ⟨cfg, hroomy.slots, hroomy.space⟩

theorem exists_leafStart
    (h : csCopyLinkLeaf capacities bytes addressBits assembly entry arguments = .ok E) :
    ∃ ctx, leafStart capacities bytes addressBits assembly arguments = some ctx := by
  unfold csCopyLinkLeaf at h
  split at h
  · cases h
  split at h
  · cases h
  next ctx hstart => exact ⟨ctx, hstart⟩

/-- The program of an accepted leaf is well formed. -/
theorem wellFormed_csCopyLinkLeaf
    (h : csCopyLinkLeaf capacities bytes addressBits assembly entry arguments = .ok E) :
    ∃ l, Target.program assembly = some l ∧ WellFormed l := by
  obtain ⟨start, hstart⟩ := exists_leafStart h
  obtain ⟨cfg, hN, hS⟩ := exists_emulator hstart
  obtain ⟨hn, l, ctx, ctx', ctx₁, ctx₂, f, hl, hs, ht, hends⟩ := translates_csCopyLinkLeaf hN hS h
  have hcarries := carries_of_finished hn hs ht
    (finished_leafImage ht.sound (hs.toInBody.mono ht).fault hends)
  refine ⟨l, hl, ht.labelled.nodup, fun s hmem k hk ↦ ?_⟩
  obtain ⟨rest, hrest⟩ := hcarries.holds.known k (hcarries.located.known hmem hk)
  exact mem_labels_of_locate hrest

/-- The labels of the leaf that subtracts. -/
theorem wellFormed_difference : ∃ l, Target.program differenceText = some l ∧ WellFormed l := by
  obtain ⟨E, hE⟩ := accepts_difference
  exact wellFormed_csCopyLinkLeaf hE

/-- A leaf with a trap before its first access is never linked. -/
theorem csCopyLinkLeaf_of_trap (hl : Target.program assembly = some (l₁ ++ .trap :: l₂))
    (h₁ : ∀ s ∈ l₁, s.accesses = false) (hs : s ∈ l₂) (h : s.accesses = true) :
    ¬ ∃ E, csCopyLinkLeaf capacities bytes addressBits assembly entry arguments = .ok E := by
  rintro ⟨E, hE⟩
  obtain ⟨start, hstart⟩ := exists_leafStart hE
  obtain ⟨cfg, hN, hS⟩ := exists_emulator hstart
  obtain ⟨-, l, ctx, ctx', ctx₁, ctx₂, f, hprogram, hstarted, ht, hends⟩ :=
    translates_csCopyLinkLeaf hN hS hE
  obtain rfl := Option.some.inj (hprogram.symm.trans hl)
  have hphase := ht.phase .clear hstarted.dataBegin
  rw [Phase.foldl_of_trap h₁ hs h] at hphase
  obtain ⟨k, hk, hfault⟩ := hphase
  exact hfault (hends.fault_of_awaited hk)

/-- A leaf that goes to the stack behind a trap. -/
def trappedText : Text := "f:\ncopy.trap\n.L1:\ncopy.push $sp, $r0\ncopy.ret\n".toList

/-- Such a leaf is refused. -/
theorem csCopyLinkLeaf_trapped : ¬ ∃ E, csCopyLinkLeaf smallCapacities 32768 18 trappedText
    "f".toList [7#32] = .ok E := by
  have hl : Target.program trappedText = some ([.label (.named "f".toList)] ++ .trap ::
      [.label (.named ".L1".toList), .operation (.push 1 2), .ret]) := by decide +kernel
  exact csCopyLinkLeaf_of_trap hl (by decide) (.tail _ (.head _)) rfl

end CopySpace.Target
