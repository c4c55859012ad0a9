import Mathlib.Data.Nat.Find
import Mathlib.Logic.Function.Basic
import Mathlib.Tactic.SplitIfs

/-!
# Linear probing

A table of slots, each empty or with a key.  A search walks around the table from the slot that the
key is hashed to, and stops at the key or at an empty slot.  It always stops when a slot is empty;
it finds every key as long as no chain is broken, and filling the slot where a search stopped
breaks none.
-/

namespace CopySpace.Probing

variable {κ : Type*}

/-- A search for the key stops at the slot. -/
def Stops (keys : Nat → Option κ) (key : κ) (slot : Nat) : Prop :=
  keys slot = none ∨ keys slot = some key

instance [DecidableEq κ] (keys : Nat → Option κ) (key : κ) (slot : Nat) :
    Decidable (Stops keys key slot) :=
  inferInstanceAs (Decidable (_ ∨ _))

section Probe

variable [DecidableEq κ] (size : Nat) (keys : Nat → Option κ) (key : κ)

/-- The slot where a search stops within so many steps. -/
def probe : Nat → Nat → Option Nat
  | 0, _ => none
  | fuel + 1, slot => if Stops keys key slot then some slot else probe fuel ((slot + 1) % size)

variable {size keys key} {fuel slot d : Nat}

theorem probe_eq_some (hd : d < fuel) (hslot : slot < size)
    (hstop : Stops keys key ((slot + d) % size))
    (hwalk : ∀ e < d, ¬ Stops keys key ((slot + e) % size)) :
    probe size keys key fuel slot = some ((slot + d) % size) := by
  induction d generalizing fuel slot with
  | zero =>
      obtain ⟨fuel, rfl⟩ := Nat.exists_eq_succ_of_ne_zero (Nat.ne_of_gt hd)
      rw [Nat.add_zero, Nat.mod_eq_of_lt hslot] at hstop ⊢
      rw [probe, if_pos hstop]
  | succ d ih =>
      obtain ⟨fuel, rfl⟩ := Nat.exists_eq_succ_of_ne_zero (Nat.ne_of_gt (Nat.zero_lt_of_lt hd))
      have hnext (e : Nat) : ((slot + 1) % size + e) % size = (slot + (e + 1)) % size := by
        rw [Nat.mod_add_mod, Nat.add_assoc, Nat.add_comm 1]
      have hfirst := hwalk 0 (Nat.succ_pos d)
      rw [Nat.add_zero, Nat.mod_eq_of_lt hslot] at hfirst
      rw [probe, if_neg hfirst, ← hnext d]
      apply ih (Nat.lt_of_succ_lt_succ hd) (Nat.mod_lt _ (Nat.zero_lt_of_lt hslot))
      · rwa [hnext]
      · intro e he
        rw [hnext]
        exact hwalk (e + 1) (Nat.succ_lt_succ he)

/-- Every slot is met on a walk around the table. -/
theorem exists_steps {other : Nat} (hslot : slot < size) (hother : other < size) :
    ∃ d < size, (slot + d) % size = other := by
  refine ⟨(other + (size - slot)) % size, Nat.mod_lt _ (Nat.zero_lt_of_lt hslot), ?_⟩
  have hround : slot + (other + (size - slot)) = other + size := by omega
  rw [Nat.add_mod_mod, hround, Nat.add_mod_right, Nat.mod_eq_of_lt hother]

/-- A search stops when a slot is empty, and nowhere earlier. -/
theorem probe_stops (key : κ) (hempty : ∃ slot < size, keys slot = none) (hslot : slot < size) :
    ∃ d < size, probe size keys key size slot = some ((slot + d) % size) ∧
      Stops keys key ((slot + d) % size) ∧ ∀ e < d, ¬ Stops keys key ((slot + e) % size) := by
  obtain ⟨vacant, hvacant, hnone⟩ := hempty
  obtain ⟨last, hlast, rfl⟩ := exists_steps hslot hvacant
  have hexists : ∃ d, Stops keys key ((slot + d) % size) := ⟨last, .inl hnone⟩
  have hd : Nat.find hexists < size := Nat.lt_of_le_of_lt (Nat.find_min' hexists (.inl hnone)) hlast
  have hwalk : ∀ e < Nat.find hexists, ¬ Stops keys key ((slot + e) % size) :=
    fun e he ↦ Nat.find_min hexists he
  exact ⟨_, hd, probe_eq_some hd hslot (Nat.find_spec hexists) hwalk, Nat.find_spec hexists, hwalk⟩

end Probe

/-! ## Chains -/

section Chains

variable (size : Nat) (hash : κ → Nat) (keys : Nat → Option κ)

/-- The walk from where a key is hashed to leads over full slots with other keys to the key. -/
def Chained : Prop :=
  ∀ slot < size, ∀ key, keys slot = some key → ∃ d < size, (hash key + d) % size = slot ∧
    ∀ e < d, ¬ Stops keys key ((hash key + e) % size)

variable {size hash keys} {key : κ} {slot other : Nat}

theorem chained_empty : Chained size hash fun _ ↦ none := fun _ _ _ h ↦ nomatch h

variable [DecidableEq κ]

/-- A key in the table is found. -/
theorem Chained.probe_eq (h : Chained size hash keys) (hhash : hash key < size)
    (hslot : slot < size) (hkey : keys slot = some key) :
    probe size keys key size (hash key) = some slot := by
  obtain ⟨d, hd, rfl, hwalk⟩ := h slot hslot key hkey
  exact probe_eq_some hd hhash (.inr hkey) hwalk

/-- A key is in one slot at most. -/
theorem Chained.unique (h : Chained size hash keys) (hhash : hash key < size) (hslot : slot < size)
    (hother : other < size) (hkey : keys slot = some key) (hkey' : keys other = some key) :
    slot = other := by
  have hprobe := h.probe_eq hhash hslot hkey
  rw [h.probe_eq hhash hother hkey'] at hprobe
  exact (Option.some.inj hprobe).symm

/-- A slot that is filled where a search for its key stopped. -/
theorem Chained.update (h : Chained size hash keys) (hempty : ∃ slot < size, keys slot = none)
    (hhash : hash key < size) (hprobe : probe size keys key size (hash key) = some slot)
    (hvacant : keys slot = none) : Chained size hash (Function.update keys slot (some key)) := by
  -- a slot where no search for a key stopped is full, and stays as it is
  have hkeep {k : κ} {s : Nat} (hs : ¬ Stops keys k s) :
      ¬ Stops (Function.update keys slot (some key)) k s := by
    have hne : s ≠ slot := by
      rintro rfl
      exact hs (.inl hvacant)
    rwa [Stops, Function.update_of_ne hne]
  intro s hs k hk
  by_cases hslot : s = slot
  · subst hslot
    rw [Function.update_self] at hk
    obtain rfl := Option.some.inj hk
    obtain ⟨d, hd, heq, -, hwalk⟩ := probe_stops key hempty hhash
    rw [hprobe] at heq
    exact ⟨d, hd, (Option.some.inj heq).symm, fun e he ↦ hkeep (hwalk e he)⟩
  · rw [Function.update_of_ne hslot] at hk
    obtain ⟨d, hd, heq, hwalk⟩ := h s hs k hk
    exact ⟨d, hd, heq, fun e he ↦ hkeep (hwalk e he)⟩

end Chains

end CopySpace.Probing
