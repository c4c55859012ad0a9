import CopySpace.Emit.Rows
import CopySpace.Space.Chain

/-!
# Programs of several layers

`Written` is the invariant of a program under construction: the finished layers are chained,
the last one is still open, and together they do what the calls so far do.  `Written.room`
closes a layer and opens the next, `Written.append` adds the rows of a call, and
`Written.finish` gives the chain that the emulator executes.
-/

namespace CopySpace

open BitMachine

/-! ## Open layers -/

section Open

variable {cfg : Config} {m : Bits} {a : Nat} {rows rows' : List Instruction}

/-- The rows of a layer without its link. -/
def openRows (cfg : Config) (rows : List Instruction) : List Instruction :=
  [⟨0, 0, 0⟩, ⟨0, 0, 0⟩, ⟨0, 0, 0⟩] ++
    (rows ++ List.replicate (cfg.processorN - 3 - rows.length) ⟨0, 0, 0⟩)

theorem openRows_nil (hN : 4 ≤ cfg.processorN) :
    openRows cfg [] = List.replicate cfg.processorN ⟨0, 0, 0⟩ := by
  obtain ⟨n, hn⟩ := Nat.exists_eq_add_of_le (show 3 ≤ cfg.processorN by omega)
  rw [openRows, hn, List.length_nil, List.nil_append, Nat.sub_zero, Nat.add_sub_cancel_left,
    Nat.add_comm]
  rfl

/-- The slots of a layer before the last. -/
def slotRows (cfg : Config) (rows : List Instruction) : List Instruction :=
  [⟨0, 0, 0⟩, ⟨0, 0, 0⟩, ⟨0, 0, 0⟩] ++
    (rows ++ List.replicate (cfg.processorN - 4 - rows.length) ⟨0, 0, 0⟩)

theorem layerRows_eq (next : Nat) :
    layerRows cfg rows next = slotRows cfg rows ++ [⟨cfg.layerBits, 0, next⟩] :=
  (List.append_assoc _ _ _).symm

theorem openRows_eq (hN : rows.length + 4 ≤ cfg.processorN) :
    openRows cfg rows = slotRows cfg rows ++ [⟨0, 0, 0⟩] := by
  rw [openRows, slotRows, List.append_assoc, List.append_assoc, ← List.replicate_succ',
    show cfg.processorN - 4 - rows.length + 1 = cfg.processorN - 3 - rows.length by omega]

theorem length_slotRows (hN : rows.length + 4 ≤ cfg.processorN) :
    (slotRows cfg rows).length = cfg.processorN - 1 := by
  simp only [slotRows, List.length_append, List.length_cons, List.length_nil,
    List.length_replicate]
  omega

theorem length_openRows (hN : rows.length + 4 ≤ cfg.processorN) :
    (openRows cfg rows).length = cfg.processorN := by
  rw [openRows_eq hN, List.length_append, length_slotRows hN]
  exact Nat.sub_add_cancel (by omega)

/-- The link closes a layer. -/
theorem rowsAt_close (ht : Target cfg) (hN : rows.length + 4 ≤ cfg.processorN)
    (h : RowsAt cfg m a (openRows cfg rows)) {next : Nat}
    (hv : Instruction.Valid cfg ⟨cfg.layerBits, 0, next⟩) :
    RowsAt cfg (m.putRow cfg (a + (cfg.processorN - 1) * cfg.instructionSize)
      ⟨cfg.layerBits, 0, next⟩) a (layerRows cfg rows next) := by
  rw [openRows_eq hN, rowsAt_append] at h
  rw [layerRows_eq, rowsAt_append, length_slotRows hN]
  refine ⟨h.1.congr fun b hb ↦ Bits.putRow_of_notMem ?_, rowAt_putRow (ht.fits hv), trivial⟩
  rw [length_slotRows hN] at hb
  omega

/-- Rows are added to an open layer. -/
theorem rowsAt_extend (ht : Target cfg) (hN : rows.length + rows'.length + 4 ≤ cfg.processorN)
    (h : RowsAt cfg m a (openRows cfg rows)) (hv : ∀ row ∈ rows', row.Valid cfg) :
    RowsAt cfg (m.putRows cfg (a + (3 + rows.length) * cfg.instructionSize) rows') a
      (openRows cfg (rows ++ rows')) := by
  obtain ⟨k, hk⟩ := Nat.exists_eq_add_of_le (show rows.length + rows'.length ≤
    cfg.processorN - 3 by omega)
  have hold : openRows cfg rows = ([⟨0, 0, 0⟩, ⟨0, 0, 0⟩, ⟨0, 0, 0⟩] ++ rows) ++
      (List.replicate rows'.length ⟨0, 0, 0⟩ ++ List.replicate k ⟨0, 0, 0⟩) := by
    rw [openRows, hk, List.replicate_append_replicate, List.append_assoc, Nat.add_assoc,
      Nat.add_sub_cancel_left]
  have hnew : openRows cfg (rows ++ rows') = ([⟨0, 0, 0⟩, ⟨0, 0, 0⟩, ⟨0, 0, 0⟩] ++ rows) ++
      (rows' ++ List.replicate k ⟨0, 0, 0⟩) := by
    rw [openRows, hk, List.length_append, Nat.add_sub_cancel_left]
    simp only [List.append_assoc]
  have hlen : (([⟨0, 0, 0⟩, ⟨0, 0, 0⟩, ⟨0, 0, 0⟩] : List Instruction) ++ rows).length =
      3 + rows.length := by
    rw [List.length_append]
    rfl
  rw [hold] at h
  obtain ⟨h₁, h₂⟩ := rowsAt_append.mp h
  rw [hlen] at h₂
  obtain ⟨-, h₃⟩ := rowsAt_append.mp h₂
  rw [List.length_replicate] at h₃
  rw [hnew]
  refine rowsAt_append.mpr ⟨h₁.congr fun b hb ↦ Bits.putRows_of_notMem ?_, ?_⟩
  · rw [hlen] at hb
    omega
  · rw [hlen]
    refine rowsAt_append.mpr ⟨ht.rowsAt_putRows hv, h₃.congr fun b hb ↦ ?_⟩
    exact Bits.putRows_of_notMem (by omega)

end Open

namespace Emit

/-! ## Calls -/

/-- A call of `cs_copy_program_emit`, of `cs_copy_program_add32` or `cs_copy_program_sub32`, or
of `cs_copy_program_bits32`. -/
inductive Call where
  | emit (count destination source : Nat)
  | arithmetic32 (subtract : Bool) (destination left right table temporary carry : Nat)
  | bits32 (operation : BitOperation) (destination left right table : Nat)

/-- The two intervals have nothing in common. -/
def Separate (a n b k : Nat) : Prop := a + n ≤ b ∨ b + k ≤ a

theorem Separate.symm {a n b k : Nat} (h : Separate a n b k) : Separate b k a n := Or.symm h

namespace Call

def run (program : CopyProgram) : Call → Int × CopyProgram
  | emit count destination source => csCopyProgramEmit program count destination source
  | arithmetic32 false destination left right table temporary carry =>
      csCopyProgramAdd32 program destination left right table temporary carry
  | arithmetic32 true destination left right table temporary carry =>
      csCopyProgramSub32 program destination left right table temporary carry
  | bits32 operation destination left right table =>
      csCopyProgramBits32 program operation destination left right table

/-- The rows of a call, from slot `i` on. -/
def rows (cfg : Config) (i : Nat) : Call → List Instruction
  | emit count destination source => [⟨count, destination, source⟩]
  | arithmetic32 _ destination left right table temporary carry =>
      arithmetic32Rows cfg destination left right table temporary carry i
  | bits32 _ destination left right table => bits32Rows cfg destination left right table i

/-- The number of rows. -/
def length : Call → Nat
  | emit .. => 1
  | arithmetic32 .. => 193
  | bits32 .. => 96

/-- What the rows do, with the table as it is then. -/
def lookup : Call → Bits → Bits
  | emit count destination source => Bits.blit count destination source
  | arithmetic32 _ destination left right table temporary carry =>
      arithmetic32Lookup destination left right table temporary carry
  | bits32 _ destination left right table => bits32Lookup destination left right table

/-- What the call writes into the image besides its rows. -/
def tables : Call → Bits → Bits
  | emit .. => id
  | arithmetic32 subtract _ _ _ table _ carry => arithmeticTables subtract table carry
  | bits32 operation _ _ _ table => Bits.putField table 4 operation.truth

/-- The intervals that the rows write. -/
def writes : Call → List (Nat × Nat)
  | emit count destination _ => [(destination, count)]
  | arithmetic32 _ destination _ _ _ temporary carry =>
      [(destination, 32), (temporary, 2), (carry, 1)]
  | bits32 _ destination _ _ _ => [(destination, 32)]

/-- The table of a call, an empty interval when it has none. -/
def table : Call → Nat × Nat
  | emit .. => (0, 0)
  | arithmetic32 _ _ _ _ table _ _ => (table, 16)
  | bits32 _ _ _ _ table => (table, 4)

/-- The operands of the call lie in the space behind the processor. -/
def Placed (cfg : Config) : Call → Prop
  | emit count destination source => Instruction.Valid cfg ⟨count, destination, source⟩ ∧
      (count ≠ 0 → Behind cfg destination count) ∧ (count ≠ 0 → Behind cfg source count)
  | arithmetic32 _ destination left right table temporary carry => table % 16 = 0 ∧
      Behind cfg destination 32 ∧ Behind cfg left 32 ∧ Behind cfg right 32 ∧
      Behind cfg table 16 ∧ Behind cfg temporary 2 ∧ Behind cfg carry 1
  | bits32 _ destination left right table => table % 4 = 0 ∧ Behind cfg destination 32 ∧
      Behind cfg left 32 ∧ Behind cfg right 32 ∧ Behind cfg table 4

/-- The operands of the call are apart where they have to be. -/
def Apart : Call → Prop
  | emit .. => True
  | arithmetic32 _ destination left right table temporary carry =>
      (∀ a ∈ [destination, left, right], Separate a 32 table 16 ∧ Separate a 32 temporary 2 ∧
        Separate a 32 carry 1) ∧ Separate table 16 temporary 2 ∧ Separate table 16 carry 1 ∧
        Separate temporary 2 carry 1 ∧
        ∀ a ∈ [left, right], destination = a ∨ Separate destination 32 a 32
  | bits32 _ destination left right table =>
      (∀ a ∈ [destination, left, right], Separate a 32 table 4) ∧
        ∀ a ∈ [left, right], destination = a ∨ Separate destination 32 a 32

/-- The position lies in an interval that the call writes. -/
def Writes (call : Call) (p : Nat) : Prop := ∃ w ∈ call.writes, w.1 ≤ p ∧ p < w.1 + w.2

/-- The position lies in the table of the call. -/
def InTable (call : Call) (p : Nat) : Prop := call.table.1 ≤ p ∧ p < call.table.1 + call.table.2

variable {cfg : Config} {call : Call} {D : Bits} {i p : Nat}

theorem length_rows : (call.rows cfg i).length = call.length := by
  cases call with
  | emit => rfl
  | arithmetic32 => exact length_arithmetic32Rows
  | bits32 => exact length_bits32Rows

theorem performs_rows (hg : Target cfg) (h : call.Placed cfg) (hi : 3 ≤ i) :
    Performs cfg i (call.rows cfg i) D (call.lookup D) := by
  have h5 := hg.five_le
  cases call with
  | emit => exact .copy hi h.2.1 h.2.2 performs_nil
  | arithmetic32 =>
      obtain ⟨h16, hd, hl, hr, ht, hm, hc⟩ := h
      exact performs_arithmetic32Rows hi h5 h16 hd hl hr ht hm hc
  | bits32 =>
      obtain ⟨h4, hd, hl, hr, ht⟩ := h
      exact performs_bits32Rows hi (by omega) h4 hd hl hr ht

theorem valid_rows (hg : Target cfg) (h : call.Placed cfg) (hi : i + call.length ≤ 255) :
    ∀ row ∈ call.rows cfg i, row.Valid cfg := by
  cases call with
  | emit => exact List.forall_mem_singleton.mpr h.1
  | arithmetic32 =>
      obtain ⟨-, hd, hl, hr, ht, hm, hc⟩ := h
      exact valid_arithmetic32Rows hg.roomy hi hd hl hr ht hm hc
  | bits32 =>
      obtain ⟨-, hd, hl, hr, ht⟩ := h
      exact valid_bits32Rows hg.roomy hi hd hl hr ht

/-- The rows change nothing but what the call writes. -/
theorem lookup_of_not_writes (h : ¬ call.Writes p) : call.lookup D p = D p := by
  have hblit : ∀ {a n : Nat} (D : Bits) (src : Nat), (a, n) ∈ call.writes → ∀ {d k : Nat},
      a ≤ d → d + k ≤ a + n → D.blit k d src p = D p := fun {a n} D src hw {d k} h₁ h₂ ↦
    Bits.blit_of_notMem _ fun hp ↦ h ⟨_, hw, by dsimp only; omega⟩
  have hfold : ∀ (step : Bits → Nat → Bits) (n : Nat), (∀ D, ∀ b < n, step D b p = D p) →
      ∀ D, (List.range n).foldl step D p = D p := fun step n hstep D ↦ by
    induction n with
    | zero => rfl
    | succ n ih =>
        rw [List.range_succ, List.foldl_append, List.foldl_cons, List.foldl_nil,
          hstep _ n (Nat.lt_succ_self n), ih fun D b hb ↦ hstep D b (by omega)]
  cases call with
  | emit count destination source =>
      exact hblit D source (List.mem_singleton_self _) le_rfl le_rfl
  | arithmetic32 subtract destination left right table temporary carry =>
      have hd : (destination, 32) ∈ writes (.arithmetic32 subtract destination left right table
        temporary carry) := by simp [writes]
      have hm : (temporary, 2) ∈ writes (.arithmetic32 subtract destination left right table
        temporary carry) := by simp [writes]
      have hc : (carry, 1) ∈ writes (.arithmetic32 subtract destination left right table
        temporary carry) := by simp [writes]
      refine (hfold _ 32 (fun D b hb ↦ ?_) _).trans (hblit _ _ hc le_rfl le_rfl)
      rw [arithmeticStep, hblit _ _ hc le_rfl le_rfl,
        hblit _ _ hd (Nat.le_add_right _ _) (by omega), hblit _ _ hm le_rfl le_rfl]
  | bits32 operation destination left right table =>
      refine hfold _ 32 (fun D b hb ↦ ?_) D
      exact hblit _ _ (List.mem_singleton_self _) (Nat.le_add_right _ _) (by omega)

/-- Writing the table changes nothing but the table and the carry. -/
theorem tables_of_not_writes (h : ¬ call.Writes p) (ht : ¬ call.InTable p) :
    call.tables D p = D p := by
  cases call with
  | emit => rfl
  | arithmetic32 subtract destination left right table temporary carry =>
      rw [tables, arithmeticTables, Bits.putField_of_notMem _ fun hp ↦
        h ⟨(carry, 1), by simp [writes], hp⟩]
      have hfold : ∀ n ≤ 8, (List.range n).foldl
          (fun m i ↦ m.putField (table + 2 * i) 2 (arithmeticTruth subtract i)) D p = D p := by
        intro n hn
        induction n with
        | zero => rfl
        | succ n ih =>
            rw [List.range_succ, List.foldl_append, List.foldl_cons, List.foldl_nil,
              Bits.putField_of_notMem _ fun hp ↦ ht ⟨by dsimp only [Call.table]; omega,
                by dsimp only [Call.table]; omega⟩, ih (by omega)]
      exact hfold 8 le_rfl
  | bits32 => exact Bits.putField_of_notMem _ ht

end Call

/-! ## Successful calls -/

/-- An interval outside the processor and outside the code. -/
def Outside (cfg : Config) (lo hi a n : Nat) : Prop := cfg.layerBits ≤ a ∧ (a + n ≤ lo ∨ hi ≤ a)

/-- A raw row reads and writes outside the processor and outside the code. -/
def Call.RawOutside (cfg : Config) (lo hi : Nat) : Call → Prop
  | emit count destination source =>
      count ≠ 0 → Outside cfg lo hi destination count ∧ Outside cfg lo hi source count
  | _ => True

/-- A program for this emulator, with its code between `lo` and `hi`. -/
structure CopyProgram.For (cfg : Config) (lo hi : Nat) (program : CopyProgram) : Prop where
  image : program.image.For cfg
  codeBegin : program.codeBegin = lo
  codeLimit : program.codeLimit = hi
  layer_le : cfg.layerBits ≤ lo
  begin_le : lo + cfg.layerBits ≤ hi
  limit_le : hi ≤ program.image.bytes * 8
  bytes_le : program.image.bytes * 8 ≤ cfg.spaceSize

variable {cfg : Config} {lo hi : Nat} {image : CopyImage} {program program' : CopyProgram}
  {call : Call}

/-- An operand that passed the checks on the image lies behind the processor. -/
theorem behind_of_operandFits (hg : Roomy cfg) (h : image.For cfg) {a n : Nat} (hn : 0 < n)
    (hf : operandFits image (a, n)) : Behind cfg a n := by
  obtain ⟨hfit, -, hlow⟩ := hf
  have h32 := cfg.spaceSize_lt
  have hle := hg.layer_le
  rw [fits_iff, h.spaceBits] at hfit
  rw [overlaps, h.layerBits, Nat.zero_add, u32_of_lt (by omega), u32_of_lt (by omega)] at hlow
  exact ⟨by omega, hfit⟩

/-- The operands that passed the checks lie behind the processor and outside the code. -/
theorem operand_placed (hg : Target cfg) (hp : program.For cfg lo hi)
    {operands : List (Nat × Nat)} (hcode : outsideCode program operands)
    (hfits : ∀ operand ∈ operands, operandFits { program.image with slot := 3 } operand)
    {a n : Nat} (hm : (a, n) ∈ operands) (hn : 0 < n) :
    Behind cfg a n ∧ ∀ p, lo ≤ p → p < hi → ¬(a ≤ p ∧ p < a + n) := by
  have hfor : CopyImage.For cfg { program.image with slot := 3 } :=
    ⟨hp.1.1, hp.1.2, hp.1.3, hp.1.4, hp.1.5⟩
  have hbehind := behind_of_operandFits hg.roomy hfor hn (hfits _ hm)
  refine ⟨hbehind, fun p h₁ h₂ ↦ ?_⟩
  have ha := hbehind.2
  have h32 := cfg.spaceSize_lt
  have hlo := hp.begin_le
  have hhi := hp.limit_le
  have hb := hp.bytes_le
  have hapart := hcode _ hm
  rw [overlaps, hp.codeBegin, hp.codeLimit, u32_of_lt (by omega), u32_of_lt (by dsimp only; omega)]
    at hapart
  dsimp only at hapart
  omega

theorem afterRoom_eq_zero {count : Nat} {f : CopyImage → Int × CopyImage}
    (h : afterRoom program count f = (0, program')) : ∃ q image,
      room program count = (0, q) ∧ f q.image = (0, image) ∧
        program' = { q with image := image } := by
  unfold afterRoom at h
  dsimp only at h
  split at h
  · cases h
  · rename_i hr
    obtain ⟨h₀, rfl⟩ := Prod.mk.inj h
    exact ⟨_, _, Prod.ext (not_not.mp hr) rfl, Prod.ext h₀ rfl, rfl⟩

theorem separate_of_not_overlaps {a n b k : Nat} (ha : Behind cfg a n) (hb : Behind cfg b k)
    (h : ¬ overlaps a n b k) : Separate a n b k := by
  have h32 := cfg.spaceSize_lt
  unfold Behind at ha hb
  rw [overlaps, u32_of_lt (by omega), u32_of_lt (by omega)] at h
  unfold Separate
  omega

theorem separate_operands {destination left right table temporary carry : Nat}
    (h : operandsApart (addOperands destination left right table temporary carry)) (i j : Nat)
    (hi : i < 6) (hj : j < i) (h3 : 3 ≤ i) {a n b k : Nat} (ha : Behind cfg a n)
    (hb : Behind cfg b k)
    (hai : (addOperands destination left right table temporary carry).getD i 0 = (a, n))
    (hbj : (addOperands destination left right table temporary carry).getD j 0 = (b, k)) :
    Separate b k a n := by
  have hsep := h i hi j hj (.inl h3)
  rw [hai, hbj] at hsep
  exact (separate_of_not_overlaps ha hb hsep).symm

theorem separate_destination {destination left right : Nat} (hd : Behind cfg destination 32)
    (hl : Behind cfg left 32) (hr : Behind cfg right 32)
    (h : destinationApart destination left right) :
    ∀ a ∈ [left, right], destination = a ∨ Separate destination 32 a 32 := by
  intro a ha
  refine or_iff_not_imp_left.mpr fun hne ↦ separate_of_not_overlaps hd ?_ fun hov ↦ h a ha ⟨hne, hov⟩
  simp only [List.mem_cons, List.not_mem_nil, or_false] at ha
  rcases ha with rfl | rfl
  · exact hl
  · exact hr

/-- What a successful call has checked, and where it goes on. -/
structure Call.Succeeds (cfg : Config) (lo hi : Nat) (call : Call) (program program' : CopyProgram) :
    Prop where
  placed : call.Placed cfg
  apart : call.Apart
  outside : ∀ p, lo ≤ p → p < hi → ¬ call.Writes p ∧ ¬ call.InTable p
  table_le : call.table.1 + call.table.2 ≤ program.image.bytes * 8
  run : ∃ q, room program call.length = (0, q) ∧ (q.image.For cfg → program' =
    { q with image := (q.image.onData call.tables).append cfg (call.rows cfg q.image.slot) })

theorem Call.succeeds_emit (hp : program.For cfg lo hi) {count destination source : Nat}
    (hraw : (Call.emit count destination source).RawOutside cfg lo hi)
    (h : csCopyProgramEmit program count destination source = (0, program')) :
    Call.Succeeds cfg lo hi (.emit count destination source) program program' := by
  unfold csCopyProgramEmit at h
  split at h
  · cases h
  · rename_i hv
    have hvalid : Instruction.Valid cfg ⟨count, destination, source⟩ :=
      (rowValid_iff hp.image (by decide)).mp (not_not.mp hv)
    obtain ⟨q, image, hroom, hcall, rfl⟩ := afterRoom_eq_zero h
    refine ⟨⟨hvalid, fun hn ↦ ⟨(hraw hn).1.1, hvalid.dst_le⟩,
      fun hn ↦ ⟨(hraw hn).2.1, hvalid.src_le⟩⟩, trivial, fun p h₁ h₂ ↦ ⟨?_, ?_⟩,
      Nat.zero_le _, q, hroom, fun hq ↦ ?_⟩
    · rintro ⟨w, hw, h₃, h₄⟩
      cases List.mem_singleton.mp hw
      have := (hraw (by dsimp only at h₃ h₄; omega)).1.2
      dsimp only at h₃ h₄
      omega
    · rintro ⟨-, h₄⟩
      exact absurd h₄ (Nat.not_lt_zero p)
    · have hslot : q.image.slot < 255 := by
        by_contra hs
        rw [csCopyEmit, if_pos (by omega)] at hcall
        cases hcall
      rw [csCopyEmit_eq hq hslot hvalid] at hcall
      obtain ⟨-, rfl⟩ := Prod.mk.inj hcall
      rfl

theorem Call.succeeds_arithmetic32 (hg : Target cfg) (hp : program.For cfg lo hi)
    {subtract : Bool} {destination left right table temporary carry : Nat}
    (h : programArithmetic32 program subtract destination left right table temporary carry =
      (0, program')) : Call.Succeeds cfg lo hi
        (.arithmetic32 subtract destination left right table temporary carry) program program' := by
  unfold programArithmetic32 at h
  split at h
  · cases h
  · rename_i hv
    obtain ⟨hcode, hvalid⟩ := not_or.mp hv
    rw [not_not] at hcode hvalid
    obtain ⟨⟨-, -, h16⟩, hfits, hapart, hdest, htable, -⟩ := hvalid
    obtain ⟨q, image, hroom, hcall, rfl⟩ := afterRoom_eq_zero h
    have hop := @operand_placed cfg lo hi program hg hp _ hcode hfits
    simp only [addOperands, List.mem_cons, List.not_mem_nil, or_false] at hop
    obtain ⟨hd, hd'⟩ := hop (.inl rfl) (by decide)
    obtain ⟨hl, -⟩ := hop (.inr (.inl rfl)) (by decide)
    obtain ⟨hr, -⟩ := hop (.inr (.inr (.inl rfl))) (by decide)
    obtain ⟨ht, ht'⟩ := hop (.inr (.inr (.inr (.inl rfl)))) (by decide)
    obtain ⟨hm, hm'⟩ := hop (.inr (.inr (.inr (.inr (.inl rfl))))) (by decide)
    obtain ⟨hc, hc'⟩ := hop (.inr (.inr (.inr (.inr (.inr rfl))))) (by decide)
    refine ⟨⟨h16, hd, hl, hr, ht, hm, hc⟩, ?_, fun p h₁ h₂ ↦ ⟨?_, ht' p h₁ h₂⟩,
      fits_iff.mp htable, q, hroom, fun hq ↦ ?_⟩
    · have hsep := @separate_operands cfg _ _ _ _ _ _ hapart
      refine ⟨fun a ha ↦ ?_, hsep 4 3 (by decide) (by decide) (by decide) hm ht rfl rfl,
        hsep 5 3 (by decide) (by decide) (by decide) hc ht rfl rfl,
        hsep 5 4 (by decide) (by decide) (by decide) hc hm rfl rfl, separate_destination hd hl hr hdest⟩
      simp only [List.mem_cons, List.not_mem_nil, or_false] at ha
      rcases ha with rfl | rfl | rfl
      · exact ⟨hsep 3 0 (by decide) (by decide) (by decide) ht hd rfl rfl,
          hsep 4 0 (by decide) (by decide) (by decide) hm hd rfl rfl,
          hsep 5 0 (by decide) (by decide) (by decide) hc hd rfl rfl⟩
      · exact ⟨hsep 3 1 (by decide) (by decide) (by decide) ht hl rfl rfl,
          hsep 4 1 (by decide) (by decide) (by decide) hm hl rfl rfl,
          hsep 5 1 (by decide) (by decide) (by decide) hc hl rfl rfl⟩
      · exact ⟨hsep 3 2 (by decide) (by decide) (by decide) ht hr rfl rfl,
          hsep 4 2 (by decide) (by decide) (by decide) hm hr rfl rfl,
          hsep 5 2 (by decide) (by decide) (by decide) hc hr rfl rfl⟩
    · rintro ⟨w, hw, h₃⟩
      simp only [Call.writes, List.mem_cons, List.not_mem_nil, or_false] at hw
      rcases hw with rfl | rfl | rfl
      · exact hd' p h₁ h₂ h₃
      · exact hm' p h₁ h₂ h₃
      · exact hc' p h₁ h₂ h₃
    · have hvalid : addValid q.image destination left right table temporary carry := by
        by_contra hv
        rw [Emit.arithmetic32, if_pos hv] at hcall
        cases hcall
      rw [arithmetic32_eq hg.roomy hq subtract hvalid hd hl hr ht hm hc] at hcall
      obtain ⟨-, rfl⟩ := Prod.mk.inj hcall
      rfl

theorem Call.succeeds_bits32 (hg : Target cfg) (hp : program.For cfg lo hi)
    {operation : BitOperation} {destination left right table : Nat}
    (h : csCopyProgramBits32 program operation destination left right table = (0, program')) :
    Call.Succeeds cfg lo hi (.bits32 operation destination left right table) program program' := by
  unfold csCopyProgramBits32 at h
  split at h
  · cases h
  · rename_i hv
    obtain ⟨hcode, hvalid⟩ := not_or.mp hv
    rw [not_not] at hcode hvalid
    obtain ⟨⟨-, h4, htable⟩, hfits, hapart, hdest⟩ := hvalid
    obtain ⟨q, image, hroom, hcall, rfl⟩ := afterRoom_eq_zero h
    have hop := @operand_placed cfg lo hi program hg hp _ hcode hfits
    simp only [List.mem_cons, List.not_mem_nil, or_false] at hop
    obtain ⟨hd, hd'⟩ := hop (.inl rfl) (by decide)
    obtain ⟨hl, -⟩ := hop (.inr (.inl rfl)) (by decide)
    obtain ⟨hr, -⟩ := hop (.inr (.inr (.inl rfl))) (by decide)
    obtain ⟨ht, ht'⟩ := hop (.inr (.inr (.inr rfl))) (by decide)
    refine ⟨⟨h4, hd, hl, hr, ht⟩, ⟨fun a ha ↦ ?_, separate_destination hd hl hr hdest⟩,
      fun p h₁ h₂ ↦ ⟨?_, ht' p h₁ h₂⟩, fits_iff.mp htable, q, hroom, fun hq ↦ ?_⟩
    · refine separate_of_not_overlaps ?_ ht (hapart a ha)
      simp only [List.mem_cons, List.not_mem_nil, or_false] at ha
      rcases ha with rfl | rfl | rfl
      · exact hd
      · exact hl
      · exact hr
    · rintro ⟨w, hw, h₃⟩
      cases List.mem_singleton.mp hw
      exact hd' p h₁ h₂ h₃
    · have hvalid : bitsValid q.image destination left right table := by
        by_contra hv
        rw [csCopyBits32, if_pos hv] at hcall
        cases hcall
      rw [csCopyBits32_eq hg.roomy hq operation hvalid hd hl hr ht] at hcall
      obtain ⟨-, rfl⟩ := Prod.mk.inj hcall
      rfl

theorem Call.succeeds (hg : Target cfg) (hp : program.For cfg lo hi)
    (hraw : call.RawOutside cfg lo hi) (h : call.run program = (0, program')) :
    call.Succeeds cfg lo hi program program' := by
  cases call with
  | emit => exact succeeds_emit hp hraw h
  | arithmetic32 subtract =>
      cases subtract with
      | false => exact succeeds_arithmetic32 hg hp h
      | true => exact succeeds_arithmetic32 hg hp h
  | bits32 => exact succeeds_bits32 hg hp h

/-! ## The invariant -/

/-- The emulator for programs with addresses of this width. -/
theorem target_of_init {data : Bits} {bytes addressBits : Nat} (hN : cfg.processorN = 256)
    (hS : cfg.spaceSize = 2 ^ addressBits)
    (h : csCopyProgramInit data bytes addressBits lo hi = some program) :
    Target cfg ∧ cfg.addressSize = addressBits := by
  unfold csCopyProgramInit at h
  split at h
  · cases h
  · rename_i hv
    dsimp only at h
    split at h
    · cases h
    · rename_i hv'
      have ha : cfg.addressSize = addressBits := by
        rw [Config.addressSize, hS]
        exact ceilLog2U32_eq (by omega) le_rfl fun j hj ↦ Nat.pow_lt_pow_right (by decide) hj
      have hI : cfg.instructionSize = 3 * addressBits - 1 := by
        unfold Config.instructionSize Config.nSize
        omega
      have hlayer : cfg.layerBits = 256 * (3 * addressBits - 1) := by
        rw [Config.layerBits, hN, hI]
      have hn : cfg.nSize = addressBits - 1 := by rw [Config.nSize, ha]
      refine ⟨⟨hN, by rw [ha, hS], ?_, by rw [hlayer, hn]; omega⟩, ha⟩
      -- a layer is longer than the counts of a narrower space
      by_contra h5
      have : addressBits - 1 ≤ 3 := by omega
      have := Nat.pow_le_pow_right (show 0 < 2 by decide) this
      omega

/-- `cs_copy_image_init` clears the layer. -/
theorem csCopyImageInit_eq_some (hg : Target cfg) {data : Bits} {bytes layer : Nat}
    (h : csCopyImageInit data bytes cfg.addressSize layer = some image) :
    image = ⟨data.putField layer cfg.layerBits 0, bytes, cfg.spaceSize, layer, cfg.layerBits,
        cfg.addressSize, cfg.nSize, cfg.instructionSize, 3⟩ ∧
      layer + cfg.layerBits ≤ bytes * 8 ∧ bytes * 8 ≤ cfg.spaceSize := by
  unfold csCopyImageInit at h
  split at h
  · cases h
  · dsimp only at h
    split at h
    · cases h
    · rename_i hv
      rw [← hg.instructionSize_eq, ← hg.layerBits_eq, ← hg.space, fits_iff] at hv
      cases h
      refine ⟨?_, by omega, by omega⟩
      rw [← hg.instructionSize_eq, ← hg.layerBits_eq, ← hg.space]
      rfl

theorem rowsAt_cleared (hg : Target cfg) (data : Bits) (layer : Nat) :
    RowsAt cfg (data.putField layer cfg.layerBits 0) layer (openRows cfg []) := by
  rw [openRows_nil (by rw [hg.slots]; decide)]
  refine rowsAt_zero fun b hb ↦ ?_
  rw [Bits.putField_of_mem _ ⟨by omega, by unfold Config.layerBits; omega⟩, Nat.zero_testBit]

/-- The invariant of a program under construction: the layers `bodies` are finished, and `last`
is being written. -/
structure Written (cfg : Config) (lo hi : Nat) (bodies : List (Body cfg lo hi))
    (last : Body cfg lo hi) (program : CopyProgram) : Prop extends program.For cfg lo hi where
  chained : Chained program.image.data program.image.layer lo bodies program.image.layer
  layer : RowsAt cfg program.image.data program.image.layer (openRows cfg last.rows)
  slot : program.image.slot = 3 + last.rows.length
  length_le : lo + bodies.length * cfg.layerBits ≤ program.image.layer
  codeEnd : program.codeEnd = program.image.layer + cfg.layerBits
  codeEnd_le : program.codeEnd ≤ hi

theorem Written.lo_le {bodies : List (Body cfg lo hi)} {last : Body cfg lo hi}
    (h : Written cfg lo hi bodies last program) : lo ≤ program.image.layer :=
  le_trans (Nat.le_add_right _ _) h.length_le

/-- A layer without rows. -/
def emptyBody (hN : 4 ≤ cfg.processorN) : Body cfg lo hi where
  rows := []
  effect := id
  length_le := by simpa using hN
  performs := fun _ ↦ performs_nil
  frame := fun _ _ _ _ ↦ rfl

theorem written_init {data : Bits} {bytes : Nat} (hg : Target cfg) (hN : 4 ≤ cfg.processorN)
    (h : csCopyProgramInit data bytes cfg.addressSize lo hi = some program) :
    Written cfg lo hi [] (emptyBody hN) program := by
  unfold csCopyProgramInit at h
  split at h
  · cases h
  · dsimp only at h
    rw [← hg.instructionSize_eq, ← hg.layerBits_eq] at h
    split at h
    · cases h
    · rename_i hv
      rw [fits_iff] at hv
      obtain ⟨image, hinit, rfl⟩ := Option.map_eq_some_iff.mp h
      obtain ⟨rfl, hle, hbytes⟩ := csCopyImageInit_eq_some hg hinit
      exact {
        image := ⟨rfl, rfl, rfl, rfl, rfl⟩
        codeBegin := rfl
        codeLimit := rfl
        layer_le := by omega
        begin_le := by omega
        limit_le := by dsimp only; omega
        bytes_le := hbytes
        chained := rfl
        layer := rowsAt_cleared hg data lo
        slot := rfl
        length_le := by rw [List.length_nil, Nat.zero_mul, Nat.add_zero]
        codeEnd := rfl
        codeEnd_le := by dsimp only; omega }

variable {bodies : List (Body cfg lo hi)} {last : Body cfg lo hi}

/-- The layer that is being written gets a link, and a chain gets longer by it. -/
theorem Written.close (hg : Target cfg) (h : Written cfg lo hi bodies last program) {next : Nat}
    (hnext : Behind cfg next cfg.layerBits) {m : Bits}
    (hv : Instruction.Valid cfg ⟨cfg.layerBits, 0, next⟩)
    (hm : ∀ p, lo ≤ p → p < program.codeEnd → m p = program.image.data p) :
    Chained (m.putRow cfg (program.image.layer + 255 * cfg.instructionSize)
      ⟨cfg.layerBits, 0, next⟩) program.codeEnd lo (bodies ++ [last]) next := by
  have hlayer := hg.layerBits_eq
  have hend := h.codeEnd
  have hle := h.lo_le
  refine .append (.mono (h.chained.congr fun p h₁ h₂ ↦ ?_) (by omega))
    ⟨h.lo_le, h.codeEnd.ge, next, ?_, hnext, rfl⟩
  · rw [Bits.putRow_of_notMem (by omega), hm p h₁ (by omega)]
  · have hopen : RowsAt cfg m program.image.layer (openRows cfg last.rows) :=
      h.layer.congr fun b hb ↦ hm _ (by omega) (by
        rw [length_openRows last.length_le, hg.slots] at hb
        omega)
    have hclose := rowsAt_close hg last.length_le hopen hv
    rwa [hg.slots] at hclose

theorem valid_link (hg : Target cfg) {next : Nat} (hn : next + cfg.layerBits ≤ cfg.spaceSize) :
    Instruction.Valid cfg ⟨cfg.layerBits, 0, next⟩ := by
  have hI := hg.instructionSize_eq
  have h5 := hg.five_le
  have hlayer := hg.layerBits_eq
  exact ⟨hg.layer, by dsimp only; omega, hn, by dsimp only; omega, by dsimp only; omega⟩

/-- The image with a link to the layer at `next`, which is cleared. -/
def nextData (cfg : Config) (layer next : Nat) (m : Bits) : Bits :=
  (m.putField next cfg.layerBits 0).putRow cfg (layer + 255 * cfg.instructionSize)
    ⟨cfg.layerBits, 0, next⟩

/-- A successful call of `cs_copy_program_next`. -/
theorem CopyProgram.For.next_eq_zero (hg : Target cfg) (h : program.For cfg lo hi)
    (hr : csCopyProgramNext program = (0, program')) :
    program.codeEnd + cfg.layerBits ≤ hi ∧ program' = { program with
      image := ⟨nextData cfg program.image.layer program.codeEnd program.image.data,
        program.image.bytes, cfg.spaceSize, program.codeEnd, cfg.layerBits, cfg.addressSize,
        cfg.nSize, cfg.instructionSize, 3⟩
      codeEnd := program.codeEnd + cfg.layerBits } := by
  unfold csCopyProgramNext at hr
  dsimp only at hr
  split at hr
  · cases hr
  · rename_i hv
    obtain ⟨hfit, hrow⟩ := not_or.mp hv
    rw [not_not] at hfit hrow
    rw [fits_iff, h.codeLimit, h.image.layerBits] at hfit
    have hrow : Instruction.Valid cfg ⟨program.image.layerBits, 0, program.codeEnd⟩ :=
      (rowValid_iff h.image (by decide)).mp hrow
    split at hr
    · cases hr
    · rename_i next hinit
      rw [h.image.addressBits] at hinit
      obtain ⟨rfl, -, -⟩ := csCopyImageInit_eq_some hg hinit
      have hlink := csCopyRow_eq (h.image.onData fun m ↦
        m.putField program.codeEnd cfg.layerBits 0) (show 255 < 256 by decide) hrow
      have hdata : (csCopyRow { program.image with
          data := program.image.data.putField program.codeEnd cfg.layerBits 0 } 255
          program.image.layerBits 0 program.codeEnd).2.data =
            nextData cfg program.image.layer program.codeEnd program.image.data :=
        (congrArg (fun r ↦ r.2.data) hlink).trans (by rw [h.image.layerBits]; rfl)
      obtain ⟨-, rfl⟩ := Prod.mk.inj hr
      dsimp only
      rw [hdata]
      exact ⟨hfit, rfl⟩

theorem csCopyProgramNext_eq_zero (hg : Target cfg) (h : Written cfg lo hi bodies last program)
    (hr : csCopyProgramNext program = (0, program')) :
    program.codeEnd + cfg.layerBits ≤ hi ∧ program' = { program with
      image := ⟨nextData cfg program.image.layer program.codeEnd program.image.data,
        program.image.bytes, cfg.spaceSize, program.codeEnd, cfg.layerBits, cfg.addressSize,
        cfg.nSize, cfg.instructionSize, 3⟩
      codeEnd := program.codeEnd + cfg.layerBits } := h.toFor.next_eq_zero hg hr

/-- `room` leaves the program as it is or begins a new layer. -/
theorem room_eq_zero {count : Nat} (hr : room program count = (0, program')) :
    (program' = program ∧ program.image.slot + count ≤ 255) ∨
      (csCopyProgramNext program = (0, program') ∧ count ≤ 252) := by
  unfold room at hr
  split at hr
  · cases hr
  · split at hr
    · cases hr
      exact .inl ⟨rfl, by omega⟩
    · exact .inr ⟨hr, by omega⟩

/-- `room` changes nothing outside the code. -/
theorem Written.room_frame (hg : Target cfg) (h : Written cfg lo hi bodies last program)
    {count : Nat} (hr : room program count = (0, program')) :
    program'.image.bytes = program.image.bytes ∧ ∀ p, ¬(lo ≤ p ∧ p < hi) →
      program'.image.data p = program.image.data p := by
  obtain ⟨rfl, -⟩ | ⟨hnext, -⟩ := room_eq_zero hr
  · exact ⟨rfl, fun _ _ ↦ rfl⟩
  · obtain ⟨hle, rfl⟩ := csCopyProgramNext_eq_zero hg h hnext
    have hlayer := hg.layerBits_eq
    have hend := h.codeEnd
    have hlo := h.lo_le
    refine ⟨rfl, fun p hp ↦ ?_⟩
    dsimp only
    rw [nextData, Bits.putRow_of_notMem (by omega), Bits.putField_of_notMem _ (by omega)]

/-- After `room` there is room, perhaps in a new layer. -/
theorem Written.room (hg : Target cfg) (hN : 4 ≤ cfg.processorN)
    (h : Written cfg lo hi bodies last program) {count : Nat}
    (hr : room program count = (0, program')) :
    ∃ bodies' last', Written cfg lo hi bodies' last' program' ∧
      program'.image.slot + count ≤ 255 ∧
      ∀ D, last'.effect (effects bodies' D) = last.effect (effects bodies D) := by
  obtain ⟨rfl, hs⟩ | ⟨hnext, hcount⟩ := room_eq_zero hr
  · exact ⟨bodies, last, h, hs, fun _ ↦ rfl⟩
  · obtain ⟨hfit, rfl⟩ := csCopyProgramNext_eq_zero hg h hnext
    have hlayer := hg.layerBits_eq
    have hend := h.codeEnd
    have hlo := h.lo_le
    have hlo' := h.layer_le
    have hlimit := h.limit_le
    have hbytes := h.bytes_le
    have hclose := h.close (m := program.image.data.putField program.codeEnd cfg.layerBits 0)
      hg ⟨by omega, by omega⟩
      (valid_link hg (show program.codeEnd + cfg.layerBits ≤ cfg.spaceSize by omega))
      fun p h₁ h₂ ↦ Bits.putField_of_notMem _ (by omega)
    refine ⟨bodies ++ [last], emptyBody hN, ?_, by dsimp only; omega, fun D ↦ ?_⟩
    · exact {
        image := ⟨rfl, rfl, rfl, rfl, rfl⟩
        codeBegin := h.codeBegin
        codeLimit := h.codeLimit
        layer_le := h.layer_le
        begin_le := h.begin_le
        limit_le := h.limit_le
        bytes_le := h.bytes_le
        chained := hclose
        layer := by
          refine (rowsAt_cleared hg program.image.data program.codeEnd).congr fun b hb ↦ ?_
          dsimp only
          exact Bits.putRow_of_notMem (by omega)
        slot := rfl
        length_le := by
          have hlength := h.length_le
          rw [List.length_append, List.length_singleton, Nat.succ_mul]
          dsimp only
          omega
        codeEnd := rfl
        codeEnd_le := hfit }
    · rw [effects_append]
      rfl

/-- A call appends its rows. -/
theorem Written.append (hg : Target cfg) (h : Written cfg lo hi bodies last program)
    (hs : program.image.slot + call.length ≤ 255) (hp : call.Placed cfg)
    (hout : ∀ p, lo ≤ p → p < hi → ¬ call.Writes p ∧ ¬ call.InTable p) :
    ∃ last', Written cfg lo hi bodies last' { program with
        image := (program.image.onData call.tables).append cfg
          (call.rows cfg program.image.slot) } ∧
      ∀ D, last'.effect D = call.lookup (last.effect D) := by
  have hslot := h.slot
  have hend := h.codeEnd
  have hle := h.codeEnd_le
  have hlo := h.lo_le
  have hlayer := hg.layerBits_eq
  have hcount : (last.rows ++ call.rows cfg program.image.slot).length + 4 ≤ cfg.processorN := by
    rw [List.length_append, Call.length_rows, hg.slots]
    omega
  refine ⟨{
    rows := last.rows ++ call.rows cfg program.image.slot
    effect := fun D ↦ call.lookup (last.effect D)
    length_le := hcount
    performs := fun D ↦ (last.performs D).append ?_
    frame := fun D p h₁ h₂ ↦
      (Call.lookup_of_not_writes (hout p h₁ h₂).1).trans (last.frame D p h₁ h₂) }, ?_, fun _ ↦ rfl⟩
  · rw [← hslot]
    exact Call.performs_rows hg hp (by omega)
  · -- the tables and the carry lie outside the code
    have htables : ∀ p, lo ≤ p → p < hi →
        call.tables program.image.data p = program.image.data p := fun p h₁ h₂ ↦
      Call.tables_of_not_writes (hout p h₁ h₂).1 (hout p h₁ h₂).2
    have hlayer' : RowsAt cfg (call.tables program.image.data) program.image.layer
        (openRows cfg last.rows) := h.layer.congr fun b hb ↦ by
      rw [length_openRows last.length_le, hg.slots] at hb
      exact htables _ (by omega) (by omega)
    have hrows := rowsAt_extend hg (by rwa [List.length_append] at hcount) hlayer'
      (Call.valid_rows hg hp hs)
    rw [← hslot] at hrows
    exact {
      image := (h.image.onData _).append _
      codeBegin := h.codeBegin
      codeLimit := h.codeLimit
      layer_le := h.layer_le
      begin_le := h.begin_le
      limit_le := h.limit_le
      bytes_le := h.bytes_le
      chained := h.chained.congr fun p h₁ (h₂ : p < program.image.layer) ↦
        (Bits.putRows_of_notMem fun hp ↦ Nat.not_le.mpr h₂ (le_trans (Nat.le_add_right _ _)
          hp.1)).trans (htables p h₁ (by omega))
      layer := hrows
      slot := by
        change program.image.slot + _ = _
        rw [List.length_append, hslot, Nat.add_assoc]
      length_le := h.length_le
      codeEnd := h.codeEnd
      codeEnd_le := h.codeEnd_le }

/-- The calls, all successful. -/
def runCalls : List Call → CopyProgram → Option CopyProgram
  | [], program => some program
  | call :: calls, program =>
      let r := call.run program
      if r.1 = 0 then runCalls calls r.2 else none

/-- What the rows of the calls do, one call after the other. -/
def lookups (calls : List Call) (D : Bits) : Bits := calls.foldl (fun D call ↦ call.lookup D) D

theorem Written.of_run (hg : Target cfg) (h : Written cfg lo hi bodies last program)
    (hraw : call.RawOutside cfg lo hi) (hr : call.run program = (0, program')) :
    ∃ bodies' last', Written cfg lo hi bodies' last' program' ∧
      ∀ D, last'.effect (effects bodies' D) = call.lookup (last.effect (effects bodies D)) := by
  have hN : 4 ≤ cfg.processorN := by rw [hg.slots]; decide
  obtain ⟨hplaced, -, hout, -, q, hroom, hq⟩ := Call.succeeds hg h.toFor hraw hr
  obtain ⟨bodies', last', hw, hs, heff⟩ := h.room hg hN hroom
  cases hq hw.image
  obtain ⟨last'', hw', heff'⟩ := hw.append hg hs hplaced hout
  exact ⟨bodies', last'', hw', fun D ↦ by rw [heff', heff]⟩

theorem Written.of_runCalls (hg : Target cfg) {calls : List Call}
    (h : Written cfg lo hi bodies last program) (hraw : ∀ call ∈ calls, call.RawOutside cfg lo hi)
    (hr : runCalls calls program = some program') :
    ∃ bodies' last', Written cfg lo hi bodies' last' program' ∧
      ∀ D, last'.effect (effects bodies' D) = lookups calls (last.effect (effects bodies D)) := by
  induction calls generalizing program bodies last with
  | nil =>
      cases hr
      exact ⟨bodies, last, h, fun _ ↦ rfl⟩
  | cons call calls ih =>
      rw [runCalls] at hr
      split at hr
      · rename_i h0
        obtain ⟨bodies₁, last₁, h₁, heff₁⟩ := h.of_run hg (hraw call List.mem_cons_self)
          (Prod.ext h0 rfl)
        obtain ⟨bodies₂, last₂, h₂, heff₂⟩ := ih h₁
          (fun c hc ↦ hraw c (List.mem_cons_of_mem _ hc)) hr
        exact ⟨bodies₂, last₂, h₂, fun D ↦ by rw [heff₂, heff₁]; rfl⟩
      · cases hr

/-! ## The finished program -/

/-- What `cs_copy_program_finish` leaves: a layer in the processor that loads the code, and the
code, whose last layer loads the empty layer `zeroLayer`. -/
structure Finished (cfg : Config) (lo hi zeroLayer : Nat) (bodies : List (Body cfg lo hi))
    (m : Bits) : Prop where
  boot : RowsAt cfg m 0 (layerRows cfg [] lo)
  chained : Chained m hi lo bodies zeroLayer
  zero : ∀ p < cfg.layerBits, m (zeroLayer + p) = false

/-- The image with the link of the last layer. -/
def linkedData (cfg : Config) (layer zeroLayer : Nat) (m : Bits) : Bits :=
  (m.putField 0 cfg.layerBits 0).putRow cfg (layer + 255 * cfg.instructionSize)
    ⟨cfg.layerBits, 0, zeroLayer⟩

/-- The finished image. -/
def finishedData (cfg : Config) (lo layer zeroLayer : Nat) (m : Bits) : Bits :=
  (linkedData cfg layer zeroLayer m).putRow cfg (0 + 255 * cfg.instructionSize)
    ⟨cfg.layerBits, 0, lo⟩

/-- A successful call of `cs_copy_program_finish`. -/
theorem csCopyProgramFinish_eq_zero (hg : Target cfg) (h : program.For cfg lo hi)
    {zeroLayer : Nat} (hr : csCopyProgramFinish program zeroLayer = (0, program')) :
    (cfg.layerBits ≤ zeroLayer ∧ zeroLayer + cfg.layerBits ≤ program.image.bytes * 8 ∧
      (zeroLayer + cfg.layerBits ≤ lo ∨ hi ≤ zeroLayer)) ∧
      (∀ i < cfg.layerBits, program.image.data (zeroLayer + i) = false) ∧
      program' = { program with
        image := program.image.onData (finishedData cfg lo program.image.layer zeroLayer) } := by
  have hlt := hg.layer
  have hle := hg.two_pow_le
  have h32 := cfg.spaceSize_lt
  have hbegin := h.begin_le
  have hlimit := h.limit_le
  have hbytes := h.bytes_le
  unfold csCopyProgramFinish at hr
  dsimp only at hr
  split at hr
  · cases hr
  · rename_i hv
    rw [fits_iff, h.image.layerBits, h.codeBegin, h.codeLimit] at hv
    have hzero : cfg.layerBits ≤ zeroLayer ∧ zeroLayer + cfg.layerBits ≤ program.image.bytes * 8 ∧
        (zeroLayer + cfg.layerBits ≤ lo ∨ hi ≤ zeroLayer) := by
      obtain ⟨-, hfit, hlow, hcode⟩ : _ ∧ _ ∧ _ ∧ _ := by
        simpa only [not_or, not_not] using hv
      rw [overlaps, Nat.zero_add, u32_of_lt (by omega), u32_of_lt (by omega)] at hlow
      rw [overlaps, u32_of_lt (by omega), u32_of_lt (by omega)] at hcode
      omega
    split at hr
    · cases hr
    · rename_i hzeros
      rw [h.image.layerBits] at hzeros
      split at hr
      · cases hr
      · rename_i boot hinit
        rw [h.image.addressBits] at hinit
        obtain ⟨rfl, -, -⟩ := csCopyImageInit_eq_some hg hinit
        have hlink : (csCopyRow { program.image with
            data := program.image.data.putField 0 cfg.layerBits 0 } 255 program.image.layerBits 0
            zeroLayer).2.data =
              linkedData cfg program.image.layer zeroLayer program.image.data := by
          have hrow := valid_link hg (hzero.2.1.trans hbytes)
          have hlink := csCopyRow_eq (h.image.onData fun m ↦ m.putField 0 cfg.layerBits 0)
            (show 255 < 256 by decide) hrow
          rw [h.image.layerBits]
          exact congrArg (fun r ↦ r.2.data) hlink
        have hfor : CopyImage.For cfg ⟨linkedData cfg program.image.layer zeroLayer
          program.image.data, program.image.bytes, cfg.spaceSize, 0, cfg.layerBits,
          cfg.addressSize, cfg.nSize, cfg.instructionSize, 3⟩ := ⟨rfl, rfl, rfl, rfl, rfl⟩
        have hboot := csCopyRow_eq hfor (show 255 < 256 by decide)
          (valid_link hg (show lo + cfg.layerBits ≤ cfg.spaceSize by omega))
        dsimp only at hr hlink hboot
        rw [hlink, h.codeBegin, hboot] at hr
        obtain ⟨-, rfl⟩ := Prod.mk.inj hr
        refine ⟨hzero, fun p hp ↦ Bool.eq_false_iff.mpr fun ht ↦ hzeros ⟨p, hp, ht⟩, ?_⟩
        rw [← h.codeBegin]
        rfl

/-- `cs_copy_program_finish` succeeds on an empty layer outside the code. -/
theorem csCopyProgramFinish_fst (hg : Target cfg) (h : program.For cfg lo hi)
    {zeroLayer : Nat} (h8 : zeroLayer % 8 = 0) (hlow : cfg.layerBits ≤ zeroLayer)
    (hfit : zeroLayer + cfg.layerBits ≤ program.image.bytes * 8)
    (hout : zeroLayer + cfg.layerBits ≤ lo ∨ hi ≤ zeroLayer)
    (hzero : ∀ i < cfg.layerBits, program.image.data (zeroLayer + i) = false) :
    (csCopyProgramFinish program zeroLayer).1 = 0 := by
  have hbegin := h.begin_le
  have hlimit := h.limit_le
  have hbytes := h.bytes_le
  have h32 := cfg.spaceSize_lt
  have h5 := hg.five_le
  have h31 := cfg.addressSize_le
  have hinit : csCopyImageInit program.image.data program.image.bytes program.image.addressBits 0 =
      some ⟨program.image.data.putField 0 cfg.layerBits 0, program.image.bytes, cfg.spaceSize, 0,
        cfg.layerBits, cfg.addressSize, cfg.nSize, cfg.instructionSize, 3⟩ := by
    rw [h.image.addressBits, csCopyImageInit, if_neg (by unfold uint32Max; omega)]
    dsimp only
    rw [← hg.instructionSize_eq, ← hg.layerBits_eq, ← hg.space, if_neg]
    · rfl
    · rw [fits_iff]
      omega
  unfold csCopyProgramFinish
  dsimp only
  rw [h.image.layerBits, h.codeBegin, h.codeLimit, if_neg, if_neg, hinit]
  · dsimp only
    exact congrArg Prod.fst (csCopyRow_eq (show CopyImage.For cfg ⟨_, program.image.bytes,
      cfg.spaceSize, 0, cfg.layerBits, cfg.addressSize, cfg.nSize, cfg.instructionSize, 3⟩ from
      ⟨rfl, rfl, rfl, rfl, rfl⟩) (show 255 < 256 by decide) (valid_link hg (by omega)))
  · rintro ⟨i, hi, ht⟩
    rw [hzero i hi] at ht
    cases ht
  · rw [fits_iff, overlaps, overlaps, Nat.zero_add, u32_of_lt (by omega), u32_of_lt (by omega),
      u32_of_lt (by omega)]
    omega

theorem csCopyProgramFinish_succeeds (hg : Target cfg) (h : Written cfg lo hi bodies last program)
    {zeroLayer : Nat} (h8 : zeroLayer % 8 = 0) (hlow : cfg.layerBits ≤ zeroLayer)
    (hfit : zeroLayer + cfg.layerBits ≤ program.image.bytes * 8)
    (hout : zeroLayer + cfg.layerBits ≤ lo ∨ hi ≤ zeroLayer)
    (hzero : ∀ i < cfg.layerBits, program.image.data (zeroLayer + i) = false) :
    (csCopyProgramFinish program zeroLayer).1 = 0 :=
  csCopyProgramFinish_fst hg h.toFor h8 hlow hfit hout hzero

theorem Written.finish (hg : Target cfg) (h : Written cfg lo hi bodies last program)
    {zeroLayer : Nat} (hr : csCopyProgramFinish program zeroLayer = (0, program')) :
    Finished cfg lo hi zeroLayer (bodies ++ [last]) program'.image.data ∧
      Behind cfg zeroLayer cfg.layerBits ∧
      (∀ p, cfg.layerBits ≤ p → ¬(lo ≤ p ∧ p < hi) →
        program'.image.data p = program.image.data p) ∧
      program'.image.bytes = program.image.bytes := by
  obtain ⟨⟨hz₁, hz₂, hz₃⟩, hzeros, rfl⟩ := csCopyProgramFinish_eq_zero hg h.toFor hr
  have hN : ([] : List Instruction).length + 4 ≤ cfg.processorN := by rw [hg.slots]; decide
  have hlayer := hg.layerBits_eq
  have hlo := h.layer_le
  have hend := h.codeEnd
  have hend' := h.codeEnd_le
  have hbegin := h.begin_le
  have hbytes := h.bytes_le
  have hlimit := h.limit_le
  have hlo' := h.lo_le
  have hboot : ∀ p, cfg.layerBits ≤ p →
      finishedData cfg lo program.image.layer zeroLayer program.image.data p =
        linkedData cfg program.image.layer zeroLayer program.image.data p := fun p hp ↦
    Bits.putRow_of_notMem (by omega)
  have hframe : ∀ p, cfg.layerBits ≤ p → ¬(lo ≤ p ∧ p < hi) →
      finishedData cfg lo program.image.layer zeroLayer program.image.data p =
        program.image.data p := fun p h₁ h₂ ↦ by
    rw [hboot p h₁, linkedData, Bits.putRow_of_notMem (by omega),
      Bits.putField_of_notMem _ (by omega)]
  refine ⟨⟨?_, ?_, fun p hp ↦ ?_⟩, ⟨hz₁, hz₂.trans hbytes⟩, hframe, rfl⟩
  · have hopen : RowsAt cfg (linkedData cfg program.image.layer zeroLayer program.image.data) 0
        (openRows cfg []) := (rowsAt_cleared hg program.image.data 0).congr fun b hb ↦ by
      rw [length_openRows hN, hg.slots] at hb
      exact Bits.putRow_of_notMem (by omega)
    have hclose := rowsAt_close hg hN hopen
      (valid_link hg (show lo + cfg.layerBits ≤ cfg.spaceSize by omega))
    rwa [hg.slots] at hclose
  · have hclose := h.close (m := program.image.data.putField 0 cfg.layerBits 0) hg
      ⟨hz₁, hz₂.trans hbytes⟩ (valid_link hg (hz₂.trans hbytes))
      fun p h₁ h₂ ↦ Bits.putField_of_notMem _ (by omega)
    exact (hclose.mono hend').congr fun p h₁ _ ↦ hboot p (hlo.trans h₁)
  · exact (hframe _ (by omega) (by omega)).trans (hzeros p hp)

theorem Finished.congr {zeroLayer : Nat} {m m' : Bits}
    (h : Finished cfg lo hi zeroLayer bodies m) (hN : 4 ≤ cfg.processorN)
    (h₁ : ∀ p < cfg.layerBits, m' p = m p) (h₂ : ∀ p, lo ≤ p → p < hi → m' p = m p)
    (h₃ : ∀ p < cfg.layerBits, m' (zeroLayer + p) = m (zeroLayer + p)) :
    Finished cfg lo hi zeroLayer bodies m' where
  boot := h.boot.congr fun b hb ↦ by
    rw [length_layerRows (show ([] : List Instruction).length + 4 ≤ cfg.processorN from hN)] at hb
    exact h₁ _ (by rwa [Nat.zero_add])
  chained := h.chained.congr h₂
  zero := fun p hp ↦ (h₃ p hp).trans (h.zero p hp)

variable {φ : Type} {dev : Device φ}

variable (dev) in
/-- The emulator executes a finished program. -/
theorem Finished.halts {zeroLayer : Nat} {m : Bits} (hg : Target cfg)
    (h : Finished cfg lo hi zeroLayer bodies m) (hlo : Behind cfg lo cfg.layerBits)
    (hzero : ∀ p < cfg.layerBits, effects bodies m (zeroLayer + p) = m (zeroLayer + p))
    (inp out : φ) :
    ∃ m', Halts cfg dev (fun m' ↦ ∀ p, lo ≤ p → p < hi → m' p = m p) (bodies.length + 1)
        ⟨m, inp, out⟩ ⟨m', inp, out⟩ ∧
      ∀ p, cfg.layerBits ≤ p → m' p = effects bodies m p := by
  have hI := hg.instructionSize_eq
  have h5 := hg.five_le
  have hlayer := hg.layerBits_eq
  have hN : ([] : List Instruction).length + 4 ≤ cfg.processorN := by rw [hg.slots]; decide
  have h0 : cfg.layerBits ≠ 0 := by omega
  obtain ⟨m₁, hstep, hm₁⟩ := step_layer dev hN h.boot (fun _ _ ↦ rfl) performs_nil h0 hlo inp out
  obtain ⟨m', hhalts, hm'⟩ := h.chained.halts dev hm₁ (fun _ _ _ ↦ rfl) hlo.1 h0
    (fun p hp ↦ (hzero p hp).trans (h.zero p hp)) inp out
  exact ⟨m', .done (fun _ _ _ ↦ rfl) hstep hhalts, hm'⟩

/-- The positions of the empty layer. -/
def InLayer (cfg : Config) (zeroLayer p : Nat) : Prop :=
  zeroLayer ≤ p ∧ p < zeroLayer + cfg.layerBits

theorem lookups_of_not_writes {calls : List Call} {D : Bits} {p : Nat}
    (h : ∀ call ∈ calls, ¬ call.Writes p) : lookups calls D p = D p := by
  induction calls generalizing D with
  | nil => rfl
  | cons call calls ih =>
      exact (ih fun c hc ↦ h c (List.mem_cons_of_mem _ hc)).trans
        (Call.lookup_of_not_writes (h call List.mem_cons_self))

variable (dev) in
/-- The emulator executes the rows of the calls in order, and is then at rest. -/
theorem runs_lookups {data : Bits} {bytes addressBits zeroLayer : Nat} {calls : List Call}
    {finished : CopyProgram} {σ : Machine φ} (hN : cfg.processorN = 256)
    (hS : cfg.spaceSize = 2 ^ addressBits)
    (hinit : csCopyProgramInit data bytes addressBits lo hi = some program)
    (hcalls : runCalls calls program = some program')
    (hfinish : csCopyProgramFinish program' zeroLayer = (0, finished))
    (hraw : ∀ call ∈ calls, call.RawOutside cfg lo hi)
    (hzero : ∀ call ∈ calls, ∀ p, InLayer cfg zeroLayer p → ¬ call.Writes p)
    (hs : σ.Sized cfg)
    (hload : ∀ p < finished.image.bytes * 8, σ.heap.bit .space p = finished.image.data p) :
    ∃ ticks σ', Runs cfg dev none σ ⟨ticks, .idle⟩ σ' ∧ σ'.inp = σ.inp ∧ σ'.out = σ.out ∧
      (∀ p, cfg.layerBits ≤ p →
        σ'.heap.bit .space p = lookups calls (σ.heap.bit .space) p) ∧
      ∀ limit r σ'', Runs cfg dev limit σ r σ'' →
        ∀ p, lo ≤ p → p < hi → σ''.heap.bit .space p = σ.heap.bit .space p := by
  obtain ⟨hg, rfl⟩ := target_of_init hN hS hinit
  have hN : 4 ≤ cfg.processorN := by rw [hg.slots]; decide
  obtain ⟨bodies, last, hw, heff⟩ := (written_init hg hN hinit).of_runCalls hg hraw hcalls
  obtain ⟨hfin, hbehind, -, hbytes⟩ := hw.finish hg hfinish
  have hI := hg.instructionSize_eq
  have h5 := hg.five_le
  have hlayer := hg.layerBits_eq
  have hlt := hg.layer
  have hle := hg.two_pow_le
  have hlo := hw.layer_le
  have hbegin := hw.begin_le
  have hlimit := hw.limit_le
  have hspace := hw.bytes_le
  have h32 := cfg.spaceSize_lt
  -- what the layers do is what the calls do
  have heff : ∀ D, effects (bodies ++ [last]) D = lookups calls D := fun D ↦ by
    rw [effects_append]
    exact heff D
  obtain ⟨hz₁, hz₂⟩ := hbehind
  have hfit : zeroLayer + cfg.layerBits ≤ program'.image.bytes * 8 :=
    (csCopyProgramFinish_eq_zero hg hw.toFor hfinish).1.2.1
  rw [hbytes] at hload
  have hfin : Finished cfg lo hi zeroLayer (bodies ++ [last]) (σ.heap.bit .space) :=
    hfin.congr hN (fun p hp ↦ hload p (by omega)) (fun p _ hp ↦ hload p (by omega))
      fun p hp ↦ hload _ (by omega)
  obtain ⟨m', hhalts, hm'⟩ := hfin.halts dev hg ⟨hlo, by omega⟩ (fun p hp ↦ by
    rw [heff]
    exact lookups_of_not_writes fun call hc ↦
      hzero call hc _ ⟨Nat.le_add_right _ _, by omega⟩) σ.inp σ.out
  have hgood : cfg.Good := ⟨hN, by omega, by
    rw [Config.layerBits] at hlt
    omega⟩
  have hcount : (bodies ++ [last]).length + 1 < uint64Max := by
    have hlength := hw.length_le
    have hcode := hw.codeEnd
    have hend := hw.codeEnd_le
    have hmul := Nat.le_mul_of_pos_right bodies.length (show 0 < cfg.layerBits by omega)
    rw [List.length_append, List.length_singleton]
    unfold uint64Max
    omega
  obtain ⟨σ', hruns, hview⟩ := Halts.runs (σ := σ) hgood hhalts hs hcount
  refine ⟨_, σ', hruns, congrArg BitMachine.inp hview, congrArg BitMachine.out hview,
    fun p hp ↦ ?_, fun limit r σ'' hr ↦ Halts.of_runs (σ := σ) hgood hhalts hs hr⟩
  rw [← heff, ← hm' p hp]
  exact congrFun (congrArg BitMachine.bits hview) p

end Emit

end CopySpace
