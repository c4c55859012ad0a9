import CopySpace.Core.Config
import CopySpace.Space.Writers

/-!
# `core.c`: the image of the core

`core_init` builds the image in a buffer of zeros and hands it to `space_init`.  `coreBits` is
the space it leaves, and `CoreSpace` what the two boot ticks use of it.
-/

namespace CopySpace

/-! ## `core_init` -/

section Init

variable (cfg : Config)

/-- The rows `core`. -/
def core (i : Nat) : Nat :=
  #[cfg.coreStatusBits, 3 * cfg.instructionSize + cfg.nSize + cfg.addressSize + cfg.coreEntryShift,
    cfg.instructionSize + cfg.nSize + cfg.addressSize,
    cfg.coreInputBits, cfg.coreBufferStart, 0,
    0, 0, 0,
    cfg.coreLayerBits, processorStart, cfg.coreTableStart].getD i 0

/-- The rows `activate`. -/
def activate (i : Nat) : Nat :=
  #[0, 0, 0, 0, 0, 0, 0, 0, 0, cfg.coreLayerBits, processorStart, cfg.coreBufferStart].getD i 0

/-- The rows `failure`. -/
def failure (i : Nat) : Nat :=
  #[0, 0, 0, 0, 0, 0, Config.coreErrorMessageBits, cfg.coreErrorMessageStart, 0,
    cfg.coreLayerBits, processorStart, cfg.coreErrorZeroStart].getD i 0

/-- The rows of an entry of the table. -/
def tableRows (entry : Nat) : Nat → Nat :=
  if entry = 2 * cfg.coreInputBits then activate cfg else failure cfg

/-- The size of the image. -/
def coreBytes : Nat := u32 (cfg.coreTableStart + cfg.coreTableBits + 7) / 8

theorem coreBytes_addressable : 8 * coreBytes cfg < 2 ^ 64 := by
  have := u32_lt (cfg.coreTableStart + cfg.coreTableBits + 7)
  unfold coreBytes
  omega

/-- What `core_init` writes into the zeroed image. -/
def coreImage : CM Obj Unit := do
  encode cfg .image processorStart (core cfg)
  encode cfg .image cfg.coreRestartStart (core cfg)
  storeBytes .image (cfg.coreErrorMessageStart / 8) coreErrorMessage
  forUp (fun entry ↦
    encode cfg .image (u32 (cfg.coreTableStart + entry * cfg.coreBootBits)) (tableRows cfg entry))
    (2 ^ cfg.coreStatusBits)

/-- `calloc`: a new image of zero bytes. -/
def callocImage {φ : Type} : VM φ Unit := fun σ ↦
  let image := Buffer.zeros (coreBytes cfg) (coreBytes_addressable cfg)
  some ((), { σ with heap :=
    { σ.heap with obj := fun o ↦ if o = .image then image else σ.heap.obj o } })

/-- `core_init`; `allocated` is false when `calloc` fails. -/
def coreInit {φ : Type} (allocated : Bool) : VM φ Int :=
  if allocated = false then pure (-1)
  else do
    callocImage cfg
    VM.heap (coreImage cfg)
    VM.heap (spaceInit (some .image) (coreBytes cfg))

end Init

/-! ## The space of the core -/

/-- Four rows. -/
def Bits.putLayer (cfg : Config) (a : Nat) (rows : Nat → Nat) (m : Bits) : Bits :=
  m.putFields a (rowFields cfg.nSize cfg.addressSize rows 4)

/-- The first entries of the table. -/
def Bits.putTable (cfg : Config) : Nat → Bits → Bits
  | 0, m => m
  | entry + 1, m => (putTable cfg entry m).putLayer cfg
      (cfg.coreTableStart + entry * cfg.coreBootBits) (tableRows cfg entry)

/-- The bits of the space after `core_init`. -/
def coreBits (cfg : Config) : Bits :=
  let m : Bits := fun _ ↦ false
  let m := m.putLayer cfg processorStart (core cfg)
  let m := m.putLayer cfg cfg.coreRestartStart (core cfg)
  let m := m.putBytes (cfg.coreErrorMessageStart / 8) coreErrorMessage
  m.putTable cfg (2 ^ cfg.coreStatusBits)

namespace Bits

variable {cfg : Config} {a : Nat} {rows : Nat → Nat} {m : Bits}

theorem fieldsWidth_layer (cfg : Config) (rows : Nat → Nat) :
    fieldsWidth (rowFields cfg.nSize cfg.addressSize rows 4) = cfg.coreLayerBits :=
  fieldsWidth_rowFields _ _ _ _

theorem putLayer_of_notMem {p : Nat} (h : ¬(a ≤ p ∧ p < a + cfg.coreLayerBits)) :
    m.putLayer cfg a rows p = m p :=
  putFields_of_notMem m (by rwa [fieldsWidth_layer])

/-- Consecutive fields do not depend on what was there, nor on the place. -/
theorem putFields_shift {fs : List (Nat × Nat)} {a b i : Nat} {m q : Bits}
    (h : i < fieldsWidth fs) : putFields a fs m (a + i) = putFields b fs q (b + i) := by
  induction fs generalizing a b i m q with
  | nil => exact absurd h (Nat.not_lt_zero i)
  | cons f fs ih =>
      obtain ⟨w, v⟩ := f
      rw [fieldsWidth_cons] at h
      simp only [putFields]
      by_cases hi : i < w
      · rw [putFields_of_notMem _ (by omega), putFields_of_notMem _ (by omega),
          putField_of_mem _ (by omega), putField_of_mem _ (by omega), Nat.add_sub_cancel_left,
          Nat.add_sub_cancel_left]
      · have := ih (a := a + w) (b := b + w) (i := i - w) (m := putField a w v m)
          (q := putField b w v q) (by omega)
        rwa [show a + w + (i - w) = a + i by omega, show b + w + (i - w) = b + i by omega] at this

/-- The bits of four rows, from 0. -/
def layer (cfg : Config) (rows : Nat → Nat) : Bits := putLayer cfg 0 rows fun _ ↦ false

theorem putLayer_add {r : Nat → Nat} {i : Nat} (hi : i < cfg.coreLayerBits) :
    m.putLayer cfg a r (a + i) = layer cfg r i := by
  have h := putFields_shift (a := a) (b := 0) (m := m) (q := fun _ ↦ false)
    (show i < fieldsWidth (rowFields cfg.nSize cfg.addressSize r 4) by rwa [fieldsWidth_layer])
  rwa [Nat.zero_add] at h

/-- The rows of a layer are read back. -/
theorem field_rowFields (n w : Nat) (rows : Nat → Nat) {k i : Nat} (hi : i < k) (m : Bits) :
    field (putFields 0 (rowFields n w rows k) m) (i * (n + 2 * w)) n = rows (i * 3) % 2 ^ n ∧
    field (putFields 0 (rowFields n w rows k) m) (i * (n + 2 * w) + n) w =
      rows (i * 3 + 1) % 2 ^ w ∧
    field (putFields 0 (rowFields n w rows k) m) (i * (n + 2 * w) + (n + w)) w =
      rows (i * 3 + 2) % 2 ^ w := by
  induction k with
  | zero => omega
  | succ k ih =>
      have hw := fieldsWidth_rowFields n w rows k
      rw [rowFields]
      by_cases hk : i = k
      · subst hk
        have h₀ := field_putFields 0 (rowFields n w rows i) n (rows (i * 3))
          [(w, rows (i * 3 + 1)), (w, rows (i * 3 + 2))] m
        have h₁ := field_putFields 0 (rowFields n w rows i ++ [(n, rows (i * 3))]) w
          (rows (i * 3 + 1)) [(w, rows (i * 3 + 2))] m
        have h₂ := field_putFields 0 (rowFields n w rows i ++
          [(n, rows (i * 3)), (w, rows (i * 3 + 1))]) w (rows (i * 3 + 2)) [] m
        simp only [List.append_assoc, List.cons_append, List.nil_append, fieldsWidth_append,
          fieldsWidth_cons, fieldsWidth_nil, hw, Nat.zero_add, Nat.add_zero] at h₀ h₁ h₂
        exact ⟨h₀, h₁, h₂⟩
      · -- the fields of the last row are behind those of row `i`
        have hlt : i * (n + 2 * w) + (n + 2 * w) ≤ k * (n + 2 * w) := by
          rw [← Nat.succ_mul]
          exact Nat.mul_le_mul_right _ (by omega)
        rw [putFields_append, Nat.zero_add, hw]
        obtain ⟨h₀, h₁, h₂⟩ := ih (by omega)
        refine ⟨h₀ ▸ ?_, h₁ ▸ ?_, h₂ ▸ ?_⟩ <;>
          exact field_congr fun j hj ↦ putFields_of_notMem _ (by omega)

/-- The rows that stand in the first slots. -/
theorem row_of_layer (h : ∀ i < cfg.coreLayerBits, m i = layer cfg rows i) {i : Nat}
    (hi : i < 4) : m.row cfg i = ⟨rows (i * 3) % 2 ^ cfg.nSize,
      rows (i * 3 + 1) % 2 ^ cfg.addressSize, rows (i * 3 + 2) % 2 ^ cfg.addressSize⟩ := by
  have hle : i * cfg.instructionSize + cfg.instructionSize ≤ cfg.coreLayerBits := by
    rw [← Nat.succ_mul]
    exact Nat.mul_le_mul_right _ hi
  have hIS : cfg.instructionSize = cfg.nSize + 2 * cfg.addressSize := rfl
  obtain ⟨h₀, h₁, h₂⟩ := field_rowFields cfg.nSize cfg.addressSize rows hi fun _ ↦ false
  rw [← hIS] at h₀ h₁ h₂
  rw [row, ← h₀, ← h₁, ← h₂]
  congr 1 <;> exact field_congr fun j hj ↦ h _ (by omega)

/-- A row whose numbers fit into its fields. -/
theorem row_eq {i n d s : Nat} (h : ∀ i < cfg.coreLayerBits, m i = layer cfg rows i)
    (hi : i < 4) (hn : rows (i * 3) = n) (hd : rows (i * 3 + 1) = d) (hs : rows (i * 3 + 2) = s)
    (ln : n < 2 ^ cfg.nSize) (ld : d < 2 ^ cfg.addressSize) (ls : s < 2 ^ cfg.addressSize) :
    m.row cfg i = ⟨n, d, s⟩ := by
  rw [row_of_layer h hi, hn, hd, hs, Nat.mod_eq_of_lt ln, Nat.mod_eq_of_lt ld,
    Nat.mod_eq_of_lt ls]

theorem putTable_of_notMem {k p : Nat}
    (h : ¬(cfg.coreTableStart ≤ p ∧ p < cfg.coreTableStart + k * cfg.coreBootBits))
    (hle : cfg.coreLayerBits ≤ cfg.coreBootBits) : m.putTable cfg k p = m p := by
  induction k with
  | zero => rfl
  | succ k ih =>
      rw [Nat.succ_mul] at h
      rw [putTable, putLayer_of_notMem (by omega), ih (by omega)]

/-- The entries of the table. -/
theorem putTable_add {k entry i : Nat} (he : entry < k) (hi : i < cfg.coreLayerBits)
    (hle : cfg.coreLayerBits ≤ cfg.coreBootBits) :
    m.putTable cfg k (cfg.coreTableStart + entry * cfg.coreBootBits + i) =
      layer cfg (tableRows cfg entry) i := by
  induction k with
  | zero => omega
  | succ k ih =>
      rw [putTable]
      by_cases hk : entry = k
      · subst hk
        exact putLayer_add hi
      · have : entry * cfg.coreBootBits + cfg.coreBootBits ≤ k * cfg.coreBootBits := by
          rw [← Nat.succ_mul]
          exact Nat.mul_le_mul_right _ (by omega)
        rw [putLayer_of_notMem (by omega), ih (by omega)]

end Bits

section Spec

variable {cfg : Config} (hl : cfg.CoreLaid)

include hl

/-- Entry `k` lies in the table. -/
theorem Config.CoreLaid.entry_le {k : Nat} (hk : k < 2 ^ cfg.coreStatusBits) :
    k * cfg.coreBootBits + cfg.coreBootBits ≤ cfg.coreTableBits := by
  rw [hl.table_eq, ← Nat.succ_mul]
  exact Nat.mul_le_mul_right _ hk

/-- The places of the core lie in the image. -/
theorem Config.CoreLaid.le_coreBytes : cfg.coreTableStart + cfg.coreTableBits ≤ 8 * coreBytes cfg := by
  have hend := hl.table_le
  have h32 := cfg.spaceSize_lt
  have hmod := cfg.spaceSize_mod
  unfold coreBytes
  rw [u32_of_lt (by omega)]
  omega

/-- One `encode` into a place that is still clear. -/
theorem does_encode_layer {h : Heap Obj} {a : Nat} (rows : Nat → Nat)
    (hs : h.size .image = coreBytes cfg)
    (ha : a + cfg.coreLayerBits ≤ cfg.coreTableStart + cfg.coreTableBits)
    (hz : ∀ i < cfg.coreLayerBits, h.bit .image (a + i) = false) :
    Does (fun _ ↦ True) (encode cfg .image a rows) h fun _ h' ↦
      h'.bit .image = (h.bit .image).putLayer cfg a rows := by
  have hbytes := hl.le_coreBytes
  have hend := hl.table_le
  have h32 := cfg.spaceSize_lt
  have hlay : 4 * cfg.instructionSize = cfg.coreLayerBits := rfl
  refine ((does_encode rows (by rw [hs]; omega) (by omega) hz).mono fun _ _ ↦ trivial).imp
    fun _ h' _ hw ↦ ?_
  rw [hw .image, if_pos rfl]
  rfl

/-- The loop over the entries of the table. -/
theorem does_coreTable {h : Heap Obj} (hs : h.size .image = coreBytes cfg)
    (hz : ∀ p, cfg.coreTableStart ≤ p → h.bit .image p = false) :
    Does (fun _ ↦ True) (forUp (fun entry ↦ encode cfg .image
        (u32 (cfg.coreTableStart + entry * cfg.coreBootBits)) (tableRows cfg entry))
      (2 ^ cfg.coreStatusBits)) h
      fun _ h' ↦ h'.bit .image = (h.bit .image).putTable cfg (2 ^ cfg.coreStatusBits) := by
  have hend := hl.table_le
  have h32 := cfg.spaceSize_lt
  have h₁ := hl.layer_le_boot
  refine Does.forUp (fun k h' ↦ h'.bit Obj.image = (h.bit .image).putTable cfg k) rfl
    fun k hk h' ev hI ↦ ?_
  have hle := hl.entry_le hk
  rw [u32_of_lt (by omega)]
  refine (does_encode_layer hl _ (ev.size_eq.symm ▸ hs) (by omega) fun i hi ↦ ?_).imp
    fun _ h'' _ hb ↦ by rw [hb, hI, Bits.putTable]
  rw [hI, Bits.putTable_of_notMem (by omega) h₁, hz _ (by omega)]

/-- The image that `core_init` builds. -/
theorem does_coreImage {h : Heap Obj} (hz : ∀ p, h.bit .image p = false)
    (hs : h.size .image = coreBytes cfg) :
    Does (fun _ ↦ True) (coreImage cfg) h fun _ h' ↦ h'.bit .image = coreBits cfg := by
  have hbytes := hl.le_coreBytes
  have h₁ := hl.layer_le_boot
  have h₂ := hl.restart_eq
  have h₃ := hl.message_le
  have h₄ := hl.message_mod
  have h₅ := hl.zero_eq
  have h₆ := hl.zero_le
  have hm := Config.coreErrorMessageBits_eq
  have hlen := length_coreErrorMessage
  unfold coreImage
  refine .bind (does_encode_layer hl _ hs (by unfold processorStart; omega) fun i _ ↦ hz _)
    fun _ k₁ e₁ b₁ ↦ ?_
  have z₁ : ∀ p, cfg.coreLayerBits ≤ p → k₁.bit .image p = false := fun p hp ↦ by
    rw [b₁, Bits.putLayer_of_notMem (by unfold processorStart; omega), hz]
  refine .bind (does_encode_layer hl _ (e₁.size_eq.symm ▸ hs) (by omega)
    fun i _ ↦ z₁ _ (by omega)) fun _ k₂ e₂ b₂ ↦ ?_
  have z₂ : ∀ p, cfg.coreRestartStart + cfg.coreLayerBits ≤ p → k₂.bit .image p = false :=
    fun p hp ↦ by rw [b₂, Bits.putLayer_of_notMem (by omega), z₁ p (by omega)]
  have hs₂ : k₂.size .image = coreBytes cfg := by rw [(e₁.trans e₂).size_eq, hs]
  refine .bind (.storeBytes _ (by rw [hs₂]; omega) fun _ _ ↦ trivial) fun _ k₃ e₃ b₃ ↦ ?_
  have b₃ := b₃ .image
  rw [if_pos rfl] at b₃
  have z₃ : ∀ p, cfg.coreTableStart ≤ p → k₃.bit .image p = false := fun p hp ↦ by
    rw [b₃, Bits.putBytes_of_notMem _ (by omega), z₂ p (by omega)]
  refine (does_coreTable hl (e₃.size_eq.symm ▸ hs₂) z₃).imp fun _ h' _ hb ↦ ?_
  rw [hb, b₃, b₂, b₁, show h.bit .image = fun _ ↦ false from funext hz, coreBits]

/-- `core_init` leaves the core in the space, and the streams as they were. -/
theorem does_coreInit {φ : Type} {σ : Machine φ} (hs : σ.Sized cfg) :
    ∃ σ₀, coreInit cfg true σ = some (0, σ₀) ∧ σ₀.Sized cfg ∧
      σ₀.view = ⟨coreBits cfg, σ.inp, σ.out⟩ := by
  have hend := hl.table_le
  have h32 := cfg.spaceSize_lt
  have hsp := cfg.spaceSize_le
  have hmod := cfg.spaceSize_mod
  have hbytes : 8 * coreBytes cfg < cfg.coreTableStart + cfg.coreTableBits + 8 := by
    unfold coreBytes
    rw [u32_of_lt (by omega)]
    omega
  -- the heap after `calloc`
  obtain ⟨σ₁, e₁, hσ₁⟩ : ∃ σ₁, callocImage cfg σ = some ((), σ₁) ∧
      σ₁.heap.size .image = coreBytes cfg ∧ (∀ p, σ₁.heap.bit .image p = false) ∧
      σ₁.heap.size .space = cfg.vmSpaceBytes ∧ σ₁.inp = σ.inp ∧ σ₁.out = σ.out := by
    refine ⟨_, rfl, ?_, fun p ↦ ?_, hs, rfl, rfl⟩
    · simp [Heap.size, Buffer.size, Buffer.zeros]
    · simp only [Heap.bit, if_true, Buffer.bits, Buffer.get, Buffer.zeros,
        Array.getD_eq_getD_getElem?, Array.getElem?_replicate]
      split <;> simp
  obtain ⟨hsize, hzero, hsize', hi, ho⟩ := hσ₁
  obtain ⟨_, k₂, e₂, ev₂, b₂⟩ := does_coreImage hl hzero hsize
  obtain ⟨r, k₃, e₃, ev₃, rfl, b₃⟩ := does_spaceInit (h := k₂) (o := .image) (n := coreBytes cfg)
    (by rw [ev₂.size_eq, hsize']; omega) (by rw [ev₂.size_eq, hsize])
  refine ⟨{ σ₁ with heap := k₃ }, ?_, ?_, ?_⟩
  · simp [coreInit, Bind.bind, StateT.bind, e₁, VM.heap, e₂, e₃]
  · change k₃.size .space = _
    rw [ev₃.size_eq, ev₂.size_eq, hsize']
  · rw [← hi, ← ho]
    change BitMachine.mk _ _ _ = _
    congr 1
    funext p
    rw [b₃, if_pos rfl, b₂]
    by_cases hp : p < 8 * coreBytes cfg
    · rw [if_pos hp]
    · rw [if_neg hp, ← b₂]
      exact (Buffer.bits_of_size_le (by
        change 8 * k₂.size .image ≤ p
        rw [ev₂.size_eq, hsize]
        omega)).symm

end Spec

/-! ## The space between the ticks -/

/-- What the boot ticks need of the space outside the first slots. -/
structure CoreSpace (cfg : Config) (m : Bits) : Prop where
  /-- The other slots are empty. -/
  clear : ∀ p, cfg.coreLayerBits ≤ p → p < cfg.coreBufferStart → m p = false
  message : ∀ p, cfg.coreErrorMessageStart ≤ p → p < cfg.coreErrorZeroStart →
    m p = (coreErrorMessage.getD (p / 8 - cfg.coreErrorMessageStart / 8) 0).getLsbD (7 - p % 8)
  zero : ∀ p, cfg.coreErrorZeroStart ≤ p → p < cfg.coreTableStart → m p = false
  table : ∀ entry < 2 ^ cfg.coreStatusBits, ∀ i < cfg.coreLayerBits,
    m (cfg.coreTableStart + entry * cfg.coreBootBits + i) = Bits.layer cfg (tableRows cfg entry) i

section Space

variable {cfg : Config} (hl : cfg.CoreLaid)

include hl

theorem coreBits_layer {i : Nat} (hi : i < cfg.coreLayerBits) :
    coreBits cfg i = Bits.layer cfg (core cfg) i := by
  have h₁ := hl.layer_le_boot
  have h₂ := hl.restart_eq
  have h₃ := hl.message_le
  have h₄ := hl.message_mod
  have h₅ := hl.zero_le
  have h₆ := hl.zero_eq
  unfold coreBits
  rw [Bits.putTable_of_notMem (by omega) h₁, Bits.putBytes_of_notMem _ (by omega),
    Bits.putLayer_of_notMem (by omega)]
  have h := Bits.putLayer_add (a := processorStart) (m := fun _ ↦ false) (r := core cfg) hi
  rwa [processorStart, Nat.zero_add] at h

theorem coreSpace_coreBits : CoreSpace cfg (coreBits cfg) := by
  have h₁ := hl.layer_le_boot
  have h₂ := hl.restart_eq
  have h₃ := hl.message_le
  have h₄ := hl.message_mod
  have h₅ := hl.zero_le
  have h₆ := hl.zero_eq
  have hm := Config.coreErrorMessageBits_eq
  have hlen := length_coreErrorMessage
  constructor
  case clear =>
    intro p hp hlt
    unfold coreBits
    rw [Bits.putTable_of_notMem (by omega) h₁, Bits.putBytes_of_notMem _ (by omega),
      Bits.putLayer_of_notMem (by omega),
      Bits.putLayer_of_notMem (by unfold processorStart; omega)]
  case message =>
    intro p hp hlt
    unfold coreBits
    rw [Bits.putTable_of_notMem (by omega) h₁, Bits.putBytes_of_mem _ (by omega)]
  case zero =>
    intro p hp hlt
    unfold coreBits
    rw [Bits.putTable_of_notMem (by omega) h₁, Bits.putBytes_of_notMem _ (by omega),
      Bits.putLayer_of_notMem (by omega),
      Bits.putLayer_of_notMem (by unfold processorStart; omega)]
  case table =>
    intro entry he i hi
    exact Bits.putTable_add he hi h₁

end Space

end CopySpace
