import CopySpace.Link.Quotient
import CopySpace.Link.Shift

/-!
# Labels of operators

An operator may make labels for its own loops, and defines them itself.  It leaves those alone that
were pending before.
-/

namespace CopySpace.Link

open Emit

variable {ctx ctx' ctx₁ ctx₂ : Context} {k : Key}

/-! ## Quiet steps -/

/-- The linker has not made the label. -/
def Outer (k : Key) : Prop := ∀ i, k ≠ .internal i

/-- Labels that wait for their definition still do, no label has become one of a datum, and those of
the text stay as they are. -/
structure Quiet (ctx ctx' : Context) : Prop where
  pending : ∀ k, Pending ctx k → Pending ctx' k
  internals : ctx.labels.internals ≤ ctx'.labels.internals
  outer : ∀ k, Outer k → ctx'.labels.label k = ctx.labels.label k
  data : ∀ k, (ctx'.labels.label k).data = (ctx.labels.label k).data
  fault : ctx'.memoryFault = ctx.memoryFault
  base : ctx'.dataBegin = ctx.dataBegin

theorem Quiet.refl (ctx : Context) : Quiet ctx ctx :=
  ⟨fun _ h ↦ h, le_rfl, fun _ _ ↦ rfl, fun _ ↦ rfl, rfl, rfl⟩

theorem Quiet.trans (h : Quiet ctx ctx₁) (h' : Quiet ctx₁ ctx') : Quiet ctx ctx' :=
  ⟨fun k hk ↦ h'.pending k (h.pending k hk), h.internals.trans h'.internals,
    fun k hk ↦ (h'.outer k hk).trans (h.outer k hk), fun k ↦ (h'.data k).trans (h.data k),
    h'.fault.trans h.fault, h'.base.trans h.base⟩

theorem Quiet.of_eq (hlabels : ctx'.labels = ctx.labels)
    (hfault : ctx'.memoryFault = ctx.memoryFault)
    (hbase : ctx'.dataBegin = ctx.dataBegin) : Quiet ctx ctx' :=
  ⟨fun _ h ↦ h.congr hlabels, by rw [hlabels], fun k _ ↦ by rw [hlabels], fun k ↦ by rw [hlabels],
    hfault, hbase⟩

theorem quiet_onProgram {r : Int × CopyProgram} (h : ctx.onProgram r = some ctx') :
    Quiet ctx ctx' := by
  obtain ⟨program, -, rfl⟩ := Context.onProgram_eq_some h
  exact .of_eq rfl rfl rfl

theorem quiet_emit {n d s : Nat} (h : ctx.emit n d s = some ctx') : Quiet ctx ctx' :=
  quiet_onProgram h

theorem quiet_next (h : ctx.next = some ctx') : Quiet ctx ctx' := quiet_onProgram h

theorem quiet_putConstant {a width value : Nat} (h : ctx.putConstant a width value = some ctx') :
    Quiet ctx ctx' := by
  obtain ⟨-, rfl⟩ := Context.putConstant_eq_some h
  exact .of_eq rfl rfl rfl

theorem quiet_constant {v a : Nat} (h : ctx.constant v = some (a, ctx')) : Quiet ctx ctx' := by
  unfold Context.constant at h
  split at h
  · cases h
    exact .refl _
  split at h
  · cases h
  · obtain ⟨ctx₁, h₁, h⟩ := Option.bind_eq_some_iff.mp h
    cases h
    have hlonger : Quiet ctx { ctx with constants := ctx.constants ++ [v] } := .of_eq rfl rfl rfl
    exact hlonger.trans (quiet_putConstant h₁)

theorem quiet_foldlM {α : Type} {f : Context → α → Option Context}
    (hf : ∀ {ctx ctx' : Context} {a : α}, f ctx a = some ctx' → Quiet ctx ctx') {l : List α}
    (h : l.foldlM f ctx = some ctx') : Quiet ctx ctx' := by
  induction l generalizing ctx with
  | nil =>
      cases h
      exact .refl _
  | cons a l ih =>
      rw [List.foldlM_cons] at h
      obtain ⟨ctx₁, h₁, h₂⟩ := Option.bind_eq_some_iff.mp h
      exact (hf h₁).trans (ih h₂)

theorem quiet_ite {p : Prop} [Decidable p] {f : Context → Option Context}
    (hf : ∀ {ctx ctx' : Context}, f ctx = some ctx' → Quiet ctx ctx')
    (h : (if p then f ctx else some ctx) = some ctx') : Quiet ctx ctx' := by
  split at h
  · exact hf h
  · cases h
    exact .refl _

theorem quiet_fitSlots {limit : Nat} (h : ctx.fitSlots limit = some ctx') : Quiet ctx ctx' :=
  quiet_ite quiet_next h

/-! ## Jumps -/

theorem quiet_jump {target : Option Key} {line : Nat} (h : ctx.jump target line = some ctx') :
    Quiet ctx ctx' := by
  obtain ⟨-, ctx₁, h₁, rfl⟩ := Context.jump_eq_some h
  exact (quiet_next h₁).trans (.of_eq rfl rfl rfl)

theorem quiet_conditionalJump {flag line : Nat} {inverted : Bool}
    (h : ctx.conditionalJump k flag inverted line = .ok ctx') : Quiet ctx ctx' := by
  unfold Context.conditionalJump at h
  split at h
  · cases h
  · obtain ⟨ctx₁, h₁, h⟩ := Option.bind_eq_some_iff.mp (orFail_eq_ok h)
    obtain ⟨ctx₂, h₂, h⟩ := Option.bind_eq_some_iff.mp h
    obtain ⟨ctx₃, h₃, h⟩ := Option.bind_eq_some_iff.mp h
    obtain ⟨ctx₄, h₄, h⟩ := Option.bind_eq_some_iff.mp h
    cases h
    exact (quiet_fitSlots h₁).trans <| (quiet_emit h₂).trans <| (quiet_emit h₃).trans <|
      (quiet_jump h₄).trans (.of_eq rfl rfl rfl)

/-! ## Labels of the linker -/

/-- A label of the linker that is not there yet. -/
def Fresh (ctx : Context) (k : Key) : Prop := ∃ i, ctx.labels.internals ≤ i ∧ k = .internal i

theorem Pending.ne {k' : Key} (h : Pending ctx k') (hk : Fresh ctx k) : k' ≠ k := by
  obtain ⟨i, hi, rfl⟩ := h.internal
  obtain ⟨j, hj, rfl⟩ := hk
  rintro ⟨⟩
  exact absurd hi (Nat.not_lt.mpr hj)

theorem quiet_internalLabel (h : ctx.internalLabel = some (k, ctx')) :
    Quiet ctx ctx' ∧ Fresh ctx k := by
  unfold Context.internalLabel internalLabel at h
  split at h
  · cases h
  · obtain ⟨rfl, rfl⟩ := Prod.mk.inj (Option.some.inj h)
    refine ⟨⟨fun k' hk' ↦ ?_, Nat.le_succ _, fun _ _ ↦ rfl, fun _ ↦ rfl, rfl, rfl⟩, _, le_rfl, rfl⟩
    obtain ⟨i, hi, rfl⟩ := hk'.internal
    exact ⟨⟨i, Nat.lt_succ_of_lt hi, rfl⟩, hk'.undefined, hk'.data⟩

theorem Fresh.of_quiet (h : Quiet ctx ctx₁) (hk : Fresh ctx₁ k) : Fresh ctx k := by
  obtain ⟨i, hi, rfl⟩ := hk
  exact ⟨i, h.internals.trans hi, rfl⟩

/-- A label that is not there at first may be defined. -/
theorem Quiet.define (h : Quiet ctx ctx₁) (hk : Fresh ctx k) : Quiet ctx (ctx₁.defineHere k) where
  pending k' hk' := by
    have hother : (ctx₁.defineHere k).labels.label k' = ctx₁.labels.label k' :=
      Function.update_of_ne (hk'.ne hk) _ _
    have hk₁ := h.pending k' hk'
    exact ⟨hk₁.internal, by rw [hother, hk₁.undefined], by rw [hother, hk₁.data]⟩
  internals := h.internals
  outer k' hk' := by
    obtain ⟨i, -, rfl⟩ := hk
    exact (Function.update_of_ne (hk' i) _ _).trans (h.outer k' hk')
  data k' := by
    rw [← h.data k']
    by_cases hkk : k' = k
    · subst hkk
      have hself : (ctx₁.defineHere k').labels.label k' =
          { ctx₁.labels.label k' with defined := true, address := ctx₁.program.image.layer } :=
        Function.update_self _ _ _
      rw [hself]
    · exact congrArg Label.data (Function.update_of_ne hkk _ _)
  fault := h.fault
  base := h.base

theorem Quiet.bind (h : Quiet ctx ctx₁) (hk : Fresh ctx k) (hb : ctx₁.bindInternal k = some ctx₂) :
    Quiet ctx ctx₂ := by
  obtain ⟨ctx₃, h₃, rfl⟩ := Option.map_eq_some_iff.mp hb
  exact (h.trans (quiet_next h₃)).define hk

/-! ## Operators -/

theorem quiet_lookup {d table a b c inputs : Nat}
    (h : ctx.lookup d table a b c inputs = some ctx') : Quiet ctx ctx' := by
  obtain ⟨ctx₁, h₁, h⟩ := Option.bind_eq_some_iff.mp h
  obtain ⟨ctx₂, h₂, h⟩ := Option.bind_eq_some_iff.mp h
  obtain ⟨ctx₃, h₃, h⟩ := Option.bind_eq_some_iff.mp h
  obtain ⟨ctx₄, h₄, h⟩ := Option.bind_eq_some_iff.mp h
  exact (quiet_fitSlots h₁).trans <| (quiet_emit h₂).trans <| (quiet_emit h₃).trans <|
    (quiet_ite quiet_emit h₄).trans (quiet_emit h)

theorem quiet_compareBit {l r bit : Nat} (h : Context.compareBit l r ctx bit = some ctx') :
    Quiet ctx ctx' := by
  obtain ⟨ctx₁, h₁, h⟩ := Option.bind_eq_some_iff.mp h
  exact (quiet_lookup h₁).trans (quiet_lookup h)

theorem quiet_compare32 {l r : Nat} (h : ctx.compare32 l r = some ctx') : Quiet ctx ctx' := by
  simp only [Context.compare32, Option.bind_eq_bind, Option.bind_eq_some_iff] at h
  obtain ⟨ctx₁, h₁, ctx₂, h₂, ctx₃, h₃, ctx₄, h₄, ctx₅, h₅, ctx₆, h₆, ctx₇, h₇, h⟩ := h
  cases h
  exact (quiet_emit h₁).trans <| (quiet_emit h₂).trans <|
    (quiet_foldlM quiet_compareBit h₃).trans <|
    (quiet_lookup h₄).trans <| (quiet_lookup h₅).trans <| (quiet_lookup h₆).trans <|
    (quiet_lookup h₇).trans (.of_eq rfl rfl rfl)

theorem quiet_multiplyRound {z : Nat} (h : ctx.multiplyRound z k = some ctx') :
    Quiet ctx ctx' := by
  simp only [Context.multiplyRound, Option.bind_eq_bind, Option.bind_eq_some_iff] at h
  obtain ⟨ctx₁, h₁, ctx₂, h₂, ctx₃, h₃, ctx₄, h₄, ctx₅, h₅, ctx₆, h₆, ctx₇, h₇, ctx₈, h₈, ctx₉, h₉,
    h⟩ := h
  exact (quiet_foldlM quiet_lookup h₁).trans <| (quiet_onProgram h₂).trans <|
    (quiet_emit h₃).trans <| (quiet_emit h₄).trans <| (quiet_emit h₅).trans <|
    (quiet_emit h₆).trans <| (quiet_emit h₇).trans <| (quiet_emit h₈).trans <|
    (quiet_emit h₉).trans (quiet_conditionalJump (toOption_eq_some h))

theorem quiet_multiply32 {d s : Nat} (h : ctx.multiply32 d s = some ctx') : Quiet ctx ctx' := by
  unfold Context.multiply32 at h
  split at h
  · cases h
  simp only [Option.bind_eq_bind, Option.bind_eq_some_iff, Prod.exists] at h
  obtain ⟨z, ctx₁, h₁, one, ctx₂, h₂, ctx₃, h₃, ctx₄, h₄, ctx₅, h₅, ctx₆, h₆, ctx₇, h₇, loop, ctx₈,
    h₈, ctx₉, h₉, h⟩ := h
  have hprelude := (quiet_constant h₁).trans <| (quiet_constant h₂).trans <|
    (quiet_emit h₃).trans <|
    (quiet_emit h₄).trans <| (quiet_emit h₅).trans <| (quiet_emit h₆).trans (quiet_next h₇)
  obtain ⟨h₈, hfresh⟩ := quiet_internalLabel h₈
  exact hprelude.trans <| (h₈.define hfresh).trans <| (quiet_multiplyRound h₉).trans (quiet_emit h)

theorem quiet_absolute32 {value sign z : Nat} (h : ctx.absolute32 value sign z = some ctx') :
    Quiet ctx ctx' := by
  simp only [Context.absolute32, Option.bind_eq_bind, Option.bind_eq_some_iff, Prod.exists] at h
  obtain ⟨skip, ctx₁, h₁, ctx₂, h₂, ctx₃, h₃, h⟩ := h
  obtain ⟨h₁, hfresh⟩ := quiet_internalLabel h₁
  exact (h₁.trans <| (quiet_conditionalJump (toOption_eq_some h₂)).trans (quiet_onProgram h₃)).bind
    hfresh h

theorem quiet_divideShift {z one : Nat} (h : ctx.divideShift z one = some ctx') :
    Quiet ctx ctx' := by
  simp only [Context.divideShift, Option.bind_eq_bind, Option.bind_eq_some_iff] at h
  obtain ⟨ctx₁, h₁, ctx₂, h₂, ctx₃, h₃, ctx₄, h₄, ctx₅, h₅, ctx₆, h₆, ctx₇, h₇, ctx₈, h₈, ctx₉, h₉,
    h⟩ := h
  exact (quiet_emit h₁).trans <| (quiet_emit h₂).trans <| (quiet_emit h₃).trans <|
    (quiet_emit h₄).trans <| (quiet_emit h₅).trans <| (quiet_emit h₆).trans <|
    (quiet_emit h₇).trans <| (quiet_compare32 h₈).trans <| (quiet_lookup h₉).trans (quiet_lookup h)

/-- A round of a division defines the label behind the subtraction. -/
theorem Quiet.divideRound {z one : Nat} {loop : Key} (hq : Quiet ctx ctx₁) (hk : Fresh ctx k)
    (h : ctx₁.divideRound z one loop k = some ctx') : Quiet ctx ctx' := by
  simp only [Context.divideRound, Option.bind_eq_bind, Option.bind_eq_some_iff] at h
  obtain ⟨ctx₂, h₂, ctx₃, h₃, ctx₄, h₄, ctx₅, h₅, ctx₆, h₆, ctx₇, h₇, ctx₈, h₈, ctx₉, h₉, h⟩ := h
  have hbound := (hq.trans <| (quiet_divideShift h₂).trans <|
    (quiet_conditionalJump (toOption_eq_some h₃)).trans <| (quiet_onProgram h₄).trans
    (quiet_emit h₅)).bind hk h₆
  exact hbound.trans <| (quiet_emit h₇).trans <| (quiet_emit h₈).trans <| (quiet_emit h₉).trans
    (quiet_conditionalJump (toOption_eq_some h))

theorem quiet_divideSign {z one : Nat} {remainder : Bool}
    (h : ctx.divideSign z one remainder = some ctx') : Quiet ctx ctx' := by
  unfold Context.divideSign at h
  split at h
  · exact quiet_emit h
  · simp only [Option.bind_eq_bind, Option.bind_eq_some_iff] at h
    obtain ⟨ctx₁, h₁, ctx₂, h₂, ctx₃, h₃, h⟩ := h
    exact (quiet_lookup h₁).trans <| (quiet_compare32 h₂).trans <| (quiet_lookup h₃).trans
      (quiet_lookup h)

theorem quiet_divideAbsolute {z : Nat} (h : ctx.divideAbsolute z = some ctx') :
    Quiet ctx ctx' := by
  obtain ⟨ctx₁, h₁, h⟩ := Option.bind_eq_some_iff.mp h
  exact (quiet_absolute32 h₁).trans (quiet_absolute32 h)

theorem quiet_divideNegate {z one : Nat} {remainder : Bool}
    (h : ctx.divideNegate z one remainder = some ctx') : Quiet ctx ctx' := by
  obtain ⟨ctx₁, h₁, h⟩ := Option.bind_eq_some_iff.mp h
  exact (quiet_divideSign h₁).trans (quiet_absolute32 h)

theorem quiet_divide32 {d s : Nat} {signed remainder : Bool}
    (h : ctx.divide32 d s signed remainder = some ctx') : Quiet ctx ctx' := by
  simp only [Context.divide32, Option.bind_eq_bind, Option.bind_eq_some_iff, Prod.exists] at h
  obtain ⟨z, ctx₁, h₁, one, ctx₂, h₂, ctx₃, h₃, ctx₄, h₄, ctx₅, h₅, ctx₆, h₆, ctx₇, h₇, ctx₈, h₈,
    ctx₉, h₉, ctx₁₀, h₁₀, ctx₁₁, h₁₁, ctx₁₂, h₁₂, loop, ctx₁₃, h₁₃, skip, ctx₁₄, h₁₄, ctx₁₅, h₁₅,
    ctx₁₆, h₁₆, ctx₁₇, h₁₇, ctx₁₈, h₁₈, h⟩ := h
  cases h
  have hprelude := (quiet_constant h₁).trans <| (quiet_constant h₂).trans <|
    (quiet_emit h₃).trans <|
    (quiet_emit h₄).trans <| (quiet_emit h₅).trans <| (quiet_emit h₆).trans <|
    (quiet_emit h₇).trans <| (quiet_ite quiet_divideAbsolute h₈).trans <| (quiet_emit h₉).trans <|
    (quiet_emit h₁₀).trans <| (quiet_emit h₁₁).trans (quiet_next h₁₂)
  obtain ⟨h₁₃, hloop⟩ := quiet_internalLabel h₁₃
  obtain ⟨h₁₄, hskip⟩ := quiet_internalLabel h₁₄
  have hround := ((h₁₃.trans h₁₄).define hloop).divideRound (hskip.of_quiet h₁₃) h₁₅
  exact hprelude.trans <| hround.trans <| (quiet_ite quiet_divideNegate h₁₆).trans <|
    (quiet_emit h₁₇).trans <| (quiet_emit h₁₈).trans (.of_eq rfl rfl rfl)

theorem quiet_shiftBit {right arithmetic : Bool} {d stage bit : Nat}
    (h : Context.shiftBit right arithmetic d stage ctx bit = some ctx') : Quiet ctx ctx' := by
  simp only [Context.shiftBit, Option.bind_eq_bind, Option.bind_eq_some_iff] at h
  obtain ⟨ctx₁, h₁, ctx₂, h₂, ctx₃, h₃, ctx₄, h₄, h⟩ := h
  exact (quiet_fitSlots h₁).trans <| (quiet_emit h₂).trans <| (quiet_emit h₃).trans <|
    (quiet_emit h₄).trans (quiet_emit h)

theorem quiet_shiftStage {right arithmetic : Bool} {d stage : Nat}
    (h : Context.shiftStage right arithmetic d ctx stage = some ctx') : Quiet ctx ctx' := by
  obtain ⟨ctx₁, h₁, h⟩ := Option.bind_eq_some_iff.mp h
  exact (quiet_emit h₁).trans (quiet_foldlM quiet_shiftBit h)

theorem quiet_shift32 {right arithmetic : Bool} {d c : Nat}
    (h : ctx.shift32 right arithmetic d c = some ctx') : Quiet ctx ctx' := by
  obtain ⟨ctx₁, h₁, h⟩ := Option.bind_eq_some_iff.mp h
  exact (quiet_emit h₁).trans (quiet_foldlM quiet_shiftStage h)

end CopySpace.Link
