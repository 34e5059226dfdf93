import FoundryCore.SourceMap.Basic
import Mathlib.Data.Nat.Bitwise

/-!
# The fields of an element

The jump and the modifier depth share a word. Read through `jump` and `modifierDepth` the word
is a pair, and an element is given by its five fields.
-/

namespace FoundryCore.SourceMap

theorem Jump.toInt_fromInt {i : BitVec 32} (lt : i < 3) : (Jump.fromInt i lt).toInt = i := by
  have : i.toNat < 3 := by simpa [BitVec.lt_def] using lt
  simp only [Jump.fromInt]
  split_ifs with zero one
  · exact zero.symm
  · exact one.symm
  · apply BitVec.eq_of_toNat_eq
    have ne_zero : i.toNat ≠ 0 := fun eq => zero (BitVec.eq_of_toNat_eq eq)
    have ne_one : i.toNat ≠ 1 := fun eq => one (BitVec.eq_of_toNat_eq eq)
    simp [Jump.toInt]
    omega

theorem Jump.toInt_injective {j j' : Jump} (eq : j.toInt = j'.toInt) : j = j' := by
  cases j <;> cases j' <;> first | rfl | (revert eq; decide)

namespace SourceElement

variable {e e' : SourceElement} {j : Jump} {m : BitVec 32}

theorem toInt_jump (e : SourceElement) : e.jump.toInt = e.jumpAndModifierDepth >>> 30 :=
  Jump.toInt_fromInt _

/-- The word is its two parts. -/
theorem jumpAndModifierDepth_eq (e : SourceElement) :
    e.jumpAndModifierDepth = e.jump.toInt <<< 30 ||| e.modifierDepth := by
  rw [toInt_jump, modifierDepth]
  apply BitVec.eq_of_getLsbD_eq
  intro i lt
  simp only [BitVec.getLsbD_or, BitVec.getLsbD_shiftLeft, BitVec.getLsbD_ushiftRight, lt,
    decide_true, Bool.true_and]
  by_cases low : i < 30
  · simp [low, show 1 < 2 + i by omega, show 2 + i < 32 by omega]
  · simp [low, show ¬ 2 + i < 32 by omega, show 30 + (i - 30) = i by omega]

/-- An element is given by its five fields. -/
theorem ext_fields (offset : e.offset = e'.offset) (length : e.length = e'.length)
    (index : e.index = e'.index) (jump : e.jump = e'.jump)
    (modifierDepth : e.modifierDepth = e'.modifierDepth) : e = e' := by
  refine SourceElement.ext offset length index ?_
  rw [jumpAndModifierDepth_eq, jumpAndModifierDepth_eq, jump, modifierDepth]

@[simp] theorem jump_set (lt : m < 1 <<< 30) : (e.setJumpAndModifierDepth j m lt).jump = j := by
  apply Jump.toInt_injective
  rw [toInt_jump]
  exact shiftRight_jumpAndModifierDepth j lt

@[simp] theorem modifierDepth_set (lt : m < 1 <<< 30) :
    (e.setJumpAndModifierDepth j m lt).modifierDepth = m := by
  have small : m.toNat < 2 ^ 30 := by simpa [BitVec.lt_def] using lt
  simp only [modifierDepth, setJumpAndModifierDepth]
  apply BitVec.eq_of_getLsbD_eq
  intro i lt
  simp only [BitVec.getLsbD_or, BitVec.getLsbD_shiftLeft, BitVec.getLsbD_ushiftRight]
  by_cases low : i < 30
  · simp [low, show 1 < 2 + i by omega, show 2 + i < 32 by omega, show i < 32 by omega]
  · have high : m.getLsbD i = false :=
      Nat.testBit_lt_two_pow (small.trans_le (Nat.pow_le_pow_right (by decide) (by omega)))
    simp [high, show ¬ 2 + i < 32 by omega]

@[simp] theorem jump_setJump : (e.setJump j).jump = j := jump_set _

@[simp] theorem modifierDepth_setJump : (e.setJump j).modifierDepth = e.modifierDepth :=
  modifierDepth_set _

end SourceElement

namespace SourceElementBuilder

open SourceElement

/-- The element that a builder makes over the one before. -/
structure Finishes (b : SourceElementBuilder) (prev e : SourceElement) : Prop where
  offset : e.offset = (b.offset.map (BitVec.ofNat 32)).getD prev.offset
  length : e.length = (b.length.map (BitVec.ofNat 32)).getD prev.length
  index : e.index = (b.index.map (·.getD (-1))).getD prev.index
  jump : e.jump = b.jump.getD prev.jump
  modifierDepth : e.modifierDepth = (b.modifierDepth.map (BitVec.ofNat 32)).getD prev.modifierDepth

theorem Finishes.unique {b : SourceElementBuilder} {prev e e' : SourceElement}
    (f : b.Finishes prev e) (f' : b.Finishes prev e') : e = e' :=
  ext_fields (f.offset.trans f'.offset.symm) (f.length.trans f'.length.symm)
    (f.index.trans f'.index.symm) (f.jump.trans f'.jump.symm)
    (f.modifierDepth.trans f'.modifierDepth.symm)

/-- Offsets and lengths fit, as the parser made them from `u32`s. -/
structure Fits (b : SourceElementBuilder) : Prop where
  offset : ∀ n, b.offset = some n → n < 2 ^ 32
  length : ∀ n, b.length = some n → n < 2 ^ 32

/-- The element before the modifier depth is set. -/
def shallow (b : SourceElementBuilder) (prev : SourceElement) : SourceElement :=
  let element := { prev with
    offset := (b.offset.map (BitVec.ofNat 32)).getD prev.offset
    length := (b.length.map (BitVec.ofNat 32)).getD prev.length
    index := (b.index.map (·.getD (-1))).getD prev.index }
  match b.jump with
  | some jump => element.setJump jump
  | none => element

theorem finish_eq {b : SourceElementBuilder} (fits : b.Fits) (prev : Option SourceElement) :
    b.finish prev = match b.modifierDepth with
      | some modifierDepth => (b.shallow (prev.getD .new)).setModifierDepth modifierDepth
      | none => .ok (b.shallow (prev.getD .new)) := by
  have offset : ∀ n, b.offset = some n → tryFrom n = .ok (BitVec.ofNat 32 n) := fun n eq =>
    if_pos (fits.offset n eq)
  have length : ∀ n, b.length = some n → tryFrom n = .ok (BitVec.ofNat 32 n) := fun n eq =>
    if_pos (fits.length n eq)
  obtain ⟨o, l, i, j, d⟩ := b
  cases o <;> cases l <;> simp only [reduceCtorEq, forall_eq', Option.some.injEq] at offset length
  all_goals
    simp only [finish, shallow, Bind.bind, Except.bind, offset, length]
    cases i <;> cases j <;> rfl

theorem finishes_shallow (b : SourceElementBuilder) (prev : SourceElement) :
    { b with modifierDepth := none }.Finishes prev (b.shallow prev) := by
  obtain ⟨o, l, i, j, d⟩ := b
  cases j with
  | none => exact ⟨rfl, rfl, rfl, rfl, rfl⟩
  | some j =>
    refine ⟨rfl, rfl, rfl, jump_setJump, ?_⟩
    exact modifierDepth_setJump.trans rfl

/-- Finishing fails only on a modifier depth of more than 30 bits. -/
theorem finish_eq_ok {b : SourceElementBuilder} (fits : b.Fits) {prev : Option SourceElement}
    {e : SourceElement} :
    b.finish prev = .ok e ↔
      (∀ n, b.modifierDepth = some n → n < 2 ^ 30) ∧ b.Finishes (prev.getD .new) e := by
  have shallow := b.finishes_shallow (prev.getD .new)
  rw [finish_eq fits]
  cases depth : b.modifierDepth with
  | none =>
    have finishes : b.Finishes (prev.getD .new) (b.shallow (prev.getD .new)) :=
      ⟨shallow.offset, shallow.length, shallow.index, shallow.jump, by
        rw [shallow.modifierDepth, depth]⟩
    constructor
    · rintro ⟨⟩
      exact ⟨by simp, finishes⟩
    · rintro ⟨-, finishes'⟩
      exact congrArg Except.ok (finishes.unique finishes')
  | some m =>
    simp only [setModifierDepth]
    split_ifs with large
    · refine ⟨by simp, ?_⟩
      rintro ⟨small, -⟩
      have := small m rfl
      simp at large
      omega
    · have finishes : b.Finishes (prev.getD .new)
          ((b.shallow (prev.getD .new)).setJumpAndModifierDepth (b.shallow (prev.getD .new)).jump
            (BitVec.ofNat 32 m) (ofNat_lt_of_le large)) :=
        ⟨shallow.offset, shallow.length, shallow.index, (jump_set _).trans shallow.jump, by
          rw [modifierDepth_set, depth]
          rfl⟩
      constructor
      · rintro ⟨⟩
        refine ⟨?_, finishes⟩
        rintro _ ⟨⟩
        simp at large
        omega
      · rintro ⟨-, finishes'⟩
        exact congrArg Except.ok (finishes.unique finishes')

theorem exists_finish {b : SourceElementBuilder} (fits : b.Fits) (prev : Option SourceElement)
    (depth : ∀ n, b.modifierDepth = some n → n < 2 ^ 30) : ∃ e, b.finish prev = .ok e := by
  rw [finish_eq fits]
  cases set : b.modifierDepth with
  | none => exact ⟨_, rfl⟩
  | some n =>
    have small : ¬ n > (1 <<< 30) - 1 := by
      have := depth n set
      simp
      omega
    exact ⟨_, dif_neg small⟩

end SourceElementBuilder

end FoundryCore.SourceMap
