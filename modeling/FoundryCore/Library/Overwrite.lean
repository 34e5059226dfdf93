import Mathlib.Data.List.Basic
import Mathlib.Tactic.Common

/-!
# Overwriting parts of a list

A part of a list is overwritten by as many new elements, at one place or at every place where a
needle occurs. Parts that do not overlap may be overwritten in any order.
-/

namespace FoundryCore.Library

variable {α : Type*}

/-- The needle occurs in the list at a position. -/
def OccursAt (needle xs : List α) (i : Nat) : Prop := needle <+: xs.drop i

instance [DecidableEq α] (needle xs : List α) (i : Nat) : Decidable (OccursAt needle xs i) :=
  inferInstanceAs (Decidable (needle <+: _))

/-- The elements from a position on are overwritten, if there are enough of them. -/
def overwrite (xs new : List α) (i : Nat) : Option (List α) :=
  if i + new.length ≤ xs.length then some (xs.take i ++ new ++ xs.drop (i + new.length)) else none

/-- Two parts of the same length that do not overlap. -/
def Apart (length i j : Nat) : Prop := i + length ≤ j ∨ j + length ≤ i

/-- The first list with new elements at some places becomes the second one. -/
structure Overwritten (slots : Nat → List α → Prop) (xs ys : List α) : Prop where
  length : ys.length = xs.length
  new : ∀ i new, slots i new → ∀ p < new.length, ys[i + p]? = new[p]?
  kept : ∀ p, (∀ i new, slots i new → p < i ∨ i + new.length ≤ p) → ys[p]? = xs[p]?

variable {needle new xs ys zs : List α} {i j p n : Nat} {slots slots' : Nat → List α → Prop}

theorem occursAt_iff : OccursAt needle xs i ↔ ∀ p < needle.length, xs[i + p]? = needle[p]? := by
  rw [OccursAt, List.prefix_iff_getElem?]
  constructor
  · intro occurs p lt
    have := occurs p lt
    rw [List.getElem?_drop] at this
    rw [this, List.getElem?_eq_getElem lt]
  · intro same p lt
    rw [List.getElem?_drop, same p lt, List.getElem?_eq_getElem lt]

/-- An occurrence ends in the list. -/
theorem OccursAt.le_length (occurs : OccursAt needle xs i) (nonempty : needle ≠ []) :
    i + needle.length ≤ xs.length := by
  have := occurs.length_le
  have := List.length_pos_of_ne_nil nonempty
  grind

theorem Overwritten.refl (noneEq : ∀ i new, ¬ slots i new) : Overwritten slots xs xs where
  length := rfl
  new i new slot := absurd slot (noneEq i new)
  kept _ _ := rfl

theorem Overwritten.mono (changed : Overwritten slots xs ys)
    (same : ∀ i new, slots i new ↔ slots' i new) : Overwritten slots' xs ys where
  length := changed.length
  new i new slot := changed.new i new ((same i new).mpr slot)
  kept p outside := changed.kept p fun i new slot => outside i new ((same i new).mp slot)

/-- There is one list that another one becomes. -/
theorem Overwritten.unique (changed : Overwritten slots xs ys)
    (changed' : Overwritten slots xs zs) : ys = zs := by
  apply List.ext_getElem?
  intro p
  by_cases inside : ∃ i new, slots i new ∧ i ≤ p ∧ p < i + new.length
  · obtain ⟨i, new, slot, le, lt⟩ := inside
    have getEq : i + (p - i) = p := by omega
    have first := changed.new i new slot (p - i) (by omega)
    have second := changed'.new i new slot (p - i) (by omega)
    rw [getEq] at first second
    rw [first, second]
  · have outside : ∀ i new, slots i new → p < i ∨ i + new.length ≤ p := by
      intro i new slot
      by_contra within
      exact inside ⟨i, new, slot, by omega, by omega⟩
    rw [changed.kept p outside, changed'.kept p outside]

/-- Parts apart from each other are overwritten one after the other. -/
theorem Overwritten.trans (changed : Overwritten slots xs ys) (changed' : Overwritten slots' ys zs)
    (apart : ∀ i new j new', slots i new → slots' j new' →
      i + new.length ≤ j ∨ j + new'.length ≤ i) :
    Overwritten (fun i new => slots i new ∨ slots' i new) xs zs where
  length := changed'.length.trans changed.length
  new i new slot p lt := by
    rcases slot with slot | slot
    · rw [changed'.kept (i + p) fun j new' slot' => ?_, changed.new i new slot p lt]
      have := apart i new j new' slot slot'
      omega
    · exact changed'.new i new slot p lt
  kept p outside := by
    rw [changed'.kept p fun i new slot => outside i new (.inr slot),
      changed.kept p fun i new slot => outside i new (.inl slot)]

theorem overwritten_overwrite (fits : i + new.length ≤ xs.length) :
    ∃ ys, overwrite xs new i = some ys ∧
      Overwritten (fun j new' => j = i ∧ new' = new) xs ys := by
  have first : (xs.take i).length = i := by
    rw [List.length_take]
    omega
  have both : (xs.take i ++ new).length = i + new.length := by rw [List.length_append, first]
  refine ⟨_, by rw [overwrite, if_pos fits], ?_, ?_, ?_⟩
  · rw [List.length_append, both, List.length_drop]
    omega
  · rintro j new' ⟨rfl, rfl⟩ p lt
    rw [List.getElem?_append_left (by omega), List.getElem?_append_right (by omega), first,
      Nat.add_sub_cancel_left]
  · intro p outside
    rcases outside i new ⟨rfl, rfl⟩ with before | behind
    · rw [List.getElem?_append_left (by omega), List.getElem?_append_left (by omega),
        List.getElem?_take_of_lt before]
    · rw [List.getElem?_append_right (by omega), both, List.getElem?_drop,
        Nat.add_sub_cancel' behind]

/-- All of the places are overwritten with the same elements. -/
theorem overwritten_foldlM {places : List Nat} (fits : ∀ i ∈ places, i + new.length ≤ xs.length)
    (apart : ∀ i ∈ places, ∀ j ∈ places, i = j ∨ Apart new.length i j) :
    ∃ ys, places.foldlM (fun xs i => overwrite xs new i) xs = some ys ∧
      Overwritten (fun i new' => i ∈ places ∧ new' = new) xs ys := by
  induction places generalizing xs with
  | nil => exact ⟨xs, rfl, .refl (by simp)⟩
  | cons i places ih =>
    obtain ⟨ys, eq, changed⟩ := overwritten_overwrite (fits i (.head _))
    have fits' : ∀ i ∈ places, i + new.length ≤ ys.length := by grind [changed.length]
    obtain ⟨zs, eq', changed'⟩ := ih fits' (by grind)
    refine ⟨zs, by rw [List.foldlM_cons, eq]; exact eq', ?_⟩
    by_cases again : i ∈ places
    · refine ⟨changed'.length.trans changed.length,
        fun j new' slot => changed'.new j new' (by grind), ?_⟩
      intro p outside
      rw [changed'.kept p fun j new' slot => outside j new' ⟨.tail _ slot.1, slot.2⟩,
        changed.kept p fun j new' slot => outside j new' ⟨slot.1 ▸ .head _, slot.2⟩]
    · refine Overwritten.mono (changed.trans changed' ?_) (by grind)
      rintro j _ j' _ ⟨rfl, rfl⟩ ⟨mem, rfl⟩
      have := apart j (.head _) j' (.tail _ mem)
      unfold Apart at this
      grind

/-- Overwriting other parts neither removes nor makes an occurrence of a needle whose ends are
not among the new elements. -/
theorem occursAt_iff_of_overwritten {mark : α} (changed : Overwritten slots xs ys)
    (written : ∀ j new, slots j new → new.length = needle.length ∧ mark ∉ new)
    (first : needle[0]? = some mark) (last : needle[needle.length - 1]? = some mark)
    (apart : OccursAt needle xs i → ∀ j new, slots j new → Apart needle.length i j) :
    OccursAt needle ys i ↔ OccursAt needle xs i := by
  have positive : 0 < needle.length := (List.getElem?_eq_some_iff.mp first).1
  have same : (∀ j new, slots j new → Apart needle.length i j) →
      ∀ p < needle.length, ys[i + p]? = xs[i + p]? := by
    intro apart p lt
    apply changed.kept
    intro j new slot
    have := apart j new slot
    have := (written j new slot).1
    unfold Apart at *
    omega
  constructor
  · intro occurs
    have marks := occursAt_iff.mp occurs
    have apart' : ∀ j new, slots j new → Apart needle.length i j := by
      intro j new slot
      obtain ⟨long, fresh⟩ := written j new slot
      by_contra near
      unfold Apart at near
      -- one end of the needle lies among the new elements
      rcases Nat.lt_or_ge i j with before | behind
      · have getEq : j + (i + (needle.length - 1) - j) = i + (needle.length - 1) := by omega
        have writtenEq := changed.new j new slot (i + (needle.length - 1) - j) (by omega)
        rw [getEq, marks _ (by omega), last] at writtenEq
        exact fresh (List.mem_of_getElem? writtenEq.symm)
      · have getEq : j + (i - j) = i + 0 := by omega
        have writtenEq := changed.new j new slot (i - j) (by omega)
        rw [getEq, marks 0 positive, first] at writtenEq
        exact fresh (List.mem_of_getElem? writtenEq.symm)
    exact occursAt_iff.mpr fun p lt => (same apart' p lt).symm.trans (marks p lt)
  · intro occurs
    have marks := occursAt_iff.mp occurs
    exact occursAt_iff.mpr fun p lt => (same (apart occurs) p lt).trans (marks p lt)

end FoundryCore.Library
