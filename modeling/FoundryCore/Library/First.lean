import Mathlib.Data.List.Induction

/-!
# The first element and the only element

Changing the first element with a property does not depend on the order where no other element
has the property, or where the change changes nothing. Neither does taking the only element with
a property.
-/

namespace FoundryCore.Library

variable {α : Type*} {p : α → Bool} {f : α → α} {xs : List α}

/-- Where the first change is the only one, all elements with the property may be changed. -/
theorem modify_findIdx_eq_map
    (one : (xs.filter p).length ≤ 1 ∨ ∀ x ∈ xs, p x → f x = x) :
    xs.modify (xs.findIdx p) f = xs.map fun x => if p x then f x else x := by
  induction xs with
  | nil => rfl
  | cons x xs ih =>
    rw [List.findIdx_cons]
    cases has : p x with
    | true =>
      have rest : xs.map (fun y => if p y then f y else y) = xs := by
        conv_rhs => rw [← List.map_id xs]
        refine List.map_congr_left fun y mem => ?_
        rcases one with one | same
        · have none : ¬ p y := by
            intro has'
            have : y ∈ xs.filter p := List.mem_filter.mpr ⟨mem, has'⟩
            have := List.length_pos_of_mem this
            rw [List.filter_cons_of_pos has, List.length_cons] at one
            omega
          simp [none]
        · split_ifs with has'
          · exact same y (.tail _ mem) has'
          · rfl
      simp [has, rest]
    | false =>
      have tail := ih (one.imp (by simp [has]) fun same y mem => same y (.tail _ mem))
      simp [has, tail]

/-- The position of the only element with a property. -/
def onlyIdx (p : α → Bool) (xs : List α) : Option Nat :=
  (xs.zipIdx.foldl (fun (acc : Nat × Option Nat) (entry : α × Nat) =>
    if p entry.1 then (acc.1 + 1, if acc.1 + 1 = 1 then some entry.2 else none) else acc)
    (0, none)).2

/-- The element at that position, if it is the only one. -/
theorem onlyIdx_spec (p : α → Bool) (xs : List α) : match onlyIdx p xs with
    | some i => ∃ x, xs[i]? = some x ∧ xs.filter p = [x]
    | none => (xs.filter p).length ≠ 1 := by
  have count : ∀ xs : List α, xs.zipIdx.foldl (fun (acc : Nat × Option Nat) (entry : α × Nat) =>
      if p entry.1 then (acc.1 + 1, if acc.1 + 1 = 1 then some entry.2 else none) else acc)
      (0, none) = ((xs.filter p).length, onlyIdx p xs) ∧
      match onlyIdx p xs with
      | some i => ∃ x, xs[i]? = some x ∧ xs.filter p = [x]
      | none => (xs.filter p).length ≠ 1 := by
    intro xs
    induction xs using List.reverseRecOn with
    | nil => exact ⟨rfl, by simp [onlyIdx]⟩
    | append_singleton xs x ih =>
      obtain ⟨fold, only⟩ := ih
      have next : (xs ++ [x]).zipIdx.foldl (fun (acc : Nat × Option Nat) (entry : α × Nat) =>
          if p entry.1 then (acc.1 + 1, if acc.1 + 1 = 1 then some entry.2 else none) else acc)
          (0, none) =
          if p x then ((xs.filter p).length + 1,
            if (xs.filter p).length + 1 = 1 then some xs.length else none)
          else ((xs.filter p).length, onlyIdx p xs) := by
        rw [List.zipIdx_append, List.foldl_append, fold]
        simp
      rw [onlyIdx, next, List.filter_append]
      cases has : p x with
      | true =>
        by_cases first : xs.filter p = []
        · simp [has, first]
        · have := List.length_pos_iff.mpr first
          simp [has, first]
      | false =>
        refine ⟨by simp [has], ?_⟩
        simp only [Bool.false_eq_true, if_false]
        cases found : onlyIdx p xs with
        | none => simpa [found, has] using only
        | some i =>
          rw [found] at only
          obtain ⟨y, getEq, filter⟩ := only
          refine ⟨y, ?_, by simp [filter, has]⟩
          rw [List.getElem?_append_left (List.getElem?_eq_some_iff.mp getEq).1, getEq]
  exact (count xs).2

end FoundryCore.Library
