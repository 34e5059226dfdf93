import Mathlib.Data.List.Basic

/-!
# Values that compare

The greater and the lesser of two values that compare by an `Ord` instance, and the first of a
list of values in falling order that passes a test: the weaker the test, the greater the value.
-/

open Std

namespace FoundryCore.Library

variable {ν : Type} [Ord ν]

/-- The greater value, the second of two equal ones. -/
def ordMax (a b : ν) : ν := if compare a b = .gt then a else b

/-- The lesser value, the first of two equal ones. -/
def ordMin (a b : ν) : ν := if compare a b = .gt then b else a

variable {a b c d v : ν}

theorem compare_eq_gt_iff : compare a b = .gt ↔ ¬ (compare a b).isLE = true := by
  cases compare a b <;> simp

variable [TransOrd ν]

theorem compare_eq_lt_iff : compare a b = .lt ↔ ¬ (compare b a).isLE = true := by
  rw [OrientedOrd.eq_swap (a := a) (b := b)]
  cases compare b a <;> simp

theorem isLE_refl (a : ν) : (compare a a).isLE = true := by
  simp [ReflOrd.compare_self]

theorem isLE_of_not_isLE (less : ¬ (compare a b).isLE = true) : (compare b a).isLE = true := by
  rw [← compare_eq_lt_iff] at less
  simp [less]

/-- A value is at least the greater of two bounds if it is at least both. -/
theorem ordMax_isLE :
    (compare (ordMax a b) v).isLE = true ↔
      (compare a v).isLE = true ∧ (compare b v).isLE = true := by
  unfold ordMax
  split_ifs with greater <;> rw [compare_eq_gt_iff] at greater
  · exact ⟨fun h => ⟨h, TransCmp.isLE_trans (isLE_of_not_isLE greater) h⟩, And.left⟩
  · exact ⟨fun h => ⟨TransCmp.isLE_trans (not_not.mp greater) h, h⟩, And.right⟩

/-- A value is at most the lesser of two bounds if it is at most both. -/
theorem isLE_ordMin :
    (compare v (ordMin a b)).isLE = true ↔
      (compare v a).isLE = true ∧ (compare v b).isLE = true := by
  unfold ordMin
  split_ifs with greater <;> rw [compare_eq_gt_iff] at greater
  · exact ⟨fun h => ⟨TransCmp.isLE_trans h (isLE_of_not_isLE greater), h⟩, And.right⟩
  · exact ⟨fun h => ⟨h, TransCmp.isLE_trans h (not_not.mp greater)⟩, And.left⟩

theorem ordMin_mono (ac : (compare a c).isLE = true) (bd : (compare b d).isLE = true) :
    (compare (ordMin a b) (ordMin c d)).isLE = true := by
  obtain ⟨left, right⟩ := isLE_ordMin.mp (isLE_refl (ordMin a b))
  exact isLE_ordMin.mpr ⟨TransCmp.isLE_trans left ac, TransCmp.isLE_trans right bd⟩

theorem ordMin_ordMin (a b : ν) : ordMin (ordMin a b) b = ordMin a b := by
  have le : (compare (ordMin a b) b).isLE = true := (isLE_ordMin.mp (isLE_refl (ordMin a b))).2
  exact if_neg fun greater => compare_eq_gt_iff.mp greater le

/-- A weaker test is passed by a value that is at least as great. -/
theorem exists_find?_of_imp {κ : Type} {key : κ → ν} {l : List κ} {p q : κ → Bool}
    (falling : l.Pairwise fun x y => (compare (key y) (key x)).isLE = true)
    (imp : ∀ x ∈ l, p x = true → q x = true) {x : κ} (found : l.find? p = some x) :
    ∃ y, l.find? q = some y ∧ (compare (key x) (key y)).isLE = true := by
  induction l with
  | nil => cases found
  | cons head l ih =>
    rw [List.pairwise_cons] at falling
    rw [List.find?_cons] at found ⊢
    cases weak : q head with
    | true =>
      refine ⟨head, rfl, ?_⟩
      cases strong : p head with
      | true =>
        obtain rfl : head = x := by simpa [strong] using found
        exact isLE_refl _
      | false =>
        rw [strong] at found
        exact falling.1 x (List.mem_of_find?_eq_some found)
    | false =>
      have strong : p head = false := by
        rw [Bool.eq_false_iff]
        intro passes
        simp [imp head List.mem_cons_self passes] at weak
      rw [strong] at found
      exact ih falling.2 (fun x mem => imp x (List.mem_cons_of_mem _ mem)) found

end FoundryCore.Library
