import Mathlib.Data.List.Sort

/-!
# Sorting with a comparison

Sorting is stable. Under a lawful comparison the elements alone determine the sorted list.
-/

open Std

namespace FoundryCore.Library

variable {α : Type*} {cmp cmp' : α → α → Ordering} {l l' : List α}

/-- The list in ascending order; elements that compare equal keep theirs. -/
def sortBy (cmp : α → α → Ordering) (l : List α) : List α :=
  l.insertionSort fun a b => (cmp a b).isLE

theorem sortBy_perm : (sortBy cmp l).Perm l := List.perm_insertionSort ..

/-- Only the comparisons of the elements matter. -/
theorem sortBy_congr (same : ∀ a ∈ l, ∀ b ∈ l, cmp a b = cmp' a b) :
    sortBy cmp l = sortBy cmp' l := by
  have mapped := List.map_insertionSort (fun a b => (cmp a b).isLE) (fun a b => (cmp' a b).isLE)
    id l fun a mem b mem' => by
      rw [same a mem b mem']
      rfl
  rwa [List.map_id, List.map_id] at mapped

theorem pairwise_sortBy [TransCmp cmp] :
    (sortBy cmp l).Pairwise fun a b => (cmp a b).isLE := by
  have : IsTrans α fun a b => (cmp a b).isLE := ⟨fun _ _ _ => TransCmp.isLE_trans⟩
  have : Std.Total fun a b => (cmp a b).isLE := ⟨fun a b => by
    have swap : cmp b a = (cmp a b).swap := OrientedCmp.eq_swap
    rw [swap]
    cases cmp a b <;> simp⟩
  exact List.pairwise_insertionSort ..

/-- The order in which the elements come does not matter, if no two of them compare equal. -/
theorem sortBy_eq_of_perm_of_mem [TransCmp cmp] (perm : l.Perm l')
    (ties : ∀ a ∈ l, ∀ b ∈ l, cmp a b = .eq → a = b) : sortBy cmp l = sortBy cmp l' := by
  refine List.Perm.eq_of_pairwise (fun a b mem mem' le ge => ?_) pairwise_sortBy pairwise_sortBy
    ((sortBy_perm.trans perm).trans sortBy_perm.symm)
  have swap : cmp b a = (cmp a b).swap := OrientedCmp.eq_swap
  have same : cmp a b = .eq := by
    rw [swap] at ge
    revert le ge
    cases cmp a b <;> simp
  exact ties a (sortBy_perm.mem_iff.mp mem) b
    (perm.mem_iff.mpr (sortBy_perm.mem_iff.mp mem')) same

theorem sortBy_eq_of_perm [TransCmp cmp] [LawfulEqCmp cmp] (perm : l.Perm l') :
    sortBy cmp l = sortBy cmp l' :=
  sortBy_eq_of_perm_of_mem perm fun _ _ _ _ => LawfulEqCmp.eq_of_compare

end FoundryCore.Library
