import Mathlib.Data.List.Nodup

/-!
# The first elements with their keys

Of the elements with the same key the first is kept, unless the key was seen before.
-/

namespace FoundryCore.Library

variable {α κ : Type*} [DecidableEq κ]

/-- The elements whose keys neither were seen nor come before. -/
def firsts (key : α → κ) : List κ → List α → List α
  | _, [] => []
  | seen, x :: rest =>
    if key x ∈ seen then firsts key seen rest else x :: firsts key (key x :: seen) rest

variable {key : α → κ} {seen : List κ} {l : List α}

theorem mem_of_mem_firsts {x : α} (mem : x ∈ firsts key seen l) : x ∈ l := by
  fun_induction firsts key seen l <;> grind

@[simp] theorem mem_keys_firsts {k : κ} :
    k ∈ (firsts key seen l).map key ↔ k ∈ l.map key ∧ k ∉ seen := by
  fun_induction firsts key seen l <;> grind

theorem nodup_keys_firsts : ((firsts key seen l).map key).Nodup := by
  fun_induction firsts key seen l with
  | case1 => simp
  | case2 seen x rest old ih => exact ih
  | case3 seen x rest new ih =>
    rw [List.map_cons, List.nodup_cons, mem_keys_firsts]
    exact ⟨by grind, ih⟩

end FoundryCore.Library
