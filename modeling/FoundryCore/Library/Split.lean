import Mathlib.Data.List.Basic

/-!
# Splitting a list at a separator

The pieces of `List.splitOn` are made of the elements of the list, without the separator. A list
is split once where the separator stands first.
-/

namespace FoundryCore.Library

variable {α : Type*} [DecidableEq α] {sep x : α} {xs piece : List α}

theorem subset_of_mem_splitOn (mem : piece ∈ xs.splitOn sep) : piece ⊆ xs := by
  induction xs generalizing piece with
  | nil => simp_all
  | cons y xs ih =>
    rw [List.splitOn_cons_eq_if_modifyHead] at mem
    obtain ⟨first, rest, split⟩ := List.exists_cons_of_ne_nil (List.splitOn_ne_nil sep xs)
    rw [split] at mem ih
    split_ifs at mem
    · rcases List.mem_cons.mp mem with rfl | mem
      · simp
      · exact List.Subset.trans (ih mem) (List.subset_cons_self y xs)
    · rcases List.mem_cons.mp mem with rfl | mem
      · exact List.cons_subset_cons y (ih (.head _))
      · exact List.Subset.trans (ih (.tail _ mem)) (List.subset_cons_self y xs)

theorem notMem_of_mem_splitOn (mem : piece ∈ xs.splitOn sep) : sep ∉ piece := by
  induction xs generalizing piece with
  | nil => simp_all
  | cons y xs ih =>
    rw [List.splitOn_cons_eq_if_modifyHead] at mem
    obtain ⟨first, rest, split⟩ := List.exists_cons_of_ne_nil (List.splitOn_ne_nil sep xs)
    rw [split] at mem ih
    split_ifs at mem with same
    · rcases List.mem_cons.mp mem with rfl | mem
      · simp
      · exact ih mem
    · rcases List.mem_cons.mp mem with rfl | mem
      · have other : y ≠ sep := by simpa using same
        simpa [other.symm] using ih (.head _)
      · exact ih (.tail _ mem)

/-- What is put behind a list without a separator goes to the last piece. -/
theorem splitOn_append_of_notMem {ys : List α} (fresh : sep ∉ ys) :
    ∃ before piece, (xs ++ ys).splitOn sep = before ++ [piece ++ ys] := by
  induction xs with
  | nil =>
    refine ⟨[], [], ?_⟩
    rw [List.nil_append, List.splitOn_eq_splitOnP, List.splitOnP_eq_singleton]
    · simp
    · intro y mem
      have other : y ≠ sep := fun same => fresh (same ▸ mem)
      simpa using other
  | cons x xs ih =>
    obtain ⟨before, piece, eq⟩ := ih
    rw [List.cons_append, List.splitOn_cons_eq_if_modifyHead, eq]
    split_ifs
    · exact ⟨[] :: before, piece, rfl⟩
    · cases before with
      | nil => exact ⟨[], x :: piece, rfl⟩
      | cons first before => exact ⟨(x :: first) :: before, piece, rfl⟩

theorem two_le_length_splitOn (mem : sep ∈ xs) : 2 ≤ (xs.splitOn sep).length := by
  obtain ⟨before, after, rfl⟩ := List.append_of_mem mem
  have left := List.length_pos_iff.mpr (List.splitOn_ne_nil sep before)
  have right := List.length_pos_iff.mpr (List.splitOn_ne_nil sep after)
  rw [List.splitOn_append_cons_self, List.length_append]
  omega

omit [DecidableEq α] in
theorem intercalate_append {xs ys : List (List α)} (left : xs ≠ []) (right : ys ≠ []) :
    [sep].intercalate (xs ++ ys) = [sep].intercalate xs ++ sep :: [sep].intercalate ys := by
  induction xs with
  | nil => exact absurd rfl left
  | cons x xs ih =>
    by_cases last : xs = []
    · subst last
      simp [List.intercalate_cons_of_ne_nil right]
    · rw [List.cons_append, List.intercalate_cons_of_ne_nil (by simp [last]),
        List.intercalate_cons_of_ne_nil last, ih last]
      simp

/-- What stands before and after the first separator. -/
def splitOnce (sep : α) : List α → Option (List α × List α)
  | [] => none
  | x :: xs =>
    if x = sep then some ([], xs)
    else (splitOnce sep xs).map fun (before, after) => (x :: before, after)

variable {before after : List α}

theorem splitOnce_eq_some :
    splitOnce sep xs = some (before, after) ↔ xs = before ++ sep :: after ∧ sep ∉ before := by
  induction xs generalizing before with
  | nil => simp [splitOnce]
  | cons x xs ih =>
    rw [splitOnce]
    split_ifs with same
    · cases before <;> grind
    · simp only [Option.map_eq_some_iff, Prod.exists, Prod.mk.injEq]
      cases before <;> grind

theorem splitOnce_eq_none : splitOnce sep xs = none ↔ sep ∉ xs := by
  induction xs with
  | nil => simp [splitOnce]
  | cons x xs ih =>
    rw [splitOnce]
    split_ifs with same
    · simp [same]
    · rw [Option.map_eq_none_iff, ih]
      grind

@[simp] theorem splitOnce_append (fresh : sep ∉ before) :
    splitOnce sep (before ++ sep :: after) = some (before, after) :=
  splitOnce_eq_some.mpr ⟨rfl, fresh⟩

@[simp] theorem dropPrefix?_append (pre rest : List α) :
    (pre ++ rest).dropPrefix? pre = some rest := by
  induction pre with
  | nil => cases rest <;> rfl
  | cons x pre ih => simp [List.dropPrefix?, ih]

omit [DecidableEq α] in
/-- A suffix without the separator is one of what stands after the separator. -/
theorem suffix_append_cons (fresh : sep ∉ xs) : xs <:+ before ++ sep :: after ↔ xs <:+ after := by
  constructor
  · intro suffix
    rcases List.suffix_or_suffix_of_suffix suffix (List.suffix_append before (sep :: after)) with
      inside | across
    · rcases List.suffix_cons_iff.mp inside with rfl | inside
      · simp at fresh
      · exact inside
    · exact absurd (across.subset (List.mem_cons_self ..)) fresh
  · intro suffix
    exact (suffix.trans (List.suffix_cons sep after)).trans (List.suffix_append ..)

end FoundryCore.Library
