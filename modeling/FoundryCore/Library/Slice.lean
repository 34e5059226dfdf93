import Mathlib.Algebra.GroupWithZero.Nat
import Mathlib.Data.List.Infix

/-!
# Slices of a list whose elements have sizes

Positions in a list are counted in the sizes of its elements, as those of a text are counted in
bytes. A list is cut only where an element begins or the list ends. Ranges that follow each other
are replaced all at once by putting the new elements between the slices that are left. Where a list
is made of parts, it does not matter if parts or elements are taken between their boundaries.
-/

namespace FoundryCore.Library

variable {α : Type*} (size : α → Nat)

/-- The size of the whole list. -/
def weight (xs : List α) : Nat := (xs.map size).sum

@[simp] theorem weight_nil : weight size [] = 0 := rfl

@[simp] theorem weight_cons (x : α) (xs : List α) :
    weight size (x :: xs) = size x + weight size xs := by simp [weight]

@[simp] theorem weight_append (xs ys : List α) :
    weight size (xs ++ ys) = weight size xs + weight size ys := by simp [weight]

/-- The list in two parts, the first one of the given size, if it can be cut there. -/
def cut : Nat → List α → Option (List α × List α)
  | 0, xs => some ([], xs)
  | _ + 1, [] => none
  | n + 1, x :: xs =>
    if size x ≤ n + 1 then
      (cut (n + 1 - size x) xs).map fun (before, after) => (x :: before, after)
    else none

/-- The elements that begin from one position on and before another. -/
def slice : Nat → Nat → List α → List α
  | _, _, [] => []
  | start, stop, x :: xs =>
    let rest := slice (start - size x) (stop - size x) xs
    if start = 0 ∧ 0 < stop then x :: rest else rest

/-- The list from a position on, with each of the ranges replaced by its new elements. -/
def substituteFrom (source : List α) : Nat → List ((Nat × Nat) × List α) → List α
  | pos, [] => slice size pos (weight size source) source
  | pos, ((start, stop), new) :: updates =>
    slice size pos start source ++ new ++ substituteFrom source stop updates

/-- All of the list, with each of the ranges replaced by its new elements. -/
def substitute (source : List α) (updates : List ((Nat × Nat) × List α)) : List α :=
  substituteFrom size source 0 updates

variable {size} {start stop n : Nat} {x : α} {xs ys before middle after : List α}

theorem cut_eq_some (positive : ∀ x, 0 < size x) :
    cut size n xs = some (before, after) ↔ xs = before ++ after ∧ weight size before = n := by
  induction xs generalizing n before with
  | nil => cases n <;> cases before <;> grind [cut, weight_nil]
  | cons x xs ih =>
    cases n with
    | zero =>
      cases before with
      | nil => simp [cut, eq_comm]
      | cons y before =>
        have := positive y
        simp [cut]
        omega
    | succ n =>
      cases before with
      | nil => simp [cut]
      | cons y before =>
        have := positive x
        by_cases fits : size x ≤ n + 1
        · have rest : cut size (n + 1 - size x) xs = some (before, after) ↔
              xs = before ++ after ∧ weight size before = n + 1 - size x := ih
          rw [cut, if_pos fits]
          constructor
          · intro eq
            obtain ⟨⟨b, a⟩, eq, same⟩ := Option.map_eq_some_iff.mp eq
            grind [weight_cons]
          · rintro ⟨same, total⟩
            cases same
            rw [rest.mpr ⟨rfl, by rw [weight_cons] at total; omega⟩]
            rfl
        · rw [cut, if_neg fits]
          grind [weight_cons]

theorem slice_append : slice size start stop (xs ++ ys) =
    slice size start stop xs ++
      slice size (start - weight size xs) (stop - weight size xs) ys := by
  induction xs generalizing start stop with
  | nil => simp [slice]
  | cons x xs ih => grind [slice, weight_cons]

/-- Nothing begins at the end of the list or behind it. -/
theorem slice_of_weight_le (positive : ∀ x, 0 < size x) (behind : weight size xs ≤ start) :
    slice size start stop xs = [] := by
  induction xs generalizing start stop with
  | nil => rfl
  | cons x xs ih =>
    have := positive x
    grind [slice, weight_cons]

@[simp] theorem slice_zero : slice size start 0 xs = [] := by
  induction xs generalizing start with
  | nil => rfl
  | cons x xs ih => simp [slice, ih]

theorem slice_all (positive : ∀ x, 0 < size x) (all : weight size xs ≤ stop) :
    slice size 0 stop xs = xs := by
  induction xs generalizing stop with
  | nil => rfl
  | cons x xs ih =>
    have := positive x
    grind [slice, weight_cons]

/-- What stands between two places where the list can be cut. -/
theorem slice_append_append (positive : ∀ x, 0 < size x) :
    slice size (weight size before) (weight size before + weight size middle)
      (before ++ middle ++ after) = middle := by
  have left : slice size (weight size before) (weight size before + weight size middle) before =
      [] := slice_of_weight_le positive (Nat.le_refl _)
  have kept : slice size 0 (weight size middle) middle = middle :=
    slice_all positive (Nat.le_refl _)
  simp [slice_append, left, kept]

/-- Of two places to cut a list, the one at the smaller position comes first. -/
theorem exists_append_of_weight_le {xs' ys' : List α} (positive : ∀ x, 0 < size x)
    (same : xs ++ xs' = ys ++ ys') (le : weight size xs ≤ weight size ys) :
    ∃ zs, ys = xs ++ zs ∧ xs' = zs ++ ys' := by
  rcases List.append_eq_append_iff.mp same with ⟨zs, split, rest⟩ | ⟨zs, split, rest⟩
  · exact ⟨zs, split, rest⟩
  · cases zs with
    | nil => exact ⟨[], by simp_all, by simp_all⟩
    | cons z zs =>
      have := positive z
      rw [split] at le
      grind [weight_append, weight_cons]

/-! ## Lists of parts -/

/-- The positions where a part begins or the list ends. -/
def boundaries (size : α → Nat) (parts : List (List α)) : List Nat :=
  parts.inits.map fun before => weight size before.flatten

variable {part : List α} {parts : List (List α)}

theorem mem_boundaries_cons : n ∈ boundaries size (part :: parts) ↔
    n = 0 ∨ weight size part ≤ n ∧ n - weight size part ∈ boundaries size parts := by
  simp only [boundaries, List.inits_cons, List.map_cons, List.map_map, List.mem_cons, List.mem_map,
    Function.comp_apply, List.flatten_nil, weight_nil, List.flatten_cons, weight_append]
  refine or_congr_right ⟨?_, ?_⟩
  · rintro ⟨before, mem, rfl⟩
    exact ⟨Nat.le_add_right .., before, mem, by omega⟩
  · rintro ⟨le, before, mem, eq⟩
    exact ⟨before, mem, by omega⟩

theorem mem_boundaries_iff : n ∈ boundaries size parts ↔
    ∃ before after, parts = before ++ after ∧ n = weight size before.flatten := by
  simp only [boundaries, List.mem_map, List.mem_inits]
  exact ⟨fun ⟨before, ⟨after, eq⟩, same⟩ => ⟨before, after, eq.symm, same.symm⟩,
    fun ⟨before, after, eq, same⟩ => ⟨before, ⟨after, eq.symm⟩, same.symm⟩⟩

/-- Between boundaries it does not matter if parts or elements are taken. -/
theorem flatten_slice (positive : ∀ x, 0 < size x) (nonempty : ∀ part ∈ parts, part ≠ [])
    (first : start ∈ boundaries size parts) (last : stop ∈ boundaries size parts) :
    (slice (weight size) start stop parts).flatten = slice size start stop parts.flatten := by
  induction parts generalizing start stop with
  | nil => simp [slice]
  | cons part parts ih =>
    rw [List.forall_mem_cons] at nonempty
    have long : 0 < weight size part := by
      obtain ⟨x, rest, rfl⟩ := List.exists_cons_of_ne_nil nonempty.1
      have := positive x
      rw [weight_cons]
      omega
    rw [mem_boundaries_cons] at first last
    have zero : 0 ∈ boundaries size parts := mem_boundaries_iff.mpr ⟨[], parts, rfl, rfl⟩
    have tail := @ih (start - weight size part) (stop - weight size part) nonempty.2
      (first.elim (fun eq => by simpa [eq] using zero) And.right)
      (last.elim (fun eq => by simpa [eq] using zero) And.right)
    rw [List.flatten_cons, slice_append, ← tail, slice]
    by_cases taken : start = 0 ∧ 0 < stop
    · have all : weight size part ≤ stop := by omega
      rw [if_pos taken, taken.1, slice_all positive all]
      rfl
    · have noneEq : slice size start stop part = [] := by
        rcases first with rfl | first
        · obtain rfl : stop = 0 := by omega
          exact slice_zero
        · exact slice_of_weight_le positive first.1
      rw [if_neg taken, noneEq]
      rfl

theorem weight_flatten : weight (weight size) parts = weight size parts.flatten := by
  induction parts with
  | nil => rfl
  | cons part parts ih => simp [ih]

/-- Nor if ranges of parts or of elements are taken out. -/
theorem flatten_substituteFrom (positive : ∀ x, 0 < size x) (nonempty : ∀ part ∈ parts, part ≠ [])
    {pos : Nat} {ranges : List (Nat × Nat)} (first : pos ∈ boundaries size parts)
    (inside : ∀ range ∈ ranges, range.1 ∈ boundaries size parts ∧ range.2 ∈ boundaries size parts) :
    (substituteFrom (weight size) parts pos (ranges.map (·, []))).flatten =
      substituteFrom size parts.flatten pos (ranges.map (·, [])) := by
  induction ranges generalizing pos with
  | nil =>
    have last : weight size parts.flatten ∈ boundaries size parts :=
      mem_boundaries_iff.mpr ⟨parts, [], by simp, rfl⟩
    simp only [List.map_nil, substituteFrom, weight_flatten]
    exact flatten_slice positive nonempty first last
  | cons range ranges ih =>
    rw [List.forall_mem_cons] at inside
    simp only [List.map_cons, substituteFrom, List.append_nil, List.flatten_append]
    rw [flatten_slice positive nonempty first inside.1.1, ih inside.1.2 inside.2]

/-- Of slices that follow each other there is not more than of the whole. -/
theorem slice_append_sublist {a b c d : Nat} (le : a ≤ b) (le' : b ≤ c) (le'' : c ≤ d) :
    (slice size a b xs ++ slice size c d xs).Sublist (slice size a d xs) := by
  induction xs generalizing a b c d with
  | nil => simp [slice]
  | cons x xs ih =>
    have tail := @ih (a - size x) (b - size x) (c - size x) (d - size x) (by omega) (by omega)
      (by omega)
    simp only [slice]
    by_cases first : a = 0 ∧ 0 < b
    · rw [if_pos first, if_neg (by omega), if_pos (by omega)]
      exact tail.cons_cons x
    · rw [if_neg first]
      by_cases second : c = 0 ∧ 0 < d
      · obtain ⟨rfl, rfl⟩ : a = 0 ∧ b = 0 := by omega
        rw [if_pos second, if_pos ⟨rfl, second.2⟩]
        simpa using tail
      · rw [if_neg second]
        split_ifs
        · exact tail.cons x
        · exact tail

/-- What is left when ranges are taken out is a part of the list. -/
theorem substituteFrom_sublist {pos : Nat} {ranges : List (Nat × Nat)}
    (ordered : ∀ range ∈ ranges, pos ≤ range.1 ∧ range.1 ≤ range.2 ∧ range.2 ≤ weight size xs)
    (sorted : ranges.Pairwise fun range later => range.2 ≤ later.1)
    (behind : pos ≤ weight size xs) :
    (substituteFrom size xs pos (ranges.map (·, []))).Sublist
      (slice size pos (weight size xs) xs) := by
  induction ranges generalizing pos with
  | nil => exact List.Sublist.refl _
  | cons range ranges ih =>
    rw [List.forall_mem_cons] at ordered
    rw [List.pairwise_cons] at sorted
    obtain ⟨⟨le, le', le''⟩, ordered⟩ := ordered
    have tail := @ih range.2 (fun later mem => ⟨sorted.1 later mem, (ordered later mem).2⟩)
      sorted.2 le''
    simp only [List.map_cons, substituteFrom, List.append_nil]
    exact (List.Sublist.append_left tail _).trans (slice_append_sublist le le' le'')

theorem slice_sublist : (slice size start stop xs).Sublist xs := by
  induction xs generalizing start stop with
  | nil => exact List.Sublist.refl _
  | cons x xs ih =>
    simp only [slice]
    split_ifs
    · exact ih.cons_cons x
    · exact ih.cons x

theorem mem_of_mem_substituteFrom {pos : Nat} {ranges : List (Nat × Nat)}
    (mem : x ∈ substituteFrom size xs pos (ranges.map (·, []))) : x ∈ xs := by
  induction ranges generalizing pos with
  | nil => exact slice_sublist.subset mem
  | cons range ranges ih =>
    simp only [List.map_cons, substituteFrom, List.append_nil, List.mem_append] at mem
    exact mem.elim (slice_sublist.subset ·) ih

theorem weight_le_of_sublist (sublist : xs.Sublist ys) : weight size xs ≤ weight size ys := by
  induction sublist with
  | slnil => exact Nat.le_refl _
  | cons x _ ih =>
    rw [weight_cons]
    omega
  | cons_cons x _ ih =>
    rw [weight_cons, weight_cons]
    omega

end FoundryCore.Library
