import FoundryCore.Library.Slice

/-!
# Searching in a list whose elements have sizes

A part of a list is given by two positions at which the list can be cut, and a pattern is found
at the first position where it stands.
-/

namespace FoundryCore.Library

variable {α : Type*} (size : α → Nat)

/-- The part of a list between two positions, if the list can be cut there. -/
def part (start stop : Nat) (xs : List α) : Option (List α) :=
  if stop < start then none
  else (cut size start xs).bind fun split =>
    (cut size (stop - start) split.2).map Prod.fst

/-- The first position where the pattern stands. -/
def find [DecidableEq α] (pattern : List α) : List α → Option Nat
  | [] => if pattern = [] then some 0 else none
  | x :: xs =>
    if pattern <+: x :: xs then some 0 else (find pattern xs).map (size x + ·)

variable {size} {start middle stop position : Nat}
  {xs ys inside inside' before pattern after : List α}

theorem part_eq_some (positive : ∀ x, 0 < size x) : part size start stop xs = some inside ↔
    ∃ before after, xs = before ++ inside ++ after ∧ weight size before = start ∧
      weight size (before ++ inside) = stop := by
  rw [part]
  constructor
  · intro eq
    split_ifs at eq with order
    obtain ⟨⟨before, rest⟩, split, eq⟩ := Option.bind_eq_some_iff.mp eq
    obtain ⟨⟨inside, after⟩, split', rfl⟩ := Option.map_eq_some_iff.mp eq
    obtain ⟨rfl, getEq⟩ := (cut_eq_some positive).mp split
    obtain ⟨same, getEq'⟩ := (cut_eq_some positive).mp split'
    dsimp only at same getEq'
    have total : weight size (before ++ inside) = stop := by
      rw [weight_append, getEq, getEq']
      omega
    exact ⟨before, after, by rw [same, List.append_assoc], getEq, total⟩
  · rintro ⟨before, after, rfl, rfl, rfl⟩
    have first : cut size (weight size before) (before ++ inside ++ after) =
        some (before, inside ++ after) := (cut_eq_some positive).mpr ⟨by simp, rfl⟩
    have second : cut size (weight size inside) (inside ++ after) = some (inside, after) :=
      (cut_eq_some positive).mpr ⟨rfl, rfl⟩
    rw [first, Option.bind_some, weight_append, Nat.add_sub_cancel_left, second]
    simp

/-- A list is cut at a position in one way only. -/
theorem append_inj_of_weight {xs' ys' : List α} (positive : ∀ x, 0 < size x)
    (same : xs ++ xs' = ys ++ ys') (eq : weight size xs = weight size ys) :
    xs = ys ∧ xs' = ys' := by
  obtain ⟨zs, rfl, rfl⟩ := exists_append_of_weight_le positive same (Nat.le_of_eq eq)
  cases zs with
  | nil => simp
  | cons z zs =>
    have := positive z
    simp only [weight_append, weight_cons] at eq
    omega

theorem cut_isSome_iff (positive : ∀ x, 0 < size x) : (cut size position xs).isSome = true ↔
    ∃ before after, xs = before ++ after ∧ weight size before = position := by
  rw [Option.isSome_iff_exists]
  simp [cut_eq_some positive]

theorem part_isSome_iff (positive : ∀ x, 0 < size x) : (part size start stop xs).isSome = true ↔
    start ≤ stop ∧ (cut size start xs).isSome = true ∧ (cut size stop xs).isSome = true := by
  simp only [Option.isSome_iff_exists (x := part size start stop xs), part_eq_some positive,
    cut_isSome_iff positive]
  constructor
  · rintro ⟨inside, before, after, rfl, rfl, rfl⟩
    refine ⟨by simp, ⟨before, inside ++ after, by simp, rfl⟩, before ++ inside, after, rfl, rfl⟩
  · rintro ⟨order, ⟨before, rest, split, rfl⟩, front, after, split', rfl⟩
    obtain ⟨inside, rfl, -⟩ := exists_append_of_weight_le positive (split.symm.trans split') order
    exact ⟨inside, before, after, split', rfl, rfl⟩

/-- Parts that follow each other are a part together. -/
theorem part_append (positive : ∀ x, 0 < size x) (first : part size start middle xs = some inside)
    (second : part size middle stop xs = some inside') :
    part size start stop xs = some (inside ++ inside') := by
  rw [part_eq_some positive] at first second ⊢
  obtain ⟨before, rest, rfl, rfl, rfl⟩ := first
  obtain ⟨front, after, same, getEq, rfl⟩ := second
  rw [List.append_assoc front] at same
  obtain ⟨rfl, rfl⟩ := append_inj_of_weight positive same getEq.symm
  exact ⟨before, after, by simp, rfl, by simp⟩

/-- The part from a position on to the end. -/
theorem part_weight (positive : ∀ x, 0 < size x) :
    part size (weight size before) (weight size (before ++ after)) (before ++ after) =
      some after :=
  (part_eq_some positive).mpr ⟨before, [], by simp, rfl, rfl⟩

variable [DecidableEq α]

/-- The pattern stands where it is found. -/
theorem exists_of_find (found : find size pattern xs = some position) :
    ∃ before after, xs = before ++ pattern ++ after ∧ weight size before = position := by
  induction xs generalizing position with
  | nil =>
    rw [find] at found
    split_ifs at found with empty
    exact ⟨[], [], by simp [empty], Option.some.inj found⟩
  | cons x xs ih =>
    rw [find] at found
    split_ifs at found with here
    · obtain ⟨after, eq⟩ := here
      exact ⟨[], after, eq.symm, Option.some.inj found⟩
    · obtain ⟨rest, later, rfl⟩ := Option.map_eq_some_iff.mp found
      obtain ⟨before, after, eq, getEq⟩ := ih later
      exact ⟨x :: before, after, by rw [eq]; rfl, by rw [weight_cons, getEq]⟩

/-- A pattern that stands somewhere is found there or before. -/
theorem exists_find_le : ∃ position ≤ weight size before,
    find size pattern (before ++ pattern ++ after) = some position := by
  induction before with
  | nil =>
    refine ⟨0, Nat.le_refl _, ?_⟩
    cases eq : [] ++ pattern ++ after with
    | nil =>
      have empty : pattern = [] := by
        rw [List.nil_append] at eq
        exact (List.append_eq_nil_iff.mp eq).1
      rw [find, if_pos empty]
    | cons x xs =>
      have here : pattern <+: x :: xs := ⟨after, by rw [← eq, List.nil_append]⟩
      rw [find, if_pos here]
  | cons x before ih =>
    obtain ⟨position, le, found⟩ := ih
    rw [List.cons_append, List.cons_append, find]
    split_ifs with here
    · exact ⟨0, Nat.zero_le _, rfl⟩
    · exact ⟨size x + position, by rw [weight_cons]; omega, by rw [found]; rfl⟩

end FoundryCore.Library
