import Mathlib.Data.List.Dedup

/-!
# Runs over lists whose order is open

Where a list stands for a set, what is made of it should depend on its members only.
-/

namespace FoundryCore.Library

variable {ι ο α σ : Type}

/-- The lists have the same members. -/
def SameMembers (l l' : List α) : Prop := ∀ x, x ∈ l ↔ x ∈ l'

theorem sameMembers_of_perm {l l' : List α} (perm : l.Perm l') : SameMembers l l' :=
  fun _ => perm.mem_iff

theorem eq_of_perm_of_length_le_one {l l' : List α} (perm : l.Perm l') (few : l'.length ≤ 1) :
    l = l' := by
  match l', few with
  | [], _ => exact List.perm_nil.mp perm
  | [_], _ => exact List.perm_singleton.mp perm

/-- A computation for all elements succeeds if each of them does. -/
theorem mapM_eq_ite (f : ι → Option ο) (l : List ι) :
    l.mapM f = if ∀ x ∈ l, (f x).isSome = true then some (l.filterMap f) else none := by
  induction l with
  | nil => rfl
  | cons x l ih =>
    rw [List.mapM_cons, ih]
    cases eq : f x with
    | none => simp [eq]
    | some y =>
      by_cases all : ∀ x ∈ l, (f x).isSome = true
      · have all' : ∀ x' ∈ x :: l, (f x').isSome = true := by simpa [eq] using all
        rw [if_pos all, if_pos all', List.filterMap_cons_some eq]
        rfl
      · have lacks : ¬ ∀ x' ∈ x :: l, (f x').isSome = true := by simpa [eq] using all
        rw [if_neg all, if_neg lacks]
        rfl

theorem mapM_eq_some_iff {f : ι → Option ο} {l : List ι} {ys : List ο} :
    l.mapM f = some ys ↔ List.Forall₂ (fun x y => f x = some y) l ys := by
  induction l generalizing ys with
  | nil => simp [eq_comm]
  | cons x l ih =>
    simp only [List.mapM_cons, List.forall₂_cons_left_iff, ← ih, bind, Option.bind_eq_some_iff,
      pure, Option.some.injEq]
    exact ⟨fun ⟨y, eq, ys, eqs, same⟩ => ⟨y, ys, eq, eqs, same.symm⟩,
      fun ⟨y, ys, eq, eqs, same⟩ => ⟨y, eq, ys, eqs, same.symm⟩⟩

theorem isSome_eq_of_rel {r : α → ο → Prop} {a : Option α} {b : Option ο} (rel : Option.Rel r a b) :
    a.isSome = b.isSome := by
  cases rel <;> rfl

theorem exists_of_rel {r : α → ο → Prop} {a : Option α} {y : ο} (rel : Option.Rel r a (some y)) :
    ∃ x, a = some x ∧ r x y := by
  cases rel with
  | some holds => exact ⟨_, rfl, holds⟩

theorem exists_of_rel' {r : α → ο → Prop} {x : α} {b : Option ο} (rel : Option.Rel r (some x) b) :
    ∃ y, b = some y ∧ r x y := by
  cases rel with
  | some holds => exact ⟨_, rfl, holds⟩

theorem rel_bind {α' ο' : Type} {r : α → ο → Prop} {r' : α' → ο' → Prop} {a : Option α}
    {b : Option ο} {f : α → Option α'} {g : ο → Option ο'} (rel : Option.Rel r a b)
    (next : ∀ x y, r x y → Option.Rel r' (f x) (g y)) :
    Option.Rel r' (a.bind f) (b.bind g) := by
  cases rel with
  | none => exact .none
  | some holds => exact next _ _ holds

/-- Results of computations for the same members, joined. -/
theorem rel_mapM_flatten {f f' : ι → Option (List ο)} {l l' : List ι} (same : SameMembers l l')
    (each : ∀ x ∈ l, Option.Rel SameMembers (f x) (f' x)) :
    Option.Rel SameMembers ((l.mapM f).map List.flatten) ((l'.mapM f').map List.flatten) := by
  have all : (∀ x ∈ l, (f x).isSome = true) ↔ ∀ x ∈ l', (f' x).isSome = true := by
    refine ⟨fun all x mem => ?_, fun all x mem => ?_⟩
    · rw [← isSome_eq_of_rel (each x ((same x).mpr mem))]
      exact all x ((same x).mpr mem)
    · rw [isSome_eq_of_rel (each x mem)]
      exact all x ((same x).mp mem)
  rw [mapM_eq_ite, mapM_eq_ite]
  by_cases succeeds : ∀ x ∈ l, (f x).isSome = true
  · rw [if_pos succeeds, if_pos (all.mp succeeds)]
    refine .some fun y => ?_
    simp only [List.mem_flatten, List.mem_filterMap]
    constructor
    · rintro ⟨ys, ⟨x, mem, eq⟩, inside⟩
      obtain ⟨ys', eq', same'⟩ := exists_of_rel' (eq ▸ each x mem)
      exact ⟨ys', ⟨x, (same x).mp mem, eq'⟩, (same' y).mp inside⟩
    · rintro ⟨ys', ⟨x, mem, eq'⟩, inside⟩
      obtain ⟨ys, eq, same'⟩ := exists_of_rel (eq' ▸ each x ((same x).mpr mem))
      exact ⟨ys, ⟨x, (same x).mpr mem, eq⟩, (same' y).mpr inside⟩
  · rw [if_neg succeeds, if_neg (mt all.mpr succeeds)]
    exact .none

/-- A run over steps that are computed first goes over all of them. -/
theorem foldlM_map_foldl {g : ι → Option (List α)} {step : σ → α → σ} (l : List ι) (s : σ) :
    l.foldlM (fun s x => (g x).map fun steps => steps.foldl step s) s =
      (l.mapM g).map fun steps => steps.flatten.foldl step s := by
  induction l generalizing s with
  | nil => rfl
  | cons x l ih =>
    rw [List.foldlM_cons, List.mapM_cons]
    cases g x with
    | none => rfl
    | some steps =>
      simp only [Option.map_some, Option.bind_eq_bind, Option.bind_some, ih]
      cases l.mapM g with
      | none => rfl
      | some rest => simp

end FoundryCore.Library
