import Mathlib.Data.List.MinMax

/-!
# The last best element of a list

Among the elements with a property, the last one of the highest rank.
-/

namespace FoundryCore.Library

variable {ι ρ : Type*} [LinearOrder ρ]

/-- The last element of the highest rank among those with a property. -/
def lastBest (p : ι → Bool) (rank : ι → ρ) (l : List ι) : Option ι :=
  (l.filter p).reverse.argmax rank

variable {p : ι → Bool} {rank : ι → ρ} {l : List ι} {x : ι}

theorem lastBest_eq_none : lastBest p rank l = none ↔ ∀ y ∈ l, p y = false := by
  simp [lastBest]

/-- What an element at the end changes. -/
theorem lastBest_concat : lastBest p rank (l ++ [x]) =
    if p x then
      (lastBest p rank l).elim (some x) fun y => if rank x < rank y then some y else some x
    else lastBest p rank l := by
  rw [lastBest, List.filter_append, List.reverse_append]
  by_cases holds : p x
  · simp only [holds, List.filter_cons_of_pos, List.filter_nil, List.reverse_singleton,
      List.singleton_append, List.argmax_cons, if_true, lastBest]
    cases (l.filter p).reverse.argmax rank <;> rfl
  · simp [holds, lastBest]

/-- What an element at the beginning changes. -/
theorem lastBest_cons : lastBest p rank (x :: l) =
    if p x then
      (lastBest p rank l).elim (some x) fun y => if rank y < rank x then some x else some y
    else lastBest p rank l := by
  by_cases holds : p x
  · rw [lastBest, List.filter_cons_of_pos holds, List.reverse_cons, List.argmax_concat,
      if_pos holds, lastBest]
    cases (l.filter p).reverse.argmax rank <;> rfl
  · simp [holds, lastBest]

theorem holds_of_lastBest (found : lastBest p rank l = some x) : x ∈ l ∧ p x = true := by
  simpa [lastBest] using List.argmax_mem (Option.mem_def.mpr found)

theorem rank_le_of_lastBest (found : lastBest p rank l = some x) {y : ι} (mem : y ∈ l)
    (holds : p y = true) : rank y ≤ rank x :=
  List.le_of_mem_argmax (by simp [mem, holds]) (Option.mem_def.mpr found)

theorem lastBest_append {before after : List ι} (holds : p x = true)
    (least : ∀ y ∈ before, p y = true → rank y ≤ rank x)
    (less : ∀ y ∈ after, p y = true → rank y < rank x) :
    lastBest p rank (before ++ x :: after) = some x := by
  induction after using List.reverseRecOn with
  | nil =>
    rw [lastBest_concat, if_pos holds]
    cases found : lastBest p rank before with
    | none => rfl
    | some y =>
      obtain ⟨mem, holds'⟩ := holds_of_lastBest found
      simp [not_lt.mpr (least y mem holds')]
  | append_singleton after z ih =>
    have split : before ++ x :: (after ++ [z]) = (before ++ x :: after) ++ [z] := by simp
    rw [split, lastBest_concat, ih fun y mem => less y (by simp [mem])]
    by_cases holds' : p z
    · simp [holds', less z (by simp) holds']
    · simp [holds']

/-- No element with the property ranks higher, and none of those behind it ranks as high. -/
theorem lastBest_eq_some : lastBest p rank l = some x ↔ p x = true ∧
    ∃ before after, l = before ++ x :: after ∧ (∀ y ∈ before, p y = true → rank y ≤ rank x) ∧
      ∀ y ∈ after, p y = true → rank y < rank x := by
  constructor
  · intro found
    refine ⟨(holds_of_lastBest found).2, ?_⟩
    induction l using List.reverseRecOn with
    | nil => simp [lastBest] at found
    | append_singleton l z ih =>
      have least := fun y mem => rank_le_of_lastBest found (y := y) (List.mem_append_left _ mem)
      rw [lastBest_concat] at found
      by_cases last : x = z
      · exact ⟨l, [], by rw [last], least, by simp⟩
      · have earlier : lastBest p rank l = some x ∧ (p z = true → rank z < rank x) := by
          cases found' : lastBest p rank l with
          | none =>
            by_cases holds : p z <;> simp [found', holds] at found
            exact absurd found.symm last
          | some y => by_cases holds : p z <;> by_cases less : rank z < rank y <;> grind
        obtain ⟨before, after, split, -, less⟩ := ih earlier.1
        refine ⟨before, after ++ [z], by rw [split, List.append_assoc, List.cons_append],
          fun y mem => least y (by simp [split, mem]), fun y mem holds => ?_⟩
        rcases List.mem_append.mp mem with mem | mem
        · exact less y mem holds
        · rw [List.mem_singleton.mp mem] at holds ⊢
          exact earlier.2 holds
  · rintro ⟨holds, before, after, rfl, least, less⟩
    exact lastBest_append holds least less

end FoundryCore.Library
