import Mathlib.Data.Finset.Basic

/-!
# Filtering candidates along a list of requirements

Candidates are filtered by the requirements met on the way, and the walk stops at the first place
that leaves none.
-/

namespace FoundryCore.Library

variable {ι ρ κ : Type} (requirement : ι → Option ρ) (meets : ρ → κ → Bool)

/-- Filters the candidates by the requirements of a list of places, and stops at the place that
leaves none. -/
def retainAlong : List ι → List κ → Except ι (List κ)
  | [], candidates => .ok candidates
  | place :: places, candidates =>
    match requirement place with
    | none => retainAlong places candidates
    | some req =>
      let candidates := candidates.filter (meets req)
      if candidates.isEmpty then .error place else retainAlong places candidates

/-- The candidates that meet the requirements of all places. -/
def meetingAll (places : List ι) (candidates : List κ) : List κ :=
  candidates.filter fun v => places.all fun place => (requirement place).all (meets · v)

variable {requirement meets} {places : List ι} {candidates : List κ}

theorem mem_meetingAll {v : κ} : v ∈ meetingAll requirement meets places candidates ↔
    v ∈ candidates ∧
      ∀ place ∈ places, ∀ req, requirement place = some req → meets req v = true := by
  simp only [meetingAll, List.mem_filter, List.all_eq_true, Option.all_eq_true]

theorem meetingAll_nil : meetingAll requirement meets places [] = [] := rfl

theorem meetingAll_cons {place : ι} :
    meetingAll requirement meets (place :: places) candidates =
      meetingAll requirement meets places
        (candidates.filter fun v => (requirement place).all (meets · v)) := by
  simp only [meetingAll, List.filter_filter, List.all_cons]
  exact List.filter_congr fun v _ => Bool.and_comm _ _

variable (requirement meets) in
/-- The walk ends with the candidates that meet all requirements, or fails if there are none. -/
theorem retainAlong_spec (places : List ι) (nonempty : candidates ≠ []) :
    let rest := meetingAll requirement meets places candidates
    (rest ≠ [] ∧ retainAlong requirement meets places candidates = .ok rest) ∨
      (rest = [] ∧ ∃ failed,
        retainAlong requirement meets places candidates = .error failed) := by
  induction places generalizing candidates with
  | nil =>
    have all : meetingAll requirement meets [] candidates = candidates := by
      simp [meetingAll]
    simp only [all]
    exact .inl ⟨nonempty, rfl⟩
  | cons place places ih =>
    simp only [meetingAll_cons, retainAlong]
    cases required : requirement place with
    | none =>
      have keep : (candidates.filter fun v => (none : Option ρ).all (meets · v)) = candidates := by
        simp
      rw [keep]
      exact ih nonempty
    | some req =>
      simp only [Option.all_some]
      split_ifs with empty
      · rw [List.isEmpty_iff] at empty
        rw [empty]
        exact .inr ⟨meetingAll_nil, place, rfl⟩
      · exact ih (by simpa using empty)

end FoundryCore.Library
