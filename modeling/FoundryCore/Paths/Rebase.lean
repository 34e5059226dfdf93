import FoundryCore.Paths.Clean

/-!
# Rebasing paths

A path is made relative to a directory by its components only: those it shares with the directory
are left out, and there is one `..` for each component that the directory has beyond them. If the
directory has only names, it leads from there to where the path leads.
-/

namespace FoundryCore

/-- Removes the leading components that are those of the base, and goes up from there as often as
there are components left in the base. -/
def rebaseComponents : List Component → List Component → PathBuf
  | _, [] => ⟨[]⟩
  | [], path => ⟨path⟩
  | baseComponent :: base, pathComponent :: path =>
    if pathComponent = baseComponent then rebaseComponents base path
    else (PathBuf.mk (List.replicate (base.length + 1) .parentDir)).join ⟨pathComponent :: path⟩

/-- Rebases the given path to the base directory lexically. -/
def rebasePath (base path : PathBuf) : PathBuf := rebaseComponents base.components path.components

section Rebase

variable {L : Type*} (places : Places L)

/-- Going up as often as there are names leads back. -/
theorem foldl_up (names : List String) (place : L) :
    (List.replicate names.length .parentDir).foldl places.step
      ((names.map .normal).foldl places.step place) = place := by
  induction names using List.reverseRecOn with
  | nil => rfl
  | append_singleton names name ih =>
    simpa [List.replicate_succ, Places.step, places.up_down] using ih

theorem join_parents {n : Nat} {path : List Component}
    (plain : ∀ c ∈ path, c ≠ .rootDir ∧ c ≠ .curDir) (nonempty : path ≠ []) :
    (PathBuf.mk (List.replicate (n + 1) .parentDir)).join ⟨path⟩ =
      ⟨List.replicate (n + 1) .parentDir ++ path⟩ := by
  obtain ⟨c, rest, rfl⟩ := List.exists_cons_of_ne_nil nonempty
  have kept : (c :: rest).filter (· ≠ .curDir) = c :: rest :=
    List.filter_eq_self.mpr fun c mem => by simpa using (plain c mem).2
  have relative : (PathBuf.mk (c :: rest)).isAbsolute = false := by
    simpa [PathBuf.isAbsolute] using (plain c (.head _)).1
  simp only [PathBuf.join, relative, kept]
  simp

/-- From below the names it leads to where the path leads from above them. -/
theorem exists_rebaseComponents (names : List String) {path : List Component}
    (plain : ∀ c ∈ path, c ≠ .rootDir ∧ c ≠ .curDir)
    (notAbove : path <+: names.map .normal → path = names.map .normal) :
    ∃ rebased, rebaseComponents (names.map .normal) path = ⟨rebased⟩ ∧
      (∀ c ∈ rebased, c ≠ .rootDir ∧ c ≠ .curDir) ∧
      ∀ place, rebased.foldl places.step ((names.map .normal).foldl places.step place) =
        path.foldl places.step place := by
  induction names generalizing path with
  | nil =>
    refine ⟨path, ?_, plain, fun place => rfl⟩
    cases path <;> rfl
  | cons name names ih =>
    cases path with
    | nil => exact absurd (notAbove List.nil_prefix) (by simp)
    | cons c rest =>
      by_cases same : c = .normal name
      · have notAbove' : rest <+: names.map .normal → rest = names.map .normal := fun above => by
          have whole := notAbove (by simpa [same] using above)
          simpa [same] using whole
        obtain ⟨rebased, eq, plain', leads⟩ := ih (fun c mem => plain c (.tail _ mem)) notAbove'
        refine ⟨rebased, ?_, plain', fun place => ?_⟩
        · rw [List.map_cons, rebaseComponents, if_pos same, eq]
        · rw [List.map_cons, List.foldl_cons, List.foldl_cons, leads, same]
      · refine ⟨List.replicate (names.length + 1) .parentDir ++ c :: rest, ?_, ?_, fun place => ?_⟩
        · rw [List.map_cons, rebaseComponents, if_neg same, List.length_map]
          exact join_parents plain (by simp)
        · intro c' mem
          rcases List.mem_append.mp mem with up | mem
          · simp [List.eq_of_mem_replicate up]
          · exact plain c' mem
        · have back := foldl_up places (name :: names) place
          rw [List.length_cons] at back
          rw [List.foldl_append, back]

end Rebase

/-- A rebased path leads from the base to where the path leads. -/
theorem cleanSolidityPath_join_rebasePath (names : List String) {path : PathBuf}
    (rooted : path.Rooted)
    (notAbove : path.components <+: (PathBuf.abs names).components → path = .abs names) :
    cleanSolidityPath ((PathBuf.abs names).join (rebasePath (.abs names) path)) =
      cleanSolidityPath path := by
  obtain ⟨rest, eq, plain⟩ := PathBuf.rooted_iff.mp rooted
  obtain ⟨rebased, rebase, plain', leads⟩ :=
    exists_rebaseComponents stackPlaces names plain fun above => by
      have whole := notAbove (by simpa [eq, PathBuf.abs] using above)
      simpa [whole, PathBuf.abs] using eq.symm
  have wellFormed : (PathBuf.mk rebased).WellFormed := fun c mem =>
    plain' c (List.mem_of_mem_tail mem)
  have rebase : rebasePath (.abs names) path = ⟨rebased⟩ := by
    rw [rebasePath, eq, PathBuf.abs, rebaseComponents, if_pos rfl, rebase]
  rw [rebase]
  refine cleanSolidityPath_eq_of_resolve ((PathBuf.rooted_abs names).join wellFormed) rooted ?_
  have kept : rebased.filter (· ≠ .curDir) = rebased :=
    List.filter_eq_self.mpr fun c mem => by simpa using (plain' c mem).2
  have relative : (PathBuf.mk rebased).isAbsolute = false := by
    cases rebased with
    | nil => rfl
    | cons c rebased => simpa [PathBuf.isAbsolute] using (plain' c (.head _)).1
  have joined : ((PathBuf.abs names).join ⟨rebased⟩).components =
      .rootDir :: (names.map .normal ++ rebased) := by
    simp only [PathBuf.join, relative, kept]
    simp [PathBuf.abs]
  rw [Places.resolve, Places.resolve, joined, eq, List.foldl_cons, List.foldl_cons,
    List.foldl_append]
  exact leads _

/-- From `/home/verif` to `/home/verif/../remapped/Parent.sol`. -/
theorem cleanSolidityPath_join_rebasePath_verif :
    cleanSolidityPath ((PathBuf.abs ["home", "verif"]).join
        (rebasePath (.abs ["home", "verif"]) (.ofString "/home/verif/../remapped/Parent.sol"))) =
      cleanSolidityPath (.ofString "/home/verif/../remapped/Parent.sol") :=
  cleanSolidityPath_join_rebasePath _
    ⟨by decide +kernel, PathBuf.wellFormed_ofString _⟩ (by decide +kernel)

end FoundryCore
