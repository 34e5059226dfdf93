import FoundryCore.Library.First
import FoundryCore.Remappings.Find
import Mathlib.Logic.Relation

/-!
# The directories of a search

The search visits a directory together with the directory that opened its window and its level. A
window below a library directory starts one directory deeper, so only at the library directory
itself do candidates of one level come from several windows.
-/

open Relation

namespace FoundryCore.Remappings

/-! ## Directories below directories -/

/-- The directory that the names lead to. -/
def below (p : PathBuf) (names : List String) : PathBuf := ⟨p.components ++ names.map .normal⟩

section Below

variable {p : PathBuf} {name : String} {names : List String}

@[simp] theorem below_nil (p : PathBuf) : below p [] = p := by simp [below]

@[simp] theorem components_below : (below p names).components = p.components ++ names.map .normal :=
  rfl

@[simp] theorem below_below (names names' : List String) :
    below (below p names) names' = below p (names ++ names') := by
  simp [below]

theorem join_rel_eq_below : p.join (.rel [name]) = below p [name] := by
  simp only [PathBuf.join, PathBuf.isAbsolute_rel, Bool.false_eq_true, if_false]
  split_ifs with empty
  · simp [below, empty, PathBuf.rel]
  · simp [below, PathBuf.rel]

theorem below_injective : Function.Injective (below p) := by
  intro names names' eq
  have components := congrArg PathBuf.components eq
  rw [components_below, components_below, List.append_cancel_left_eq] at components
  exact List.map_injective_iff.mpr (fun _ _ => Component.normal.inj) components

@[simp] theorem fileName_below_singleton : (below p [name]).fileName = some name := by
  simp [PathBuf.fileName, below]

@[simp] theorem parent_below : (below p (names ++ [name])).parent = some (below p names) := by
  simp [PathBuf.parent, below]

theorem endsWith_below_singleton {last : String} :
    endsWith (below p [name]) (.rel [last]) ↔ name = last := by
  rw [endsWith, List.isSuffixOf_iff_suffix]
  constructor
  · rintro ⟨front, eq⟩
    have last := congrArg List.getLast? eq
    simpa [below, PathBuf.rel, eq_comm] using last
  · rintro rfl
    exact ⟨p.components, rfl⟩

theorem stripPrefix_below : (below p names).stripPrefix p = some (.rel names) := by
  simp [PathBuf.stripPrefix, PathBuf.startsWith, below, PathBuf.rel]

end Below

/-- The start of the window of a directory, from the directory that opened it. -/
def window (opener : PathBuf) (names : List String) : PathBuf :=
  if isLibDir opener then below opener (names.take 1) else opener

theorem nextNestedWindow_below (opener : PathBuf) (names : List String) :
    nextNestedWindow opener (below opener names) = window opener names := by
  rw [nextNestedWindow, window]
  cases names with
  | nil => simp
  | cons name names =>
    have deeper : opener ≠ below opener (name :: names) := by
      intro eq
      have := below_injective ((below_nil opener).trans eq)
      cases this
    cases lib : isLibDir opener with
    | false => simp
    | true =>
      -- no name is that of a library directory and `contracts`
      have opens : (!isLibDir (below opener [name]) || !endsWith (below opener [name])
          (.rel ["contracts"])) = true := by
        by_contra both
        simp only [Bool.or_eq_true, Bool.not_eq_true', not_or, Bool.not_eq_false] at both
        obtain rfl := endsWith_below_singleton.mp both.2
        simp [isLibDir] at both
      have next : opener.join ⟨[.normal name]⟩ = below opener [name] := join_rel_eq_below
      simp [deeper, stripPrefix_below, openWindow, next, opens]

/-! ## Merging -/

/-- Whether a candidate ends with `src`. -/
def Candidate.isSource (c : Candidate) : Bool := endsWith c.sourceDir (.rel ["src"])

/-- The candidate that the others of its level are merged to; there is none for `<dep>/src/lib/`. -/
def mergedCandidate (currentDir : PathBuf) (currentLevel : Nat) (windowStart : PathBuf)
    (isInsideNodeModules : Bool) : List Candidate :=
  let sourceDir := if isInsideNodeModules then windowStart else currentDir
  if 0 < currentLevel ∧ sourceDir = windowStart ∧ (isSourceDir sourceDir || isLibDir sourceDir) then
    []
  else [{ windowStart, sourceDir, windowLevel := currentLevel }]

theorem mem_mergedCandidate {currentDir windowStart : PathBuf} {currentLevel : Nat}
    {isInsideNodeModules : Bool} {c : Candidate}
    (mem : c ∈ mergedCandidate currentDir currentLevel windowStart isInsideNodeModules) :
    c = ⟨windowStart, if isInsideNodeModules then windowStart else currentDir, currentLevel⟩ := by
  simp only [mergedCandidate] at mem
  generalize (if isInsideNodeModules then windowStart else currentDir) = sourceDir at mem ⊢
  split_ifs at mem
  · cases mem
  · exact List.mem_singleton.mp mem

theorem mergeOnSameLevel_eq (candidates : List Candidate) (currentDir : PathBuf)
    (currentLevel : Nat) (windowStart : PathBuf) (isInsideNodeModules : Bool) :
    Candidate.mergeOnSameLevel candidates currentDir currentLevel windowStart isInsideNodeModules =
      if (candidates.filter Candidate.isSource).length = 1 then candidates.filter Candidate.isSource
      else (candidates.filter fun c => c.windowLevel ≠ currentLevel) ++
        mergedCandidate currentDir currentLevel windowStart isInsideNodeModules := by
  have single : Candidate.singleSource candidates =
      Library.onlyIdx Candidate.isSource candidates := rfl
  have spec := Library.onlyIdx_spec Candidate.isSource candidates
  rw [Candidate.mergeOnSameLevel, single]
  cases only : Library.onlyIdx Candidate.isSource candidates with
  | some pos =>
    rw [only] at spec
    obtain ⟨c, getEq, filter⟩ := spec
    simp [getEq, filter]
  | none =>
    rw [only] at spec
    rw [if_neg spec]
    simp only [mergedCandidate]
    split_ifs <;> simp

/-! ## Frames -/

/-- A directory that is searched. -/
structure Frame where
  entries : List Entry
  /-- The directory that opened the window. -/
  opener : PathBuf
  /-- The way from there. -/
  names : List String
  level : Nat

namespace Frame

variable (isInsideNodeModules : Bool) (f : Frame)

def currentDir : PathBuf := below f.opener f.names

/-- The start of the window. -/
def windowStart : PathBuf := window f.opener f.names

/-- The candidates found below. -/
def found : List Candidate :=
  searchSubdirs isInsideNodeModules f.entries f.currentDir f.opener f.level

def candidates : List Candidate :=
  findRemappingCandidates isInsideNodeModules f.entries f.currentDir f.opener f.level

/-- The frame of an entry that the search enters. -/
def enter : Entry → List Frame
  | .file _ => []
  | .dir name entries =>
    if isHidden name || noRecurse (below f.currentDir [name]) then []
    else if isLibDir (below f.currentDir [name]) then
      [⟨entries, below f.currentDir [name], [], f.level + 1⟩]
    else [⟨entries, f.opener, f.names ++ [name], f.level⟩]

/-- The frames of the subdirectories that the search enters. -/
def subframes : List Frame := f.entries.flatMap f.enter

/-- The search goes from a directory to a subdirectory. -/
def Sub (f g : Frame) : Prop := g ∈ f.subframes

/-- The candidates are merged here. -/
def Merges : Prop :=
  hasSource f.entries ∨ 1 < ((f.found isInsideNodeModules).filter fun c =>
    c.windowLevel = f.level && c.windowStart = f.windowStart).length

/-- A library directory, from which windows start one directory deeper. -/
def IsBarrier : Prop := isLibDir f.opener ∧ f.names = []

variable {isInsideNodeModules f}

theorem found_eq : f.found isInsideNodeModules =
    f.subframes.flatMap (candidates isInsideNodeModules) := by
  have entry : ∀ e : Entry, searchEntry isInsideNodeModules e f.currentDir f.opener f.level =
      (f.enter e).flatMap (candidates isInsideNodeModules) := by
    intro e
    cases e with
    | file name => rfl
    | dir name entries =>
      rw [searchEntry, enter]
      simp only [join_rel_eq_below]
      split_ifs
      · rfl
      · simp [candidates, findRemappingCandidates, currentDir]
      · simp [candidates, findRemappingCandidates, currentDir]
  rw [found, subframes]
  induction f.entries with
  | nil => rfl
  | cons e rest ih => rw [searchSubdirs, entry, ih, List.flatMap_cons, List.flatMap_append]

theorem mem_subframes {g : Frame} (sub : g ∈ f.subframes) :
    ∃ name entries, .dir name entries ∈ f.entries ∧
      (isLibDir (below f.currentDir [name]) ∧
          g = ⟨entries, below f.currentDir [name], [], f.level + 1⟩ ∨
        g = ⟨entries, f.opener, f.names ++ [name], f.level⟩) := by
  obtain ⟨e, mem, entered⟩ := List.mem_flatMap.mp sub
  cases e with
  | file => cases entered
  | dir name entries =>
    rw [enter] at entered
    split_ifs at entered with skip lib
    · cases entered
    · exact ⟨name, entries, mem, .inl ⟨lib, List.mem_singleton.mp entered⟩⟩
    · exact ⟨name, entries, mem, .inr (List.mem_singleton.mp entered)⟩

theorem induction {P : Frame → Prop} (step : ∀ f, (∀ g ∈ f.subframes, P g) → P f) (f : Frame) :
    P f := by
  have smaller : ∀ {f g : Frame}, g ∈ f.subframes → sizeOf g.entries < sizeOf f.entries := by
    intro f g sub
    obtain ⟨name, entries, mem, which⟩ := mem_subframes sub
    have same : g.entries = entries := by rcases which with ⟨-, rfl⟩ | rfl <;> rfl
    have lt := List.sizeOf_lt_of_mem mem
    simp only [Entry.dir.sizeOf_spec] at lt
    rw [same]
    omega
  induction f using (measure fun f : Frame => sizeOf f.entries).wf.induction with
  | h f ih => exact step f fun g sub => ih g (smaller sub)

/-- What holds of every directory that the search visits from here on. -/
theorem forall_visited_iff {P : Frame → Prop} : (∀ g, ReflTransGen Sub f g → P g) ↔
    P f ∧ ∀ g ∈ f.subframes, ∀ h, ReflTransGen Sub g h → P h := by
  constructor
  · intro all
    exact ⟨all f .refl, fun g sub h path => all h (.head sub path)⟩
  · rintro ⟨here, below⟩ g path
    rcases ReflTransGen.cases_head path with rfl | ⟨h, sub, path⟩
    · exact here
    · exact below h sub g path

theorem candidates_of_merges (merges : f.Merges isInsideNodeModules) :
    f.candidates isInsideNodeModules = Candidate.mergeOnSameLevel (f.found isInsideNodeModules)
      f.currentDir f.level f.windowStart isInsideNodeModules := by
  have start : nextNestedWindow f.opener f.currentDir = f.windowStart :=
    nextNestedWindow_below f.opener f.names
  rw [candidates, findRemappingCandidates, adjustCandidates, if_pos, start]
  · rfl
  · simpa [Merges, start, found] using merges

theorem candidates_of_not_merges (merges : ¬ f.Merges isInsideNodeModules) :
    f.candidates isInsideNodeModules = (f.found isInsideNodeModules).modify
      ((f.found isInsideNodeModules).findIdx fun c => c.windowLevel = f.level)
      (adjustSource f.opener f.windowStart) := by
  have start : nextNestedWindow f.opener f.currentDir = f.windowStart :=
    nextNestedWindow_below f.opener f.names
  rw [candidates, findRemappingCandidates, adjustCandidates, if_neg, start]
  · rfl
  · simpa [Merges, start, found] using merges

/-- Where a candidate of a directory comes from. -/
theorem mem_candidates {c : Candidate} (mem : c ∈ f.candidates isInsideNodeModules) :
    c ∈ f.found isInsideNodeModules ∨
    (f.Merges isInsideNodeModules ∧ c = ⟨f.windowStart,
      if isInsideNodeModules then f.windowStart else f.currentDir, f.level⟩) ∨
    (¬ f.Merges isInsideNodeModules ∧ ∃ c' ∈ f.found isInsideNodeModules,
      (f.found isInsideNodeModules).find? (fun c => c.windowLevel = f.level) = some c' ∧
        c = adjustSource f.opener f.windowStart c') := by
  by_cases merges : f.Merges isInsideNodeModules
  · rw [candidates_of_merges merges, mergeOnSameLevel_eq] at mem
    split_ifs at mem
    · exact .inl (List.mem_filter.mp mem).1
    · rcases List.mem_append.mp mem with kept | merged
      · exact .inl (List.mem_filter.mp kept).1
      · exact .inr (.inl ⟨merges, mem_mergedCandidate merged⟩)
  · rw [candidates_of_not_merges merges, List.mem_iff_getElem?] at mem
    obtain ⟨i, getEq⟩ := mem
    rw [List.getElem?_modify] at getEq
    obtain ⟨c', getEq', eq⟩ := Option.map_eq_some_iff.mp getEq
    have mem' := List.mem_of_getElem? getEq'
    by_cases first : List.findIdx (fun c => decide (c.windowLevel = f.level))
        (f.found isInsideNodeModules) = i
    · refine .inr (.inr ⟨merges, c', mem', ?_, ?_⟩)
      · rw [List.find?_eq_getElem?_findIdx, first, getEq']
      · rw [← eq, if_pos first]
    · rw [if_neg first] at eq
      exact .inl (eq ▸ mem')

theorem adjustSource_window (opener windowStart : PathBuf) (c : Candidate) :
    (adjustSource opener windowStart c).windowStart = c.windowStart ∧
      (adjustSource opener windowStart c).windowLevel = c.windowLevel := by
  rw [adjustSource]
  split_ifs <;> exact ⟨rfl, rfl⟩

/-- The candidate belongs to the level of the directory or to a deeper one; if to the level, to the
window of the directory or of one below. -/
def InWindow (f : Frame) (c : Candidate) : Prop :=
  f.level ≤ c.windowLevel ∧ (c.windowLevel = f.level →
    ∃ ns, c.windowStart = window f.opener (f.names ++ ns))

/-- Those found belong to the window of a subdirectory. -/
theorem inWindow_of_subframes {c : Candidate}
    (inner : ∀ g ∈ f.subframes, ∀ c ∈ g.candidates isInsideNodeModules, g.InWindow c)
    (mem : c ∈ f.found isInsideNodeModules) : f.level ≤ c.windowLevel ∧
      (c.windowLevel = f.level →
        ∃ n ns, c.windowStart = window f.opener (f.names ++ n :: ns)) := by
  rw [found_eq] at mem
  obtain ⟨g, sub, mem⟩ := List.mem_flatMap.mp mem
  obtain ⟨le, start⟩ := inner g sub c mem
  obtain ⟨name, entries, -, ⟨-, rfl⟩ | rfl⟩ := mem_subframes sub
  · simp only at le
    exact ⟨by omega, fun level => by omega⟩
  · refine ⟨le, fun level => ?_⟩
    obtain ⟨ns, eq⟩ := start level
    exact ⟨name, ns, by simpa using eq⟩

theorem inWindow (f : Frame) : ∀ c ∈ f.candidates isInsideNodeModules, f.InWindow c := by
  induction f using induction with
  | step f ih =>
    have found : ∀ c ∈ f.found isInsideNodeModules, f.InWindow c := by
      intro c mem
      obtain ⟨le, start⟩ := inWindow_of_subframes ih mem
      refine ⟨le, fun level => ?_⟩
      obtain ⟨n, ns, eq⟩ := start level
      exact ⟨n :: ns, eq⟩
    intro c mem
    rcases mem_candidates mem with below | ⟨-, rfl⟩ | ⟨-, c', below, -, rfl⟩
    · exact found c below
    · exact ⟨Nat.le_refl _, fun _ => ⟨[], by simp [windowStart]⟩⟩
    · obtain ⟨same, level⟩ := adjustSource_window f.opener f.windowStart c'
      rw [InWindow, same, level]
      exact found c' below

theorem window_of_mem_found {c : Candidate} (mem : c ∈ f.found isInsideNodeModules)
    (level : c.windowLevel = f.level) :
    ∃ n ns, c.windowStart = window f.opener (f.names ++ n :: ns) :=
  (inWindow_of_subframes (fun g _ => inWindow g) mem).2 level

/-- Away from library directories, the candidates of the level share the window. -/
theorem windowStart_of_mem_found (notBarrier : ¬ f.IsBarrier) {c : Candidate}
    (mem : c ∈ f.found isInsideNodeModules) (level : c.windowLevel = f.level) :
    c.windowStart = f.windowStart := by
  obtain ⟨n, ns, eq⟩ := window_of_mem_found mem level
  rw [eq, windowStart, window, window]
  split_ifs with lib
  · have deeper : f.names ≠ [] := fun empty => notBarrier ⟨lib, empty⟩
    obtain ⟨name, names, eq⟩ := List.exists_cons_of_ne_nil deeper
    simp [eq]
  · rfl

/-- So where they are not merged there is one at most. -/
theorem length_le_one (notBarrier : ¬ f.IsBarrier) (merges : ¬ f.Merges isInsideNodeModules) :
    ((f.found isInsideNodeModules).filter fun c => c.windowLevel = f.level).length ≤ 1 := by
  have few : ¬ 1 < ((f.found isInsideNodeModules).filter fun c =>
      c.windowLevel = f.level && c.windowStart = f.windowStart).length := fun many =>
    merges (.inr many)
  have same : (f.found isInsideNodeModules).filter (fun c => c.windowLevel = f.level) =
      (f.found isInsideNodeModules).filter fun c =>
        c.windowLevel = f.level && c.windowStart = f.windowStart := by
    refine List.filter_congr fun c mem => ?_
    by_cases level : c.windowLevel = f.level
    · simp [level, windowStart_of_mem_found notBarrier mem level]
    · simp [level]
  rw [same]
  omega

end Frame

end FoundryCore.Remappings
