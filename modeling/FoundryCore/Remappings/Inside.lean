import FoundryCore.Remappings.Combine

/-!
# Remappings point into their libraries

The path of a candidate lies in the directory that opened its window, and leads to a source file,
unless the only candidate of a library is moved up to the directory of all libraries. That happens
in a library directory, and where no source directory lies between the library directory and the
candidate.
-/

open Relation Std

namespace FoundryCore.Remappings

/-- The way to a Solidity file. -/
inductive SourceAt : List Entry → List String → Prop
  | file {entries : List Entry} {name : String} (mem : .file name ∈ entries)
    (visible : isHidden name = false) (sol : extension name = some "sol".toList) :
    SourceAt entries [name]
  | dir {entries sub : List Entry} {name : String} {names : List String}
    (mem : .dir name sub ∈ entries) (inner : SourceAt sub names) : SourceAt entries (name :: names)

theorem exists_sourceAt {entries : List Entry} (source : hasSource entries) :
    ∃ name, SourceAt entries [name] := by
  obtain ⟨e, mem, found⟩ := List.any_eq_true.mp source
  cases e with
  | file name =>
    simp only [Bool.and_eq_true, Bool.not_eq_true', decide_eq_true_eq] at found
    exact ⟨name, .file mem found.1 found.2⟩
  | dir name sub => cases found

/-- There is a source file below the path. -/
def HasSourceBelow (dir : PathBuf) (entries : List Entry) (path : PathBuf) : Prop :=
  ∃ names file, SourceAt entries (names ++ [file]) ∧
    path.components <+: (below dir names).components

section

variable {dir path path' : PathBuf} {entries : List Entry}

theorem hasSourceBelow_self (source : hasSource entries) : HasSourceBelow dir entries dir := by
  obtain ⟨name, getEq⟩ := exists_sourceAt source
  exact ⟨[], name, getEq, by simp⟩

theorem HasSourceBelow.of_prefix (source : HasSourceBelow dir entries path)
    (above : path'.components <+: path.components) : HasSourceBelow dir entries path' := by
  obtain ⟨names, file, getEq, above'⟩ := source
  exact ⟨names, file, getEq, above.trans above'⟩

theorem HasSourceBelow.of_prefix_dir (source : HasSourceBelow dir entries path)
    (above : path'.components <+: dir.components) : HasSourceBelow dir entries path' := by
  obtain ⟨names, file, getEq, -⟩ := source
  exact ⟨names, file, getEq, above.trans (List.prefix_append ..)⟩

end

/-- The path lies in the directory that opened the window. -/
def Candidate.Inside (c : Candidate) : Prop := ∃ names, c.sourceDir = below c.windowStart names

/-! ## Going up to a source directory -/

theorem components_parent {p parent : PathBuf} (up : p.parent = some parent) :
    parent.components <+: p.components := by
  rw [PathBuf.parent] at up
  split at up
  · cases up
  · cases up
  · obtain rfl := Option.some.inj up
    exact List.dropLast_prefix _

theorem climb_spec (root : PathBuf) (fuel : Nat) (p : PathBuf) :
    climb root fuel p = root ∨ (climb root fuel p).components <+: p.components := by
  induction fuel generalizing p with
  | zero => exact .inl rfl
  | succ fuel ih =>
    rw [climb]
    cases up : p.parent with
    | none => exact .inl rfl
    | some parent =>
      have above := components_parent up
      simp only
      split_ifs
      · exact .inl rfl
      · exact .inr above
      · exact (ih parent).imp_right fun higher => higher.trans above

/-- From below the root, the way up ends at the root or at a source directory below it. -/
theorem climb_below (root : PathBuf) (fuel : Nat) {names : List String} (deeper : names ≠ []) :
    climb root fuel (below root names) = root ∨
      ∃ up, up ≠ [] ∧ up <+: names ∧ climb root fuel (below root names) = below root up := by
  induction fuel generalizing names with
  | zero => exact .inl rfl
  | succ fuel ih =>
    obtain ⟨names, last, rfl⟩ := (List.eq_nil_or_concat' names).resolve_left deeper
    rw [climb, parent_below]
    simp only
    split_ifs with top source
    · exact .inl rfl
    · refine .inr ⟨names, ?_, List.prefix_append names [last], rfl⟩
      rintro rfl
      exact top (below_nil root)
    · have more : names ≠ [] := by
        rintro rfl
        exact top (below_nil root)
      refine (ih more).imp_right ?_
      rintro ⟨up, someEq, higher, eq⟩
      exact ⟨up, someEq, higher.trans (List.prefix_append names [last]), eq⟩

/-! ## Inside the window -/

namespace Frame

variable {isInsideNodeModules : Bool} {f : Frame}

/-- The first candidate of the level is moved up to the library directory. -/
def Strays (isInsideNodeModules : Bool) (f : Frame) : Prop :=
  ¬ f.Merges isInsideNodeModules ∧ isLibDir f.opener ∧
    ∃ c ∈ (f.found isInsideNodeModules).find? fun c => c.windowLevel = f.level,
      if 1 < dirDistance c.windowStart c.sourceDir ∧ c.sourceDirEndsWithJsSource then f.names = []
      else isSourceDir c.sourceDir = false ∧ c.sourceDir ≠ c.windowStart ∧
        lastNestedSourceDir f.opener c.sourceDir = f.opener

instance : Decidable (f.Strays isInsideNodeModules) := by
  unfold Strays Merges
  infer_instance

/-- The candidates of the level are not all replaced here. -/
def PassesOn (isInsideNodeModules : Bool) (f : Frame) : Prop :=
  ¬ f.Merges isInsideNodeModules ∨
    ((f.found isInsideNodeModules).filter Candidate.isSource).length = 1

/-- A subdirectory in the same window, whose candidates are not all replaced. -/
def Open (isInsideNodeModules : Bool) (f g : Frame) : Prop :=
  Sub f g ∧ g.level = f.level ∧ f.PassesOn isInsideNodeModules

theorem exists_currentDir_eq (f : Frame) : ∃ names, f.currentDir = below f.windowStart names := by
  rw [currentDir, windowStart, window]
  split_ifs
  · exact ⟨f.names.drop 1, by rw [below_below, List.take_append_drop]⟩
  · exact ⟨f.names, rfl⟩

theorem lastNestedSourceDir_eq {opener dir : PathBuf} (source : isSourceDir dir = false) :
    lastNestedSourceDir opener dir = climb opener dir.components.length dir := by
  rw [lastNestedSourceDir, source]
  rfl

/-- The only candidate of a directory stays in its window, unless it strays. -/
theorem inside_adjustSource {c : Candidate} (merges : ¬ f.Merges isInsideNodeModules)
    (steady : ¬ f.Strays isInsideNodeModules) (mem : c ∈ f.found isInsideNodeModules)
    (first : (f.found isInsideNodeModules).find? (fun c => c.windowLevel = f.level) = some c)
    (level : c.windowLevel = f.level) (inside : c.Inside) :
    (adjustSource f.opener f.windowStart c).Inside := by
  rw [adjustSource]
  split_ifs with js fallback
  · have notBarrier : ¬ f.IsBarrier := fun barrier =>
      steady ⟨merges, barrier.1, c, first, by rw [if_pos js]; exact barrier.2⟩
    exact ⟨[], by simpa using (windowStart_of_mem_found notBarrier mem level).symm⟩
  · simp only [Bool.and_eq_true, Bool.not_eq_true', decide_eq_true_eq] at fallback
    obtain ⟨source, deeper⟩ := fallback
    obtain ⟨names, eq⟩ := inside
    obtain ⟨n, ns, start⟩ := window_of_mem_found mem level
    rw [window] at start
    split_ifs at start with lib
    · obtain ⟨name, start⟩ : ∃ name, c.windowStart = below f.opener [name] := by
        cases top : f.names <;> simp [top] at start <;> exact ⟨_, start⟩
      have stays : lastNestedSourceDir f.opener c.sourceDir ≠ f.opener := fun up =>
        steady ⟨merges, lib, c, first, by rw [if_neg js]; exact ⟨source, deeper, up⟩⟩
      rw [start, below_below] at eq
      rw [lastNestedSourceDir_eq source, eq] at stays ⊢
      obtain top | ⟨up, nonempty, higher, getEq⟩ := climb_below f.opener
        (below f.opener ([name] ++ names)).components.length (by simp : [name] ++ names ≠ [])
      · exact absurd top stays
      · rw [Candidate.Inside, getEq, start]
        obtain ⟨name', up, rfl⟩ := List.exists_cons_of_ne_nil nonempty
        obtain ⟨rfl, -⟩ := List.cons_prefix_cons.mp higher
        exact ⟨up, by simp⟩
    · have more : names ≠ [] := by
        rintro rfl
        exact deeper (by simpa using eq)
      rw [start] at eq
      rw [lastNestedSourceDir_eq source, eq, Candidate.Inside, start]
      obtain top | ⟨up, -, -, getEq⟩ := climb_below f.opener
        (below f.opener names).components.length more
      · exact ⟨[], by simpa using top⟩
      · exact ⟨up, getEq⟩
  · exact inside

theorem inside_of_level (f : Frame)
    (steady : ∀ g, ReflTransGen (Open isInsideNodeModules) f g → ¬ g.Strays isInsideNodeModules) :
    ∀ c ∈ f.candidates isInsideNodeModules, c.windowLevel = f.level → c.Inside := by
  induction f using Frame.induction with
  | step f ih =>
    have found : f.PassesOn isInsideNodeModules → ∀ c ∈ f.found isInsideNodeModules,
        c.windowLevel = f.level → c.Inside := by
      intro passes c mem level
      rw [found_eq] at mem
      obtain ⟨g, sub, mem⟩ := List.mem_flatMap.mp mem
      have same : g.level = f.level := by
        have le := (inWindow g c mem).1
        obtain ⟨name, entries, -, ⟨-, rfl⟩ | rfl⟩ := mem_subframes sub
        · simp only at le
          omega
        · rfl
      exact ih g sub (fun h path => steady h (.head ⟨sub, same, passes⟩ path)) c mem
        (level.trans same.symm)
    intro c mem level
    by_cases merges : f.Merges isInsideNodeModules
    · rw [candidates_of_merges merges, mergeOnSameLevel_eq] at mem
      split_ifs at mem with single
      · exact found (.inr single) c (List.mem_filter.mp mem).1 level
      · rcases List.mem_append.mp mem with kept | merged
        · simp [level] at kept
        · obtain rfl := mem_mergedCandidate merged
          obtain ⟨names, eq⟩ := exists_currentDir_eq f
          cases isInsideNodeModules with
          | true => exact ⟨[], by simp⟩
          | false => exact ⟨names, eq⟩
    · rcases mem_candidates mem with below | ⟨merges', -⟩ | ⟨-, c', below, first, rfl⟩
      · exact found (.inl merges) c below level
      · exact absurd merges' merges
      · have level' : c'.windowLevel = f.level := by simpa using List.find?_some first
        exact inside_adjustSource merges (steady f .refl) below first level'
          (found (.inl merges) c' below level')

/-- Nothing strays in the windows that open from here on. -/
def Steady (isInsideNodeModules : Bool) (f : Frame) : Prop :=
  ∀ w, ReflTransGen Sub f w → w.names = [] →
    ∀ g, ReflTransGen (Open isInsideNodeModules) w g → ¬ g.Strays isInsideNodeModules

theorem inside_of_deeper (f : Frame) (steady : f.Steady isInsideNodeModules) :
    ∀ c ∈ f.candidates isInsideNodeModules, c.windowLevel ≠ f.level → c.Inside := by
  induction f using Frame.induction with
  | step f ih =>
    intro c mem deeper
    have found : c ∈ f.found isInsideNodeModules := by
      rcases mem_candidates mem with found | ⟨-, rfl⟩ | ⟨-, c', -, first, rfl⟩
      · exact found
      · exact absurd rfl deeper
      · rw [(adjustSource_window _ _ c').2] at deeper
        exact absurd (by simpa using List.find?_some first) deeper
    rw [found_eq] at found
    obtain ⟨g, sub, mem⟩ := List.mem_flatMap.mp found
    by_cases level : c.windowLevel = g.level
    · obtain ⟨name, entries, -, ⟨-, rfl⟩ | rfl⟩ := mem_subframes sub
      · exact inside_of_level _ (steady _ (.single sub) rfl) c mem level
      · exact absurd level deeper
    · exact ih g sub (fun w path => steady w (.head sub path)) c mem level

theorem inside (head : f.names = []) (steady : f.Steady isInsideNodeModules) :
    ∀ c ∈ f.candidates isInsideNodeModules, c.Inside := by
  intro c mem
  by_cases level : c.windowLevel = f.level
  · exact inside_of_level f (steady f .refl head) c mem level
  · exact inside_of_deeper f steady c mem level

theorem exists_window_eq (opener : PathBuf) (names : List String) :
    ∃ names', window opener names = below opener names' := by
  rw [window]
  split_ifs
  · exact ⟨_, rfl⟩
  · exact ⟨[], (below_nil _).symm⟩

theorem exists_windowStart_eq (f : Frame) : ∀ c ∈ f.candidates isInsideNodeModules,
    ∃ names, c.windowStart = below f.opener names := by
  induction f using Frame.induction with
  | step f ih =>
    have found : ∀ c ∈ f.found isInsideNodeModules,
        ∃ names, c.windowStart = below f.opener names := by
      intro c mem
      rw [found_eq] at mem
      obtain ⟨g, sub, mem⟩ := List.mem_flatMap.mp mem
      obtain ⟨names, eq⟩ := ih g sub c mem
      obtain ⟨name, entries, -, ⟨-, rfl⟩ | rfl⟩ := mem_subframes sub
      · exact ⟨_, eq.trans (by rw [currentDir, below_below, below_below])⟩
      · exact ⟨names, eq⟩
    intro c mem
    rcases mem_candidates mem with below | ⟨-, rfl⟩ | ⟨-, c', below, -, rfl⟩
    · exact found c below
    · exact exists_window_eq f.opener f.names
    · rw [(adjustSource_window _ _ c').1]
      exact found c' below

/-! ## Source files -/

theorem hasSourceBelow_of_subframe {g : Frame} (sub : g ∈ f.subframes) {path : PathBuf}
    (source : HasSourceBelow g.currentDir g.entries path) :
    HasSourceBelow f.currentDir f.entries path := by
  obtain ⟨names, file, getEq, above⟩ := source
  obtain ⟨name, entries, mem, which⟩ := mem_subframes sub
  have dir : g.currentDir = below f.currentDir [name] := by
    rcases which with ⟨-, rfl⟩ | rfl
    · exact below_nil _
    · exact (below_below ..).symm
  have same : g.entries = entries := by rcases which with ⟨-, rfl⟩ | rfl <;> rfl
  rw [same] at getEq
  rw [dir, below_below] at above
  exact ⟨name :: names, file, .dir mem getEq, above⟩

theorem hasSourceBelow (f : Frame) : ∀ c ∈ f.candidates isInsideNodeModules,
    HasSourceBelow f.currentDir f.entries c.sourceDir := by
  induction f using Frame.induction with
  | step f ih =>
    have found : ∀ c ∈ f.found isInsideNodeModules,
        HasSourceBelow f.currentDir f.entries c.sourceDir := by
      intro c mem
      rw [found_eq] at mem
      obtain ⟨g, sub, mem⟩ := List.mem_flatMap.mp mem
      exact hasSourceBelow_of_subframe sub (ih g sub c mem)
    intro c mem
    obtain ⟨names, current⟩ := exists_currentDir_eq f
    have start : f.windowStart.components <+: f.currentDir.components := by
      rw [current]
      exact List.prefix_append ..
    rcases mem_candidates mem with below | ⟨merges, rfl⟩ | ⟨-, c', below, -, rfl⟩
    · exact found c below
    · have above : PathBuf.components (if isInsideNodeModules then f.windowStart
          else f.currentDir) <+: f.currentDir.components := by
        split_ifs
        · exact start
        · exact List.prefix_rfl
      rcases merges with source | many
      · exact (hasSourceBelow_self source).of_prefix_dir above
      · obtain ⟨c, mem⟩ := List.exists_mem_of_length_pos (Nat.zero_lt_of_lt many)
        exact (found c (List.mem_filter.mp mem).1).of_prefix_dir above
    · have source := found c' below
      rw [adjustSource]
      split_ifs with js fallback
      · exact source.of_prefix_dir start
      · simp only [Bool.and_eq_true, Bool.not_eq_true', decide_eq_true_eq] at fallback
        simp only [lastNestedSourceDir_eq fallback.1]
        rcases climb_spec f.opener c'.sourceDir.components.length c'.sourceDir with top | above
        · rw [top]
          exact source.of_prefix_dir (List.prefix_append ..)
        · exact source.of_prefix above
      · exact source

end Frame

/-! ## The remappings of a root -/

/-- The remapping that a candidate stands for. -/
def Candidate.Gives (c : Candidate) (r : Remapping) : Prop :=
  r.context = none ∧ c.windowStart.fileName.map (· ++ "/") = some r.name ∧
    r.path = c.sourceDir.toString ++ "/"

theorem prioritized_eq (old : Option PathBuf) (path : PathBuf) :
    prioritized old path = old ∨ prioritized old path = some path := by
  cases old with
  | none => exact .inr rfl
  | some old =>
    rw [prioritized]
    split_ifs
    · exact .inr rfl
    · exact .inl rfl

theorem mem_of_foldl_prioritized {paths : List PathBuf} {old : Option PathBuf} {path : PathBuf}
    (kept : paths.foldl prioritized old = some path) : old = some path ∨ path ∈ paths := by
  induction paths generalizing old with
  | nil => exact .inl kept
  | cons p paths ih =>
    rcases ih kept with first | later
    · rcases prioritized_eq old p with same | new
      · exact .inl (same.symm.trans first)
      · exact .inr (by simpa using Or.inl (Option.some.inj (new.symm.trans first)).symm)
    · exact .inr (List.mem_cons_of_mem p later)

/-- Every remapping comes from a candidate. -/
theorem exists_gives {dir : PathBuf} {entries : List Entry} {r : Remapping}
    (mem : r ∈ findMany dir entries) : ∃ c ∈ rootCandidates dir entries, c.Gives r := by
  obtain ⟨⟨name, path⟩, entry, rfl⟩ := List.mem_map.mp mem
  have found := ExtTreeMap.mem_toList_iff_getElem?_eq_some.mp entry
  have kept := (getElem?_combine _ _ name).symm.trans found
  rcases mem_of_foldl_prioritized kept with none | mem
  · simp at none
  · obtain ⟨c, sorted, eq⟩ := List.mem_filterMap.mp mem
    split_ifs at eq with named
    obtain rfl := Option.some.inj eq
    exact ⟨c, (List.mem_insertionSort _).mp sorted, rfl, named, rfl⟩

/-- A remapping comes from a candidate with a window below the root, its path lies in the window
and leads to a source file. -/
def PointsInside (dir : PathBuf) (entries : List Entry) (r : Remapping) : Prop :=
  ∃ c ∈ rootCandidates dir entries, c.Gives r ∧
    (∃ name names, c.windowStart = below dir (name :: names)) ∧ c.Inside ∧
    HasSourceBelow dir entries c.sourceDir

/-- Where nothing strays, remappings point into their libraries. -/
theorem pointsInside {dir : PathBuf} {entries : List Entry}
    (steady : ∀ w, Searched dir entries w → w.names = [] → ∀ g,
      ReflTransGen (Frame.Open (endsWith dir (.rel ["node_modules"]))) w g →
        ¬ g.Strays (endsWith dir (.rel ["node_modules"]))) :
    ∀ r ∈ findMany dir entries, PointsInside dir entries r := by
  intro r mem
  obtain ⟨c, mem, gives⟩ := exists_gives mem
  refine ⟨c, mem, gives, ?_⟩
  rw [rootCandidates_eq] at mem
  obtain ⟨f, root, mem⟩ := List.mem_flatMap.mp mem
  have steady : f.Steady _ := fun w path => steady w ⟨f, root, path⟩
  obtain ⟨e, entry, root⟩ := List.mem_flatMap.mp root
  cases e with
  | file => cases root
  | dir name sub =>
    rw [rootFrame] at root
    split_ifs at root
    · cases root
    obtain rfl := List.mem_singleton.mp root
    refine ⟨?_, Frame.inside rfl steady c mem, ?_⟩
    · obtain ⟨names, eq⟩ := Frame.exists_windowStart_eq _ c mem
      exact ⟨name, names, by rw [eq, below_below]; rfl⟩
    · obtain ⟨names, file, getEq, above⟩ := Frame.hasSourceBelow _ c mem
      refine ⟨name :: names, file, .dir entry getEq, ?_⟩
      simpa [Frame.currentDir] using above

/-- A library with a source directory. -/
theorem pointsInside_library : PointsInside (.abs ["root"])
    [.dir "r" [.dir "lib" [.dir "a" [.dir "src" [.file "a.sol"]]]]]
    ⟨none, "a/", "/root/r/lib/a/src/"⟩ := by
  refine pointsInside ?_ _ (by decide +kernel)
  have src : ∀ f, ReflTransGen Frame.Sub ⟨[.file "a.sol"], .abs ["root", "r", "lib"],
      ["a", "src"], 1⟩ f → ¬ f.Strays false :=
    Frame.forall_visited_iff.mpr ⟨by decide +kernel, by rintro f ⟨⟩⟩
  have a : ∀ f, ReflTransGen Frame.Sub ⟨[.dir "src" [.file "a.sol"]], .abs ["root", "r", "lib"],
      ["a"], 1⟩ f → ¬ f.Strays false :=
    Frame.forall_visited_iff.mpr ⟨by decide +kernel, List.forall_mem_singleton.mpr src⟩
  have lib : ∀ f, ReflTransGen Frame.Sub ⟨[.dir "a" [.dir "src" [.file "a.sol"]]],
      .abs ["root", "r", "lib"], [], 1⟩ f → ¬ f.Strays false :=
    Frame.forall_visited_iff.mpr ⟨by decide +kernel, List.forall_mem_singleton.mpr a⟩
  have r : ∀ f, ReflTransGen Frame.Sub ⟨[.dir "lib" [.dir "a" [.dir "src" [.file "a.sol"]]]],
      .abs ["root", "r"], [], 0⟩ f → ¬ f.Strays false :=
    Frame.forall_visited_iff.mpr ⟨by decide +kernel, List.forall_mem_singleton.mpr lib⟩
  rintro w ⟨root, mem, path⟩ - g inner
  obtain rfl := List.mem_singleton.mp mem
  exact r g (path.trans (inner.lift id fun _ _ step => step.1))

/-- The library holds its sources in another directory, and its name is given to the directory of
all libraries. -/
theorem not_pointsInside :
    ∃ r ∈ findMany (.abs ["root"]) [.dir "r" [.dir "lib" [.dir "a" [.dir "foo" [.file "x.sol"]]]]],
      ¬ PointsInside (.abs ["root"])
        [.dir "r" [.dir "lib" [.dir "a" [.dir "foo" [.file "x.sol"]]]]] r := by
  refine ⟨⟨none, "a/", "/root/r/lib/"⟩, by decide +kernel, ?_⟩
  rintro ⟨c, mem, -, -, ⟨names, eq⟩, -⟩
  have only : rootCandidates (.abs ["root"])
      [.dir "r" [.dir "lib" [.dir "a" [.dir "foo" [.file "x.sol"]]]]] =
      [⟨.abs ["root", "r", "lib", "a"], .abs ["root", "r", "lib"], 1⟩] := by decide +kernel
  rw [only] at mem
  obtain rfl := List.mem_singleton.mp mem
  simp [below, PathBuf.abs] at eq

end FoundryCore.Remappings
