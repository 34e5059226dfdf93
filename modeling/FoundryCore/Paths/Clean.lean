import FoundryCore.Resolver.Rooted

/-!
# Cleaning paths

Resolving `.` and `..` without looking at the file system goes through the components with a
stack. What is left is the root or not, then `..`, then names. It leads to the same place as before
wherever the way up from what a name led to leads back.
-/

universe u

namespace FoundryCore

/-! ## Where paths lead -/

/-- Places that components of paths lead to. -/
structure Places (L : Type*) where
  root : L
  up : L → L
  down : L → String → L
  up_down : ∀ place name, up (down place name) = place

namespace Places

variable {L : Type*} (places : Places L)

def step (place : L) : Component → L
  | .rootDir => places.root
  | .curDir => place
  | .parentDir => places.up place
  | .normal name => places.down place name

/-- The place that the path leads to from a directory. -/
def resolve (directory : L) (path : PathBuf) : L := path.components.foldl places.step directory

end Places

/-! ## The stack -/

/-- One component of a path that is cleaned. -/
def cleanComponent (new : List Component) : Component → List Component
  | .curDir => new
  | .parentDir =>
    match new.getLast? with
    | some (.normal _) => new.dropLast
    | _ => new ++ [Component.parentDir]
  | component => new ++ [component]

theorem components_cleanSolidityPath (path : PathBuf) :
    (cleanSolidityPath path).components = path.components.foldl cleanComponent [] := rfl

variable {new : List Component}

@[simp] theorem cleanComponent_parentDir_of_normal (name : String) :
    cleanComponent (new ++ [Component.normal name]) .parentDir = new := by
  simp [cleanComponent]

theorem cleanComponent_parentDir (other : ∀ name, new.getLast? ≠ some (.normal name)) :
    cleanComponent new .parentDir = new ++ [Component.parentDir] := by
  unfold cleanComponent
  grind

variable {L : Type*} (places : Places L)

/-- The stack leads to where all components so far lead to. -/
theorem foldl_step_cleanComponent (directory : L) (component : Component) :
    (cleanComponent new component).foldl places.step directory =
      places.step (new.foldl places.step directory) component := by
  cases component with
  | curDir => rfl
  | rootDir => simp [cleanComponent]
  | normal name => simp [cleanComponent]
  | parentDir =>
    by_cases named : ∃ name, new.getLast? = some (.normal name)
    · obtain ⟨name, last⟩ := named
      obtain ⟨init, rfl⟩ := List.getLast?_eq_some_iff.mp last
      simp [Places.step, places.up_down]
    · rw [cleanComponent_parentDir (by simpa using named)]
      simp

theorem resolve_cleanSolidityPath (directory : L) (path : PathBuf) :
    places.resolve directory (cleanSolidityPath path) = places.resolve directory path := by
  suffices ∀ (components new : List Component),
      (components.foldl cleanComponent new).foldl places.step directory =
        components.foldl places.step (new.foldl places.step directory) by
    simpa [Places.resolve, components_cleanSolidityPath] using this path.components []
  intro components
  induction components with
  | nil => simp
  | cons component components ih =>
    intro new
    rw [List.foldl_cons, List.foldl_cons, ih, foldl_step_cleanComponent]

/-! ## What is left -/

/-- The root or not, then ways up, then names. -/
def cleanComponents (absolute : Bool) (ups : Nat) (names : List String) : List Component :=
  (if absolute then [.rootDir] else []) ++ List.replicate ups .parentDir ++ names.map .normal

theorem cleanComponent_normal (absolute : Bool) (ups : Nat) (names : List String) (name : String) :
    cleanComponent (cleanComponents absolute ups names) (.normal name) =
      cleanComponents absolute ups (names ++ [name]) := by
  simp [cleanComponent, cleanComponents]

theorem cleanComponent_up (absolute : Bool) (ups : Nat) :
    cleanComponent (cleanComponents absolute ups []) .parentDir =
      cleanComponents absolute (ups + 1) [] := by
  rw [cleanComponent_parentDir]
  · simp [cleanComponents, List.replicate_succ']
  · intro name last
    have mem := List.mem_of_getLast? last
    cases absolute <;> simp [cleanComponents] at mem

theorem cleanComponent_back (absolute : Bool) (ups : Nat) (names : List String) (name : String) :
    cleanComponent (cleanComponents absolute ups (names ++ [name])) .parentDir =
      cleanComponents absolute ups names := by
  simp [cleanComponents, ← List.append_assoc]

/-- The stack is of this form all the time. -/
theorem exists_cleanComponents {path : PathBuf} (wellFormed : path.WellFormed) :
    ∃ absolute ups names, (cleanSolidityPath path).components =
      cleanComponents absolute ups names := by
  suffices run : ∀ components : List Component, (∀ c ∈ components, c ≠ .rootDir) →
      ∀ absolute ups names, ∃ ups' names',
        components.foldl cleanComponent (cleanComponents absolute ups names) =
          cleanComponents absolute ups' names' by
    rw [components_cleanSolidityPath]
    cases components : path.components with
    | nil => exact ⟨false, 0, [], rfl⟩
    | cons first rest =>
      have other : ∀ c ∈ rest, c ≠ .rootDir := fun c mem =>
        (wellFormed c (by simpa [components] using mem)).1
      by_cases absolute : first = .rootDir
      · obtain ⟨ups, names, eq⟩ := run rest other true 0 []
        exact ⟨true, ups, names, by rw [absolute]; exact eq⟩
      · obtain ⟨ups, names, eq⟩ := run (first :: rest)
          (List.forall_mem_cons.mpr ⟨absolute, other⟩) false 0 []
        exact ⟨false, ups, names, eq⟩
  intro components
  induction components with
  | nil => exact fun _ absolute ups names => ⟨ups, names, rfl⟩
  | cons component components ih =>
    intro other absolute ups names
    have next := ih fun c mem => other c (.tail _ mem)
    cases component with
    | rootDir => exact absurd rfl (other _ (.head _))
    | curDir => exact next absolute ups names
    | normal name =>
      rw [List.foldl_cons, cleanComponent_normal]
      exact next absolute ups _
    | parentDir =>
      rw [List.foldl_cons]
      induction names using List.reverseRecOn with
      | nil =>
        rw [cleanComponent_up]
        exact next absolute _ []
      | append_singleton names name =>
        rw [cleanComponent_back]
        exact next absolute ups names

theorem foldl_cleanComponents (absolute : Bool) (ups : Nat) (names : List String) :
    (cleanComponents absolute ups names).foldl cleanComponent [] =
      cleanComponents absolute ups names := by
  induction names using List.reverseRecOn with
  | nil =>
    induction ups with
    | zero => cases absolute <;> rfl
    | succ ups ih =>
      have last : cleanComponents absolute (ups + 1) [] =
          cleanComponents absolute ups [] ++ [Component.parentDir] := by
        simp [cleanComponents, List.replicate_succ']
      conv_lhs => rw [last]
      rw [List.foldl_append, ih]
      exact cleanComponent_up absolute ups
  | append_singleton names name ih =>
    have last : cleanComponents absolute ups (names ++ [name]) =
        cleanComponents absolute ups names ++ [Component.normal name] := by simp [cleanComponents]
    conv_lhs => rw [last]
    rw [List.foldl_append, ih]
    exact cleanComponent_normal absolute ups names name

/-! ## Paths that lead to the same place -/

/-- The stack itself, as the place that it leads to. -/
def stackPlaces : Places (List Component) where
  root := [.rootDir]
  up new := cleanComponent new .parentDir
  down new name := new ++ [Component.normal name]
  up_down _ name := cleanComponent_parentDir_of_normal name

theorem resolve_stackPlaces {path : PathBuf} (rooted : path.Rooted) :
    stackPlaces.resolve [] path = (cleanSolidityPath path).components := by
  obtain ⟨rest, eq, plain⟩ := PathBuf.rooted_iff.mp rooted
  have same : ∀ (rest new : List Component), (∀ c ∈ rest, c ≠ .rootDir ∧ c ≠ .curDir) →
      rest.foldl stackPlaces.step new = rest.foldl cleanComponent new := by
    intro rest
    induction rest with
    | nil => exact fun new _ => rfl
    | cons c rest ih =>
      intro new plain
      have next := ih (cleanComponent new c) fun c mem => plain c (.tail _ mem)
      cases c with
      | rootDir => exact absurd rfl (plain _ (.head _)).1
      | _ => exact next
  rw [components_cleanSolidityPath, Places.resolve, eq]
  exact same rest [.rootDir] plain

/-- Absolute paths are cleaned to the same if they always lead to the same place. -/
theorem cleanSolidityPath_eq_of_resolve {path path' : PathBuf} (rooted : path.Rooted)
    (rooted' : path'.Rooted) (same : stackPlaces.resolve [] path = stackPlaces.resolve [] path') :
    cleanSolidityPath path = cleanSolidityPath path' := by
  rw [resolve_stackPlaces rooted, resolve_stackPlaces rooted'] at same
  exact congrArg PathBuf.mk same

/-! ## Cleaned paths -/

/-- No way up follows a name. -/
def NoWayBack (path : PathBuf) : Prop :=
  path.components.Pairwise fun before after => (∃ name, before = .normal name) → after ≠ .parentDir

/-- A cleaned path has nothing that could be cleaned, and leads to where the path does. -/
theorem cleanSolidityPath_spec {path : PathBuf} (wellFormed : path.WellFormed) :
    .curDir ∉ (cleanSolidityPath path).components ∧ NoWayBack (cleanSolidityPath path) ∧
      (∀ (L : Type u) (places : Places L) (directory : L),
        places.resolve directory (cleanSolidityPath path) = places.resolve directory path) ∧
      cleanSolidityPath (cleanSolidityPath path) = cleanSolidityPath path := by
  obtain ⟨absolute, ups, names, eq⟩ := exists_cleanComponents wellFormed
  refine ⟨?_, ?_, fun L places directory => resolve_cleanSolidityPath places directory path, ?_⟩
  · rw [eq]
    cases absolute <;> simp [cleanComponents]
  · rw [NoWayBack, eq]
    cases absolute <;>
      simp [cleanComponents, List.pairwise_append, List.pairwise_map, List.pairwise_of_forall]
  · have again := components_cleanSolidityPath (cleanSolidityPath path)
    rw [eq, foldl_cleanComponents, ← eq] at again
    exact congrArg PathBuf.mk again

theorem cleanSolidityPath_spec_climbing :
    .curDir ∉ (cleanSolidityPath (.ofString "a/../../b/./c")).components ∧
      NoWayBack (cleanSolidityPath (.ofString "a/../../b/./c")) ∧
      (∀ (L : Type u) (places : Places L) (directory : L),
        places.resolve directory (cleanSolidityPath (.ofString "a/../../b/./c")) =
          places.resolve directory (.ofString "a/../../b/./c")) ∧
      cleanSolidityPath (cleanSolidityPath (.ofString "a/../../b/./c")) =
        cleanSolidityPath (.ofString "a/../../b/./c") :=
  cleanSolidityPath_spec (PathBuf.wellFormed_ofString _)

end FoundryCore
