import FoundryCore.Library.Map
import FoundryCore.Remappings.Frames

/-!
# Combining candidates

The candidates of all directories of the root are combined to one path for each name.
-/

open Relation Std

namespace FoundryCore.Remappings

/-! ## The remappings of some candidates -/

/-- The path that is kept for a name. -/
def prioritized (old : Option PathBuf) (path : PathBuf) : Option PathBuf :=
  match old with
  | some old =>
    if old.components.length > path.components.length ∨
        (endsWith path (.rel ["src"]) ∧ ¬ endsWith old (.rel ["src"])) then some path
    else some old
  | none => some path

/-- The remappings that some candidates are combined to, in turn. -/
def combine (mappings : ExtTreeMap String PathBuf) (candidates : List Candidate) :
    ExtTreeMap String PathBuf :=
  candidates.foldl (fun mappings c =>
    match c.windowStart.fileName with
    | some name => insertPrioritized mappings (name ++ "/") c.sourceDir
    | none => mappings) mappings

/-- The paths of the candidates with a name. -/
def pathsOf (key : String) (candidates : List Candidate) : List PathBuf :=
  candidates.filterMap fun c =>
    if c.windowStart.fileName.map (· ++ "/") = some key then some c.sourceDir else none

theorem getElem?_insertPrioritized {mappings : ExtTreeMap String PathBuf} {key key' : String}
    {path : PathBuf} : (insertPrioritized mappings key path)[key']? =
      if key' = key then prioritized mappings[key]? path else mappings[key']? := by
  unfold insertPrioritized
  cases old : mappings[key]? with
  | none => simp only [Library.getElem?_insert_eq, prioritized]
  | some old' =>
    simp only [prioritized]
    split_ifs with better same same
    · rw [Library.getElem?_insert_eq, if_pos same]
    · rw [Library.getElem?_insert_eq, if_neg same]
    · rw [same, old]
    · rfl

/-- The path of a name depends on the candidates with the name only. -/
theorem getElem?_combine (mappings : ExtTreeMap String PathBuf) (candidates : List Candidate)
    (key : String) : (combine mappings candidates)[key]? =
      (pathsOf key candidates).foldl prioritized mappings[key]? := by
  induction candidates generalizing mappings with
  | nil => rfl
  | cons c candidates ih =>
    refine (ih _).trans ?_
    cases named : c.windowStart.fileName with
    | none => simp [pathsOf, named]
    | some name =>
      simp only [pathsOf, List.filterMap_cons, named, Option.map_some, Option.some.injEq]
      rw [getElem?_insertPrioritized]
      by_cases same : key = name ++ "/"
      · simp [same]
      · simp [same, Ne.symm same]

/-! ## The searched directories -/

/-- The directories of the root. -/
def rootFrame (dir : PathBuf) : Entry → List Frame
  | .file _ => []
  | .dir name entries =>
    if isHidden name then [] else [⟨entries, below dir [name], [], 0⟩]

theorem rootCandidates_eq (dir : PathBuf) (entries : List Entry) :
    rootCandidates dir entries = (entries.flatMap (rootFrame dir)).flatMap
      (Frame.candidates (endsWith dir (.rel ["node_modules"]))) := by
  rw [rootCandidates, List.flatMap_assoc]
  refine List.flatMap_congr fun e _ => ?_
  cases e with
  | file name => rfl
  | dir name entries =>
    simp only [rootFrame, join_rel_eq_below]
    split_ifs
    · rfl
    · simp [Frame.candidates, Frame.currentDir]

/-- A directory that the search of a root visits. -/
def Searched (dir : PathBuf) (entries : List Entry) (f : Frame) : Prop :=
  ∃ r ∈ entries.flatMap (rootFrame dir), ReflTransGen Frame.Sub r f

end FoundryCore.Remappings
