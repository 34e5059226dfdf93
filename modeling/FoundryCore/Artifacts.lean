import FoundryCore.Library.Map
import FoundryCore.Path
import FoundryCore.Version

/-!
# Artifacts

The artifacts of a project by source file and contract name, each for a compiler version and
a settings profile, and what the cache file remembers of them.
-/

open Std

namespace FoundryCore

/-- An artifact and the file it is stored in. -/
structure ArtifactFile (α : Type*) where
  artifact : α
  file : PathBuf
  version : Version
  buildId : String
  profile : String
deriving DecidableEq

/-- Artifacts by source file and contract name. -/
abbrev Artifacts (α : Type*) :=
  ExtTreeMap PathBuf (ExtTreeMap String (List (ArtifactFile α)))

namespace Artifacts

variable {α : Type*}

/-- The artifacts of a contract. -/
def filesOf (artifacts : Artifacts α) (file : PathBuf) (name : String) : List (ArtifactFile α) :=
  (artifacts[file]?.bind (·[name]?)).getD []

/-- Every artifact with its source file and contract name. -/
def entries (artifacts : Artifacts α) : List (PathBuf × String × ArtifactFile α) :=
  artifacts.toList.flatMap fun (file, contracts) =>
    contracts.toList.flatMap fun (name, files) => files.map fun a => (file, name, a)

def artifactFiles (artifacts : Artifacts α) : List (ArtifactFile α) :=
  artifacts.entries.map fun (_, _, a) => a

/-- The artifact with matching file, contract name and version, whatever its profile. -/
def findArtifact (artifacts : Artifacts α) (file : PathBuf) (name : String) (version : Version) :
    Option (ArtifactFile α) :=
  (artifacts.filesOf file name).find? (·.version = version)

def findArtifactWithProfile (artifacts : Artifacts α) (file : PathBuf) (name : String)
    (version : Version) (profile : String) : Option (ArtifactFile α) :=
  (artifacts.filesOf file name).find? fun a => a.version = version ∧ a.profile = profile

/-- Whether an artifact is stored at the path. -/
def hasArtifact (artifacts : Artifacts α) (path : PathBuf) : Bool :=
  artifacts.artifactFiles.any (·.file = path)

/-- Appends an artifact to those of its contract. -/
def push (artifacts : Artifacts α) (file : PathBuf) (name : String) (a : ArtifactFile α) :
    Artifacts α :=
  let contracts := artifacts[file]?.getD ∅
  artifacts.insert file (contracts.insert name (contracts[name]?.getD [] ++ [a]))

/-- Keeps the artifacts that pass the test, and drops contracts and files left without any. -/
def retain (artifacts : Artifacts α) (keep : PathBuf → String → ArtifactFile α → Bool) :
    Artifacts α :=
  artifacts.filterMap fun file contracts =>
    let contracts := contracts.filterMap fun name files =>
      let files := files.filter (keep file name)
      if files.isEmpty then none else some files
    if contracts.isEmpty then none else some contracts

/-- Sets the location of each artifact to `root` adjoined to it. -/
def joinAll (artifacts : Artifacts α) (root : PathBuf) : Artifacts α :=
  artifacts.map fun _ contracts => contracts.map fun _ files =>
    files.map fun a => { a with file := root.join a.file }

theorem mem_entries {artifacts : Artifacts α} {file : PathBuf} {name : String}
    {a : ArtifactFile α} :
    (file, name, a) ∈ artifacts.entries ↔ a ∈ artifacts.filesOf file name := by
  simp only [entries, List.mem_flatMap, Prod.exists, List.mem_map, Prod.mk.injEq,
    ExtTreeMap.mem_toList_iff_getElem?_eq_some, filesOf]
  constructor
  · rintro ⟨_, contracts, entry, _, files, entry', _, mem, rfl, rfl, rfl⟩
    simpa [entry, entry'] using mem
  · intro mem
    cases entry : artifacts[file]? with
    | none => simp [entry] at mem
    | some contracts =>
      cases entry' : contracts[name]? with
      | none => simp [entry, entry'] at mem
      | some files =>
        exact ⟨file, contracts, entry, name, files, entry', a, by simpa [entry, entry'] using mem,
          rfl, rfl, rfl⟩

@[simp] theorem filesOf_empty (file : PathBuf) (name : String) :
    filesOf (∅ : Artifacts α) file name = [] := by
  simp [filesOf]

theorem filesOf_push (artifacts : Artifacts α) (file : PathBuf) (name : String)
    (a : ArtifactFile α) (file' : PathBuf) (name' : String) :
    (artifacts.push file name a).filesOf file' name' =
      artifacts.filesOf file' name' ++ if file' = file ∧ name' = name then [a] else [] := by
  simp only [push, filesOf, Library.getElem?_insert_eq]
  by_cases same : file' = file
  · subst same
    cases entry : artifacts[file']? <;> by_cases same' : name' = name <;>
      simp [Library.getElem?_insert_eq, same']
  · simp [same]

theorem filesOf_retain (artifacts : Artifacts α) (keep : PathBuf → String → ArtifactFile α → Bool)
    (file : PathBuf) (name : String) :
    (artifacts.retain keep).filesOf file name =
      (artifacts.filesOf file name).filter (keep file name) := by
  simp only [retain, filesOf, ExtTreeMap.getElem?_filterMap']
  cases artifacts[file]? with
  | none => simp
  | some contracts =>
    have kept : ∀ m : ExtTreeMap String (List (ArtifactFile α)),
        (if m.isEmpty then none else some m).bind (·[name]?) = m[name]? := by
      intro m
      split_ifs with empty
      · simp [ExtTreeMap.isEmpty_iff.mp empty]
      · rfl
    simp only [Option.bind_some, kept, ExtTreeMap.getElem?_filterMap']
    cases contracts[name]? with
    | none => simp
    | some files =>
      simp only [Option.bind_some, Option.getD_some, List.isEmpty_iff]
      split_ifs with empty
      · simp [empty]
      · rfl

theorem filesOf_joinAll (artifacts : Artifacts α) (root : PathBuf) (file : PathBuf)
    (name : String) :
    (artifacts.joinAll root).filesOf file name =
      (artifacts.filesOf file name).map fun a => { a with file := root.join a.file } := by
  simp only [joinAll, filesOf, ExtTreeMap.getElem?_map]
  cases artifacts[file]? with
  | none => rfl
  | some contracts =>
    simp only [Option.map_some, Option.bind_some, ExtTreeMap.getElem?_map]
    cases contracts[name]? <;> rfl

end Artifacts

/-! ## Cached artifacts -/

/-- What the cache file keeps of an artifact. -/
structure CachedArtifact where
  /-- Path to the artifact file. -/
  path : PathBuf
  buildId : String
deriving DecidableEq, Repr

/-- Cached artifacts by contract name, version and profile. -/
abbrev CachedArtifacts := ExtTreeMap String (ExtTreeMap Version (ExtTreeMap String CachedArtifact))

/-- The cached artifact of a contract for a version and a profile. -/
def CachedArtifacts.find? (artifacts : CachedArtifacts) (name : String) (version : Version)
    (profile : String) : Option CachedArtifact :=
  (artifacts[name]?.bind (·[version]?)).bind (·[profile]?)

/-- Every cached artifact with its contract name, version and profile. -/
def CachedArtifacts.entries (artifacts : CachedArtifacts) :
    List (String × Version × String × CachedArtifact) :=
  artifacts.toList.flatMap fun (name, versions) =>
    versions.toList.flatMap fun (version, profiles) =>
    profiles.toList.map fun (profile, a) => (name, version, profile, a)

theorem CachedArtifacts.mem_entries {artifacts : CachedArtifacts} {name : String}
    {version : Version} {profile : String} {a : CachedArtifact} :
    (name, version, profile, a) ∈ artifacts.entries ↔
      artifacts.find? name version profile = some a := by
  simp only [entries, List.mem_flatMap, Prod.exists, List.mem_map, Prod.mk.injEq,
    ExtTreeMap.mem_toList_iff_getElem?_eq_some, find?, Option.bind_eq_some_iff]
  constructor
  · rintro ⟨_, versions, h₁, _, profiles, h₂, _, _, h₃, rfl, rfl, rfl, rfl⟩
    exact ⟨profiles, ⟨versions, h₁, h₂⟩, h₃⟩
  · rintro ⟨profiles, ⟨versions, h₁, h₂⟩, h₃⟩
    exact ⟨name, versions, h₁, version, profiles, h₂, profile, a, h₃, rfl, rfl, rfl, rfl⟩

end FoundryCore
