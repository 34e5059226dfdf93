import FoundryCore.ArtifactOutput
import FoundryCore.Resolver.Graph
import FoundryCore.Settings

/-!
# The cache file

What is kept between two compilations of a project: for each source file the hash of its
content and the artifacts made from it, and the settings behind each profile. Before a
compilation the files that have changed, and those that import them, are removed from it; what
is left decides which files have to be compiled again.
-/

open Std

namespace FoundryCore

/-! ## The project -/

/-- A project workspace. -/
structure Project (S γ α : Type) where
  paths : ProjectPathsConfig
  settings : S
  /-- Settings by profile name, for files the default settings do not fit. -/
  additionalSettings : ExtTreeMap String S := ∅
  cached : Bool := true
  noArtifacts : Bool := false
  artifacts : ArtifactOutput γ α
  /-- Limits the files that are compiled with full output. -/
  sparseOutput : Option (PathBuf → Bool) := none

variable {S γ α δ β : Type}

namespace Project

variable (project : Project S γ α)

def root : PathBuf := project.paths.root

/-- The settings by profile name. -/
def settingsProfiles : ExtTreeMap String S :=
  ExtTreeMap.ofList (("default", project.settings) :: project.additionalSettings.toList)

end Project

/-! ## Entries -/

/-- What the cache keeps about a source file. -/
structure CacheEntry where
  /-- Identifies the content of the file. -/
  contentHash : String
  /-- Identifies the interface of the file, if it is a source file. -/
  interfaceReprHash : Option String
  sourceName : PathBuf
  imports : Finset PathBuf
  versionRequirement : Option String
  /-- All artifacts produced for this file. -/
  artifacts : CachedArtifacts
  /-- Whether this file was compiled at least once. -/
  seenByCompiler : Bool

namespace CacheEntry

variable (entry : CacheEntry)

/-- Whether an artifact is there for the version and the profile. -/
def contains (version : Version) (profile : String) : Bool :=
  entry.artifacts.toList.any fun (_, versions) =>
    (versions[version]?.bind (·[profile]?)).isSome

def artifactsForVersion (version : Version) : List CachedArtifact :=
  (entry.artifacts.entries.filter fun (_, v, _, _) => v = version).map fun (_, _, _, a) => a

/-- Inserts the artifact of a contract. -/
def insertArtifact (name : String) (a : ArtifactFile α) : CacheEntry :=
  let versions := entry.artifacts[name]?.getD ∅
  let profiles := versions[a.version]?.getD ∅
  { entry with artifacts := entry.artifacts.insert name (versions.insert a.version
      (profiles.insert a.profile { path := a.file, buildId := a.buildId })) }

/-- Updates the data of the artifacts of a file. -/
def mergeArtifacts (artifacts : ExtTreeMap String (List (ArtifactFile α))) : CacheEntry :=
  artifacts.toList.foldl (fun entry (name, files) =>
    files.foldl (fun entry a => entry.insertArtifact name a) entry) entry

def mapPaths (f : PathBuf → PathBuf) : CacheEntry :=
  { entry with artifacts := entry.artifacts.map fun _ versions => versions.map fun _ profiles =>
      profiles.map fun _ a => { a with path := f a.path } }

/-- Sets the paths of the artifacts to `base` adjoined to them. -/
def joinArtifactsFiles (base : PathBuf) : CacheEntry := entry.mapPaths base.join

/-- Removes `base` from the paths of the artifacts. -/
def stripArtifactFilesPrefixes (base : PathBuf) : CacheEntry :=
  entry.mapPaths fun path => path.stripPrefixOrSelf base

/-- Drops the artifacts of some profiles, and contracts and versions left without any. -/
def retainProfiles (keep : String → Bool) : CacheEntry :=
  { entry with artifacts := entry.artifacts.filterMap fun _ versions =>
      let versions := versions.filterMap fun _ profiles =>
        let profiles := profiles.filter fun profile _ => keep profile
        if profiles.isEmpty then none else some profiles
      if versions.isEmpty then none else some versions }

/-- Reads the artifact files of a contract. -/
def readContractFiles (read : PathBuf → Option α)
    (versions : ExtTreeMap Version (ExtTreeMap String CachedArtifact)) :
    Option (List (ArtifactFile α)) :=
  (versions.toList.flatMap fun (version, profiles) =>
    profiles.toList.map fun (profile, a) => (version, profile, a)).mapM fun (version, profile, a) =>
      (read a.path).map fun artifact =>
        { artifact, file := a.path, version, buildId := a.buildId, profile }

/-- Reads all artifact files of the entry. -/
def readArtifactFiles (read : PathBuf → Option α) :
    Option (ExtTreeMap String (List (ArtifactFile α))) := do
  let contracts ← entry.artifacts.toList.mapM fun (name, versions) =>
    (readContractFiles read versions).map fun files => (name, files)
  some (.ofList contracts)

end CacheEntry

/-- The content of the cache file. -/
structure CompilerCache (S : Type) where
  format : String := ""
  /-- All directories used for the project. -/
  paths : ProjectPaths
  files : ExtTreeMap PathBuf CacheEntry := ∅
  builds : ExtTreeSet String := ∅
  profiles : ExtTreeMap String S := ∅
  preprocessed : Bool
  mocks : Finset PathBuf := ∅

namespace CompilerCache

variable (cache : CompilerCache S)

def mapEntries (f : CacheEntry → CacheEntry) : CompilerCache S :=
  { cache with files := cache.files.map fun _ entry => f entry }

/-- Sets the file paths to `root` adjoined to them. -/
def joinEntries (root : PathBuf) : CompilerCache S :=
  { cache with
    files := .ofList (cache.files.toList.map fun (path, entry) => (root.join path, entry)) }

/-- Removes `base` from all file paths. -/
def stripEntriesPrefix (base : PathBuf) : CompilerCache S :=
  { cache with
    files := .ofList (cache.files.toList.map fun (path, entry) =>
      (path.stripPrefixOrSelf base, entry)) }

def joinArtifactsFiles (base : PathBuf) : CompilerCache S :=
  cache.mapEntries (·.joinArtifactsFiles base)

def stripArtifactFilesPrefixes (base : PathBuf) : CompilerCache S :=
  cache.mapEntries (·.stripArtifactFilesPrefixes base)

/-- The content of a cache file with its paths adjoined to those of the project. -/
def readJoined (paths : ProjectPathsConfig) : CompilerCache S :=
  (cache.joinEntries paths.root).joinArtifactsFiles paths.artifacts

/-- Removes the entries whose source files do not exist. -/
def removeMissingFiles (fs : FileSystem) : CompilerCache S :=
  { cache with files := cache.files.filter fun file _ => fs.pathExists file }

/-- Reads all cached artifacts, or none of them if one cannot be read. -/
def readArtifacts (read : PathBuf → Option α) : Option (Artifacts α) := do
  let files ← cache.files.toList.mapM fun (file, entry) =>
    (entry.readArtifactFiles read).map fun contracts => (file, contracts)
  some (.ofList files)

/-- The file a build info is stored in. -/
def buildInfoPath (buildInfoDir : PathBuf) (buildId : String) : PathBuf :=
  buildInfoDir.join (.rel [buildId ++ ".json"])

/-- Reads all build infos, or none of them if one cannot be read. -/
def readBuilds (readBuild : PathBuf → Option β) (buildInfoDir : PathBuf) :
    Option (ExtTreeMap String β) := do
  let builds ← cache.builds.toList.mapM fun buildId =>
    (readBuild (buildInfoPath buildInfoDir buildId)).map fun build => (buildId, build)
  some (.ofList builds)

/-- The builds without any artifact linked to them. -/
def outdatedBuilds : List String :=
  cache.builds.toList.filter fun buildId =>
    !cache.files.toList.any fun (_, entry) =>
      entry.artifacts.entries.any fun (_, _, _, a) => a.buildId = buildId

/-- Forgets the build infos without any artifact linked to them. -/
def removeOutdatedBuilds : CompilerCache S :=
  { cache with builds := cache.builds.eraseMany cache.outdatedBuilds }

end CompilerCache

end FoundryCore
