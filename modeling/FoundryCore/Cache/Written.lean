import FoundryCore.Cache.Consume
import FoundryCore.Cache.Entries

/-!
# Paths in the cache file

The cache file has the paths of the source files relative to the root of the project, and those of
the artifacts relative to their folder. Read with the same paths, it has the files and entries it
was made from.
-/

open Std

namespace FoundryCore

variable {S γ α δ β : Type}

/-- The artifacts of an entry are the same after their paths were made relative and joined. -/
theorem CacheEntry.join_strip {entry : CacheEntry} (folder : PathBuf)
    (rooted : ∀ name version profile a,
      entry.artifacts.find? name version profile = some a → a.path.Rooted) :
    (entry.stripArtifactFilesPrefixes folder).joinArtifactsFiles folder = entry := by
  have artifacts : ((entry.stripArtifactFilesPrefixes folder).joinArtifactsFiles folder).artifacts =
      entry.artifacts := by
    refine Library.map_map_eq_self fun name versions versionsEq => ?_
    refine Library.map_map_eq_self fun version profiles profilesEq => ?_
    refine Library.map_map_eq_self fun profile a aEq => ?_
    have found : entry.artifacts.find? name version profile = some a := by
      simp [CachedArtifacts.find?, versionsEq, profilesEq, aEq]
    rw [(rooted name version profile a found).join_strip folder]
  calc (entry.stripArtifactFilesPrefixes folder).joinArtifactsFiles folder
      = { entry with artifacts :=
          ((entry.stripArtifactFilesPrefixes folder).joinArtifactsFiles folder).artifacts } := rfl
    _ = entry := by rw [artifacts]

theorem PathBuf.stripPrefixOrSelf_of_not_startsWith {path base : PathBuf}
    (outside : path.startsWith base = false) : path.stripPrefixOrSelf base = path := by
  rw [stripPrefixOrSelf, stripPrefix, if_neg (by simp [outside]), Option.getD_none]

namespace CompilerCache

variable (cache : CompilerCache S) (paths : ProjectPathsConfig)

/-- What is written to the cache file. -/
def stripped : CompilerCache S :=
  (cache.stripEntriesPrefix paths.root).stripArtifactFilesPrefixes paths.artifacts

/-- The files and the entries of a cache survive that it is written and read. -/
structure Survives : Prop where
  files : ((cache.stripped paths).readJoined paths).files = cache.files
  apart : ∀ file ∈ cache.files, ∀ file' ∈ cache.files,
    file.stripPrefixOrSelf paths.root = file'.stripPrefixOrSelf paths.root → file = file'
  stored : ∀ (file : PathBuf) entry, cache.files[file]? = some entry →
    (cache.stripped paths).files[file.stripPrefixOrSelf paths.root]? =
      some (entry.stripArtifactFilesPrefixes paths.artifacts)
  outside : ∀ file ∈ cache.files, file.startsWith paths.root = false →
    file ∈ (cache.stripped paths).files
  artifactsOutside : ∀ (file : PathBuf) entry, cache.files[file]? = some entry →
    ∀ name version profile a, entry.artifacts.find? name version profile = some a →
      a.path.startsWith paths.artifacts = false →
        (entry.stripArtifactFilesPrefixes paths.artifacts).artifacts.find? name version profile =
          some a

variable {cache}

theorem survives (rooted : cache.RootedFiles) (artifacts : cache.RootedArtifacts) :
    cache.Survives paths := by
  have stored : ∀ (file : PathBuf) entry, cache.files[file]? = some entry →
      (cache.stripped paths).files[file.stripPrefixOrSelf paths.root]? =
        some (entry.stripArtifactFilesPrefixes paths.artifacts) := by
    intro file entry getEq
    have key : (cache.stripEntriesPrefix paths.root).files[file.stripPrefixOrSelf paths.root]? =
        some entry :=
      (Library.getElem?_ofList_map (rooted.stripPrefixOrSelf_inj paths.root)).mpr ⟨file, rfl, getEq⟩
    rw [stripped, stripArtifactFilesPrefixes, getElem?_mapEntries, key, Option.map_some]
  constructor
  · apply ExtTreeMap.ext_getElem?
    intro file
    rw [stripped, getElem?_readJoined rooted]
    cases getEq : cache.files[file]? with
    | none => rfl
    | some entry =>
      exact congrArg some (CacheEntry.join_strip paths.artifacts (artifacts file entry getEq))
  · exact rooted.stripPrefixOrSelf_inj paths.root
  · exact stored
  · intro file mem outside
    obtain ⟨entry, getEq⟩ := Option.isSome_iff_exists.mp (ExtTreeMap.mem_iff_isSome_getElem?.mp mem)
    have key := stored file entry getEq
    rw [PathBuf.stripPrefixOrSelf_of_not_startsWith outside] at key
    simp [ExtTreeMap.mem_iff_isSome_getElem?, key]
  · intro file entry getEq name version profile a found outside
    rw [CacheEntry.stripArtifactFilesPrefixes, CacheEntry.find?_mapPaths, found, Option.map_some,
      PathBuf.stripPrefixOrSelf_of_not_startsWith outside]

end CompilerCache

namespace ArtifactsCacheInner

/-- What is read of the file that a run leaves is what the run had in the end. -/
theorem consume_readJoined (inner : ArtifactsCacheInner S γ α δ β) (written : Artifacts α)
    (buildInfos : List (RawBuildInfo β))
    (rooted : (inner.mergeWritten written buildInfos).RootedFiles)
    (artifacts : (inner.mergeWritten written buildInfos).RootedArtifacts) :
    (inner.mergeWritten written buildInfos).Survives inner.project.paths ∧
      ((inner.consume written buildInfos).2.readJoined inner.project.paths).files =
        (inner.mergeWritten written buildInfos).files :=
  have survives := CompilerCache.survives inner.project.paths rooted artifacts
  ⟨survives, survives.files⟩

/-- The entry of a file with one artifact. -/
def oneArtifactEntry (sourceName : PathBuf) (name : String) (a : ArtifactFile Unit) : CacheEntry :=
  CacheEntry.insertArtifact {
    contentHash := "1"
    interfaceReprHash := none
    sourceName
    imports := ∅
    versionRequirement := none
    artifacts := ∅
    seenByCompiler := true } name a

def insideEntry : CacheEntry :=
  oneArtifactEntry (.rel ["src", "C.sol"]) "C" (twoProfilesArtifact "default")

def outsideEntry : CacheEntry :=
  oneArtifactEntry (.abs ["lib", "D.sol"]) "D"
    { twoProfilesArtifact "default" with file := .abs ["elsewhere", "D.json"] }

/-- A run that finds two files in the cache. One of them and its artifact are outside of the
folders of the project. -/
def twoFilesInner : ArtifactsCacheInner Unit Unit Unit Unit Unit :=
  { twoProfilesInner with
    cache := { twoProfilesInner.cache with
      files := ((∅ : ExtTreeMap PathBuf CacheEntry).insert (.abs ["p", "src", "C.sol"])
        insideEntry).insert (.abs ["lib", "D.sol"]) outsideEntry } }

theorem consume_readJoined_twoFiles :
    (twoFilesInner.mergeWritten ∅ []).Survives twoFilesInner.project.paths ∧
      ((twoFilesInner.consume ∅ []).2.readJoined twoFilesInner.project.paths).files =
        (twoFilesInner.mergeWritten ∅ []).files := by
  have files : (twoFilesInner.mergeWritten ∅ []).files =
      ((∅ : ExtTreeMap PathBuf CacheEntry).insert (.abs ["p", "src", "C.sol"])
        insideEntry).insert (.abs ["lib", "D.sol"]) outsideEntry := by
    have nothing : (∅ : Artifacts Unit).toList = [] := by simp
    simp only [mergeWritten, nothing]
    rfl
  have only : ∀ {sourceName name a name' version profile cached},
      (oneArtifactEntry sourceName name a).artifacts.find? name' version profile = some cached →
        cached.path = a.file := by
    intro sourceName name a name' version profile cached found
    rw [oneArtifactEntry, CacheEntry.find?_insertArtifact] at found
    split_ifs at found
    · cases found
      rfl
    · simp [CachedArtifacts.find?] at found
  refine consume_readJoined twoFilesInner ∅ [] ?_ ?_
  · intro file mem
    rcases (by simpa [files] using mem :
      .abs ["lib", "D.sol"] = file ∨ .abs ["p", "src", "C.sol"] = file) with rfl | rfl
    · exact PathBuf.rooted_abs _
    · exact PathBuf.rooted_abs _
  · intro file entry getEq name version profile a found
    rw [files, Library.getElem?_insert_eq, Library.getElem?_insert_eq] at getEq
    split_ifs at getEq
    · cases getEq
      exact only found ▸ PathBuf.rooted_abs _
    · cases getEq
      exact only found ▸ PathBuf.rooted_abs _
    · simp at getEq

end ArtifactsCacheInner

end FoundryCore
