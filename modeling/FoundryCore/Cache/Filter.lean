import FoundryCore.Cache.Dirty

/-!
# Files to compile

Selecting the files that lack artifacts goes along with creating the entries of files that have
none, in one walk over the sources. A new entry belongs to the file at hand only, so what a later
file lacks is what it lacked before the walk.
-/

open Std Relation

namespace FoundryCore.ArtifactsCacheInner

variable {S γ α δ β : Type} {H : Hashes} {inner inner' : ArtifactsCacheInner S γ α δ β}
  {version : Version} {profile : String} {file : PathBuf}

theorem interfaceReprHash_spec (H : Hashes) (inner : ArtifactsCacheInner S γ α δ β)
    (source : Source) (file : PathBuf) :
    ∃ contentHashes interfaceReprHashes, (inner.interfaceReprHash H source file).2 =
      { inner with contentHashes, interfaceReprHashes } := by
  unfold interfaceReprHash
  split
  · exact ⟨_, _, rfl⟩
  · cases H.interfaceReprHash source.content file with
    | some hash => exact ⟨_, _, rfl⟩
    | none =>
      unfold contentHash
      cases inner.contentHashes[file]? <;> exact ⟨_, _, rfl⟩

/-- Creating an entry puts one without artifacts into the cache, and changes nothing else but known
hashes. -/
theorem createCacheEntry_spec (H : Hashes) (inner : ArtifactsCacheInner S γ α δ β)
    (file : PathBuf) (source : Source) :
    ∃ entry contentHashes interfaceReprHashes, entry.artifacts = ∅ ∧
      inner.createCacheEntry H file source = { inner with
        cache := { inner.cache with files := inner.cache.files.insert file entry }
        contentHashes, interfaceReprHashes } := by
  obtain ⟨contentHashes, interfaceReprHashes, eq⟩ := interfaceReprHash_spec H inner source file
  unfold createCacheEntry
  simp only
  split
  · simp only [eq]
    exact ⟨_, _, _, rfl, rfl⟩
  · exact ⟨_, _, _, rfl, rfl⟩

/-! ## The walk over the sources -/

/-- Visits one source. -/
def checkSource (H : Hashes) (version : Version) (profile : String)
    (s : List PathBuf × ArtifactsCacheInner S γ α δ β) (entry : PathBuf × Source) :
    List PathBuf × ArtifactsCacheInner S γ α δ β :=
  let inner := { s.2 with sourcesInScope := s.2.sourcesInScope.insertVersion entry.1 version }
  (if inner.isMissingArtifacts entry.1 version profile then s.1.insert entry.1 else s.1,
    if entry.1 ∈ inner.cache.files then inner else inner.createCacheEntry H entry.1 entry.2)

theorem checkSources_eq (sources : List (PathBuf × Source)) :
    inner.checkSources H sources version profile =
      sources.foldl (checkSource H version profile) ([], inner) := rfl

end FoundryCore.ArtifactsCacheInner
