import FoundryCore.Cache.Entries
import FoundryCore.Cache.Filter

/-!
# Builds of the cache

The cache lists the builds that its artifacts are linked to. Until artifacts are written, a run
only drops artifacts and adds entries without any, so that the builds it read are still enough.
What is written is linked to the builds of the run, and builds without an artifact are forgotten
last.
-/

open Std

namespace FoundryCore

variable {S γ α δ β : Type}

/-- An artifact of the entry is linked to the build. -/
def CacheEntry.LinkedTo (entry : CacheEntry) (id : String) : Prop :=
  ∃ name version profile a, entry.artifacts.find? name version profile = some a ∧ a.buildId = id

theorem CacheEntry.linkedTo_iff {entry : CacheEntry} {id : String} :
    entry.LinkedTo id ↔ (entry.artifacts.entries.any fun (_, _, _, a) => a.buildId = id) := by
  simp only [LinkedTo, List.any_eq_true, Prod.exists, CachedArtifacts.mem_entries,
    decide_eq_true_eq]

/-- Whatever artifact the entry has, the other has too. -/
def CacheEntry.Fewer (entry other : CacheEntry) : Prop :=
  ∀ name version profile a, entry.artifacts.find? name version profile = some a →
    other.artifacts.find? name version profile = some a

/-- There are no artifacts in the entry. -/
def CacheEntry.Bare (entry : CacheEntry) : Prop :=
  ∀ name version profile, entry.artifacts.find? name version profile = none

namespace CompilerCache

variable {cache cache' cache'' : CompilerCache S} {P : PathBuf → Prop} {id : String}

/-- A cached artifact is linked to the build. -/
def References (cache : CompilerCache S) (id : String) : Prop :=
  ∃ (file : PathBuf) (entry : CacheEntry), cache.files[file]? = some entry ∧ entry.LinkedTo id

theorem mem_outdatedBuilds :
    id ∈ cache.outdatedBuilds ↔ id ∈ cache.builds ∧ ¬ cache.References id := by
  have references : cache.References id ↔ cache.files.toList.any fun x =>
      x.2.artifacts.entries.any fun y => y.2.2.2.buildId = id := by
    simp only [References, CacheEntry.linkedTo_iff, List.any_eq_true (l := cache.files.toList),
      Prod.exists, ExtTreeMap.mem_toList_iff_getElem?_eq_some]
  rw [references, outdatedBuilds, List.mem_filter, ExtTreeSet.mem_toList]
  simp

/-- The builds that are kept are those with an artifact. -/
theorem mem_removeOutdatedBuilds :
    id ∈ cache.removeOutdatedBuilds.builds ↔ id ∈ cache.builds ∧ cache.References id := by
  rw [removeOutdatedBuilds, Library.mem_eraseMany, mem_outdatedBuilds]
  tauto

/-! ## Entries that only lose artifacts -/

/-- The entries are those of the other cache with fewer artifacts, or new ones without any. -/
structure Within (P : PathBuf → Prop) (cache cache' : CompilerCache S) : Prop where
  builds : cache'.builds = cache.builds
  entries : ∀ (file : PathBuf) entry', cache'.files[file]? = some entry' →
    (P file ∧ entry'.Bare) ∨ ∃ entry, cache.files[file]? = some entry ∧ entry'.Fewer entry

namespace Within

theorem of_entries (builds : cache'.builds = cache.builds)
    (entries : ∀ (file : PathBuf) entry', cache'.files[file]? = some entry' →
      ∃ entry, cache.files[file]? = some entry ∧ entry'.Fewer entry) : Within P cache cache' :=
  ⟨builds, fun file entry' getEq => .inr (entries file entry' getEq)⟩

theorem refl (cache : CompilerCache S) : Within P cache cache :=
  of_entries rfl fun _ entry getEq => ⟨entry, getEq, fun _ _ _ _ found => found⟩

theorem trans (first : Within P cache cache') (second : Within P cache' cache'') :
    Within P cache cache'' := by
  refine ⟨second.builds.trans first.builds, fun file entry'' getEq => ?_⟩
  rcases second.entries file entry'' getEq with fresh | ⟨entry', getEq', less⟩
  · exact .inl fresh
  · rcases first.entries file entry' getEq' with ⟨holds, none⟩ | ⟨entry, getEq, less'⟩
    · refine .inl ⟨holds, fun name version profile => ?_⟩
      rw [Option.eq_none_iff_forall_ne_some]
      intro a found
      simpa [none name version profile] using less name version profile a found
    · exact .inr ⟨entry, getEq, fun name version profile a found =>
        less' name version profile a (less name version profile a found)⟩

theorem references (within : Within P cache cache') (references : cache'.References id) :
    cache.References id := by
  obtain ⟨file, entry', getEq, name, version, profile, a, found, linked⟩ := references
  rcases within.entries file entry' getEq with ⟨-, none⟩ | ⟨entry, getEq', less⟩
  · simp [none name version profile] at found
  · exact ⟨file, entry, getEq', name, version, profile, a, less name version profile a found,
      linked⟩

end Within

theorem removeMissingFiles_within (fs : FileSystem) :
    Within P cache (cache.removeMissingFiles fs) := by
  refine .of_entries rfl fun file entry getEq => ⟨entry, ?_, fun _ _ _ _ found => found⟩
  rw [removeMissingFiles, ExtTreeMap.getElem?_filter'] at getEq
  exact (Option.filter_eq_some_iff.mp getEq).1

/-- While a project is compiled: the builds of all artifacts are listed. -/
structure Consistent (cache : CompilerCache S) : Prop where
  builds : ∀ id, cache.References id → id ∈ cache.builds
  rooted : cache.RootedFiles

theorem Consistent.of_within (consistent : cache.Consistent)
    (within : Within PathBuf.Rooted cache cache') : cache'.Consistent where
  builds id references := by
    rw [within.builds]
    exact consistent.builds id (within.references references)
  rooted file mem := by
    obtain ⟨entry', getEq⟩ :=
      Option.isSome_iff_exists.mp (ExtTreeMap.mem_iff_isSome_getElem?.mp mem)
    rcases within.entries file entry' getEq with ⟨rooted, -⟩ | ⟨entry, getEq, -⟩
    · exact rooted
    · exact consistent.rooted file
        (ExtTreeMap.mem_iff_isSome_getElem?.mpr (Option.isSome_of_eq_some getEq))

end CompilerCache

namespace ArtifactsCacheInner

open CompilerCache

variable {H : Hashes} {parser : SourceParser δ} {fs : FileSystem} {order : HashOrder}
  {inner : ArtifactsCacheInner S γ α δ β} {P : PathBuf → Prop}

theorem updateProfiles_within [CompilerSettings S] :
    Within P inner.cache inner.updateProfiles.cache := by
  refine .of_entries rfl fun file entry' getEq => ?_
  simp only [updateProfiles, ExtTreeMap.getElem?_filterMap'] at getEq
  obtain ⟨entry, getEq, eq⟩ := Option.bind_eq_some_iff.mp getEq
  refine ⟨entry, getEq, ?_⟩
  split_ifs at eq
  · cases eq
    exact fun _ _ _ _ found => found
  · cases eq
    intro name version profile a found
    rw [CacheEntry.find?_retainProfiles] at found
    split_ifs at found
    exact found

theorem cache_findDirtySources :
    (inner.findDirtySources H parser fs order).cache = inner.cache := by
  simp only [findDirtySources]
  split
  · next graph _ =>
    obtain ⟨c, i, same, -⟩ := fillHashes_spec H inner graph.intoSources.1
    simp only [markGraph, same]
  · rfl

/-- After the update of the profiles, files are only removed. -/
theorem removeDirty_within [CompilerSettings S] : Within P inner.updateProfiles.cache
    (inner.removeDirtySources H parser fs order).cache := by
  refine .of_entries ?_ fun file entry getEq => ⟨entry, ?_, fun _ _ _ _ found => found⟩
  · simp only [removeDirtySources, cache_findDirtySources]
  · rw [getElem?_removeDirtySources] at getEq
    split_ifs at getEq
    exact getEq

theorem removeDirtySources_within [CompilerSettings S] :
    Within P inner.cache (inner.removeDirtySources H parser fs order).cache :=
  updateProfiles_within.trans removeDirty_within

/-- Files get entries without artifacts. -/
theorem checkSources_within {sources : List (PathBuf × Source)} {version : Version}
    {profile : String} (holds : ∀ entry ∈ sources, P entry.1) :
    Within P inner.cache (inner.checkSources H sources version profile).2.cache := by
  rw [checkSources_eq]
  suffices ∀ s : List PathBuf × ArtifactsCacheInner S γ α δ β,
      Within P s.2.cache (sources.foldl (checkSource H version profile) s).2.cache from
    this ([], inner)
  induction sources with
  | nil => exact fun s => .refl _
  | cons entry sources ih =>
    intro s
    rw [List.foldl_cons]
    refine Within.trans ?_ (ih (fun e mem => holds e (List.mem_cons_of_mem _ mem)) _)
    obtain ⟨file, source⟩ := entry
    simp only [checkSource]
    split_ifs
    · exact .refl _
    · obtain ⟨created, _, _, none, eq⟩ := createCacheEntry_spec H { s.2 with
        sourcesInScope := s.2.sourcesInScope.insertVersion file version } file source
      simp only [eq]
      refine ⟨rfl, fun f entry' getEq => ?_⟩
      rw [Library.getElem?_insert_eq] at getEq
      split_ifs at getEq with same
      · cases getEq
        refine .inl ⟨same ▸ holds _ List.mem_cons_self, fun name version profile => ?_⟩
        simp [CachedArtifacts.find?, none]
      · exact .inr ⟨entry', getEq, fun _ _ _ _ found => found⟩

theorem filter_within {sources : Sources} {version : Version} {profile : String}
    (holds : ∀ file ∈ sources, P file) :
    Within P inner.cache (inner.filter H sources version profile).2.cache :=
  checkSources_within fun entry mem =>
    holds entry.1 (ExtTreeMap.mem_keys.mp (by
      rw [← ExtTreeMap.map_fst_toList_eq_keys]
      exact List.mem_map_of_mem mem))

theorem compilerSeen_within {file : PathBuf} :
    Within P inner.cache (inner.compilerSeen file).cache := by
  unfold compilerSeen
  split
  · next entry getEq =>
    refine .of_entries rfl fun f entry' getEq' => ?_
    rw [Library.getElem?_insert_eq] at getEq'
    split_ifs at getEq' with same
    · cases getEq'
      exact ⟨entry, same ▸ getEq, fun _ _ _ _ found => found⟩
    · exact ⟨entry', getEq', fun _ _ _ _ found => found⟩
  · exact .refl _

/-! ## Written artifacts -/

variable {written : Artifacts α} {buildInfos : List (RawBuildInfo β)} {id : String}

theorem getElem?_mergeWritten (file : PathBuf) :
    (inner.mergeWritten written buildInfos).files[file]? =
      match written[file]? with
      | some artifacts => inner.cache.files[file]?.map (·.mergeArtifacts artifacts)
      | none => inner.cache.files[file]? := by
  have step : ∀ (files : ExtTreeMap PathBuf CacheEntry) (f : PathBuf)
      (artifacts : ExtTreeMap String (List (ArtifactFile α))),
      (mergeFile files f artifacts)[file]? =
        if file = f then files[file]?.map fun entry : CacheEntry => entry.mergeArtifacts artifacts
        else files[file]? := by
    intro files f artifacts
    unfold mergeFile
    split_ifs with same
    · subst same
      cases getEq : files[file]? with
      | none => simp [getEq]
      | some entry => simp
    · split
      · rw [Library.getElem?_insert_eq, if_neg same]
      · rfl
  have loop := Library.foldl_toList written
    (fun files : ExtTreeMap PathBuf CacheEntry => files[file]?) mergeFile _ step inner.cache.files
  refine Eq.trans loop ?_
  cases written[file]? <;> rfl

/-- After merging, an artifact is one the entry had or one that was written. -/
theorem of_find?_mergeWritten {file : PathBuf} {entry' : CacheEntry} {name profile : String}
    {version : Version} {a : CachedArtifact}
    (getEq : (inner.mergeWritten written buildInfos).files[file]? = some entry')
    (found : entry'.artifacts.find? name version profile = some a) :
    (∃ entry, inner.cache.files[file]? = some entry ∧
      entry.artifacts.find? name version profile = some a) ∨
        ∃ w ∈ written.filesOf file name, w.version = version ∧ w.profile = profile ∧
          CacheEntry.cachedOf w = a := by
  rw [getElem?_mergeWritten] at getEq
  cases artifactsEq : written[file]? with
  | none =>
    rw [artifactsEq] at getEq
    exact .inl ⟨entry', getEq, found⟩
  | some artifacts =>
    rw [artifactsEq] at getEq
    obtain ⟨entry, known, rfl⟩ := Option.map_eq_some_iff.mp getEq
    rw [CacheEntry.find?_mergeArtifacts] at found
    cases last : CacheEntry.lastFor (artifacts[name]?.getD []) version profile with
    | none =>
      rw [last] at found
      exact .inl ⟨entry, known, found⟩
    | some w =>
      rw [last] at found
      have same : w.version = version ∧ w.profile = profile := by
        simpa using List.find?_some last
      refine .inr ⟨w, ?_, same.1, same.2, Option.some.inj found⟩
      rw [Artifacts.filesOf, artifactsEq]
      exact List.mem_reverse.mp (List.mem_of_find?_eq_some last)

/-- After merging, artifacts are linked to the builds they had or to those of what was written. -/
theorem references_mergeWritten
    (references : (inner.mergeWritten written buildInfos).References id) :
    inner.cache.References id ∨
      ∃ file name, ∃ a ∈ written.filesOf file name, a.buildId = id := by
  obtain ⟨file, entry', getEq, name, version, profile, a, found, rfl⟩ := references
  rcases of_find?_mergeWritten getEq found with ⟨entry, known, found⟩ | ⟨w, mem, -, -, rfl⟩
  · exact .inl ⟨file, entry, known, name, version, profile, a, found, rfl⟩
  · exact .inr ⟨file, name, w, mem, rfl⟩

theorem mem_files_mergeWritten {file : PathBuf} :
    file ∈ (inner.mergeWritten written buildInfos).files ↔ file ∈ inner.cache.files := by
  rw [ExtTreeMap.mem_iff_isSome_getElem?, ExtTreeMap.mem_iff_isSome_getElem?, getElem?_mergeWritten]
  cases written[file]? <;> simp

end ArtifactsCacheInner

/-! ## The cache file -/

namespace CompilerCache

variable {cache : CompilerCache S} {paths : ProjectPathsConfig} {id : String}

theorem linkedTo_mapPaths {entry : CacheEntry} (f : PathBuf → PathBuf) :
    (entry.mapPaths f).LinkedTo id ↔ entry.LinkedTo id := by
  simp only [CacheEntry.LinkedTo, CacheEntry.find?_mapPaths, Option.map_eq_some_iff]
  constructor
  · rintro ⟨name, version, profile, _, ⟨a, found, rfl⟩, linked⟩
    exact ⟨name, version, profile, a, found, linked⟩
  · rintro ⟨name, version, profile, a, found, linked⟩
    exact ⟨name, version, profile, _, ⟨a, found, rfl⟩, linked⟩

theorem references_stripEntriesPrefix (rooted : cache.RootedFiles) (root : PathBuf) :
    (cache.stripEntriesPrefix root).References id ↔ cache.References id := by
  have inj := rooted.stripPrefixOrSelf_inj root
  constructor
  · rintro ⟨key, entry, getEq, linked⟩
    obtain ⟨file, -, getEq⟩ := (Library.getElem?_ofList_map inj).mp getEq
    exact ⟨file, entry, getEq, linked⟩
  · rintro ⟨file, entry, getEq, linked⟩
    exact ⟨_, entry, (Library.getElem?_ofList_map inj).mpr ⟨file, rfl, getEq⟩, linked⟩

theorem references_mapEntries (cache : CompilerCache S) {f : CacheEntry → CacheEntry}
    (same : ∀ entry, (f entry).LinkedTo id ↔ entry.LinkedTo id) :
    (cache.mapEntries f).References id ↔ cache.References id := by
  simp only [References, getElem?_mapEntries, Option.map_eq_some_iff]
  constructor
  · rintro ⟨file, _, ⟨entry, getEq, rfl⟩, linked⟩
    exact ⟨file, entry, getEq, (same entry).mp linked⟩
  · rintro ⟨file, entry, getEq, linked⟩
    exact ⟨file, _, ⟨entry, getEq, rfl⟩, (same entry).mpr linked⟩

/-- Paths in the cache file that are joined are those of the project, and no artifact is added. -/
theorem exists_of_joinEntries {root file : PathBuf} {entry : CacheEntry}
    (getEq : (cache.joinEntries root).files[file]? = some entry) :
    ∃ key, root.join key = file ∧ cache.files[key]? = some entry := by
  obtain ⟨⟨key, entry⟩, mem, eq⟩ := List.mem_map.mp (Library.mem_of_getElem?_ofList getEq)
  cases eq
  exact ⟨key, rfl, ExtTreeMap.mem_toList_iff_getElem?_eq_some.mp mem⟩

/-- What is stored in the cache file: exactly the builds of the artifacts. -/
structure Stored (cache : CompilerCache S) : Prop where
  builds : ∀ id, id ∈ cache.builds ↔ cache.References id
  wellFormed : ∀ file ∈ cache.files, file.WellFormed

/-- What is read is consistent. -/
theorem Stored.readJoined (stored : cache.Stored) (root : paths.root.Rooted) :
    (cache.readJoined paths).Consistent where
  builds id references := by
    obtain ⟨file, entry, getEq, linked⟩ := (references_mapEntries
      (cache.joinEntries paths.root) fun _ => linkedTo_mapPaths _).mp references
    obtain ⟨key, -, getEq⟩ := exists_of_joinEntries getEq
    exact (stored.builds id).mpr ⟨key, entry, getEq, linked⟩
  rooted file mem := by
    obtain ⟨entry, getEq⟩ := Option.isSome_iff_exists.mp (ExtTreeMap.mem_iff_isSome_getElem?.mp mem)
    rw [CompilerCache.readJoined, joinArtifactsFiles, getElem?_mapEntries] at getEq
    obtain ⟨entry, joined, -⟩ := Option.map_eq_some_iff.mp getEq
    obtain ⟨key, rfl, known⟩ := exists_of_joinEntries joined
    exact root.join (stored.wellFormed key
      (ExtTreeMap.mem_iff_isSome_getElem?.mpr (Option.isSome_of_eq_some known)))

end CompilerCache

/-- What is written is stored with exactly the builds of its artifacts. -/
theorem ArtifactsCacheInner.stored_consume {inner : ArtifactsCacheInner S γ α δ β}
    {written : Artifacts α} {buildInfos : List (RawBuildInfo β)}
    (consistent : inner.cache.Consistent)
    (linked : ∀ file name, ∀ a ∈ written.filesOf file name,
      a.buildId ∈ buildInfos.map RawBuildInfo.id) :
    (inner.consume written buildInfos).2.Stored := by
  have rooted : (inner.mergeWritten written buildInfos).RootedFiles := fun file mem =>
    consistent.rooted file (mem_files_mergeWritten.mp mem)
  have references : ∀ id, (inner.consume written buildInfos).2.References id ↔
      (inner.mergeWritten written buildInfos).References id := by
    intro id
    refine (CompilerCache.references_mapEntries _ fun _ =>
      CompilerCache.linkedTo_mapPaths _).trans ?_
    have kept : (inner.mergeWritten written buildInfos).removeOutdatedBuilds.RootedFiles := rooted
    exact CompilerCache.references_stripEntriesPrefix kept _
  refine ⟨fun id => ?_, fun file mem => ?_⟩
  · rw [references]
    refine CompilerCache.mem_removeOutdatedBuilds.trans (and_iff_right_of_imp fun refs => ?_)
    simp only [mergeWritten, ExtTreeSet.mem_insertMany_list, List.contains_iff_mem]
    rcases references_mergeWritten refs with old | ⟨file, name, a, mem, rfl⟩
    · exact .inl (consistent.builds id old)
    · exact .inr (linked file name a mem)
  · obtain ⟨entry, getEq⟩ := Option.isSome_iff_exists.mp (ExtTreeMap.mem_iff_isSome_getElem?.mp mem)
    rw [consume, CompilerCache.stripArtifactFilesPrefixes,
      CompilerCache.getElem?_mapEntries] at getEq
    obtain ⟨entry, getEq, -⟩ := Option.map_eq_some_iff.mp getEq
    obtain ⟨⟨file, entry⟩, mem, eq⟩ := List.mem_map.mp (Library.mem_of_getElem?_ofList getEq)
    cases eq
    have known := ExtTreeMap.mem_toList_iff_getElem?_eq_some.mp mem
    exact (rooted file (ExtTreeMap.mem_iff_isSome_getElem?.mpr
      (Option.isSome_of_eq_some known))).wellFormed.strip _

end FoundryCore
