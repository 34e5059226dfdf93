import FoundryCore.Cache.Builds

/-!
# Settings behind cached artifacts

The cache records settings for each profile. They are kept as long as they can serve what the
project asks for, and artifacts of the profile are kept with them, so the recorded settings stand
for those that the artifacts were compiled with. They are backed by the artifacts if they promise no
more than these.
-/

open Std

namespace FoundryCore

variable {S γ α δ β : Type} [CompilerSettings S]

/-- Whatever the recorded settings can serve, the others can serve as well. -/
def PromisesNoMore (recorded others : S) : Prop :=
  ∀ requested, CompilerSettings.canUseCached requested recorded = true →
    CompilerSettings.canUseCached requested others = true

theorem PromisesNoMore.refl (settings : S) : PromisesNoMore settings settings :=
  fun _ accepted => accepted

/-- The settings that the cache has for a profile while files are compiled: what it recorded as long
as it can serve what the profile asks for, and what the profile asks for otherwise. -/
def Project.standing (project : Project S γ α) (cache : CompilerCache S) (profile : String) :
    Option S :=
  project.settingsProfiles[profile]?.map fun requested =>
    (cache.profiles[profile]?.filter (CompilerSettings.canUseCached requested)).getD requested

/-! ## Recorded settings -/

namespace ArtifactsCacheInner

variable {inner : ArtifactsCacheInner S γ α δ β} {profile : String} {recorded : S}

theorem mem_dirtyProfiles :
    profile ∈ inner.dirtyProfiles ↔ ∃ recorded, inner.cache.profiles[profile]? = some recorded ∧
      inner.project.settingsProfiles[profile]?.any
        (CompilerSettings.canUseCached · recorded) = false := by
  simp only [dirtyProfiles, List.mem_map, List.mem_filter, Prod.exists,
    ExtTreeMap.mem_toList_iff_getElem?_eq_some, Bool.not_eq_true']
  constructor
  · rintro ⟨_, recorded, ⟨getEq, gone⟩, rfl⟩
    exact ⟨recorded, getEq, gone⟩
  · rintro ⟨recorded, getEq, gone⟩
    exact ⟨profile, recorded, ⟨getEq, gone⟩, rfl⟩

/-- The settings that are recorded stay unless they are dirty. -/
theorem getElem?_profiles_updateProfiles (profile : String) :
    inner.updateProfiles.cache.profiles[profile]? =
      (if profile ∈ inner.dirtyProfiles then none else inner.cache.profiles[profile]?).or
        inner.project.settingsProfiles[profile]? := by
  have loop := Library.foldl_toList (a := profile) inner.project.settingsProfiles
    (fun profiles : ExtTreeMap String S => profiles[profile]?)
    (fun profiles profile settings =>
      if profile ∈ profiles then profiles else profiles.insert profile settings)
    (fun settings old => old.or (some settings)) ?_
    (inner.dirtyProfiles.foldl ExtTreeMap.erase inner.cache.profiles)
  · refine loop.trans ?_
    rw [Library.getElem?_foldl_erase]
    cases inner.project.settingsProfiles[profile]? <;> simp
  · intro profiles p settings
    by_cases same : profile = p
    · subst same
      rw [if_pos rfl]
      split_ifs with known
      · obtain ⟨old, getEq⟩ :=
          Option.isSome_iff_exists.mp (ExtTreeMap.mem_iff_isSome_getElem?.mp known)
        simp [getEq]
      · rw [ExtTreeMap.mem_iff_isSome_getElem?, Option.not_isSome_iff_eq_none] at known
        simp [known]
    · rw [if_neg same]
      split_ifs
      · rfl
      · rw [Library.getElem?_insert_eq, if_neg same]

/-- What is recorded after the update. -/
theorem profiles_updateProfiles (profile : String) :
    inner.updateProfiles.cache.profiles[profile]? =
      inner.project.standing inner.cache profile := by
  rw [getElem?_profiles_updateProfiles, Project.standing]
  cases recordedEq : inner.cache.profiles[profile]? with
  | none => cases inner.project.settingsProfiles[profile]? <;> simp
  | some recorded =>
    have dirty_iff : profile ∈ inner.dirtyProfiles ↔ _ := mem_dirtyProfiles
    simp only [recordedEq, Option.some.injEq, exists_eq_left'] at dirty_iff
    cases requestedEq : inner.project.settingsProfiles[profile]? with
    | none => simp [dirty_iff, requestedEq]
    | some requested =>
      cases accepted : CompilerSettings.canUseCached requested recorded <;>
        simp [dirty_iff, requestedEq, accepted, Option.filter]

end ArtifactsCacheInner

/-! ### Steps that leave the settings alone -/

/-- The project and the recorded settings are the same. -/
structure ArtifactsCacheInner.SameSettings (inner inner' : ArtifactsCacheInner S γ α δ β) :
    Prop where
  project : inner'.project = inner.project
  profiles : inner'.cache.profiles = inner.cache.profiles

namespace ArtifactsCacheInner

variable {H : Hashes} {parser : SourceParser δ} {fs : FileSystem} {order : HashOrder}
  {inner inner' inner'' : ArtifactsCacheInner S γ α δ β} {version : Version} {profile : String}

omit [CompilerSettings S] in
theorem SameSettings.trans (first : inner.SameSettings inner')
    (second : inner'.SameSettings inner'') : inner.SameSettings inner'' :=
  ⟨second.project.trans first.project, second.profiles.trans first.profiles⟩

theorem sameSettings_removeDirty :
    inner.updateProfiles.SameSettings (inner.removeDirtySources H parser fs order) := by
  refine ⟨?_, by simp only [removeDirtySources, cache_findDirtySources]⟩
  simp only [removeDirtySources, findDirtySources]
  split
  · next graph _ =>
    obtain ⟨c, i, same, -⟩ := fillHashes_spec H inner.updateProfiles graph.intoSources.1
    simp only [markGraph, same]
  · rfl

omit [CompilerSettings S] in
theorem sameSettings_filter (sources : Sources) :
    inner.SameSettings (inner.filter H sources version profile).2 := by
  suffices ∀ (files : List (PathBuf × Source)) (s : List PathBuf × ArtifactsCacheInner S γ α δ β),
      s.2.SameSettings (files.foldl (checkSource H version profile) s).2 from
    this sources.toList ([], inner)
  intro files
  induction files with
  | nil => exact fun s => ⟨rfl, rfl⟩
  | cons entry files ih =>
    intro s
    refine SameSettings.trans ?_ (ih _)
    simp only [checkSource]
    split_ifs
    · exact ⟨rfl, rfl⟩
    · obtain ⟨created, _, _, -, eq⟩ := createCacheEntry_spec H { s.2 with
        sourcesInScope := s.2.sourcesInScope.insertVersion entry.1 version } entry.1 entry.2
      simp only [eq]
      exact ⟨rfl, rfl⟩

omit [CompilerSettings S] in
theorem sameSettings_compilerSeen (file : PathBuf) :
    inner.SameSettings (inner.compilerSeen file) := by
  unfold compilerSeen
  split <;> exact ⟨rfl, rfl⟩

end ArtifactsCacheInner

/-! ## Backed settings -/

/-- What is known about the settings that artifacts were made with, by source file, contract,
version, profile and build. -/
abbrev Provenance (S : Type) := S → PathBuf → String → Version → String → String → Prop

/-- Files are known by their paths relative to the root. -/
def Provenance.stripped {S : Type} (root : PathBuf) (M : Provenance S) : Provenance S :=
  fun settings key name version profile buildId => ∃ file : PathBuf, file.Rooted ∧
    file.stripPrefixOrSelf root = key ∧ M settings file name version profile buildId

namespace CompilerCache

variable {cache cache' : CompilerCache S} {M M' : Provenance S} {P : PathBuf → Prop}

/-- The settings recorded for the profile of an artifact promise no more than settings that the
artifact was made with. -/
def Backed (M : Provenance S) (cache : CompilerCache S) : Prop :=
  ∀ (file : PathBuf) entry, cache.files[file]? = some entry → ∀ name version profile a,
    entry.artifacts.find? name version profile = some a →
      ∃ recorded, cache.profiles[profile]? = some recorded ∧
        ∃ settings, M settings file name version profile a.buildId ∧
          PromisesNoMore recorded settings

namespace Backed

theorem of_empty (none : cache.files = ∅) : cache.Backed M := by
  intro file entry getEq
  simp [none] at getEq

theorem mono (backed : cache.Backed M)
    (imp : ∀ settings file name version profile buildId,
      M settings file name version profile buildId →
        M' settings file name version profile buildId) : cache.Backed M' := by
  intro file entry getEq name version profile a found
  obtain ⟨recorded, getEq', settings, made, le⟩ :=
    backed file entry getEq name version profile a found
  exact ⟨recorded, getEq', settings, imp _ _ _ _ _ _ made, le⟩

theorem of_within (backed : cache.Backed M) (within : Within P cache cache')
    (same : cache'.profiles = cache.profiles) : cache'.Backed M := by
  intro file entry' getEq name version profile a found
  rw [same]
  rcases within.entries file entry' getEq with ⟨-, bare⟩ | ⟨entry, getEq', fewer⟩
  · simp [bare name version profile] at found
  · exact backed file entry getEq' name version profile a (fewer name version profile a found)

end Backed

end CompilerCache

namespace ArtifactsCacheInner

variable {inner : ArtifactsCacheInner S γ α δ β} {M : Provenance S} {written : Artifacts α}
  {buildInfos : List (RawBuildInfo β)}

/-- An artifact that the update keeps was kept by its profile. -/
theorem profile_of_updateProfiles {file : PathBuf} {entry : CacheEntry}
    (getEq : inner.updateProfiles.cache.files[file]? = some entry) {name profile : String}
    {version : Version} {a : CachedArtifact}
    (found : entry.artifacts.find? name version profile = some a) :
    profile ∉ inner.dirtyProfiles := by
  simp only [updateProfiles, ExtTreeMap.getElem?_filterMap'] at getEq
  obtain ⟨old, -, eq⟩ := Option.bind_eq_some_iff.mp getEq
  split_ifs at eq with bare
  · cases eq
    simp [CachedArtifacts.find?, ExtTreeMap.isEmpty_iff.mp bare] at found
  · cases eq
    rw [CacheEntry.find?_retainProfiles] at found
    split_ifs at found with kept
    simpa using kept

/-- The update drops the artifacts of a profile whenever it replaces its settings. -/
theorem backed_updateProfiles (backed : inner.cache.Backed M) :
    inner.updateProfiles.cache.Backed M := by
  intro file entry' getEq name version profile a found
  have clean := profile_of_updateProfiles getEq found
  rcases (updateProfiles_within (P := fun _ => False)).entries file entry' getEq with
    ⟨⟨⟩, -⟩ | ⟨entry, getEq', fewer⟩
  obtain ⟨recorded, known, made⟩ :=
    backed file entry getEq' name version profile a (fewer name version profile a found)
  refine ⟨recorded, ?_, made⟩
  rw [getElem?_profiles_updateProfiles, if_neg clean, known, Option.some_or]

/-- What the update keeps was made with settings that can serve what its profile asks for. -/
theorem exists_made_of_updateProfiles (backed : inner.cache.Backed M) {file : PathBuf}
    {entry : CacheEntry} (getEq : inner.updateProfiles.cache.files[file]? = some entry)
    {name profile : String} {version : Version} {a : CachedArtifact}
    (found : entry.artifacts.find? name version profile = some a) {requested : S}
    (asked : inner.project.settingsProfiles[profile]? = some requested) :
    ∃ settings, M settings file name version profile a.buildId ∧
      CompilerSettings.canUseCached requested settings = true := by
  have clean := profile_of_updateProfiles getEq found
  rcases (updateProfiles_within (P := fun _ => False)).entries file entry getEq with
    ⟨⟨⟩, -⟩ | ⟨entry, getEq', fewer⟩
  obtain ⟨recorded, known, settings, made, le⟩ :=
    backed file entry getEq' name version profile a (fewer name version profile a found)
  refine ⟨settings, made, le requested ?_⟩
  rw [mem_dirtyProfiles] at clean
  push Not at clean
  simpa [asked] using clean recorded known

/-- Artifacts are written to the cache with settings behind them. -/
theorem backed_mergeWritten (backed : inner.cache.Backed M)
    (made : ∀ file name, ∀ w ∈ written.filesOf file name,
      ∃ recorded, inner.cache.profiles[w.profile]? = some recorded ∧
        ∃ settings, M settings file name w.version w.profile w.buildId ∧
          PromisesNoMore recorded settings) :
    (inner.mergeWritten written buildInfos).Backed M := by
  intro file entry' getEq name version profile a found
  rcases of_find?_mergeWritten getEq found with ⟨entry, getEq', old⟩ | ⟨w, mem, rfl, rfl, rfl⟩
  · exact backed file entry getEq' name version profile a old
  · exact made file name w mem

/-- What is written to the cache file. -/
theorem backed_consume (backed : (inner.mergeWritten written buildInfos).Backed M)
    (rooted : inner.cache.RootedFiles) :
    (inner.consume written buildInfos).2.Backed (M.stripped inner.project.root) := by
  intro key entry' getEq name version profile a found
  rw [consume, CompilerCache.stripArtifactFilesPrefixes, CompilerCache.getElem?_mapEntries] at getEq
  obtain ⟨entry, stored, eq⟩ := Option.map_eq_some_iff.mp getEq
  rw [← eq, CacheEntry.stripArtifactFilesPrefixes, CacheEntry.find?_mapPaths] at found
  obtain ⟨original, known, rfl⟩ := Option.map_eq_some_iff.mp found
  obtain ⟨⟨file, entry⟩, mem, eq⟩ := List.mem_map.mp (Library.mem_of_getElem?_ofList stored)
  cases eq
  have merged := ExtTreeMap.mem_toList_iff_getElem?_eq_some.mp mem
  obtain ⟨recorded, recordedEq, settings, made, le⟩ :=
    backed file entry merged name version profile original known
  refine ⟨recorded, recordedEq, settings, ⟨file, rooted file ?_, rfl, made⟩, le⟩
  have member : file ∈ (inner.mergeWritten written buildInfos).files :=
    ExtTreeMap.mem_iff_isSome_getElem?.mpr (Option.isSome_of_eq_some merged)
  exact mem_files_mergeWritten.mp member

end ArtifactsCacheInner

/-- What is read from a cache file. -/
theorem CompilerCache.Backed.readJoined {cache : CompilerCache S} {M : Provenance S}
    {paths : ProjectPathsConfig} (backed : cache.Backed (M.stripped paths.root)) :
    (cache.readJoined paths).Backed M := by
  intro file entry' getEq name version profile a found
  rw [CompilerCache.readJoined, joinArtifactsFiles, getElem?_mapEntries] at getEq
  obtain ⟨entry, joined, eq⟩ := Option.map_eq_some_iff.mp getEq
  rw [← eq, CacheEntry.joinArtifactsFiles, CacheEntry.find?_mapPaths] at found
  obtain ⟨original, known, rfl⟩ := Option.map_eq_some_iff.mp found
  obtain ⟨key, rfl, stored⟩ := exists_of_joinEntries joined
  obtain ⟨recorded, recordedEq, settings, ⟨file, rooted, rfl, made⟩, le⟩ :=
    backed key entry stored name version profile original known
  exact ⟨recorded, recordedEq, settings, by rwa [rooted.join_strip], le⟩

end FoundryCore
