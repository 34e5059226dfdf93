import FoundryCore.Cache.Inner
import FoundryCore.Resolver.Rooted

/-!
# Artifacts of an entry

What merging, renaming and dropping do to the artifacts that the cache knows for a contract, a
version and a profile, and that the paths in the cache file are the same after they were made
relative and joined again.
-/

open Std

namespace FoundryCore

variable {S γ α δ β : Type} {name : String} {version : Version} {profile : String}

/-! ## Cached artifacts -/

namespace CacheEntry

variable (entry : CacheEntry)

/-- What the cache keeps of an artifact that was written. -/
def cachedOf (a : ArtifactFile α) : CachedArtifact := ⟨a.file, a.buildId⟩

theorem find?_insertArtifact (n : String) (a : ArtifactFile α) :
    (entry.insertArtifact n a).artifacts.find? name version profile =
      if name = n ∧ a.version = version ∧ a.profile = profile then some (cachedOf a)
      else entry.artifacts.find? name version profile := by
  simp only [insertArtifact, CachedArtifacts.find?, Library.getElem?_insert_eq]
  by_cases n_eq : name = n
  · subst n_eq
    simp only [if_true, Option.bind_some, Library.getElem?_insert_eq, true_and]
    by_cases v_eq : version = a.version
    · subst v_eq
      simp only [if_true, Option.bind_some, Library.getElem?_insert_eq, true_and]
      by_cases p_eq : profile = a.profile
      · simp [p_eq, cachedOf]
      · rw [if_neg p_eq, if_neg (Ne.symm p_eq)]
        cases entry.artifacts[name]? with
        | none => simp
        | some versions =>
          simp only [Option.getD_some, Option.bind_some]
          cases versions[a.version]? <;> simp
    · rw [if_neg v_eq, if_neg fun same => v_eq same.1.symm]
      cases entry.artifacts[name]? <;> simp
  · simp [n_eq]

/-- The last of the artifacts for a version and a profile. -/
def lastFor (files : List (ArtifactFile α)) (version : Version) (profile : String) :
    Option (ArtifactFile α) :=
  files.reverse.find? fun a => a.version = version ∧ a.profile = profile

theorem find?_foldl_insertArtifact (n : String) (files : List (ArtifactFile α)) :
    (files.foldl (fun entry a => entry.insertArtifact n a) entry).artifacts.find? name version
        profile =
      if name = n then ((lastFor files version profile).map cachedOf).or
          (entry.artifacts.find? name version profile)
      else entry.artifacts.find? name version profile := by
  induction files using List.reverseRecOn with
  | nil => simp [lastFor]
  | append_singleton files a ih =>
    rw [List.foldl_append, List.foldl_cons, List.foldl_nil, find?_insertArtifact, ih]
    simp only [lastFor, List.reverse_append, List.reverse_singleton, List.singleton_append,
      List.find?_cons]
    by_cases n_eq : name = n <;> by_cases same : a.version = version ∧ a.profile = profile <;>
      simp [n_eq, same]

/-- Merging sets the artifacts that were written last, and keeps the others. -/
theorem find?_mergeArtifacts (artifacts : ExtTreeMap String (List (ArtifactFile α))) :
    (entry.mergeArtifacts artifacts).artifacts.find? name version profile =
      ((lastFor (artifacts[name]?.getD []) version profile).map cachedOf).or
        (entry.artifacts.find? name version profile) := by
  have spec := Library.foldl_toList artifacts (a := name)
    (fun entry : CacheEntry => entry.artifacts.find? name version profile)
    (fun entry n files => files.foldl (fun entry a => entry.insertArtifact n a) entry)
    (fun files old => ((lastFor files version profile).map cachedOf).or old)
    (fun entry n files => find?_foldl_insertArtifact entry n files) entry
  refine spec.trans ?_
  cases artifacts[name]? <;> simp [lastFor]

/-- Merging changes nothing but the artifacts. -/
theorem mergeArtifacts_eq (artifacts : ExtTreeMap String (List (ArtifactFile α))) :
    entry.mergeArtifacts artifacts =
      { entry with artifacts := (entry.mergeArtifacts artifacts).artifacts } := by
  unfold mergeArtifacts
  refine List.foldlRecOn artifacts.toList _
    (motive := fun e : CacheEntry => e = { entry with artifacts := e.artifacts }) rfl
    fun e same x _ => ?_
  refine List.foldlRecOn x.2 _
    (motive := fun e : CacheEntry => e = { entry with artifacts := e.artifacts }) same
    fun e same a _ => ?_
  rw [same]
  rfl

/-- Dropping profiles leaves the artifacts of the others. -/
theorem find?_retainProfiles (keep : String → Bool) :
    (entry.retainProfiles keep).artifacts.find? name version profile =
      if keep profile then entry.artifacts.find? name version profile else none := by
  have kept : ∀ {κ β ω : Type} [Ord κ] [TransOrd κ] (m : ExtTreeMap κ β)
      (f : ExtTreeMap κ β → Option ω), f ∅ = none →
      (if m.isEmpty then none else some m).bind f = f m := by
    intro κ β ω _ _ m f empty
    split_ifs with nil
    · rw [ExtTreeMap.isEmpty_iff.mp nil, empty]
      rfl
    · rfl
  simp only [retainProfiles, CachedArtifacts.find?, ExtTreeMap.getElem?_filterMap']
  cases entry.artifacts[name]? with
  | none => simp
  | some versions =>
    simp only [Option.bind_some]
    rw [kept _ (·[version]?) (by simp), ExtTreeMap.getElem?_filterMap']
    cases versions[version]? with
    | none => simp
    | some profiles =>
      simp only [Option.bind_some]
      rw [kept _ (·[profile]?) (by simp), ExtTreeMap.getElem?_filter']
      cases profiles[profile]? <;> simp [Option.filter]

theorem find?_mapPaths (f : PathBuf → PathBuf) :
    (entry.mapPaths f).artifacts.find? name version profile =
      (entry.artifacts.find? name version profile).map fun a => { a with path := f a.path } := by
  simp only [mapPaths, CachedArtifacts.find?, ExtTreeMap.getElem?_map]
  cases entry.artifacts[name]? with
  | none => rfl
  | some versions =>
    simp only [Option.map_some, Option.bind_some, ExtTreeMap.getElem?_map]
    cases versions[version]? with
    | none => rfl
    | some profiles => simp [ExtTreeMap.getElem?_map]

end CacheEntry

/-! ## The cache file -/

namespace CompilerCache

variable {cache : CompilerCache S} {root folder : PathBuf} {file : PathBuf} {entry : CacheEntry}

theorem getElem?_mapEntries (f : CacheEntry → CacheEntry) :
    (cache.mapEntries f).files[file]? = cache.files[file]?.map f := by
  simp [mapEntries]

/-- The keys of the files are absolute. -/
def RootedFiles (cache : CompilerCache S) : Prop := ∀ file ∈ cache.files, file.Rooted

/-- The paths of the artifacts are absolute. -/
def RootedArtifacts (cache : CompilerCache S) : Prop :=
  ∀ (file : PathBuf) entry, cache.files[file]? = some entry → ∀ name version profile a,
    entry.artifacts.find? name version profile = some a → a.path.Rooted

/-- Absolute keys are told apart by what is left of them. -/
theorem RootedFiles.stripPrefixOrSelf_inj (rooted : cache.RootedFiles) (root : PathBuf) :
    ∀ file ∈ cache.files, ∀ file' ∈ cache.files,
      file.stripPrefixOrSelf root = file'.stripPrefixOrSelf root → file = file' := by
  intro file mem file' mem' eq
  rw [← (rooted file mem).join_strip root, eq, (rooted file' mem').join_strip root]

/-- Absolute keys are the same after they were stripped of the root and joined with it, whatever
happened to the entries in between. -/
theorem getElem?_joinEntries (rooted : cache.RootedFiles) (root : PathBuf)
    (f : CacheEntry → CacheEntry) (file : PathBuf) :
    (((cache.stripEntriesPrefix root).mapEntries f).joinEntries root).files[file]? =
      cache.files[file]?.map f := by
  have inj := rooted.stripPrefixOrSelf_inj root
  have stored : ∀ (key : PathBuf) entry,
      ((cache.stripEntriesPrefix root).mapEntries f).files[key]? = some entry ↔
        ∃ file : PathBuf, file.stripPrefixOrSelf root = key ∧
          ∃ original, cache.files[file]? = some original ∧ f original = entry := by
    intro key entry
    rw [getElem?_mapEntries, Option.map_eq_some_iff]
    constructor
    · rintro ⟨original, getEq, eq⟩
      obtain ⟨file, name, found⟩ := (Library.getElem?_ofList_map inj).mp getEq
      exact ⟨file, name, original, found, eq⟩
    · rintro ⟨file, name, original, found, eq⟩
      exact ⟨original, (Library.getElem?_ofList_map inj).mpr ⟨file, name, found⟩, eq⟩
  have joined : ∀ (file : PathBuf) entry, cache.files[file]? = some entry →
      root.join (file.stripPrefixOrSelf root) = file := fun file entry found =>
    (rooted file (by simp [ExtTreeMap.mem_iff_isSome_getElem?, found])).join_strip root
  have back : ∀ key ∈ ((cache.stripEntriesPrefix root).mapEntries f).files,
      ∀ key' ∈ ((cache.stripEntriesPrefix root).mapEntries f).files,
        root.join key = root.join key' → key = key' := by
    intro key mem key' mem' eq
    obtain ⟨entry, getEq⟩ := Option.isSome_iff_exists.mp (ExtTreeMap.mem_iff_isSome_getElem?.mp mem)
    obtain ⟨entry', getEq'⟩ :=
      Option.isSome_iff_exists.mp (ExtTreeMap.mem_iff_isSome_getElem?.mp mem')
    obtain ⟨file, rfl, original, found, -⟩ := (stored key entry).mp getEq
    obtain ⟨file', rfl, original', found', -⟩ := (stored key' entry').mp getEq'
    rw [joined file original found, joined file' original' found'] at eq
    rw [eq]
  refine Option.ext fun entry => ?_
  rw [Option.map_eq_some_iff]
  refine (Library.getElem?_ofList_map back).trans ?_
  simp only [stored]
  constructor
  · rintro ⟨key, rfl, file', rfl, original, found, eq⟩
    exact ⟨original, by rwa [joined file' original found], eq⟩
  · rintro ⟨original, found, eq⟩
    exact ⟨_, joined file original found, file, rfl, original, found, eq⟩

/-- What a run reads of a cache file that an earlier run of the project wrote. -/
theorem getElem?_readJoined (rooted : cache.RootedFiles) (paths : ProjectPathsConfig)
    (file : PathBuf) :
    (((cache.stripEntriesPrefix paths.root).stripArtifactFilesPrefixes paths.artifacts).readJoined
        paths).files[file]? =
      cache.files[file]?.map fun entry =>
        (entry.stripArtifactFilesPrefixes paths.artifacts).joinArtifactsFiles paths.artifacts := by
  rw [readJoined, joinArtifactsFiles, getElem?_mapEntries, stripArtifactFilesPrefixes,
    getElem?_joinEntries rooted, Option.map_map]
  rfl

end CompilerCache

end FoundryCore
