import FoundryCore.Cache.Builds
import FoundryCore.Library.Stamps
import FoundryCore.Resolver.StandardJson

/-!
# Fresh artifacts

A cached artifact is fresh if its file and all files that it imports, directly or not, have the
content hashes in the cache that they had when the artifact was made. Dirty files are removed with
all files that import them, so artifacts stay fresh as long as a file with the same content imports
the same files.
-/

open Std Relation

namespace FoundryCore

open Library

variable {S γ α δ β : Type}

theorem Sources.join_mem_makeAbsolute {sources : Sources} {file : PathBuf} (mem : file ∈ sources)
    (root : PathBuf) : root.join file ∈ sources.makeAbsolute root := by
  have loop : ∀ (l : List (PathBuf × Source)) (m : Sources),
      (root.join file ∈ m ∨ ∃ entry ∈ l, entry.1 = file) → root.join file ∈
        l.foldl (fun absolute entry => absolute.insert (root.join entry.1) entry.2) m := by
    intro l
    induction l with
    | nil => exact fun m listed => listed.resolve_right (by simp)
    | cons head l ih =>
      intro m listed
      refine ih _ ?_
      rcases listed with old | ⟨entry, here, rfl⟩
      · exact .inl (by simp [old])
      · rcases List.mem_cons.mp here with rfl | later
        · exact .inl (by simp)
        · exact .inr ⟨entry, later, rfl⟩
  obtain ⟨source, getEq⟩ := Option.isSome_iff_exists.mp (ExtTreeMap.mem_iff_isSome_getElem?.mp mem)
  exact loop _ _ (.inr ⟨(file, source), ExtTreeMap.mem_toList_iff_getElem?_eq_some.mpr getEq, rfl⟩)

/-- The content hashes of the files that can be read. -/
def FileSystem.hashOf (fs : FileSystem) (H : Hashes) (file : PathBuf) : Option String :=
  (Source.read fs file).map fun source => H.contentHash source.content

/-- What a file with a content hash imports. -/
abbrev Imports := PathBuf → String → PathBuf → Prop

/-- The files of the graph import what files with their contents are said to import. -/
def GraphEdges.Follows (edges : GraphEdges δ) (I : Imports) (hash : PathBuf → Option String) :
    Prop :=
  ∀ file ∈ edges.indices, ∀ h, hash file = some h → ∀ q,
    edges.ImportsDirectly file q ↔ I file h q

/-- What is known about the contents that artifacts were made of, by source file, contract,
version, profile and build. -/
abbrev Origins := PathBuf → String → Version → String → String → (PathBuf → Option String) → Prop

namespace CompilerCache

variable {I : Imports} {M M' : Origins} {now : PathBuf → Option String}
  {cache cache' : CompilerCache S}

/-- The content hashes that the cache has. -/
def hashOf (cache : CompilerCache S) (file : PathBuf) : Option String :=
  cache.files[file]?.map CacheEntry.contentHash

theorem isSome_hashOf {file : PathBuf} : (cache.hashOf file).isSome ↔ file ∈ cache.files := by
  rw [hashOf, Option.isSome_map, ExtTreeMap.mem_iff_isSome_getElem?]

/-- Every artifact was made of contents that the cache still has for its file and all that the file
imports. -/
def Fresh (I : Imports) (M : Origins) (cache : CompilerCache S) : Prop :=
  ∀ (file : PathBuf) entry, cache.files[file]? = some entry → ∀ name version profile a,
    entry.artifacts.find? name version profile = some a →
      ∃ hash, M file name version profile a.buildId hash ∧ Unchanged I hash cache.hashOf file

/-- Files and artifacts are only removed. -/
def Reduces (cache cache' : CompilerCache S) : Prop :=
  ∀ (file : PathBuf) entry', cache'.files[file]? = some entry' →
    ∃ entry, cache.files[file]? = some entry ∧ entry'.contentHash = entry.contentHash ∧
      entry'.Fewer entry

theorem Reduces.hashOf (reduces : cache.Reduces cache') {file : PathBuf} {hash : String}
    (getEq : cache'.hashOf file = some hash) : cache.hashOf file = some hash := by
  obtain ⟨entry', left, rfl⟩ := Option.map_eq_some_iff.mp getEq
  obtain ⟨entry, known, same, -⟩ := reduces file entry' left
  rw [CompilerCache.hashOf, known, Option.map_some, same]

theorem Reduces.trans {cache'' : CompilerCache S} (first : cache.Reduces cache')
    (second : cache'.Reduces cache'') : cache.Reduces cache'' := by
  intro file entry'' getEq
  obtain ⟨entry', getEq', same', less'⟩ := second file entry'' getEq
  obtain ⟨entry, getEq, same, less⟩ := first file entry' getEq'
  exact ⟨entry, getEq, same'.trans same, fun name version profile a found =>
    less name version profile a (less' name version profile a found)⟩

theorem reduces_removeMissingFiles (fs : FileSystem) :
    cache.Reduces (cache.removeMissingFiles fs) := by
  intro file entry getEq
  rw [removeMissingFiles, ExtTreeMap.getElem?_filter'] at getEq
  exact ⟨entry, (Option.filter_eq_some_iff.mp getEq).1, rfl, fun _ _ _ _ found => found⟩

namespace Fresh

theorem of_empty (none : cache.files = ∅) : cache.Fresh I M := by
  intro file entry getEq
  simp [none] at getEq

theorem mono (fresh : cache.Fresh I M)
    (imp : ∀ file name version profile buildId hash, M file name version profile buildId hash →
      M' file name version profile buildId hash) : cache.Fresh I M' := by
  intro file entry getEq name version profile a found
  obtain ⟨hash, made, unchanged⟩ := fresh file entry getEq name version profile a found
  exact ⟨hash, imp _ _ _ _ _ _ made, unchanged⟩

/-- What is left of a fresh cache is fresh if it lacks nothing that the files import. -/
theorem reduce (fresh : cache.Fresh I M) (reduces : cache.Reduces cache')
    (settled : Settled I now cache'.hashOf) : cache'.Fresh I M := by
  intro file entry' getEq name version profile a found
  obtain ⟨entry, getEq', -, less⟩ := reduces file entry' getEq
  obtain ⟨hash, made, unchanged⟩ :=
    fresh file entry getEq' name version profile a (less name version profile a found)
  refine ⟨hash, made, settled.unchanged_of_subset unchanged (fun y h => reduces.hashOf) ?_⟩
  rw [isSome_hashOf, ExtTreeMap.mem_iff_isSome_getElem?, getEq]
  rfl

/-- Files without artifacts may be added. -/
theorem extend (fresh : cache.Fresh I M)
    (kept : ∀ (file : PathBuf) entry, cache.files[file]? = some entry →
      ∃ entry', cache'.files[file]? = some entry' ∧ entry'.contentHash = entry.contentHash)
    (fewer : ∀ (file : PathBuf) entry', cache'.files[file]? = some entry' →
      entry'.Bare ∨ ∃ entry, cache.files[file]? = some entry ∧ entry'.Fewer entry) :
    cache'.Fresh I M := by
  intro file entry' getEq name version profile a found
  rcases fewer file entry' getEq with bare | ⟨entry, getEq', less⟩
  · simp [bare name version profile] at found
  · obtain ⟨hash, made, unchanged⟩ :=
      fresh file entry getEq' name version profile a (less name version profile a found)
    refine ⟨hash, made, unchanged.mono fun y h recorded => ?_⟩
    obtain ⟨entry, known, rfl⟩ := Option.map_eq_some_iff.mp recorded
    obtain ⟨entry', known', same⟩ := kept y entry known
    rw [hashOf, known', Option.map_some, same]

end Fresh

end CompilerCache

namespace ArtifactsCacheInner

open CompilerCache

variable {H : Hashes} {parser : SourceParser δ} {fs : FileSystem} {order : HashOrder}
  {inner : ArtifactsCacheInner S γ α δ β} {I : Imports} {M : Origins}

/-! ## Dirty files are removed -/

theorem reduces_updateProfiles [CompilerSettings S] :
    inner.cache.Reduces inner.updateProfiles.cache := by
  intro file entry' getEq
  simp only [updateProfiles, ExtTreeMap.getElem?_filterMap'] at getEq
  obtain ⟨entry, getEq, eq⟩ := Option.bind_eq_some_iff.mp getEq
  refine ⟨entry, getEq, ?_⟩
  split_ifs at eq
  · cases eq
    exact ⟨rfl, fun _ _ _ _ found => found⟩
  · cases eq
    refine ⟨rfl, fun name version profile a found => ?_⟩
    rw [CacheEntry.find?_retainProfiles] at found
    split_ifs at found
    exact found

theorem reduces_removeDirtySources [CompilerSettings S] :
    inner.cache.Reduces (inner.removeDirtySources H parser fs order).cache := by
  refine reduces_updateProfiles.trans fun file entry getEq => ?_
  rw [getElem?_removeDirtySources] at getEq
  split_ifs at getEq
  exact ⟨entry, getEq, rfl, fun _ _ _ _ found => found⟩

theorem readFrom_cachedSources (rooted : inner.cache.RootedFiles) :
    (inner.cachedSources fs).ReadFrom fs := by
  have read : ∀ (file : PathBuf) (source : Source), (inner.cachedSources fs)[file]? = some source →
      file ∈ inner.cache.files ∧ Source.read fs file = some source := by
    intro file source getEq
    rw [cachedSources, ExtTreeMap.getElem?_filterMap'] at getEq
    obtain ⟨entry, known, eq⟩ := Option.bind_eq_some_iff.mp getEq
    exact ⟨ExtTreeMap.mem_iff_isSome_getElem?.mpr (Option.isSome_of_eq_some known), eq⟩
  refine ⟨fun file mem => ?_, fun file source getEq => (read file source getEq).2⟩
  obtain ⟨source, getEq⟩ := Option.isSome_iff_exists.mp (ExtTreeMap.mem_iff_isSome_getElem?.mp mem)
  exact rooted file (read file source getEq).1

section Graph

variable {graph : Graph δ} {f : PathBuf}

/-- A file of the graph that is not dirty by itself has the content that its entry says. -/
theorem exists_entry_of_clean (rooted : inner.cache.RootedFiles)
    (resolves : inner.temporaryGraph parser fs = some graph) (mem : f ∈ graph.edges.indices)
    (clean : ¬ inner.InitiallyDirty H fs graph f) :
    ∃ entry, inner.cache.files[f]? = some entry ∧ fs.hashOf H f = some entry.contentHash := by
  obtain ⟨node, here, rfl⟩ := (temporaryGraph_resolved resolves).mem_indices.mp mem
  have resolves : Graph.resolveSources parser fs inner.project.paths (inner.cachedSources fs) =
      some graph := resolves
  have read := read_of_mem_nodes (readFrom_cachedSources rooted) resolves here
  by_contra none
  refine clean (.inr ⟨node, here, rfl, fun entry getEq same => none ⟨entry, getEq, ?_⟩⟩)
  rw [FileSystem.hashOf, read, Option.map_some, same]

/-- A cached file that is not dirty by itself is in the graph. -/
theorem mem_graph_of_clean (rooted : inner.cache.RootedFiles)
    (resolves : inner.temporaryGraph parser fs = some graph) (mem : f ∈ inner.cache.files)
    (clean : ¬ inner.InitiallyDirty H fs graph f) : f ∈ graph.edges.indices := by
  refine (temporaryGraph_resolved resolves).inputs f ?_
  cases read : Source.read fs f with
  | none => exact absurd (.inl ⟨mem, read⟩) clean
  | some source =>
    have listed : f ∈ inner.cachedSources fs := by
      rw [ExtTreeMap.mem_iff_isSome_getElem?] at mem ⊢
      obtain ⟨entry, getEq⟩ := Option.isSome_iff_exists.mp mem
      rw [cachedSources, ExtTreeMap.getElem?_filterMap', getEq, Option.bind_some, read]
      rfl
    have absolute := Sources.join_mem_makeAbsolute listed inner.project.root
    rwa [PathBuf.join_of_isAbsolute (rooted f mem).isAbsolute] at absolute

end Graph

/-- What is left after the dirty files are removed has the contents that its entries say, and lacks
nothing that it imports. -/
theorem settled_removeDirtySources [CompilerSettings S] (plain : inner.cache.preprocessed = false)
    (none : inner.dirtySources = []) (hashes : inner.contentHashes = ∅)
    (rooted : inner.updateProfiles.cache.RootedFiles)
    (follows : ∀ graph, inner.updateProfiles.temporaryGraph parser fs = some graph →
      graph.edges.Follows I (fs.hashOf H)) :
    Settled I (fs.hashOf H) (inner.removeDirtySources H parser fs order).cache.hashOf := by
  have removed : ∀ f, f ∈ (inner.removeDirtySources H parser fs order).dirtySources ↔ _ :=
    @mem_findDirtySources S γ α δ β H parser fs order inner.updateProfiles none hashes plain
  have left : ∀ (f : PathBuf) entry,
      (inner.removeDirtySources H parser fs order).cache.files[f]? = some entry ↔
        f ∉ (inner.removeDirtySources H parser fs order).dirtySources ∧
          inner.updateProfiles.cache.files[f]? = some entry := by
    intro f entry
    rw [getElem?_removeDirtySources]
    split_ifs with dirty <;> simp [dirty]
  have member : ∀ {f : PathBuf} {entry}, inner.updateProfiles.cache.files[f]? = some entry →
      f ∈ inner.updateProfiles.cache.files := fun getEq =>
    ExtTreeMap.mem_iff_isSome_getElem?.mpr (Option.isSome_of_eq_some getEq)
  cases resolves : inner.updateProfiles.temporaryGraph parser fs with
  | none =>
    -- nothing is left
    have gone : ∀ (f : PathBuf) entry,
        (inner.removeDirtySources H parser fs order).cache.files[f]? ≠ some entry := by
      intro f entry getEq
      obtain ⟨clean, known⟩ := (left f entry).mp getEq
      rw [removed, resolves] at clean
      exact clean (member known)
    refine ⟨fun f h getEq => ?_, fun f mem => ?_⟩
    · obtain ⟨entry, getEq, -⟩ := Option.map_eq_some_iff.mp getEq
      exact absurd getEq (gone f entry)
    · rw [isSome_hashOf, ExtTreeMap.mem_iff_isSome_getElem?] at mem
      obtain ⟨entry, getEq⟩ := Option.isSome_iff_exists.mp mem
      exact absurd getEq (gone f entry)
  | some graph =>
    simp only [resolves] at removed
    -- what is left is in the graph, with the content of its entry
    have kept : ∀ (f : PathBuf) entry,
        (inner.removeDirtySources H parser fs order).cache.files[f]? = some entry →
          f ∈ graph.edges.indices ∧ fs.hashOf H f = some entry.contentHash := by
      intro f entry getEq
      obtain ⟨clean, known⟩ := (left f entry).mp getEq
      have clean : ¬ inner.updateProfiles.InitiallyDirty H fs graph f := fun dirty =>
        clean ((removed f).mpr ⟨f, dirty, .refl⟩)
      have mem := mem_graph_of_clean rooted resolves (member known) clean
      obtain ⟨entry', known', same⟩ := exists_entry_of_clean rooted resolves mem clean
      obtain rfl := Option.some.inj (known.symm.trans known')
      exact ⟨mem, same⟩
    refine ⟨fun f h getEq => ?_, fun f mem q needs => ?_⟩
    · obtain ⟨entry, here, rfl⟩ := Option.map_eq_some_iff.mp getEq
      exact (kept f entry here).2
    · rw [isSome_hashOf, ExtTreeMap.mem_iff_isSome_getElem?] at mem
      obtain ⟨entry, getEq⟩ := Option.isSome_iff_exists.mp mem
      obtain ⟨h, now, imports⟩ := needs
      have edge : graph.edges.ImportsDirectly f q :=
        (follows graph resolves f (kept f entry getEq).1 h now q).mpr imports
      have clean : q ∉ (inner.removeDirtySources H parser fs order).dirtySources := by
        intro dirty
        obtain ⟨g, initially, path⟩ := (removed q).mp dirty
        exact ((left f entry).mp getEq).1 ((removed f).mpr ⟨g, initially, .head edge path⟩)
      obtain ⟨entry', known, -⟩ := exists_entry_of_clean rooted resolves edge.mem.2 fun dirty =>
        clean ((removed q).mpr ⟨q, dirty, .refl⟩)
      rw [isSome_hashOf, ExtTreeMap.mem_iff_isSome_getElem?, (left q entry').mpr ⟨clean, known⟩]
      rfl

/-! ## Files get entries -/

/-- A new entry has the hash of the content. -/
theorem createCacheEntry_hash (H : Hashes) (inner : ArtifactsCacheInner S γ α δ β)
    (file : PathBuf) (source : Source) :
    ∃ entry, entry.artifacts = ∅ ∧ entry.contentHash = H.contentHash source.content ∧
      (inner.createCacheEntry H file source).cache.files = inner.cache.files.insert file entry := by
  obtain ⟨contentHashes, interfaceReprHashes, eq⟩ := interfaceReprHash_spec H inner source file
  unfold createCacheEntry
  simp only
  split
  · simp only [eq]
    exact ⟨_, rfl, rfl, rfl⟩
  · exact ⟨_, rfl, rfl, rfl⟩

/-- The sources have entries next to those that were there before. -/
structure Supplies (H : Hashes) (sources : List (PathBuf × Source))
    (cache cache' : CompilerCache S) : Prop where
  kept : ∀ (file : PathBuf) entry, cache.files[file]? = some entry →
    cache'.files[file]? = some entry
  added : ∀ (file : PathBuf) entry, cache'.files[file]? = some entry →
    cache.files[file]? = some entry ∨ entry.Bare ∧ ∃ source, (file, source) ∈ sources ∧
      entry.contentHash = H.contentHash source.content
  covers : ∀ source ∈ sources, source.1 ∈ cache'.files

theorem supplies_checkSource {version : Version} {profile : String}
    (s : List PathBuf × ArtifactsCacheInner S γ α δ β) (entry : PathBuf × Source) :
    Supplies H [entry] s.2.cache (checkSource H version profile s entry).2.cache := by
  obtain ⟨file, source⟩ := entry
  simp only [checkSource]
  split_ifs with known
  · exact ⟨fun _ _ => id, fun _ _ => .inl, by simpa using known⟩
  · obtain ⟨created, bare, hash, eq⟩ := createCacheEntry_hash H { s.2 with
      sourcesInScope := s.2.sourcesInScope.insertVersion file version } file source
    constructor
    · intro f entry getEq
      rw [eq, Library.getElem?_insert_eq, if_neg]
      · exact getEq
      · rintro rfl
        exact known (ExtTreeMap.mem_iff_isSome_getElem?.mpr (Option.isSome_of_eq_some getEq))
    · intro f entry getEq
      rw [eq, Library.getElem?_insert_eq] at getEq
      split_ifs at getEq with same
      · cases getEq
        refine .inr ⟨fun name version profile => ?_, source, by simp [same], hash⟩
        simp [CachedArtifacts.find?, bare]
      · exact .inl getEq
    · simp [eq]

theorem supplies_checkSources {version : Version} {profile : String}
    (sources : List (PathBuf × Source)) (s : List PathBuf × ArtifactsCacheInner S γ α δ β) :
    Supplies H sources s.2.cache (sources.foldl (checkSource H version profile) s).2.cache := by
  induction sources generalizing s with
  | nil => exact ⟨fun _ _ => id, fun _ _ => .inl, by simp⟩
  | cons entry sources ih =>
    have first : Supplies H [entry] s.2.cache (checkSource H version profile s entry).2.cache :=
      supplies_checkSource s entry
    have later := ih (checkSource H version profile s entry)
    constructor
    · exact fun f e getEq => later.kept f e (first.kept f e getEq)
    · intro f e getEq
      rcases later.added f e getEq with getEq | ⟨bare, source, mem, hash⟩
      · rcases first.added f e getEq with old | ⟨bare, source, mem, hash⟩
        · exact .inl old
        · exact .inr ⟨bare, source, List.mem_cons.mpr (.inl (List.mem_singleton.mp mem)), hash⟩
      · exact .inr ⟨bare, source, List.mem_cons_of_mem _ mem, hash⟩
    · intro source mem
      rcases List.mem_cons.mp mem with rfl | mem
      · have here := first.covers source (by simp)
        rw [ExtTreeMap.mem_iff_isSome_getElem?] at here ⊢
        obtain ⟨e, getEq⟩ := Option.isSome_iff_exists.mp here
        exact Option.isSome_of_eq_some (later.kept _ e getEq)
      · exact later.covers source mem

theorem supplies_filter (sources : Sources) (version : Version) (profile : String) :
    Supplies H sources.toList inner.cache
      (inner.filter H sources version profile).2.cache := by
  simp only [filter, checkSources_eq]
  exact supplies_checkSources sources.toList ([], inner)

variable {cache cache' : CompilerCache S} {now : PathBuf → Option String} {sources : Sources}

/-- Nothing is lacking if nothing is lacking among the sources. -/
theorem Supplies.settled (supplies : Supplies H sources.toList cache cache')
    (settled : Settled I now cache.hashOf)
    (current : ∀ (file : PathBuf) source, sources[file]? = some source →
      now file = some (H.contentHash source.content))
    (closed : ∀ file ∈ sources, ∀ q, Needs I now file q → q ∈ sources) :
    Settled I now cache'.hashOf := by
  have source_at : ∀ {file : PathBuf} {source}, (file, source) ∈ sources.toList →
      sources[file]? = some source := ExtTreeMap.mem_toList_iff_getElem?_eq_some.mp
  refine ⟨fun file h getEq => ?_, fun file mem q needs => ?_⟩
  · obtain ⟨entry, here, rfl⟩ := Option.map_eq_some_iff.mp getEq
    rcases supplies.added file entry here with old | ⟨-, source, mem, hash⟩
    · exact settled.current file _ (by rw [hashOf, old]; rfl)
    · rw [current file source (source_at mem), hash]
  · rw [isSome_hashOf, ExtTreeMap.mem_iff_isSome_getElem?] at mem
    obtain ⟨entry, getEq⟩ := Option.isSome_iff_exists.mp mem
    rw [isSome_hashOf]
    rcases supplies.added file entry getEq with old | ⟨-, source, mem, hash⟩
    · have there := settled.closed file (by rw [hashOf, old]; rfl) q needs
      rw [isSome_hashOf, ExtTreeMap.mem_iff_isSome_getElem?] at there
      obtain ⟨entry', getEq'⟩ := Option.isSome_iff_exists.mp there
      exact ExtTreeMap.mem_iff_isSome_getElem?.mpr
        (Option.isSome_of_eq_some (supplies.kept q entry' getEq'))
    · have listed := closed file (ExtTreeMap.mem_iff_isSome_getElem?.mpr
        (Option.isSome_of_eq_some (source_at mem))) q needs
      obtain ⟨source', getEq'⟩ :=
        Option.isSome_iff_exists.mp (ExtTreeMap.mem_iff_isSome_getElem?.mp listed)
      exact supplies.covers (q, source') (ExtTreeMap.mem_toList_iff_getElem?_eq_some.mpr getEq')

theorem Supplies.fresh (supplies : Supplies H sources.toList cache cache')
    (fresh : cache.Fresh I M) : cache'.Fresh I M := by
  refine fresh.extend (fun file entry getEq => ⟨entry, supplies.kept file entry getEq, rfl⟩)
    fun file entry getEq => ?_
  rcases supplies.added file entry getEq with old | ⟨bare, -⟩
  · exact .inr ⟨entry, old, fun _ _ _ _ found => found⟩
  · exact .inl bare

theorem hashOf_compilerSeen (file : PathBuf) :
    (inner.compilerSeen file).cache.hashOf = inner.cache.hashOf := by
  funext f
  unfold compilerSeen
  split
  · next entry getEq =>
    simp only [hashOf]
    rw [Library.getElem?_insert_eq]
    split_ifs with same
    · subst same
      rw [getEq]
      rfl
    · rfl
  · rfl

theorem fresh_compilerSeen (fresh : inner.cache.Fresh I M) (file : PathBuf) :
    (inner.compilerSeen file).cache.Fresh I M := by
  have same : (inner.compilerSeen file).cache.hashOf = inner.cache.hashOf :=
    hashOf_compilerSeen file
  intro f entry' getEq name version profile a found
  rw [same]
  rcases (compilerSeen_within (P := fun _ => False)).entries f entry' getEq with
    ⟨⟨⟩, -⟩ | ⟨entry, getEq', less⟩
  exact fresh f entry getEq' name version profile a (less name version profile a found)

/-! ## Artifacts are written -/

variable {written : Artifacts α} {buildInfos : List (RawBuildInfo β)}

theorem hashOf_mergeWritten :
    (inner.mergeWritten written buildInfos).hashOf = inner.cache.hashOf := by
  funext file
  rw [hashOf, getElem?_mergeWritten]
  cases written[file]? with
  | none => rfl
  | some artifacts =>
    simp only [hashOf]
    rw [Option.map_map]
    refine Option.map_congr fun entry _ => ?_
    rw [Function.comp_apply, CacheEntry.mergeArtifacts_eq]

theorem fresh_mergeWritten (fresh : inner.cache.Fresh I M)
    (settled : Settled I now inner.cache.hashOf)
    (made : ∀ file name, ∀ w ∈ written.filesOf file name,
      M file name w.version w.profile w.buildId now) :
    (inner.mergeWritten written buildInfos).Fresh I M := by
  intro file entry' getEq name version profile a found
  rw [hashOf_mergeWritten]
  rcases of_find?_mergeWritten getEq found with ⟨entry, getEq', old⟩ | ⟨w, mem, rfl, rfl, rfl⟩
  · exact fresh file entry getEq' name version profile a old
  · refine ⟨now, made file name w mem, settled.unchanged ?_⟩
    rw [isSome_hashOf]
    exact mem_files_mergeWritten.mp
      (ExtTreeMap.mem_iff_isSome_getElem?.mpr (Option.isSome_of_eq_some getEq))

/-- What is written to the cache file is fresh again when it is read, wherever the artifacts are
looked for then. -/
theorem fresh_consume (fresh : (inner.mergeWritten written buildInfos).Fresh I M)
    (rooted : inner.cache.RootedFiles) {paths : ProjectPathsConfig}
    (root : paths.root = inner.project.root) :
    ((inner.consume written buildInfos).2.readJoined paths).Fresh I M := by
  have merged : (inner.mergeWritten written buildInfos).RootedFiles := fun file mem =>
    rooted file (mem_files_mergeWritten.mp mem)
  have rooted : (inner.mergeWritten written buildInfos).removeOutdatedBuilds.RootedFiles := merged
  have read : ∀ file : PathBuf,
      ((inner.consume written buildInfos).2.readJoined paths).files[file]? =
        ((inner.mergeWritten written buildInfos).files[file]?.map
          fun entry => entry.stripArtifactFilesPrefixes inner.project.paths.artifacts).map
            fun entry => entry.joinArtifactsFiles paths.artifacts := by
    intro file
    rw [readJoined, CompilerCache.joinArtifactsFiles, getElem?_mapEntries, root]
    exact congrArg (Option.map _)
      (getElem?_joinEntries rooted inner.project.root (fun entry : CacheEntry =>
        entry.stripArtifactFilesPrefixes inner.project.paths.artifacts) file)
  have same : ((inner.consume written buildInfos).2.readJoined paths).hashOf =
      (inner.mergeWritten written buildInfos).hashOf := by
    funext file
    simp only [hashOf, read, Option.map_map]
    rfl
  intro file entry' getEq name version profile a found
  rw [same]
  rw [read, Option.map_map] at getEq
  obtain ⟨entry, merged, rfl⟩ := Option.map_eq_some_iff.mp getEq
  simp only [Function.comp_apply, CacheEntry.joinArtifactsFiles,
    CacheEntry.stripArtifactFilesPrefixes, CacheEntry.find?_mapPaths, Option.map_map,
    Option.map_eq_some_iff] at found
  obtain ⟨original, known, rfl⟩ := found
  exact fresh file entry merged name version profile original known

end ArtifactsCacheInner

end FoundryCore
