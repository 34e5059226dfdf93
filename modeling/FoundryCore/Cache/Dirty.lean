import FoundryCore.Cache.Inner
import FoundryCore.Resolver.Alignment

/-!
# Dirty files

Without preprocessing, what is removed from the cache are the files that have changed and those
that import them, directly or not.
-/

open Std Relation

namespace FoundryCore.ArtifactsCacheInner

variable {S γ α δ β : Type} {H : Hashes} {parser : SourceParser δ} {fs : FileSystem}
  {order : HashOrder} {inner : ArtifactsCacheInner S γ α δ β}

/-! ## Reading the sources of the cache -/

/-- The sources of the cached files that can be read. -/
def cachedSources (fs : FileSystem) (inner : ArtifactsCacheInner S γ α δ β) : Sources :=
  inner.cache.files.filterMap fun file _ => Source.read fs file

theorem foldl_readSource (files unreadable : List PathBuf) (sources : Sources) :
    let r := files.foldl (readSource fs) (unreadable, sources)
    (∀ file, file ∈ r.1 ↔ file ∈ unreadable ∨ file ∈ files ∧ Source.read fs file = none) ∧
      ∀ file : PathBuf, r.2[file]? =
        if file ∈ files then (Source.read fs file).or sources[file]? else sources[file]? := by
  induction files generalizing unreadable sources with
  | nil => simp
  | cons f files ih =>
    rw [List.foldl_cons]
    cases read : Source.read fs f with
    | some source =>
      obtain ⟨left, right⟩ := ih unreadable (sources.insert f source)
      simp only [readSource, read]
      refine ⟨fun file => ?_, fun file => ?_⟩
      · rw [left]
        by_cases same : file = f <;> simp [same, read]
      · rw [right, Library.getElem?_insert_eq]
        by_cases same : file = f <;> by_cases later : file ∈ files <;> simp [same, later, read]
    | none =>
      obtain ⟨left, right⟩ := ih (unreadable.insert f) sources
      simp only [readSource, read]
      refine ⟨fun file => ?_, fun file => ?_⟩
      · rw [left]
        by_cases same : file = f <;> simp [same, read]
      · rw [right]
        by_cases same : file = f <;> by_cases later : file ∈ files <;> simp [same, later, read]

theorem readSources_spec (fs : FileSystem) (order : HashOrder)
    (inner : ArtifactsCacheInner S γ α δ β) :
    (∀ file, file ∈ (inner.readSources fs order).1 ↔
      file ∈ inner.cache.files ∧ Source.read fs file = none) ∧
    (inner.readSources fs order).2 = inner.cachedSources fs := by
  have all : ∀ file, file ∈ order.arrange [] inner.cache.files.keys ↔ file ∈ inner.cache.files :=
    fun file => (order.perm _ _).mem_iff.trans ExtTreeMap.mem_keys
  obtain ⟨unreadable, sources⟩ := foldl_readSource
    (order.arrange [] inner.cache.files.keys) [] ∅
  refine ⟨fun file => (unreadable file).trans (by simp [all]),
    ExtTreeMap.ext_getElem? fun file => (sources file).trans ?_⟩
  simp only [all, cachedSources, ExtTreeMap.getElem?_filterMap']
  cases entry : inner.cache.files[file]? <;> simp [ExtTreeMap.mem_iff_isSome_getElem?, entry]

/-! ## Hashes -/

/-- Filling in the hashes of a file sets its content hash if it is not set, and changes nothing
else but interface hashes. -/
theorem fillHash_spec (H : Hashes) (inner : ArtifactsCacheInner S γ α δ β) (file : PathBuf)
    (source : Source) :
    ∃ contentHashes interfaceReprHashes, inner.fillHash H (file, source) =
        { inner with contentHashes, interfaceReprHashes } ∧
      ∀ f : PathBuf, contentHashes[f]? = inner.contentHashes[f]?.or
        (if f = file then some (H.contentHash source.content) else none) := by
  -- after the content hash is set, asking for it again changes nothing
  obtain ⟨contentHashes, eq, spec⟩ : ∃ contentHashes, (inner.contentHash H source file).2 =
      { inner with contentHashes } ∧ ∀ f : PathBuf, contentHashes[f]? =
        inner.contentHashes[f]?.or
          (if f = file then some (H.contentHash source.content) else none) := by
    unfold contentHash
    split
    · next hash found =>
      refine ⟨inner.contentHashes, rfl, fun f => ?_⟩
      by_cases same : f = file <;> simp [same, found]
    · next missing =>
      refine ⟨_, rfl, fun f => ?_⟩
      rw [Library.getElem?_insert_eq]
      by_cases same : f = file <;> simp [same, missing]
  have known : ∃ hash, contentHashes[file]? = some hash := by
    rw [spec]
    cases inner.contentHashes[file]? <;> simp
  obtain ⟨hash, known⟩ := known
  simp only [fillHash, eq]
  split
  · unfold interfaceReprHash
    simp only [contentHash, known]
    split
    · exact ⟨_, _, rfl, spec⟩
    · split <;> exact ⟨_, _, rfl, spec⟩
  · exact ⟨_, _, rfl, spec⟩

theorem foldl_fillHash (H : Hashes) (inner : ArtifactsCacheInner S γ α δ β)
    (l : List (PathBuf × Source)) (distinct : (l.map Prod.fst).Nodup) :
    ∃ contentHashes interfaceReprHashes, l.foldl (fillHash H) inner =
        { inner with contentHashes, interfaceReprHashes } ∧
      ∀ f : PathBuf, (∀ source, (f, source) ∈ l → contentHashes[f]? =
          inner.contentHashes[f]?.or (some (H.contentHash source.content))) ∧
        (f ∉ l.map Prod.fst → contentHashes[f]? = inner.contentHashes[f]?) := by
  induction l generalizing inner with
  | nil => exact ⟨inner.contentHashes, inner.interfaceReprHashes, rfl, by simp⟩
  | cons entry l ih =>
    obtain ⟨file, source⟩ := entry
    simp only [List.map_cons, List.nodup_cons] at distinct
    obtain ⟨c, i, eq, spec⟩ := fillHash_spec H inner file source
    obtain ⟨c', i', eq', spec'⟩ := ih (inner.fillHash H (file, source)) distinct.2
    rw [List.foldl_cons]
    rw [eq] at eq' spec' ⊢
    refine ⟨c', i', eq', fun f => ⟨fun source' mem => ?_, fun out => ?_⟩⟩
    · obtain head | tail := List.mem_cons.mp mem
      · obtain ⟨rfl, rfl⟩ := Prod.mk.inj head
        rw [(spec' f).2 distinct.1, spec f, if_pos rfl]
      · have ne : f ≠ file := by
          rintro rfl
          exact distinct.1 (List.mem_map_of_mem (f := Prod.fst) tail)
        rw [(spec' f).1 source' tail]
        simp [spec f, ne]
    · simp only [List.map_cons, List.mem_cons, not_or] at out
      rw [(spec' f).2 out.2]
      simp [spec f, out.1]

/-- After the hashes are filled in, each source has its content hash. -/
theorem fillHashes_spec (H : Hashes) (inner : ArtifactsCacheInner S γ α δ β) (sources : Sources) :
    ∃ contentHashes interfaceReprHashes, inner.fillHashes H sources =
        { inner with contentHashes, interfaceReprHashes } ∧
      ∀ (f : PathBuf) source, sources[f]? = some source → contentHashes[f]? =
        inner.contentHashes[f]?.or (some (H.contentHash source.content)) := by
  obtain ⟨c, i, eq, spec⟩ := foldl_fillHash H inner sources.toList (by
    rw [ExtTreeMap.map_fst_toList_eq_keys]
    exact ExtTreeMap.nodup_keys)
  exact ⟨c, i, eq, fun f source getEq =>
    (spec f).1 source (ExtTreeMap.mem_toList_iff_getElem?_eq_some.mpr getEq)⟩

/-! ## The temporary graph -/

theorem parent_isSome_of_mem {root p : PathBuf}
    (mem : p ∈ (inner.cachedSources fs).makeAbsolute root) : p.parent.isSome := by
  obtain ⟨file, mem', rfl⟩ := Sources.mem_makeAbsolute mem
  have readable : file ∈ fs.files := by
    rw [← Source.read_isSome]
    simp only [cachedSources, ExtTreeMap.mem_iff_isSome_getElem?,
      ExtTreeMap.getElem?_filterMap'] at mem'
    cases entry : inner.cache.files[file]? <;> simp_all
  exact PathBuf.parent_isSome_of_fileName (PathBuf.fileName_isSome_join (fs.named file readable))

/-- The graph of the cached files. -/
def temporaryGraph (parser : SourceParser δ) (fs : FileSystem)
    (inner : ArtifactsCacheInner S γ α δ β) : Option (Graph δ) :=
  Graph.resolveSources parser fs inner.project.paths (inner.cachedSources fs)

theorem temporaryGraph_resolved {graph : Graph δ}
    (eq : inner.temporaryGraph parser fs = some graph) :
    graph.Resolved parser fs inner.project.paths
      ((inner.cachedSources fs).makeAbsolute inner.project.root) :=
  Graph.resolveSources_resolved (fun _ mem => parent_isSome_of_mem mem) eq

/-- The files that are dirty by themselves: a cached file that cannot be read, and a file of the
graph without an entry or with another content than its entry says. -/
def InitiallyDirty (H : Hashes) (fs : FileSystem) (inner : ArtifactsCacheInner S γ α δ β)
    (graph : Graph δ) (file : PathBuf) : Prop :=
  (file ∈ inner.cache.files ∧ Source.read fs file = none) ∨
    ∃ node ∈ graph.nodes, node.path = file ∧ ∀ entry, inner.cache.files[file]? = some entry →
      entry.contentHash ≠ H.contentHash node.source.content

/-- Inserting files one by one. -/
theorem mem_foldl_insert {p : PathBuf → Bool} (files dirty : List PathBuf) (f : PathBuf) :
    f ∈ files.foldl (fun dirty file => if p file then dirty.insert file else dirty) dirty ↔
      f ∈ dirty ∨ f ∈ files ∧ p f = true := by
  induction files generalizing dirty with
  | nil => simp
  | cons file files ih =>
    rw [List.foldl_cons, ih]
    by_cases same : f = file <;> by_cases holds : p file = true <;> simp_all

theorem mem_foldl_insert_all (files dirty : List PathBuf) (f : PathBuf) :
    f ∈ files.foldl (fun dirty file => dirty.insert file) dirty ↔ f ∈ dirty ∨ f ∈ files := by
  simpa using mem_foldl_insert (p := fun _ => true) files dirty f

/-- With the hashes filled in, a file of the graph is dirty if its content has changed. -/
theorem isDirty_content {file : PathBuf} {hash : String}
    (filled : inner.contentHashes[file]? = some hash) :
    inner.isDirty file false = true ↔
      ∀ entry, inner.cache.files[file]? = some entry → entry.contentHash ≠ hash := by
  unfold isDirty isDirtyImpl
  cases entry : inner.cache.files[file]? with
  | none => simp [Except.isOk, Except.toBool]
  | some e =>
    by_cases same : e.contentHash = hash <;> simp [filled, same, Except.isOk, Except.toBool]

/-- Marking from all dirty files marks what imports them. -/
theorem mem_populateAll {graph : Graph δ} {sources : Sources} {paths : ProjectPathsConfig}
    (r : graph.Resolved parser fs paths sources) (dirty : List PathBuf) (f : PathBuf) :
    f ∈ populateAll order graph.intoSources.2 dirty ↔
      ∃ g ∈ dirty, ReflTransGen graph.edges.ImportsDirectly f g := by
  have inside : ∀ x y, graph.edges.ImportsDirectly y x →
      y ∈ graph.edges.indices.keys.toFinset := fun x y edge => by
    simpa using edge.mem.1
  have marked : f ∈ populateAll order graph.intoSources.2 dirty ↔
      ∃ g ∈ dirty, ReflTransGen (fun x y => graph.edges.ImportsDirectly y x) g f :=
    Library.mem_markAll (R := fun x y => graph.intoSources.2.ImportsDirectly y x)
      (fun seen x y => (order.perm _ _).mem_iff.trans r.aligned_intoSources.mem_importers) inside
      (Nat.lt_succ_of_le ((List.toFinset_card_le _).trans ExtTreeMap.length_keys.le))
      (fun x => (order.perm _ _).mem_iff) f
  refine marked.trans (exists_congr fun g => and_congr_right fun _ => ?_)
  exact reflTransGen_swap

/-! ## What is removed -/

/-- The hashes are those of the graph's sources when the initially dirty files are looked up. -/
theorem isDirty_fillHashes (hashes : inner.contentHashes = ∅) {graph : Graph δ} {sources : Sources}
    {paths : ProjectPathsConfig} (r : graph.Resolved parser fs paths sources) {f : PathBuf} :
    (f ∈ graph.intoSources.1.keys ∧
      (inner.fillHashes H graph.intoSources.1).isDirty f false = true) ↔
      ∃ node ∈ graph.nodes, node.path = f ∧ ∀ entry, inner.cache.files[f]? = some entry →
        entry.contentHash ≠ H.contentHash node.source.content := by
  obtain ⟨hs, i, eq, spec⟩ := fillHashes_spec H inner graph.intoSources.1
  have content : ∀ node ∈ graph.nodes, node.path = f →
      ((inner.fillHashes H graph.intoSources.1).isDirty f false = true ↔
        ∀ entry, inner.cache.files[f]? = some entry →
          entry.contentHash ≠ H.contentHash node.source.content) := by
    intro node mem path
    have filled : hs[f]? = some (H.contentHash node.source.content) := by
      simp [spec f _ (r.getElem?_intoSources.mpr ⟨node, mem, path, rfl⟩), hashes]
    rw [eq, isDirty_content filled]
  rw [ExtTreeMap.mem_keys, ExtTreeMap.mem_iff_isSome_getElem?, Option.isSome_iff_exists]
  constructor
  · rintro ⟨⟨source, getEq⟩, dirty⟩
    obtain ⟨node, mem, path, -⟩ := r.getElem?_intoSources.mp getEq
    exact ⟨node, mem, path, (content node mem path).mp dirty⟩
  · rintro ⟨node, mem, path, changed⟩
    exact ⟨⟨_, r.getElem?_intoSources.mpr ⟨node, mem, path, rfl⟩⟩,
      (content node mem path).mpr changed⟩

theorem mem_markGraph (hashes : inner.contentHashes = ∅) (plain : inner.cache.preprocessed = false)
    {graph : Graph δ} {sources : Sources} {paths : ProjectPathsConfig}
    (r : graph.Resolved parser fs paths sources) (dirty : List PathBuf) (f : PathBuf) :
    f ∈ (inner.markGraph H order graph dirty).dirtySources ↔
      ∃ g, (g ∈ dirty ∨ ∃ node ∈ graph.nodes, node.path = g ∧
          ∀ entry, inner.cache.files[g]? = some entry →
            entry.contentHash ≠ H.contentHash node.source.content) ∧
        ReflTransGen graph.edges.ImportsDirectly f g := by
  have plain' : (inner.fillHashes H graph.intoSources.1).cache.preprocessed = false := by
    obtain ⟨c, i, same, -⟩ := fillHashes_spec H inner graph.intoSources.1
    rw [same]
    exact plain
  simp only [markGraph, plain', Bool.false_eq_true, if_false]
  rw [mem_populateAll r]
  refine exists_congr fun g => and_congr_left fun _ => ?_
  rw [mem_foldl_insert, isDirty_fillHashes hashes r]

/-- The dirty files of a project without preprocessing. -/
theorem mem_findDirtySources (fresh : inner.dirtySources = []) (hashes : inner.contentHashes = ∅)
    (plain : inner.cache.preprocessed = false) (f : PathBuf) :
    f ∈ (inner.findDirtySources H parser fs order).dirtySources ↔
      match inner.temporaryGraph parser fs with
      | some graph => ∃ g, inner.InitiallyDirty H fs graph g ∧
          ReflTransGen graph.edges.ImportsDirectly f g
      | none => f ∈ inner.cache.files := by
  obtain ⟨unreadable, sources⟩ := readSources_spec fs order inner
  have start : ∀ g, g ∈ (inner.readSources fs order).1.foldl
      (fun dirty file => dirty.insert file) inner.dirtySources ↔
        g ∈ inner.cache.files ∧ Source.read fs g = none := fun g => by
    rw [mem_foldl_insert_all, unreadable, fresh]
    simp
  simp only [findDirtySources, sources]
  cases eq : inner.temporaryGraph parser fs with
  | none =>
    rw [temporaryGraph] at eq
    simp only [eq, mem_foldl_insert_all, start, ExtTreeMap.mem_keys]
    tauto
  | some graph =>
    have r := temporaryGraph_resolved eq
    rw [temporaryGraph] at eq
    simp only [eq]
    rw [mem_markGraph hashes plain r]
    simp only [start, InitiallyDirty]

theorem files_findDirtySources :
    (inner.findDirtySources H parser fs order).cache.files = inner.cache.files := by
  simp only [findDirtySources]
  split
  · next graph _ =>
    obtain ⟨c, i, same, -⟩ := fillHashes_spec H inner graph.intoSources.1
    simp only [markGraph, same]
  · rfl

/-- Nothing but the dirty files is removed. -/
theorem getElem?_removeDirtySources [CompilerSettings S] (f : PathBuf) :
    (inner.removeDirtySources H parser fs order).cache.files[f]? =
      if f ∈ (inner.removeDirtySources H parser fs order).dirtySources then none
      else inner.updateProfiles.cache.files[f]? := by
  simp only [removeDirtySources, Library.getElem?_foldl_erase, files_findDirtySources]

/-- What is removed from the cache are exactly the files that reach an initially dirty file by
imports, or all files if the graph of the cached files cannot be resolved. -/
structure RemovesExactly (H : Hashes) (parser : SourceParser δ) (fs : FileSystem)
    (before after : ArtifactsCacheInner S γ α δ β) : Prop where
  resolved : ∀ graph, before.temporaryGraph parser fs = some graph → ∀ f, f ∈ after.dirtySources ↔
    ∃ g, before.InitiallyDirty H fs graph g ∧ ReflTransGen graph.edges.ImportsDirectly f g
  unresolved : before.temporaryGraph parser fs = none →
    ∀ f, f ∈ after.dirtySources ↔ f ∈ before.cache.files
  entries : ∀ f : PathBuf, after.cache.files[f]? =
    if f ∈ after.dirtySources then none else before.cache.files[f]?

theorem removeDirtySources_exact [CompilerSettings S] (H : Hashes) (parser : SourceParser δ)
    (fs : FileSystem) (order : HashOrder) (cache : CompilerCache S) (cachedArtifacts : Artifacts α)
    (cachedBuilds : ExtTreeMap String β) (edges : GraphEdges δ) (project : Project S γ α)
    (plain : cache.preprocessed = false) :
    let inner : ArtifactsCacheInner S γ α δ β :=
      { cache, cachedArtifacts, cachedBuilds, edges, project }
    RemovesExactly H parser fs inner.updateProfiles
      (inner.removeDirtySources H parser fs order) := by
  intro inner
  have dirty : ∀ f, f ∈ (inner.removeDirtySources H parser fs order).dirtySources ↔ _ :=
    mem_findDirtySources rfl rfl plain
  refine ⟨fun graph eq => ?_, fun eq => ?_, getElem?_removeDirtySources⟩ <;>
    simp only [eq] at dirty <;> exact dirty

/-! ### Two files that import each other -/

def ringFiles : FileSystem :=
  .ofTexts [(["p", "src"], "a.sol", "/p/src/b.sol"), (["p", "src"], "b.sol", "/p/src/a.sol")]

def ringEntry (contentHash : String) : CacheEntry where
  contentHash
  interfaceReprHash := none
  sourceName := .rel []
  imports := ∅
  versionRequirement := none
  artifacts := ∅
  seenByCompiler := true

def ringProject : Project SolcSettings Unit Unit where
  paths := .dapptools (.abs ["p"]) []
  settings := {}
  artifacts := ⟨fun _ _ _ _ => (), fun _ _ => none, fun _ => false⟩

/-- The cache remembers another content of the first file. -/
def ringCache : CompilerCache SolcSettings where
  paths := ringProject.paths.pathsRelative
  preprocessed := false
  files := .ofList [(PathBuf.abs ["p", "src", "a.sol"], ringEntry "old"),
    (PathBuf.abs ["p", "src", "b.sol"], ringEntry "/p/src/a.sol")]

def ringEdges : GraphEdges (List PathBuf) := ⟨[], [], ∅, ∅, ∅, [], 0, ∅, ∅⟩

def ringInner : ArtifactsCacheInner SolcSettings Unit Unit (List PathBuf) Unit where
  cache := ringCache
  cachedArtifacts := ∅
  cachedBuilds := ∅
  edges := ringEdges
  project := ringProject

theorem removeDirtySources_exact_ring :
    ringCache.preprocessed = false ∧
      (ringInner.removeDirtySources .text .importLines ringFiles .asListed).dirtySources =
        [.abs ["p", "src", "b.sol"], .abs ["p", "src", "a.sol"]] ∧
      RemovesExactly .text .importLines ringFiles ringInner.updateProfiles
        (ringInner.removeDirtySources .text .importLines ringFiles .asListed) :=
  ⟨rfl, by decide +kernel,
    removeDirtySources_exact .text .importLines ringFiles .asListed ringCache ∅ ∅ ringEdges
      ringProject rfl⟩

end FoundryCore.ArtifactsCacheInner
