import FoundryCore.Cache.Fresh
import FoundryCore.Cache.Profiles
import FoundryCore.Compile.Builds
import FoundryCore.Resolver.SourceSets

/-!
# Fresh artifacts over runs

Runs of a project follow each other while its files are edited. What a run keeps of the cache was
made of the contents that the files have at the time of the run, through all imports, as long as a
file that has an old content again imports what it did.
-/

open Std Relation

namespace FoundryCore

open Library

/-! ## Source sets are closed under imports -/

namespace Graph

variable {S R Λ γ α δ : Type} {inputs : Sources} {g : Graph δ}

/-- Source sets are made of input nodes that exist. -/
theorem lt_of_sourcesOf {nodes : List Nat} {sources : Sources}
    (eq : g.sourcesOf (Λ := Λ) nodes = .ok sources) : ∀ idx ∈ nodes, idx < g.nodes.length := by
  have step : ∀ {walk walk' : SourceWalk} {idx}, g.insertInput (Λ := Λ) walk idx = .ok walk' →
      idx < g.nodes.length := by
    intro walk walk' idx eq
    unfold insertInput split at eq
    simp only at eq
    split at eq
    · cases eq
    · next getEq => simpa using (List.getElem?_eq_some_iff.mp getEq).1
  have loop : ∀ (l : List Nat) (walk walk' : SourceWalk),
      l.foldlM (g.insertInput (Λ := Λ)) walk = .ok walk' → ∀ idx ∈ l, idx < g.nodes.length := by
    intro l
    induction l with
    | nil => simp
    | cons idx l ih =>
      intro walk walk' eq
      rw [List.foldlM_cons] at eq
      obtain ⟨walk₁, first, later⟩ := Library.bind_eq_ok.mp eq
      intro i mem
      rcases List.mem_cons.mp mem with rfl | mem
      · exact step first
      · exact ih walk₁ walk' later i mem
  unfold sourcesOf at eq
  obtain ⟨walk, walked, -⟩ := Library.bind_eq_ok.mp eq
  exact loop _ _ _ walked

/-- Every source set has what its inputs reach. -/
theorem versionedSources_includes (wf : g.WellFormed inputs)
    {project : CompilerProject S R Λ γ α} {versions : ProfileNodes} {versioned : VersionedSources S}
    (eq : g.versionedSources (Λ := Λ) project versions = .ok versioned) :
    ∀ set ∈ versioned, ∃ nodes, g.Includes nodes set.2.1 := by
  unfold versionedSources at eq
  intro set mem
  obtain ⟨⟨version, profileIdx, nodes⟩, -, made⟩ := Library.exists_of_mem_mapM eq mem
  obtain ⟨sources, found, eq⟩ := Library.bind_eq_ok.mp made
  obtain ⟨sources', found', includes⟩ := exists_sourcesOf (Λ := Λ) wf (lt_of_sourcesOf found)
  obtain rfl := Except.ok.inj (found.symm.trans found')
  refine ⟨nodes, ?_⟩
  split at eq
  · cases eq
  · cases eq
    exact includes

/-- A source set with a file has what the file imports. -/
theorem Includes.closed (wf : g.WellFormed inputs) {nodes : List Nat} {sources : Sources}
    (includes : g.Includes nodes sources) {file q : PathBuf} (mem : file ∈ sources)
    (edge : g.edges.ImportsDirectly file q) : q ∈ sources := by
  obtain ⟨source, getEq⟩ := Option.isSome_iff_exists.mp (ExtTreeMap.mem_iff_isSome_getElem?.mp mem)
  obtain ⟨i, start, j, path, node⟩ := (includes file source).mp getEq
  obtain ⟨i', j', first, second, imported⟩ := edge
  have here : (g.nodes.map Node.path)[j]? = some file := by
    obtain ⟨node, getEq, eq⟩ := Option.map_eq_some_iff.mp node
    rw [List.getElem?_map, getEq]
    exact congrArg some (congrArg Prod.fst eq)
  have first' := (wf.indices file i').mp first
  have bound : i' < (g.nodes.map Node.path).length := (List.getElem?_eq_some_iff.mp first').1
  obtain rfl := (List.getElem?_inj bound wf.distinct).mp (first'.trans here.symm)
  have target := (wf.indices q j').mp second
  rw [List.getElem?_map] at target
  obtain ⟨node', getEq', rfl⟩ := Option.map_eq_some_iff.mp target
  refine ExtTreeMap.mem_iff_isSome_getElem?.mpr (Option.isSome_of_eq_some
    ((includes node'.path node'.source).mpr ⟨i, start, j', path.tail imported, ?_⟩))
  rw [getEq']
  rfl

variable [SettingsRestrictions S R] [DecidableEq Λ] [Ord Λ] [TransOrd Λ] [LawfulEqOrd Λ]

theorem intoSourcesByVersion_includes (wf : g.WellFormed inputs)
    {project : CompilerProject S R Λ γ α} {versionMatches : VersionReq → Version → Bool}
    {parser : SourceParser δ} {languageOf : δ → Λ} {resolved : ResolvedSources S Λ δ}
    (eq : g.intoSourcesByVersion project versionMatches parser languageOf = .ok resolved)
    {language : Λ} {versioned : VersionedSources S}
    (getEq : resolved.sources[language]? = some versioned) :
    ∀ set ∈ versioned, ∃ nodes, g.Includes nodes set.2.1 := by
  unfold intoSourcesByVersion at eq
  obtain ⟨resulted, -, eq⟩ := Library.bind_eq_ok.mp eq
  obtain ⟨versionedNodes, -, eq⟩ := Library.bind_eq_ok.mp eq
  unfold sourcesByProfile at eq
  obtain ⟨sources, third, eq⟩ := Library.bind_eq_ok.mp eq
  cases eq
  obtain ⟨here, absent⟩ := Library.getElem?_foldlM_insert (a := language)
    (f := fun _ versions => g.versionedSources (Λ := Λ) project versions) third
  cases known : versionedNodes[language]? with
  | none => simp [absent known] at getEq
  | some versions =>
    obtain ⟨versioned', ok, found⟩ := here versions known
    obtain rfl := Option.some.inj (found.symm.trans getEq)
    exact versionedSources_includes wf ok

end Graph

variable {ι S R Λ γ ε α δ β : Type} [CompilerSettings S]

namespace Setup

variable (T : Toolchain ι S Λ γ ε δ β) (setup : Setup ι S R Λ γ ε α)

/-- The content hashes of the files at the time of the run. -/
def hashOf : PathBuf → Option String := setup.fs.hashOf T.hashes

variable [SettingsRestrictions S R] [Ord Λ] [TransOrd Λ]

/-- The run makes an artifact for the contract, which it links to the build. -/
def Writes (disk : Disk S α β) (file : PathBuf) (name : String) (version : Version)
    (profile buildId : String) : Prop :=
  ∃ compiler, setup.withSources T = .ok compiler ∧
    ∃ compiled, setup.compileSources T (setup.preprocess T compiler disk) = .ok compiled ∧
      ∃ a ∈ (setup.writtenArtifacts T compiled).filesOf file name,
        a.version = version ∧ a.profile = profile ∧ a.buildId = buildId

/-- Files import what their contents say, in the graph of the input files and in the one of the
cached files. -/
def ImportsBy (I : Imports) (disk : Disk S α β) : Prop :=
  ∀ compiler, setup.withSources T = .ok compiler →
    compiler.edges.Follows I (setup.hashOf T) ∧ ∀ inner,
      ArtifactsCache.new setup.project.toProject compiler.edges setup.fs disk
        setup.preprocessor.isSome = .cached inner → ∀ graph,
          inner.updateProfiles.temporaryGraph T.parser setup.fs = some graph →
            graph.edges.Follows I (setup.hashOf T)

/-- A run of the project at the root, without a preprocessor, on files given by their absolute
paths. -/
structure Regular (root : PathBuf) (I : Imports) (disk : Disk S α β) : Prop where
  absolute : setup.Absolute
  root : setup.paths.root = root
  inputFiles : ∀ file ∈ setup.inputFiles, file.Rooted
  plain : setup.preprocessor = none
  imports : setup.ImportsBy T I disk

/-- Every cached artifact that the run keeps was made of contents that the files have now, its own
file and all that it imports. -/
def KeepsFresh (I : Imports) (M : Origins) (disk : Disk S α β) : Prop :=
  ∀ compiler, setup.withSources T = .ok compiler → ∀ inner,
    ArtifactsCache.new setup.project.toProject compiler.edges setup.fs disk
      setup.preprocessor.isSome = .cached inner →
    ∀ (file : PathBuf) entry, (inner.removeDirtySources T.hashes T.parser setup.fs
        setup.order).cache.files[file]? = some entry →
      ∀ name version profile a, entry.artifacts.find? name version profile = some a →
        ∃ hash, M file name version profile a.buildId hash ∧
          Unchanged I hash (setup.hashOf T) file

end Setup

/-- The runs so far and the contents that they found. -/
def Origin [SettingsRestrictions S R] [Ord Λ] [TransOrd Λ] (T : Toolchain ι S Λ γ ε δ β)
    (es : List (Disk S α β × Action ι S R Λ γ ε α)) : Origins :=
  fun file name version profile buildId hash => ∃ e ∈ es,
    e.2.setup.Writes T e.1 file name version profile buildId ∧ hash = e.2.setup.hashOf T

/-! ## The files of a run -/

namespace Setup

variable {T : Toolchain ι S Λ γ ε δ β} {setup : Setup ι S R Λ γ ε α}

omit [CompilerSettings S] in
theorem read_of_readInputFiles {sources : Sources} (read : setup.readInputFiles = some sources)
    {file : PathBuf} {source : Source} (getEq : sources[file]? = some source) :
    Source.read setup.fs file = some source := by
  have loop : ∀ (files : List PathBuf) (sources₀ sources : Sources),
      (∀ (file : PathBuf) source, sources₀[file]? = some source →
        Source.read setup.fs file = some source) →
      files.foldlM (fun sources file =>
        (Source.read setup.fs file).map fun source => sources.insert file source) sources₀ =
          some sources →
        ∀ (file : PathBuf) source, sources[file]? = some source →
          Source.read setup.fs file = some source := by
    intro files
    induction files with
    | nil =>
      intro sources₀ sources start eq
      cases eq
      exact start
    | cons f files ih =>
      intro sources₀ sources start eq
      rw [List.foldlM_cons] at eq
      obtain ⟨sources₁, first, later⟩ := Option.bind_eq_some_iff.mp eq
      obtain ⟨found, known, rfl⟩ := Option.map_eq_some_iff.mp first
      refine ih _ _ (fun file source getEq => ?_) later
      rw [Library.getElem?_insert_eq] at getEq
      split_ifs at getEq with same
      · cases getEq
        rw [same, known]
      · exact start file source getEq
  exact loop _ _ _ (by simp) read file source getEq

variable [SettingsRestrictions S R] [Ord Λ] [TransOrd Λ]

omit [CompilerSettings S] in
/-- The source sets are those of a graph of input files as they can be read. -/
theorem exists_graph_of_withSources [LawfulEqOrd Λ] {compiler : ProjectCompiler S Λ δ}
    (eq : setup.withSources T = .ok compiler) :
    ∃ inputs : Sources, (∀ (file : PathBuf) source, inputs[file]? = some source →
        file ∈ setup.inputFiles ∧ Source.read setup.fs file = some source) ∧
      ∃ graph, Graph.resolveSources T.parser setup.fs setup.paths inputs = some graph ∧
        ∃ resolved, graph.intoSourcesByVersion setup.project T.versionMatches T.parser
          T.languageOf = .ok resolved ∧ compiler.edges = resolved.edges ∧
          ∀ set ∈ compiler.sources, ∃ (language : Λ) (versioned : VersionedSources S),
            resolved.sources[language]? = some versioned ∧
              (set.version, set.sources, set.profile, set.settings) ∈ versioned := by
  unfold withSources at eq
  split at eq
  · cases eq
  · next sources read =>
    simp only at eq
    split at eq
    · cases eq
    · next graph resolves =>
      split at eq
      · cases eq
      · next resolved sets =>
        cases eq
        refine ⟨_, fun file source getEq => ?_, graph, resolves, resolved, sets, rfl, ?_⟩
        · have listed : sources[file]? = some source := by
            split at getEq
            · rw [ExtTreeMap.getElem?_filter'] at getEq
              exact (Option.filter_eq_some_iff.mp getEq).1
            · exact getEq
          exact ⟨mem_of_readInputFiles read file (ExtTreeMap.mem_iff_isSome_getElem?.mpr
            (Option.isSome_of_eq_some listed)), read_of_readInputFiles read listed⟩
        · intro set mem
          obtain ⟨⟨language, versioned⟩, entry, mem⟩ := List.mem_flatMap.mp mem
          obtain ⟨made, member, rfl⟩ := List.mem_map.mp mem
          exact ⟨language, versioned, ExtTreeMap.mem_toList_iff_getElem?_eq_some.mp entry, member⟩

/-- Source sets have the contents of their files, and everything that these import. -/
theorem sourceSet_of_regular [LawfulEqOrd Λ] {root : PathBuf} {I : Imports} {disk : Disk S α β}
    (regular : setup.Regular T root I disk) {compiler : ProjectCompiler S Λ δ}
    (eq : setup.withSources T = .ok compiler) {set : SourceSet S Λ} (mem : set ∈ compiler.sources) :
    (∀ (file : PathBuf) source, set.sources[file]? = some source →
      setup.hashOf T file = some (T.hashes.contentHash source.content)) ∧
    ∀ file ∈ set.sources, ∀ q, Needs I (setup.hashOf T) file q → q ∈ set.sources := by
  classical
  obtain ⟨inputs, read, graph, resolves, resolved, sets, edges, of_sets⟩ :=
    exists_graph_of_withSources eq
  obtain ⟨language, versioned, getEq, member⟩ := of_sets set mem
  have readFrom : inputs.ReadFrom setup.fs := by
    refine ⟨fun file mem => ?_, fun file source getEq => (read file source getEq).2⟩
    obtain ⟨source, getEq⟩ :=
      Option.isSome_iff_exists.mp (ExtTreeMap.mem_iff_isSome_getElem?.mp mem)
    exact regular.inputFiles file (read file source getEq).1
  have parents : ∀ p ∈ inputs.makeAbsolute setup.paths.root, p.parent.isSome := by
    intro p mem
    obtain ⟨source, found⟩ := Option.isSome_iff_exists.mp
      (ExtTreeMap.mem_iff_isSome_getElem?.mp mem)
    exact setup.fs.parent_isSome
      (mem_files_of_read ((readFrom.makeAbsolute _).read p source found))
  have wf := Graph.wellFormed_of_resolveSources parents resolves
  obtain ⟨same, made⟩ := Graph.intoSourcesByVersion_madeOf sets
  have files := (made language versioned getEq _ member).files
  obtain ⟨nodes, includes⟩ := Graph.intoSourcesByVersion_includes wf sets getEq _ member
  have isNode : ∀ (file : PathBuf) source, set.sources[file]? = some source →
      ∃ node ∈ graph.nodes, node.path = file ∧ node.source = source := by
    intro file source found
    obtain ⟨node, here, eq⟩ := List.mem_map.mp (files file source found)
    exact ⟨node, here, congrArg Prod.fst eq, congrArg Prod.snd eq⟩
  refine ⟨fun file source found => ?_, fun file listed q needs => ?_⟩
  · obtain ⟨node, here, rfl, rfl⟩ := isNode file source found
    have resolves : Graph.resolveSources T.parser setup.fs setup.project.toProject.paths inputs =
        some graph := resolves
    rw [hashOf, FileSystem.hashOf, read_of_mem_nodes readFrom resolves here]
    rfl
  · obtain ⟨source, found⟩ := Option.isSome_iff_exists.mp
      (ExtTreeMap.mem_iff_isSome_getElem?.mp listed)
    obtain ⟨node, here, path, -⟩ := isNode file source found
    have follows := (regular.imports compiler eq).1
    rw [edges, same] at follows
    have indexed : file ∈ graph.edges.indices :=
      (Graph.resolveSources_resolved parents resolves).mem_indices.mpr ⟨node, here, path⟩
    obtain ⟨h, now, imports⟩ := needs
    exact includes.closed wf listed ((follows file indexed h now q).mpr imports)

end Setup

/-! ## The cache of a run -/

/-- In the course of a run: what is cached is fresh, with the contents that the files have now and
with everything that they import. -/
structure ArtifactsCacheInner.Sound (project : Project S γ α) (I : Imports) (M : Origins)
    (now : PathBuf → Option String) (inner : ArtifactsCacheInner S γ α δ β) : Prop where
  same : inner.project = project
  settled : Settled I now inner.cache.hashOf
  fresh : inner.cache.Fresh I M

namespace ArtifactsCache

variable {project : Project S γ α} {I : Imports} {M : Origins} {now : PathBuf → Option String}
  {cache : ArtifactsCache S γ α δ β}

def Sound (project : Project S γ α) (I : Imports) (M : Origins) (now : PathBuf → Option String) :
    ArtifactsCache S γ α δ β → Prop
  | ephemeral _ _ => True
  | cached inner => inner.Sound project I M now

omit [CompilerSettings S] in
/-- What a run reads is fresh if what is stored is. -/
theorem fresh_getCache {disk : Disk S α β} (invalidate preprocessed : Bool)
    (fresh : ∀ cache, disk.cacheFile = some cache → (cache.readJoined project.paths).Fresh I M) :
    (getCache project disk invalidate preprocessed).Fresh I M := by
  simp only [getCache]
  split_ifs
  · exact .of_empty rfl
  · split
    · exact .of_empty rfl
    · next stored =>
      split_ifs
      · exact fresh _ stored
      · exact .of_empty rfl

omit [CompilerSettings S] in
theorem preprocessed_getCache (disk : Disk S α β) (invalidate preprocessed : Bool) :
    (getCache project disk invalidate preprocessed).preprocessed = preprocessed := by
  simp only [getCache]
  split_ifs
  · rfl
  · split
    · rfl
    · split_ifs with same
      · exact same.2
      · rfl

theorem sound_removeDirtySources {disk : Disk S α β} {edges : GraphEdges δ} {H : Hashes}
    {parser : SourceParser δ} {fs : FileSystem} {order : HashOrder}
    (root : project.paths.root.Rooted)
    (stored : ∀ cache, disk.cacheFile = some cache → cache.Stored)
    (fresh : ∀ cache, disk.cacheFile = some cache → (cache.readJoined project.paths).Fresh I M)
    (follows : ∀ inner, new project edges fs disk false = .cached inner → ∀ graph,
      inner.updateProfiles.temporaryGraph parser fs = some graph →
        graph.edges.Follows I (fs.hashOf H)) :
    ((new project edges fs disk false).removeDirtySources H parser fs order).Sound project I M
      (fs.hashOf H) := by
  have consistent : (new project edges fs disk false).Consistent := consistent_new root stored false
  cases made : new project edges fs disk false with
  | ephemeral => trivial
  | cached inner =>
    rw [made] at consistent
    have follows := follows inner made
    unfold new at made
    split_ifs at made
    cases made
    have updated := CompilerCache.Consistent.of_within consistent
      (ArtifactsCacheInner.updateProfiles_within (P := PathBuf.Rooted))
    have settled : Settled I (fs.hashOf H) ((ArtifactsCacheInner.load project edges fs disk
        false).removeDirtySources H parser fs order).cache.hashOf :=
      ArtifactsCacheInner.settled_removeDirtySources (preprocessed_getCache _ _ _) rfl rfl
        updated.rooted follows
    refine ⟨ArtifactsCacheInner.sameSettings_removeDirty.project, settled, ?_⟩
    have read := fresh_getCache (edges.unresolvedImports ≠ ∅) false fresh
    exact read.reduce ((CompilerCache.reduces_removeMissingFiles fs).trans
      ArtifactsCacheInner.reduces_removeDirtySources) settled

omit [CompilerSettings S] in
theorem Sound.filter (sound : cache.Sound project I M now) {H : Hashes} {sources : Sources}
    (current : ∀ (file : PathBuf) source, sources[file]? = some source →
      now file = some (H.contentHash source.content))
    (closed : ∀ file ∈ sources, ∀ q, Needs I now file q → q ∈ sources) {version : Version}
    {profile : String} : (cache.filter H sources version profile).2.Sound project I M now := by
  cases cache with
  | ephemeral => trivial
  | cached inner =>
    have supplies : ArtifactsCacheInner.Supplies H sources.toList inner.cache
        (inner.filter H sources version profile).2.cache :=
      ArtifactsCacheInner.supplies_filter sources version profile
    exact ⟨(ArtifactsCacheInner.sameSettings_filter sources).project.trans sound.same,
      supplies.settled sound.settled current closed, supplies.fresh sound.fresh⟩

omit [CompilerSettings S] in
theorem Sound.seen (sound : cache.Sound project I M now) (mocks : Finset PathBuf)
    (jobs : List (CompilerJob ι)) : (Setup.seenCache cache mocks jobs).Sound project I M now := by
  have updated : (cache.updateMocks mocks).Sound project I M now := by
    cases cache with
    | ephemeral => trivial
    | cached inner => exact ⟨sound.same, sound.settled, sound.fresh⟩
  unfold Setup.seenCache
  generalize jobs.flatMap CompilerJob.actuallyDirty = files
  generalize cache.updateMocks mocks = cache at updated ⊢
  induction files generalizing cache with
  | nil => exact updated
  | cons file files ih =>
    refine ih _ ?_
    cases cache with
    | ephemeral => trivial
    | cached inner =>
      refine ⟨(ArtifactsCacheInner.sameSettings_compilerSeen file).project.trans updated.same, ?_,
        ArtifactsCacheInner.fresh_compilerSeen updated.fresh file⟩
      rw [ArtifactsCacheInner.hashOf_compilerSeen]
      exact updated.settled

end ArtifactsCache

namespace Setup

variable {T : Toolchain ι S Λ γ ε δ β} {setup : Setup ι S R Λ γ ε α} {disk : Disk S α β}
  {root : PathBuf} {I : Imports} {M : Origins} [SettingsRestrictions S R] [Ord Λ] [TransOrd Λ]
  [LawfulEqOrd Λ]

theorem sound_preprocess (regular : setup.Regular T root I disk)
    (stored : ∀ cache, disk.cacheFile = some cache → cache.Stored)
    (fresh : ∀ cache, disk.cacheFile = some cache → (cache.readJoined setup.paths).Fresh I M)
    {compiler : ProjectCompiler S Λ δ} (sources : setup.withSources T = .ok compiler) :
    (setup.preprocess T compiler disk).cache.Sound setup.project.toProject I M
      (setup.hashOf T) := by
  have plain : setup.preprocessor.isSome = false := by rw [regular.plain]; rfl
  have follows := (regular.imports compiler sources).2
  rw [plain] at follows
  have start : ((ArtifactsCache.new setup.project.toProject compiler.edges setup.fs disk
      false).removeDirtySources T.hashes T.parser setup.fs setup.order).Sound
        setup.project.toProject I M (setup.hashOf T) :=
    ArtifactsCache.sound_removeDirtySources regular.absolute.canonical.root stored fresh follows
  have sets := fun set (mem : set ∈ compiler.sources) => sourceSet_of_regular regular sources mem
  simp only [preprocess, plain, filterSources]
  refine List.foldlRecOn compiler.sources _ (motive := fun done : List (SourceSet S Λ) ×
    ArtifactsCache S γ α δ β => done.2.Sound setup.project.toProject I M (setup.hashOf T)) start
    fun done holds set mem => ?_
  exact holds.filter (sets set mem).1 (sets set mem).2

/-- A run stores a cache file whose artifacts are fresh. -/
theorem fresh_of_mem_writes (parses : T.parser.ParsesPaths)
    (regular : setup.Regular T root I disk)
    (stored : ∀ cache, disk.cacheFile = some cache → cache.Stored)
    (fresh : ∀ cache, disk.cacheFile = some cache → (cache.readJoined setup.paths).Fresh I M)
    (writes : ∀ file name version profile buildId,
      setup.Writes T disk file name version profile buildId →
        M file name version profile buildId (setup.hashOf T))
    {cache : CompilerCache S} (mem : .cacheFile cache ∈ setup.writes T disk)
    {paths : ProjectPathsConfig} (same : paths.root = root) :
    (cache.readJoined paths).Fresh I M := by
  obtain ⟨compiler, sources, compiled, compiles, mem⟩ := of_cacheFile_mem_writes mem
  obtain ⟨inner, cached, -, rfl⟩ := eq_consume_of_mem_finish mem
  have consistent :=
    consistent_of_compileSources regular.absolute parses stored sources compiles
  obtain ⟨jobs, mocks, outputs, -, -, eq⟩ := compileSources_eq_ok.mp compiles
  have sound : compiled.cache.Sound setup.project.toProject I M (setup.hashOf T) := by
    rw [eq]
    exact (sound_preprocess regular stored fresh sources).seen mocks jobs
  rw [cached] at consistent sound
  refine ArtifactsCacheInner.fresh_consume
    (ArtifactsCacheInner.fresh_mergeWritten sound.fresh sound.settled fun file name w listed => ?_)
    consistent.rooted (same.trans (regular.root.symm.trans ?_))
  · exact writes _ _ _ _ _ ⟨compiler, sources, compiled, compiles, w, listed, rfl, rfl, rfl⟩
  · exact (congrArg Project.root sound.same).symm

omit [LawfulEqOrd Λ] in
/-- A run keeps what is fresh, if what is stored is fresh. -/
theorem keepsFresh_of_fresh (regular : setup.Regular T root I disk)
    (stored : ∀ cache, disk.cacheFile = some cache → cache.Stored)
    (fresh : ∀ cache, disk.cacheFile = some cache → (cache.readJoined setup.paths).Fresh I M) :
    setup.KeepsFresh T I M disk := by
  intro compiler sources inner cached file entry getEq name version profile a found
  have plain : setup.preprocessor.isSome = false := by rw [regular.plain]; rfl
  have follows := (regular.imports compiler sources).2
  rw [plain] at follows cached
  have sound : ((ArtifactsCache.new setup.project.toProject compiler.edges setup.fs disk
      false).removeDirtySources T.hashes T.parser setup.fs setup.order).Sound
        setup.project.toProject I M (setup.hashOf T) :=
    ArtifactsCache.sound_removeDirtySources regular.absolute.canonical.root stored fresh follows
  rw [cached] at sound
  obtain ⟨hash, made, unchanged⟩ := sound.fresh file entry getEq name version profile a found
  refine ⟨hash, made, fun y path => ?_⟩
  obtain ⟨h, before, recorded⟩ := unchanged y path
  exact ⟨h, before, sound.settled.current y h recorded⟩

end Setup

/-! ## Runs -/

/-- However often files are edited between runs that may be interrupted, a run keeps an artifact
only if an earlier run made it from what its file and all its imports hold now. -/
theorem runs_keep_fresh [SettingsRestrictions S R] [Ord Λ] [TransOrd Λ] [LawfulEqOrd Λ]
    {T : Toolchain ι S Λ γ ε δ β} (parses : T.parser.ParsesPaths) {root : PathBuf} {I : Imports}
    {disk disk' : Disk S α β} (empty : disk.cacheFile = none)
    {es : List (Disk S α β × Action ι S R Λ γ ε α)}
    (run : (runs T).Guarded (fun _ disk action => action.setup.Regular T root I disk) disk es
      disk')
    {setup : Setup ι S R Λ γ ε α} (regular : setup.Regular T root I disk') :
    setup.KeepsFresh T I (Origin T es) disk' := by
  have invariant : ∀ cache, disk'.cacheFile = some cache → cache.Stored ∧
      ∀ paths : ProjectPathsConfig, paths.root = root →
        (cache.readJoined paths).Fresh I (Origin T es) := by
    refine run.invariant (P := fun es disk => ∀ cache, disk.cacheFile = some cache →
      cache.Stored ∧ ∀ paths : ProjectPathsConfig, paths.root = root →
        (cache.readJoined paths).Fresh I (Origin T es)) ?_ ?_
    · intro cache eq
      simp [empty] at eq
    · intro es s action s' out holds regular step cache eq
      obtain ⟨rfl, rfl⟩ := Prod.mk.inj (Option.some.inj step)
      have more : ∀ cache, s.cacheFile = some cache →
          ∀ paths : ProjectPathsConfig, paths.root = root →
            (cache.readJoined paths).Fresh I (Origin T (es ++ [(s, action)])) := by
        intro cache eq paths same
        refine ((holds cache eq).2 paths same).mono ?_
        rintro file name version profile buildId hash ⟨e, mem, writes, rfl⟩
        exact ⟨e, List.mem_append_left _ mem, writes, rfl⟩
      rcases Disk.cacheFile_applyAll eq with old | new
      · exact ⟨(holds cache old).1, more cache old⟩
      · have stored := fun cache eq => (holds cache eq).1
        have written := action.writes_subset new
        refine ⟨Setup.stored_of_mem_writes regular.absolute parses stored written,
          fun paths same => Setup.fresh_of_mem_writes parses regular stored
            (fun cache eq => more cache eq _ regular.root) ?_ written same⟩
        intro file name version profile buildId writes
        exact ⟨(s, action), by simp, writes, rfl⟩
  exact Setup.keepsFresh_of_fresh regular (fun cache eq => (invariant cache eq).1)
    fun cache eq => (invariant cache eq).2 _ regular.root

/-! ### A file that is edited next to one that is not -/

namespace GraphEdges

variable (edges : GraphEdges δ)

/-- The files that a file imports directly. -/
def directImports (file : PathBuf) : List PathBuf :=
  edges.indices[file]?.toList.flatMap fun i =>
    (edges.indices.toList.filter fun (_, j) => j ∈ edges.importedNodes i).map Prod.fst

theorem mem_directImports {file q : PathBuf} :
    q ∈ edges.directImports file ↔ edges.ImportsDirectly file q := by
  simp only [directImports, ImportsDirectly, List.mem_flatMap, Option.mem_toList, List.mem_map,
    List.mem_filter, ExtTreeMap.mem_toList_iff_getElem?_eq_some, Prod.exists, decide_eq_true_eq]
  constructor
  · rintro ⟨i, first, _, j, ⟨second, edge⟩, rfl⟩
    exact ⟨i, j, first, second, edge⟩
  · rintro ⟨i, j, first, second, edge⟩
    exact ⟨i, first, q, j, ⟨second, edge⟩, rfl⟩

/-- The imports of all files are those listed for their contents. -/
def lists (listed : String → List PathBuf) (hash : PathBuf → Option String) : Bool :=
  edges.indices.keys.all fun file => (hash file).all fun h => edges.directImports file = listed h

theorem follows_of_lists {listed : String → List PathBuf} {hash : PathBuf → Option String}
    (lists : edges.lists listed hash) : edges.Follows (fun _ h q => q ∈ listed h) hash := by
  intro file mem h getEq q
  have same := List.all_eq_true.mp lists file (ExtTreeMap.mem_keys.mpr mem)
  rw [getEq, Option.all_some] at same
  rw [← edges.mem_directImports, of_decide_eq_true same]

end GraphEdges

def linkedTools : Toolchain LoneInput SolcSettings String String Unit (List String) Unit where
  hashes := .text
  lowercase := .ofAscii
  parser := .lines
  languageOf _ := "Solidity"
  versionMatches _ _ := true
  compiler := loneCompiler

/-- A file imports another one, and a third one is edited. -/
def linkedSetup (edited : String) :
    Setup LoneInput SolcSettings SolcRestrictions String String Unit (Option String) :=
  { loneSetup "" false with
    fs := .ofTexts [(["p", "src"], "a.sol", "/p/src/b.sol"), (["p", "src"], "b.sol", ""),
      (["p", "src"], "c.sol", edited)]
    inputFiles := [.abs ["p", "src", "a.sol"], .abs ["p", "src", "c.sol"]] }

def linkedRun (edited : String) (disk : Disk SolcSettings (Option String) Unit) :
    Disk SolcSettings (Option String) Unit :=
  disk.applyAll ((linkedSetup edited).writes linkedTools disk)

/-- What the contents import. -/
def linkedImports : String → List PathBuf
  | "/p/src/a.sol" => [.abs ["p", "src", "a.sol"]]
  | "/p/src/b.sol" => [.abs ["p", "src", "b.sol"]]
  | _ => []

/-- The files that the run keeps in the cache. -/
def linkedKept (edited : String) (disk : Disk SolcSettings (Option String) Unit) :
    Option (List PathBuf) :=
  let setup := linkedSetup edited
  (setup.withSources linkedTools).toOption.bind fun compiler =>
    match ArtifactsCache.new setup.project.toProject compiler.edges setup.fs disk false with
    | .cached inner => some (inner.removeDirtySources linkedTools.hashes linkedTools.parser setup.fs
        setup.order).cache.files.keys
    | .ephemeral _ _ => none

/-- Both graphs have the imports that are listed for the contents. -/
def linkedLists (edited : String) (disk : Disk SolcSettings (Option String) Unit) : Bool :=
  let setup := linkedSetup edited
  (setup.withSources linkedTools).toOption.all fun compiler =>
    compiler.edges.lists linkedImports (setup.hashOf linkedTools) &&
      match ArtifactsCache.new setup.project.toProject compiler.edges setup.fs disk false with
      | .cached inner => (inner.updateProfiles.temporaryGraph linkedTools.parser setup.fs).all
          fun graph => graph.edges.lists linkedImports (setup.hashOf linkedTools)
      | .ephemeral _ _ => true

theorem regular_linkedSetup {edited : String} {disk : Disk SolcSettings (Option String) Unit}
    (lists : linkedLists edited disk) : (linkedSetup edited).Regular linkedTools (.abs ["p"])
      (fun _ h q => q ∈ linkedImports h) disk := by
  have inputFiles : ∀ file ∈ (linkedSetup edited).inputFiles, file.Rooted := by
    intro file mem
    rcases List.mem_cons.mp mem with rfl | mem
    · exact PathBuf.rooted_abs _
    · rw [List.mem_singleton.mp mem]
      exact PathBuf.rooted_abs _
  have canonical : (ProjectPathsConfig.dapptools (.abs ["p"]) []).Canonical :=
    (absolute_loneSetup "" false).canonical
  refine ⟨⟨canonical, fun file mem => (inputFiles file mem).wellFormed⟩, rfl, inputFiles, rfl, ?_⟩
  intro compiler sources
  rw [linkedLists, sources] at lists
  obtain ⟨first, second⟩ := Bool.and_eq_true_iff.mp lists
  refine ⟨compiler.edges.follows_of_lists first, fun inner cached graph resolves => ?_⟩
  have cached : ArtifactsCache.new (linkedSetup edited).project.toProject compiler.edges
      (linkedSetup edited).fs disk false = .cached inner := cached
  simp only [cached] at second
  rw [resolves] at second
  exact graph.edges.follows_of_lists second

/-- The file that is not edited is kept after each edit of the other one. -/
theorem runs_keep_fresh_edited :
    (linkedSetup "/p/src/b.sol").KeepsFresh linkedTools (fun _ h q => q ∈ linkedImports h)
        (Origin linkedTools [({}, .run (linkedSetup "/p/src/b.sol")),
          (linkedRun "/p/src/b.sol" {}, .run (linkedSetup "/p/src/a.sol"))])
        (linkedRun "/p/src/a.sol" (linkedRun "/p/src/b.sol" {})) ∧
      linkedKept "/p/src/b.sol" (linkedRun "/p/src/a.sol" (linkedRun "/p/src/b.sol" {})) =
        some [.abs ["p", "src", "a.sol"], .abs ["p", "src", "b.sol"]] := by
  have first : (runs linkedTools).Guarded (fun _ disk action => action.setup.Regular linkedTools
      (.abs ["p"]) (fun _ h q => q ∈ linkedImports h) disk) {} _ (linkedRun "/p/src/b.sol" {}) :=
    .step (a := .run (linkedSetup "/p/src/b.sol")) .refl
      (regular_linkedSetup (by decide +kernel)) rfl
  have second : (runs linkedTools).Guarded (fun _ disk action => action.setup.Regular linkedTools
      (.abs ["p"]) (fun _ h q => q ∈ linkedImports h) disk) {} _
      (linkedRun "/p/src/a.sol" (linkedRun "/p/src/b.sol" {})) :=
    .step (a := .run (linkedSetup "/p/src/a.sol")) first
      (regular_linkedSetup (by decide +kernel)) rfl
  exact ⟨runs_keep_fresh parsesPaths_lines rfl second (regular_linkedSetup (by decide +kernel)),
    by decide +kernel⟩

end FoundryCore
