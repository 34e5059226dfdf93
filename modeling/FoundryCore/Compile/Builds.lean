import FoundryCore.Compile.Runs

/-!
# Builds over runs

The artifacts of a run are linked to the builds of the run, so the cache file that it writes lists
exactly the builds of the artifacts in it, whatever runs came before.
-/

open Std

namespace FoundryCore

variable {ι S R Λ γ ε α δ β : Type}

/-! ## The builds of an output -/

namespace AggregatedCompilerOutput

variable {output : AggregatedCompilerOutput γ ε β} {Q : Version → String → String → Prop}

/-- All contracts and source files are ascribed to compiler runs with the property, given by their
version, build and profile. -/
structure Ascribed (Q : Version → String → String → Prop)
    (output : AggregatedCompilerOutput γ ε β) : Prop where
  contracts : ∀ file name, ∀ c ∈ contractsOf output.contracts file name,
    Q c.version c.buildId c.profile
  sources : ∀ file, ∀ source ∈ output.sourcesOf file,
    Q source.version source.buildId source.profile

theorem buildInfos_ofRuns (runs : List (CompilerRun γ ε β)) :
    (ofRuns runs).buildInfos = runs.map CompilerRun.buildInfo := by
  suffices ∀ output : AggregatedCompilerOutput γ ε β, (runs.foldl extend output).buildInfos =
      output.buildInfos ++ runs.map CompilerRun.buildInfo from this {}
  induction runs with
  | nil => simp
  | cons run runs ih => simp [ih, extend]

theorem ascribed_ofRuns {runs : List (CompilerRun γ ε β)}
    (holds : ∀ run ∈ runs, Q run.version run.buildInfo.id run.profile) :
    (ofRuns runs).Ascribed Q := by
  refine ⟨fun file name c mem => ?_, fun file source mem => ?_⟩
  · rw [contractsOf_ofRuns] at mem
    obtain ⟨run, ran, eq⟩ := List.mem_filterMap.mp mem
    obtain ⟨contract, -, rfl⟩ := Option.map_eq_some_iff.mp eq
    exact holds run ran
  · rw [sourcesOf_ofRuns] at mem
    obtain ⟨run, ran, eq⟩ := List.mem_filterMap.mp mem
    obtain ⟨sourceFile, -, rfl⟩ := Option.map_eq_some_iff.mp eq
    exact holds run ran

theorem Ascribed.joinAll (ascribed : output.Ascribed Q) (root : PathBuf) :
    (output.joinAll root).Ascribed Q := by
  refine ⟨fun file name c mem => ?_, fun file source mem => ?_⟩
  · simp only [contractsOf] at mem
    cases getEq : (output.joinAll root).contracts[file]? with
    | none => simp [getEq] at mem
    | some contracts =>
      obtain ⟨⟨path, _⟩, entry, eq⟩ := List.mem_map.mp (Library.mem_of_getElem?_ofList getEq)
      cases eq
      refine ascribed.contracts path name c ?_
      rw [contractsOf, ExtTreeMap.mem_toList_iff_getElem?_eq_some.mp entry]
      simpa [getEq] using mem
  · simp only [sourcesOf] at mem
    cases getEq : (output.joinAll root).sources[file]? with
    | none => simp [getEq] at mem
    | some sources =>
      obtain ⟨⟨path, _⟩, entry, eq⟩ := List.mem_map.mp (Library.mem_of_getElem?_ofList getEq)
      cases eq
      refine ascribed.sources path source ?_
      rw [sourcesOf, ExtTreeMap.mem_toList_iff_getElem?_eq_some.mp entry]
      simpa [getEq] using mem

end AggregatedCompilerOutput

namespace ArtifactOutput

variable {out : ArtifactOutput γ α} {output : AggregatedCompilerOutput γ ε β}
  {primaryProfiles : ExtTreeMap PathBuf String} {Q : Version → String → String → Prop}

/-- What is requested is ascribed as the output is. -/
theorem ascribed_of_mem_requests (ascribed : output.Ascribed Q) {r : Request α}
    (mem : r ∈ out.requests output.contracts output.sources primaryProfiles) :
    Q r.version r.buildId r.profile := by
  rcases List.mem_append.mp mem with ofContract | standalone
  · simp only [contractRequests, List.mem_flatMap, List.mem_map, Prod.exists,
      ExtTreeMap.mem_toList_iff_getElem?_eq_some] at ofContract
    obtain ⟨file, -, name, versioned, getEq, c, listed, rfl⟩ := ofContract
    refine ascribed.contracts file name c ?_
    cases contractsEq : output.contracts[file]? with
    | none => simp [contractsEq] at getEq
    | some contracts =>
      rw [contractsEq] at getEq
      rw [AggregatedCompilerOutput.contractsOf, contractsEq, Option.bind_some]
      exact (congrArg (c ∈ ·.getD []) getEq).mpr listed
  · simp only [standaloneRequests, List.mem_flatMap, Prod.exists,
      ExtTreeMap.mem_toList_iff_getElem?_eq_some, List.mem_filterMap] at standalone
    obtain ⟨file, versioned, getEq, source, listed, eq⟩ := standalone
    obtain ⟨version, buildId, profile⟩ : r.version = source.version ∧
        r.buildId = source.buildId ∧ r.profile = source.profile := by
      split_ifs at eq
      split at eq
      · obtain rfl := Option.some.inj eq
        exact ⟨rfl, rfl, rfl⟩
      · cases eq
    rw [version, buildId, profile]
    refine ascribed.sources file source ?_
    rw [AggregatedCompilerOutput.sourcesOf, getEq]
    exact listed

/-- Artifacts are ascribed as the output they are made of. -/
theorem ascribed_of_mem_onOutput (ascribed : output.Ascribed Q) {L : Lowercase}
    {ctx : OutputContext} {folder file : PathBuf} {name : String} {a : ArtifactFile α}
    (mem : a ∈ (out.onOutput L output.contracts output.sources ctx folder
      primaryProfiles).filesOf file name) : Q a.version a.buildId a.profile := by
  rw [onOutput, Artifacts.filesOf_joinAll, outputToArtifacts, filesOf_foldl_assign,
    Artifacts.filesOf_empty, List.nil_append, List.map_map] at mem
  obtain ⟨⟨r, path⟩, listed, rfl⟩ := List.mem_map.mp mem
  have requested := List.mem_map_of_mem (f := Prod.fst) (List.mem_filter.mp listed).1
  rw [map_fst_placed] at requested
  exact ascribed_of_mem_requests ascribed requested

end ArtifactOutput

/-! ## The cache of a run -/

namespace ArtifactsCache

variable {cache : ArtifactsCache S γ α δ β}

/-- The builds of all artifacts are listed, if anything is cached. -/
def Consistent : ArtifactsCache S γ α δ β → Prop
  | ephemeral _ _ => True
  | cached inner => inner.cache.Consistent

theorem consistent_new {project : Project S γ α} (root : project.paths.root.Rooted)
    {edges : GraphEdges δ} {fs : FileSystem} {disk : Disk S α β}
    (stored : ∀ cache, disk.cacheFile = some cache → cache.Stored) (preprocessed : Bool) :
    (new project edges fs disk preprocessed).Consistent := by
  have empty : ∀ cache : CompilerCache S, cache.files = ∅ → cache.Consistent := by
    intro cache none
    refine ⟨fun id references => ?_, fun file mem => ?_⟩
    · obtain ⟨file, entry, getEq, -⟩ := references
      simp [none] at getEq
    · simp [none] at mem
  have got : ∀ invalidate, (getCache project disk invalidate preprocessed).Consistent := by
    intro invalidate
    simp only [getCache]
    split_ifs
    · exact empty _ rfl
    · split
      · exact empty _ rfl
      · next read =>
        split_ifs
        · exact (stored _ read).readJoined root
        · exact empty _ rfl
  unfold new
  split_ifs
  · exact (got _).of_within (CompilerCache.removeMissingFiles_within fs)
  · trivial

theorem Consistent.removeDirtySources [CompilerSettings S] (consistent : cache.Consistent)
    {H : Hashes} {parser : SourceParser δ} {fs : FileSystem} {order : HashOrder} :
    (cache.removeDirtySources H parser fs order).Consistent := by
  cases cache with
  | ephemeral => trivial
  | cached inner =>
    exact CompilerCache.Consistent.of_within consistent
      ArtifactsCacheInner.removeDirtySources_within

theorem Consistent.filter (consistent : cache.Consistent) {H : Hashes} {sources : Sources}
    (rooted : ∀ file ∈ sources, file.Rooted) {version : Version} {profile : String} :
    (cache.filter H sources version profile).2.Consistent := by
  cases cache with
  | ephemeral => trivial
  | cached inner =>
    exact CompilerCache.Consistent.of_within consistent (ArtifactsCacheInner.filter_within rooted)

theorem Consistent.seen (consistent : cache.Consistent) (mocks : Finset PathBuf)
    (jobs : List (CompilerJob ι)) : (Setup.seenCache cache mocks jobs).Consistent := by
  have updated : (cache.updateMocks mocks).Consistent := by
    cases cache with
    | ephemeral => trivial
    | cached inner => exact ⟨consistent.builds, consistent.rooted⟩
  unfold Setup.seenCache
  generalize jobs.flatMap CompilerJob.actuallyDirty = files
  generalize cache.updateMocks mocks = cache at updated ⊢
  induction files generalizing cache with
  | nil => exact updated
  | cons file files ih =>
    refine ih _ ?_
    cases cache with
    | ephemeral => trivial
    | cached inner =>
      exact CompilerCache.Consistent.of_within updated ArtifactsCacheInner.compilerSeen_within

end ArtifactsCache

namespace Setup

variable {T : Toolchain ι S Λ γ ε δ β} {setup : Setup ι S R Λ γ ε α} {disk : Disk S α β}

/-- The directories of the project are absolute, and the input files are paths. -/
structure Absolute (setup : Setup ι S R Λ γ ε α) : Prop where
  canonical : setup.paths.Canonical
  inputFiles : ∀ file ∈ setup.inputFiles, file.WellFormed

theorem mem_of_readInputFiles {sources : Sources} (read : setup.readInputFiles = some sources) :
    ∀ file ∈ sources, file ∈ setup.inputFiles := by
  have loop : ∀ (files : List PathBuf) (sources₀ sources : Sources),
      files.foldlM (fun sources file =>
        (Source.read setup.fs file).map fun source => sources.insert file source) sources₀ =
          some sources → ∀ file ∈ sources, file ∈ files ∨ file ∈ sources₀ := by
    intro files
    induction files with
    | nil =>
      intro sources₀ sources eq file mem
      cases eq
      exact .inr mem
    | cons f files ih =>
      intro sources₀ sources eq file mem
      rw [List.foldlM_cons] at eq
      obtain ⟨sources₁, first, later⟩ := Option.bind_eq_some_iff.mp eq
      obtain ⟨source, -, rfl⟩ := Option.map_eq_some_iff.mp first
      rcases ih _ _ later file mem with later | now
      · exact .inl (List.mem_cons_of_mem _ later)
      · rcases ExtTreeMap.mem_insert.mp now with same | old
        · rw [LawfulEqCmp.eq_of_compare same]
          exact .inl List.mem_cons_self
        · exact .inr old
  intro file mem
  exact (loop _ _ _ read file mem).resolve_right (by simp)

theorem consistent_filterSources {sets : List (SourceSet S Λ)} {cache : ArtifactsCache S γ α δ β}
    (consistent : cache.Consistent) (rooted : ∀ set ∈ sets, ∀ file ∈ set.sources, file.Rooted) :
    (filterSources T sets cache).2.Consistent := by
  refine List.foldlRecOn sets _
    (motive := fun done : List (SourceSet S Λ) × ArtifactsCache S γ α δ β => done.2.Consistent)
    consistent fun done holds set mem => ?_
  exact holds.filter (rooted set mem)

variable [SettingsRestrictions S R] [Ord Λ] [TransOrd Λ]

/-- The source sets are those of the graph of the input files. -/
theorem exists_of_withSources [LawfulEqOrd Λ] {compiler : ProjectCompiler S Λ δ}
    (eq : setup.withSources T = .ok compiler) :
    ∃ read, setup.readInputFiles = some read ∧ ∃ inputs : Sources, (∀ file ∈ inputs, file ∈ read) ∧
      ∃ graph, Graph.resolveSources T.parser setup.fs setup.paths inputs = some graph ∧
        ∃ resolved, graph.intoSourcesByVersion setup.project T.versionMatches T.parser
          T.languageOf = .ok resolved ∧
          ∀ set ∈ compiler.sources, ∃ (language : Λ) (versioned : VersionedSources S),
            resolved.sources[language]? = some versioned ∧
              (set.version, set.sources, set.profile, set.settings) ∈ versioned := by
  unfold withSources at eq
  split at eq
  · cases eq
  · next sources read =>
    simp only at eq
    split at eq
    · cases eq
    · next graph resolves =>
      split at eq
      · cases eq
      · next resolved sets =>
        cases eq
        refine ⟨sources, read, _, fun file mem => ?_, graph, resolves, resolved, sets, ?_⟩
        · split at mem
          · exact (ExtTreeMap.mem_filter.mp mem).1
          · exact mem
        · intro set mem
          obtain ⟨⟨language, versioned⟩, entry, mem⟩ := List.mem_flatMap.mp mem
          obtain ⟨made, member, rfl⟩ := List.mem_map.mp mem
          exact ⟨language, versioned, ExtTreeMap.mem_toList_iff_getElem?_eq_some.mp entry, member⟩

/-- The files of all source sets are absolute. -/
theorem rooted_of_withSources [LawfulEqOrd Λ] (absolute : setup.Absolute)
    (parses : T.parser.ParsesPaths) {compiler : ProjectCompiler S Λ δ}
    (eq : setup.withSources T = .ok compiler) :
    ∀ set ∈ compiler.sources, ∀ file ∈ set.sources, file.Rooted := by
  classical
  obtain ⟨sources, read, inputs, subset, graph, resolves, resolved, sets, of_sets⟩ :=
    exists_of_withSources eq
  have wellFormed : ∀ file ∈ inputs, file.WellFormed := fun file mem =>
    absolute.inputFiles file (mem_of_readInputFiles read file (subset file mem))
  have rooted := Graph.rooted_nodes absolute.canonical parses wellFormed resolves
  intro set mem file listed
  obtain ⟨language, versioned, getEq, member⟩ := of_sets set mem
  have files := ((Graph.intoSourcesByVersion_madeOf sets).2 language versioned getEq _ member).files
  obtain ⟨source, found⟩ := Option.isSome_iff_exists.mp
    (ExtTreeMap.mem_iff_isSome_getElem?.mp listed)
  obtain ⟨node, here, same⟩ := List.mem_map.mp (files file source found)
  cases same
  exact rooted node here

/-- The settings of a source set are those of its profile. -/
theorem profile_of_withSources [LawfulEqOrd Λ] {compiler : ProjectCompiler S Λ δ}
    (eq : setup.withSources T = .ok compiler) {set : SourceSet S Λ} (mem : set ∈ compiler.sources) :
    (set.profile, set.settings) ∈ setup.project.profiles := by
  classical
  obtain ⟨-, -, -, -, graph, -, resolved, sets, of_sets⟩ := exists_of_withSources eq
  obtain ⟨language, versioned, getEq, member⟩ := of_sets set mem
  exact ((Graph.intoSourcesByVersion_madeOf sets).2 language versioned getEq _ member).profile

variable [CompilerSettings S]

/-- When the compilers are done, the builds of all artifacts are still listed. -/
theorem consistent_of_compileSources [LawfulEqOrd Λ] (absolute : setup.Absolute)
    (parses : T.parser.ParsesPaths) (stored : ∀ cache, disk.cacheFile = some cache → cache.Stored)
    {compiler : ProjectCompiler S Λ δ} (sources : setup.withSources T = .ok compiler)
    {compiled : CompiledState S γ ε α δ β}
    (compiles : setup.compileSources T (setup.preprocess T compiler disk) = .ok compiled) :
    compiled.cache.Consistent := by
  obtain ⟨jobs, mocks, outputs, -, -, rfl⟩ := compileSources_eq_ok.mp compiles
  have preprocessed : (setup.preprocess T compiler disk).cache.Consistent :=
    consistent_filterSources ((ArtifactsCache.consistent_new absolute.canonical.root stored
      _).removeDirtySources) (rooted_of_withSources absolute parses sources)
  exact preprocessed.seen mocks jobs

/-- A run stores a cache file with exactly the builds of its artifacts. -/
theorem stored_of_mem_writes [LawfulEqOrd Λ] (absolute : setup.Absolute)
    (parses : T.parser.ParsesPaths) (stored : ∀ cache, disk.cacheFile = some cache → cache.Stored)
    {cache : CompilerCache S} (mem : .cacheFile cache ∈ setup.writes T disk) : cache.Stored := by
  obtain ⟨compiler, sources, compiled, compiles, mem⟩ := of_cacheFile_mem_writes mem
  obtain ⟨inner, cached, -, rfl⟩ := eq_consume_of_mem_finish mem
  have consistent := consistent_of_compileSources absolute parses stored sources compiles
  rw [cached] at consistent
  refine ArtifactsCacheInner.stored_consume consistent fun file name a mem => ?_
  obtain ⟨jobs, mocks, outputs, -, -, rfl⟩ := compileSources_eq_ok.mp compiles
  refine ArtifactOutput.ascribed_of_mem_onOutput
    (Q := fun _ id _ => id ∈ (AggregatedCompilerOutput.ofRuns
      (List.zipWith (setup.compilerRun T) jobs outputs)).buildInfos.map RawBuildInfo.id)
    ((AggregatedCompilerOutput.ascribed_ofRuns fun run ran => ?_).joinAll setup.paths.root) mem
  rw [AggregatedCompilerOutput.buildInfos_ofRuns]
  exact List.mem_map_of_mem (List.mem_map_of_mem ran)

end Setup

/-- In every cache file that runs leave behind, from an empty cache on, the builds are exactly those
that cached artifacts are linked to. -/
theorem runs_builds_iff [SettingsRestrictions S R] [Ord Λ] [TransOrd Λ] [LawfulEqOrd Λ]
    [CompilerSettings S] {T : Toolchain ι S Λ γ ε δ β} (parses : T.parser.ParsesPaths)
    {disk disk' : Disk S α β} (empty : disk.cacheFile = none)
    {es : List (Disk S α β × Action ι S R Λ γ ε α)}
    (run : (runs T).Guarded (fun _ _ action => action.setup.Absolute) disk es disk')
    {cache : CompilerCache S} (stored : disk'.cacheFile = some cache) (id : String) :
    id ∈ cache.builds ↔ cache.References id := by
  suffices ∀ cache, disk'.cacheFile = some cache → cache.Stored from (this cache stored).builds id
  refine run.invariant (P := fun _ disk => ∀ cache, disk.cacheFile = some cache → cache.Stored)
    ?_ ?_
  · intro cache eq
    simp [empty] at eq
  · rintro es s action s' out stored absolute step cache eq
    obtain ⟨rfl, -⟩ := Prod.mk.inj (Option.some.inj step)
    rcases Disk.cacheFile_applyAll eq with old | new
    · exact stored cache old
    · exact Setup.stored_of_mem_writes absolute parses stored (action.writes_subset new)

theorem absolute_loneSetup (content : String) (extra : Bool) :
    (loneSetup content extra).Absolute where
  canonical := by
    refine ⟨PathBuf.rooted_abs ["p"], PathBuf.rooted_abs ["p", "out"],
      PathBuf.rooted_abs ["p", "src"], PathBuf.rooted_abs ["p", "test"],
      PathBuf.rooted_abs ["p", "script"], fun lib mem => ?_⟩
    rw [List.mem_singleton.mp mem]
    exact PathBuf.rooted_abs ["p", "lib"]
  inputFiles file mem := by
    rw [List.mem_singleton.mp mem]
    exact (PathBuf.rooted_abs _).wellFormed

/-- The second run forgets the build of the first. -/
theorem runs_builds_iff_lone :
    ∃ cache, (loneRun "B" false (loneRun "A" false {})).cacheFile = some cache ∧
      "A" ∉ cache.builds ∧ "B" ∈ cache.builds ∧ ∀ id, id ∈ cache.builds ↔ cache.References id := by
  have both : (loneRun "B" false (loneRun "A" false {})).cacheFile.any fun cache =>
      "A" ∉ cache.builds ∧ "B" ∈ cache.builds := by decide +kernel
  obtain ⟨cache, stored, builds⟩ := (Option.any_eq_true _ _).mp both
  have builds := of_decide_eq_true builds
  refine ⟨cache, stored, builds.1, builds.2, fun id => ?_⟩
  have first : (runs loneTools).Guarded (fun _ _ action => action.setup.Absolute) {} _
      (loneRun "A" false {}) :=
    .step (a := .run (loneSetup "A" false)) .refl (absolute_loneSetup "A" false) rfl
  have second : (runs loneTools).Guarded (fun _ _ action => action.setup.Absolute) {} _
      (loneRun "B" false (loneRun "A" false {})) :=
    .step (a := .run (loneSetup "B" false)) first (absolute_loneSetup "B" false) rfl
  refine runs_builds_iff ?_ rfl second stored id
  rintro fs paths data importPath ⟨⟩

end FoundryCore
