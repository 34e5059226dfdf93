import FoundryCore.Cache.Profiles
import FoundryCore.Compile.Builds

/-!
# Settings over runs

Every artifact is linked to a compiler run, and every compiler run is made for a source set with
the settings of its profile. Artifacts are kept in the cache under the settings that are recorded
for the profile. These can be wider than those of a later run that compiles files of the profile
again, so runs that do so leave artifacts that promise too much.
-/

open Std

namespace FoundryCore

variable {ι S R Λ γ ε α δ β : Type} [CompilerSettings S]

namespace Setup

variable (T : Toolchain ι S Λ γ ε δ β) (setup : Setup ι S R Λ γ ε α)

/-- The cache that a run starts from. -/
def readCache (edges : GraphEdges δ) (disk : Disk S α β) : CompilerCache S :=
  getCache setup.project.toProject disk (edges.unresolvedImports ≠ ∅) setup.preprocessor.isSome

/-- What becomes of an input before it is compiled. -/
def Prepares (input input' : ι) : Prop :=
  match setup.preprocessor with
  | none => input' = input
  | some preprocess => ∃ mocks mocks', preprocess mocks input = .ok (input', mocks')

/-- The job is the one of the source set, with its input as it is compiled. -/
def Assigns (graph : GraphEdges δ) (set : SourceSet S Λ) (job : CompilerJob ι) : Prop :=
  ∃ original, setup.input T graph set = some original ∧
    ∃ input, setup.Prepares original.input input ∧ job = { original with input }

/-- The compiler is run for the source set. -/
def Invokes (graph : GraphEdges δ) (set : SourceSet S Λ) (run : CompilerRun γ ε β) : Prop :=
  ∃ job, setup.Assigns T graph set job ∧ ∃ output, T.compiler.compile job.input = .ok output ∧
    run = setup.compilerRun T job output

variable [SettingsRestrictions S R] [Ord Λ] [TransOrd Λ]

/-- The run makes an artifact of a compiler run for a source set with the settings. -/
def Makes (disk : Disk S α β) : Provenance S := fun settings file name version profile buildId =>
  ∃ compiler, setup.withSources T = .ok compiler ∧
    ∃ compiled, setup.compileSources T (setup.preprocess T compiler disk) = .ok compiled ∧
      (∃ a ∈ (setup.writtenArtifacts T compiled).filesOf file name,
        a.version = version ∧ a.profile = profile ∧ a.buildId = buildId) ∧
      ∃ set ∈ (setup.preprocess T compiler disk).sources, set.settings = settings ∧
        ∃ run, setup.Invokes T (setup.preprocess T compiler disk).cache.graph set run ∧
          run.version = version ∧ run.profile = profile ∧ run.buildInfo.id = buildId

/-- Whatever the run compiles, the settings that the cache has for the profile promise no more than
the settings it is compiled with. -/
def KeepsPromises (disk : Disk S α β) : Prop :=
  ∀ compiler, setup.withSources T = .ok compiler →
    ∀ set ∈ (setup.preprocess T compiler disk).sources,
      (setup.input T (setup.preprocess T compiler disk).cache.graph set).isSome → ∀ recorded,
        setup.project.standing (setup.readCache compiler.edges disk) set.profile = some recorded →
          PromisesNoMore recorded set.settings

/-- Every cached artifact that the run keeps for a profile was made with settings that can serve
what the profile asks for. -/
def ReusesOnly (M : Provenance S) (disk : Disk S α β) : Prop :=
  ∀ compiler, setup.withSources T = .ok compiler → ∀ inner,
    ArtifactsCache.new setup.project.toProject compiler.edges setup.fs disk
      setup.preprocessor.isSome = .cached inner →
    ∀ (file : PathBuf) entry, inner.updateProfiles.cache.files[file]? = some entry →
      ∀ name version profile a, entry.artifacts.find? name version profile = some a →
        ∀ requested, setup.project.settingsProfiles[profile]? = some requested →
          ∃ settings, M settings file name version profile a.buildId ∧
            CompilerSettings.canUseCached requested settings = true

end Setup

/-- What the runs so far have made. -/
def Made [SettingsRestrictions S R] [Ord Λ] [TransOrd Λ] (T : Toolchain ι S Λ γ ε δ β)
    (es : List (Disk S α β × Action ι S R Λ γ ε α)) : Provenance S :=
  fun settings file name version profile buildId =>
    ∃ e ∈ es, e.2.setup.Makes T e.1 settings file name version profile buildId

/-! ## The compiler runs of a run -/

namespace Setup

variable {T : Toolchain ι S Λ γ ε δ β} {setup : Setup ι S R Λ γ ε α} {graph : GraphEdges δ}
  {sets : List (SourceSet S Λ)} {jobs : List (CompilerJob ι)} {mocks mocks' : Finset PathBuf}

theorem Assigns.profile {set : SourceSet S Λ} {job : CompilerJob ι}
    (assigns : setup.Assigns T graph set job) : job.profile = set.profile := by
  obtain ⟨original, eq, input, -, rfl⟩ := assigns
  unfold Setup.input at eq
  split_ifs at eq
  dsimp only at eq
  split_ifs at eq
  cases eq
  rfl

/-- Every job is assigned to a source set. -/
theorem exists_set_of_mem_jobs (eq : setup.jobs T graph mocks sets = .ok (jobs, mocks')) :
    ∀ job ∈ jobs, ∃ set ∈ sets, setup.Assigns T graph set job := by
  refine Library.of_foldlM (P := fun done : List (CompilerJob ι) × Finset PathBuf =>
    ∀ job ∈ done.1, ∃ set ∈ sets, setup.Assigns T graph set job) eq (by simp) ?_
  rintro set mem ⟨done, mocks⟩ ⟨done', mocks'⟩ assigned eq
  have adds : ∀ job', setup.Assigns T graph set job' → done' = done ++ [job'] →
      ∀ job ∈ done', ∃ set ∈ sets, setup.Assigns T graph set job := by
    rintro job' assigns rfl job listed
    rcases List.mem_append.mp listed with old | new
    · exact assigned job old
    · rw [List.mem_singleton.mp new]
      exact ⟨set, mem, assigns⟩
  cases originalEq : setup.input T graph set with
  | none =>
    simp only [originalEq, Except.ok.injEq, Prod.mk.injEq] at eq
    rw [← eq.1]
    exact assigned
  | some original =>
    cases preprocessorEq : setup.preprocessor with
    | none =>
      simp only [originalEq, preprocessorEq, Except.ok.injEq, Prod.mk.injEq] at eq
      refine adds original ⟨original, originalEq, original.input, ?_, rfl⟩ eq.1.symm
      simp [Prepares, preprocessorEq]
    | some preprocess =>
      simp only [originalEq, preprocessorEq] at eq
      cases prepared : preprocess mocks original.input with
      | error err => simp [prepared, Except.map] at eq
      | ok result =>
        simp only [prepared, Except.map, Except.ok.injEq, Prod.mk.injEq] at eq
        refine adds { original with input := result.1 }
          ⟨original, originalEq, result.1, ?_, rfl⟩ eq.1.symm
        simp only [Prepares, preprocessorEq]
        exact ⟨mocks, result.2, prepared⟩

/-- Every compiler run is one for a source set. -/
theorem exists_set_of_mem_runs {outputs : List (CompilerOutput γ ε)}
    (eq : setup.jobs T graph mocks sets = .ok (jobs, mocks'))
    (ran : (jobs.mapM fun job => T.compiler.compile job.input) = .ok outputs) :
    ∀ run ∈ List.zipWith (setup.compilerRun T) jobs outputs,
      ∃ set ∈ sets, setup.Invokes T graph set run := by
  intro run mem
  obtain ⟨job, listed, output, compiles, rfl⟩ := Library.exists_of_mem_zipWith ran mem
  obtain ⟨set, mem, assigns⟩ := exists_set_of_mem_jobs eq job listed
  exact ⟨set, mem, job, assigns, output, compiles, rfl⟩

end Setup

/-! ## The cache of a run -/

/-- In the course of a run: artifacts are backed, by the settings that the cache has for their
profiles. -/
structure ArtifactsCacheInner.Founded (project : Project S γ α) (read : CompilerCache S)
    (M : Provenance S) (inner : ArtifactsCacheInner S γ α δ β) : Prop where
  same : inner.project = project
  backed : inner.cache.Backed M
  standing : ∀ profile, inner.cache.profiles[profile]? = project.standing read profile

theorem ArtifactsCacheInner.Founded.of_within {project : Project S γ α} {read : CompilerCache S}
    {M : Provenance S} {P : PathBuf → Prop}
    {inner inner' : ArtifactsCacheInner S γ α δ β} (founded : inner.Founded project read M)
    (within : CompilerCache.Within P inner.cache inner'.cache) (same : inner.SameSettings inner') :
    inner'.Founded project read M where
  same := same.project.trans founded.same
  backed := founded.backed.of_within within same.profiles
  standing profile := by rw [same.profiles, founded.standing]

namespace ArtifactsCache

variable (project : Project S γ α) {read : CompilerCache S} {M : Provenance S}
  {cache : ArtifactsCache S γ α δ β}

/-- Whatever is cached is backed. -/
def Founded (read : CompilerCache S) (M : Provenance S) :
    ArtifactsCache S γ α δ β → Prop
  | ephemeral _ _ => True
  | cached inner => inner.Founded project read M

/-- What a run reads is backed if what is stored is. -/
theorem backed_getCache {disk : Disk S α β}
    (backed : ∀ cache, disk.cacheFile = some cache → cache.Backed (M.stripped project.paths.root))
    (invalidate preprocessed : Bool) :
    (getCache project disk invalidate preprocessed).Backed M := by
  simp only [getCache]
  split_ifs
  · exact .of_empty rfl
  · split
    · exact .of_empty rfl
    · next stored =>
      split_ifs
      · exact (backed _ stored).readJoined
      · exact .of_empty rfl

variable {project}

theorem founded_removeDirtySources {disk : Disk S α β} {edges : GraphEdges δ} {H : Hashes}
    {parser : SourceParser δ} {fs : FileSystem} {order : HashOrder} {preprocessed : Bool}
    (backed : ∀ cache, disk.cacheFile = some cache →
      cache.Backed (M.stripped project.paths.root)) :
    ((new project edges fs disk preprocessed).removeDirtySources H parser fs order).Founded project
      (getCache project disk (edges.unresolvedImports ≠ ∅) preprocessed) M := by
  unfold new
  split_ifs
  · have read := (backed_getCache project backed (edges.unresolvedImports ≠ ∅)
      preprocessed).of_within (P := fun _ => True) (CompilerCache.removeMissingFiles_within fs) rfl
    refine ArtifactsCacheInner.Founded.of_within (P := fun _ => True) ⟨rfl, ?_, fun profile => ?_⟩
      ArtifactsCacheInner.removeDirty_within ArtifactsCacheInner.sameSettings_removeDirty
    · exact ArtifactsCacheInner.backed_updateProfiles read
    · exact ArtifactsCacheInner.profiles_updateProfiles profile
  · trivial

theorem Founded.filter (founded : cache.Founded project read M) {H : Hashes} (sources : Sources)
    {version : Version} {profile : String} :
    (cache.filter H sources version profile).2.Founded project read M := by
  cases cache with
  | ephemeral => trivial
  | cached inner =>
    exact ArtifactsCacheInner.Founded.of_within (P := fun _ => True) founded
      (ArtifactsCacheInner.filter_within fun _ _ => trivial)
      (ArtifactsCacheInner.sameSettings_filter sources)

theorem Founded.seen (founded : cache.Founded project read M) (mocks : Finset PathBuf)
    (jobs : List (CompilerJob ι)) :
    (Setup.seenCache cache mocks jobs).Founded project read M := by
  have updated : (cache.updateMocks mocks).Founded project read M := by
    cases cache with
    | ephemeral => trivial
    | cached inner => exact ⟨founded.same, founded.backed, founded.standing⟩
  unfold Setup.seenCache
  generalize jobs.flatMap CompilerJob.actuallyDirty = files
  generalize cache.updateMocks mocks = cache at updated ⊢
  induction files generalizing cache with
  | nil => exact updated
  | cons file files ih =>
    refine ih _ ?_
    cases cache with
    | ephemeral => trivial
    | cached inner =>
      exact ArtifactsCacheInner.Founded.of_within (P := fun _ => True) updated
        ArtifactsCacheInner.compilerSeen_within (ArtifactsCacheInner.sameSettings_compilerSeen file)

end ArtifactsCache

namespace Setup

variable {T : Toolchain ι S Λ γ ε δ β} {setup : Setup ι S R Λ γ ε α} {disk : Disk S α β}
  {M : Provenance S}

theorem founded_filterSources {project : Project S γ α} {read : CompilerCache S}
    {cache : ArtifactsCache S γ α δ β} (founded : cache.Founded project read M)
    (sets : List (SourceSet S Λ)) : (filterSources T sets cache).2.Founded project read M := by
  refine List.foldlRecOn sets _ (motive := fun done : List (SourceSet S Λ) ×
    ArtifactsCache S γ α δ β => done.2.Founded project read M) founded fun done holds set _ => ?_
  exact holds.filter set.sources

theorem founded_preprocess {compiler : ProjectCompiler S Λ δ}
    (backed : ∀ cache, disk.cacheFile = some cache → cache.Backed (M.stripped setup.paths.root)) :
    (setup.preprocess T compiler disk).cache.Founded setup.project.toProject
      (setup.readCache compiler.edges disk) M :=
  founded_filterSources (ArtifactsCache.founded_removeDirtySources backed) _

omit [CompilerSettings S] in
theorem mem_filterSources {sets : List (SourceSet S Λ)} {cache : ArtifactsCache S γ α δ β}
    {set : SourceSet S Λ} (mem : set ∈ (filterSources T sets cache).1) :
    ∃ original ∈ sets, set.profile = original.profile ∧ set.settings = original.settings := by
  refine List.foldlRecOn sets _ (motive := fun done : List (SourceSet S Λ) ×
    ArtifactsCache S γ α δ β => ∀ set ∈ done.1, ∃ original ∈ sets,
      set.profile = original.profile ∧ set.settings = original.settings) (by simp)
    (fun done found first mem set listed => ?_) set mem
  rcases List.mem_append.mp listed with old | new
  · exact found set old
  · rw [List.mem_singleton.mp new]
    exact ⟨first, mem, rfl, rfl⟩

/-- Settings stand for every profile of the project. -/
theorem exists_standing {project : CompilerProject S R Λ γ α} {profile : String} {settings : S}
    (mem : (profile, settings) ∈ project.profiles) (read : CompilerCache S) :
    ∃ recorded, project.standing read profile = some recorded := by
  have listed : profile ∈ project.settingsProfiles := by
    rw [Project.settingsProfiles, ExtTreeMap.mem_ofList, List.contains_iff_mem]
    exact List.mem_map_of_mem (f := Prod.fst) mem
  obtain ⟨requested, getEq⟩ :=
    Option.isSome_iff_exists.mp (ExtTreeMap.mem_iff_isSome_getElem?.mp listed)
  exact ⟨_, by rw [Project.standing, getEq]; rfl⟩

variable [SettingsRestrictions S R] [Ord Λ] [TransOrd Λ] [LawfulEqOrd Λ]

/-- A run that keeps the promises of its cache stores one that is backed. -/
theorem backed_of_mem_writes (absolute : setup.Absolute) (parses : T.parser.ParsesPaths)
    (stored : ∀ cache, disk.cacheFile = some cache → cache.Stored)
    (backed : ∀ cache, disk.cacheFile = some cache → cache.Backed (M.stripped setup.paths.root))
    (keeps : setup.KeepsPromises T disk)
    (makes : ∀ settings file name version profile buildId,
      setup.Makes T disk settings file name version profile buildId →
        M settings file name version profile buildId)
    {cache : CompilerCache S} (mem : .cacheFile cache ∈ setup.writes T disk) :
    cache.Backed (M.stripped setup.paths.root) := by
  obtain ⟨compiler, sources, compiled, compiles, mem⟩ := of_cacheFile_mem_writes mem
  obtain ⟨inner, cached, -, rfl⟩ := eq_consume_of_mem_finish mem
  have consistent := consistent_of_compileSources absolute parses stored sources compiles
  obtain ⟨jobs, mocks, outputs, jobsEq, ran, eq⟩ := compileSources_eq_ok.mp compiles
  have founded : compiled.cache.Founded setup.project.toProject
      (setup.readCache compiler.edges disk) M := by
    rw [eq]
    exact (founded_preprocess backed).seen mocks jobs
  rw [cached] at consistent founded
  have root : inner.project.root = setup.paths.root := congrArg Project.root founded.same
  rw [← root]
  refine ArtifactsCacheInner.backed_consume
    (ArtifactsCacheInner.backed_mergeWritten founded.backed fun file name a listed => ?_)
    consistent.rooted
  have ascribed : compiled.output.Ascribed fun version id profile =>
      ∃ set ∈ (setup.preprocess T compiler disk).sources, ∃ run,
        setup.Invokes T (setup.preprocess T compiler disk).cache.graph set run ∧
          run.version = version ∧ run.profile = profile ∧ run.buildInfo.id = id := by
    rw [eq]
    refine (AggregatedCompilerOutput.ascribed_ofRuns fun run ran' => ?_).joinAll _
    obtain ⟨set, mem, invokes⟩ := exists_set_of_mem_runs jobsEq ran run ran'
    exact ⟨set, mem, run, invokes, rfl, rfl, rfl⟩
  obtain ⟨set, mem, run, invokes, version, profile, build⟩ :=
    ArtifactOutput.ascribed_of_mem_onOutput ascribed listed
  have same : set.profile = a.profile := by
    obtain ⟨job, assigns, output, -, rfl⟩ := invokes
    rw [← assigns.profile, ← profile]
    rfl
  have assigned : (setup.input T (setup.preprocess T compiler disk).cache.graph set).isSome := by
    obtain ⟨job, ⟨original, inputEq, -⟩, -⟩ := invokes
    exact Option.isSome_of_eq_some inputEq
  obtain ⟨original, listed', profile', settings'⟩ := mem_filterSources mem
  have known := profile_of_withSources sources listed'
  obtain ⟨recorded, standing⟩ := exists_standing known (setup.readCache compiler.edges disk)
  rw [← profile'] at standing
  refine ⟨recorded, ?_, set.settings, makes _ _ _ _ _ _ ?_,
    keeps compiler sources set mem assigned recorded standing⟩
  · rw [founded.standing, ← same, standing]
  · exact ⟨compiler, sources, compiled, compiles, ⟨a, listed, rfl, rfl, rfl⟩, set, mem, rfl, run,
      invokes, version, profile, build⟩

omit [LawfulEqOrd Λ] in
/-- What a run keeps was made with settings that can serve what is asked for, if what is stored is
backed. -/
theorem reusesOnly_of_backed
    (backed : ∀ cache, disk.cacheFile = some cache → cache.Backed (M.stripped setup.paths.root)) :
    setup.ReusesOnly T M disk := by
  intro compiler sources inner cached file entry getEq name version profile a found requested asked
  unfold ArtifactsCache.new at cached
  split_ifs at cached
  cases cached
  have read := (ArtifactsCache.backed_getCache setup.project.toProject backed
    (compiler.edges.unresolvedImports ≠ ∅) setup.preprocessor.isSome).of_within
      (P := fun _ => True) (CompilerCache.removeMissingFiles_within setup.fs) rfl
  exact ArtifactsCacheInner.exists_made_of_updateProfiles read getEq found asked

end Setup

/-! ## Runs -/

/-- The runs are runs of one project whose recorded settings never promise more than what they stand
for, so each run reuses only what was made with settings that can serve it. -/
theorem runs_reuse_only [SettingsRestrictions S R] [Ord Λ] [TransOrd Λ] [LawfulEqOrd Λ]
    {T : Toolchain ι S Λ γ ε δ β} (parses : T.parser.ParsesPaths) {root : PathBuf}
    {disk disk' : Disk S α β} (empty : disk.cacheFile = none)
    {es : List (Disk S α β × Action ι S R Λ γ ε α)}
    (run : (runs T).Guarded (fun _ disk action => action.setup.Absolute ∧
      action.setup.paths.root = root ∧ action.setup.KeepsPromises T disk) disk es disk') :
    (∀ cache, disk'.cacheFile = some cache → cache.Backed ((Made T es).stripped root)) ∧
      ∀ setup : Setup ι S R Λ γ ε α, setup.paths.root = root →
        setup.ReusesOnly T (Made T es) disk' := by
  have invariant : ∀ cache, disk'.cacheFile = some cache →
      cache.Stored ∧ cache.Backed ((Made T es).stripped root) := by
    refine run.invariant (P := fun es disk => ∀ cache, disk.cacheFile = some cache →
      cache.Stored ∧ cache.Backed ((Made T es).stripped root)) ?_ ?_
    · intro cache eq
      simp [empty] at eq
    · rintro es s action s' out holds ⟨absolute, rfl, keeps⟩ step cache eq
      obtain ⟨rfl, rfl⟩ := Prod.mk.inj (Option.some.inj step)
      have more : ∀ cache, s.cacheFile = some cache →
          cache.Backed ((Made T (es ++ [(s, action)])).stripped action.setup.paths.root) := by
        intro cache eq
        refine (holds cache eq).2.mono ?_
        rintro settings key name version profile buildId ⟨file, rooted, rfl, e, mem, made⟩
        exact ⟨file, rooted, rfl, e, List.mem_append_left _ mem, made⟩
      rcases Disk.cacheFile_applyAll eq with old | new
      · exact ⟨(holds cache old).1, more cache old⟩
      · have stored := fun cache eq => (holds cache eq).1
        have written := action.writes_subset new
        refine ⟨Setup.stored_of_mem_writes absolute parses stored written,
          Setup.backed_of_mem_writes absolute parses stored more keeps ?_ written⟩
        intro settings file name version profile buildId makes
        exact ⟨(s, action), by simp, makes⟩
  refine ⟨fun cache eq => (invariant cache eq).2, ?_⟩
  rintro setup rfl
  exact Setup.reusesOnly_of_backed fun cache eq => (invariant cache eq).2

/-! ### Outputs that come and go -/

/-- The project with one file, asked for the outputs. -/
def outputsSetup (outputs : List String) (content : String) :
    Setup LoneInput SolcSettings SolcRestrictions String String Unit (Option String) :=
  let setup := loneSetup content false
  { setup with project := { setup.project with
      settings := { settings := { outputSelection := .commonOutputSelection outputs } } } }

def outputsRun (outputs : List String) (content : String)
    (disk : Disk SolcSettings (Option String) Unit) : Disk SolcSettings (Option String) Unit :=
  disk.applyAll ((outputsSetup outputs content).writes loneTools disk)

theorem absolute_outputsSetup (outputs : List String) (content : String) :
    (outputsSetup outputs content).Absolute := by
  have canonical : (ProjectPathsConfig.dapptools (.abs ["p"]) []).Canonical :=
    (absolute_loneSetup content false).canonical
  have inputFiles : ∀ file ∈ [PathBuf.abs ["p", "src", "a.sol"]], file.WellFormed :=
    (absolute_loneSetup content false).inputFiles
  exact ⟨canonical, inputFiles⟩

/-- The cache has the settings of every source set. -/
def standsAsCompiled (outputs : List String) (content : String)
    (disk : Disk SolcSettings (Option String) Unit) : Bool :=
  let setup := outputsSetup outputs content
  (setup.withSources loneTools).toOption.all fun compiler =>
    (setup.preprocess loneTools compiler disk).sources.all fun set =>
      setup.project.standing (setup.readCache compiler.edges disk) set.profile = some set.settings

theorem keepsPromises_outputsSetup {outputs : List String} {content : String}
    {disk : Disk SolcSettings (Option String) Unit}
    (stands : standsAsCompiled outputs content disk) :
    (outputsSetup outputs content).KeepsPromises loneTools disk := by
  intro compiler sources set mem _ recorded standing
  rw [standsAsCompiled, sources] at stands
  have same := of_decide_eq_true (List.all_eq_true.mp stands set mem)
  rw [Option.some.inj (standing.symm.trans same)]
  exact .refl _

def bothOutputs : List String := ["abi", "evm.bytecode"]

/-- The file is edited, and compiled with both outputs again. -/
theorem runs_reuse_only_both :
    (outputsSetup bothOutputs "B").ReusesOnly loneTools
      (Made loneTools [({}, .run (outputsSetup bothOutputs "A")),
        (outputsRun bothOutputs "A" {}, .run (outputsSetup bothOutputs "B"))])
      (outputsRun bothOutputs "B" (outputsRun bothOutputs "A" {})) := by
  have first : (runs loneTools).Guarded (fun _ disk action => action.setup.Absolute ∧
      action.setup.paths.root = .abs ["p"] ∧ action.setup.KeepsPromises loneTools disk) {} _
      (outputsRun bothOutputs "A" {}) :=
    .step (a := .run (outputsSetup bothOutputs "A")) .refl ⟨absolute_outputsSetup _ _, rfl,
      keepsPromises_outputsSetup (by decide +kernel)⟩ rfl
  have second : (runs loneTools).Guarded (fun _ disk action => action.setup.Absolute ∧
      action.setup.paths.root = .abs ["p"] ∧ action.setup.KeepsPromises loneTools disk) {} _
      (outputsRun bothOutputs "B" (outputsRun bothOutputs "A" {})) :=
    .step (a := .run (outputsSetup bothOutputs "B")) first ⟨absolute_outputsSetup _ _, rfl,
      keepsPromises_outputsSetup (by decide +kernel)⟩ rfl
  refine (runs_reuse_only ?_ rfl second).2 _ rfl
  rintro fs paths data importPath ⟨⟩

/-- Only source sets with the settings make the build. -/
def buildsOnlyWith (outputs : List String) (content : String)
    (disk : Disk SolcSettings (Option String) Unit) (buildId : String) (settings : SolcSettings) :
    Bool :=
  let setup := outputsSetup outputs content
  (setup.withSources loneTools).toOption.all fun compiler =>
    let state := setup.preprocess loneTools compiler disk
    state.sources.all fun set => decide (set.settings = settings) ||
      (setup.input loneTools state.cache.graph set).all fun job =>
        (loneCompiler.compile job.input).toOption.all fun output =>
          (loneCompiler.buildInfo job.input output).id ≠ buildId

theorem eq_of_makes {outputs : List String} {content : String}
    {disk : Disk SolcSettings (Option String) Unit} {buildId : String} {settings : SolcSettings}
    (only : buildsOnlyWith outputs content disk buildId settings) {settings' : SolcSettings}
    {file : PathBuf} {name : String} {version : Version} {profile : String}
    (makes : (outputsSetup outputs content).Makes loneTools disk settings' file name version profile
      buildId) : settings' = settings := by
  obtain ⟨compiler, sources, -, -, -, set, mem, rfl, run, invokes, -, -, build⟩ := makes
  obtain ⟨job, ⟨original, inputEq, input, prepares, rfl⟩, output, compiles, rfl⟩ := invokes
  cases prepares
  rw [buildsOnlyWith, sources] at only
  have alternatives := List.all_eq_true.mp only set mem
  rw [inputEq] at alternatives
  rcases Bool.or_eq_true_iff.mp alternatives with same | other
  · exact of_decide_eq_true same
  · simp only [Option.all_some] at other
    have compiles : loneCompiler.compile original.input = .ok output := compiles
    rw [compiles] at other
    exact absurd build (of_decide_eq_true other)

/-- The file is compiled with both outputs, and with one of them after it was edited. -/
def editedDisk : Disk SolcSettings (Option String) Unit :=
  outputsRun ["abi"] "B" (outputsRun bothOutputs "A" {})

/-- The artifact of the edited file. -/
def keepsEdited (inner : ArtifactsCacheInner SolcSettings String (Option String) Unit Unit) :
    Bool :=
  inner.updateProfiles.cache.files[PathBuf.abs ["p", "src", "a.sol"]]?.any fun entry =>
    (entry.artifacts.find? "C" ⟨0, 8, 30, "", ""⟩ "default").any fun a => a.buildId = "B"

/-- The artifact that was made with one output is kept when both are asked for. -/
theorem not_runs_reuse_only :
    ¬ ∀ (es : List (Disk SolcSettings (Option String) Unit ×
          Action LoneInput SolcSettings SolcRestrictions String String Unit (Option String)))
        (disk : Disk SolcSettings (Option String) Unit),
      (runs loneTools).Guarded (fun _ _ action => action.setup.Absolute ∧
        action.setup.paths.root = .abs ["p"]) {} es disk →
      ∀ setup : Setup LoneInput SolcSettings SolcRestrictions String String Unit (Option String),
        setup.paths.root = .abs ["p"] → setup.ReusesOnly loneTools (Made loneTools es) disk := by
  intro claimed
  have first : (runs loneTools).Guarded (fun _ _ action => action.setup.Absolute ∧
      action.setup.paths.root = .abs ["p"]) {} _ (outputsRun bothOutputs "A" {}) :=
    .step (a := .run (outputsSetup bothOutputs "A")) .refl ⟨absolute_outputsSetup _ _, rfl⟩ rfl
  have second : (runs loneTools).Guarded (fun _ _ action => action.setup.Absolute ∧
      action.setup.paths.root = .abs ["p"]) {} _
      (outputsRun ["abi"] "B" (outputsRun bothOutputs "A" {})) :=
    .step (a := .run (outputsSetup ["abi"] "B")) first ⟨absolute_outputsSetup _ _, rfl⟩ rfl
  have reuses := claimed _ editedDisk second (outputsSetup bothOutputs "B") rfl
  have kept : ((outputsSetup bothOutputs "B").withSources loneTools).toOption.any fun compiler =>
      match ArtifactsCache.new (outputsSetup bothOutputs "B").project.toProject compiler.edges
        (outputsSetup bothOutputs "B").fs editedDisk false with
      | .cached inner => keepsEdited inner
      | .ephemeral _ _ => false := by decide +kernel
  obtain ⟨compiler, sources, kept⟩ := (Option.any_eq_true _ _).mp kept
  split at kept
  · next inner cached =>
    obtain ⟨entry, getEq, kept⟩ := (Option.any_eq_true _ _).mp kept
    obtain ⟨a, found, build⟩ := (Option.any_eq_true _ _).mp kept
    obtain ⟨settings, ⟨e, mem, makes⟩, accepted⟩ := reuses compiler (Library.ok_of_toOption sources)
      inner cached _ entry getEq _ _ _ a found _ rfl
    rw [of_decide_eq_true build] at makes
    have narrow : settings = (outputsSetup ["abi"] "B").project.settings := by
      rcases List.mem_cons.mp mem with rfl | mem
      · exact eq_of_makes (by decide +kernel) makes
      · rw [List.mem_singleton.mp mem] at makes
        exact eq_of_makes (by decide +kernel) makes
    rw [narrow] at accepted
    exact absurd accepted (by decide +kernel)
  · cases kept

end FoundryCore
