import FoundryCore.Cache.Builds
import FoundryCore.Compile.Project
import FoundryCore.Library.Machine

/-!
# Runs that share a cache file

Runs of a project follow each other on one disk, each with its own configuration and files. A run
may stop between any two of its writes.
-/

open Std

namespace FoundryCore

variable {ι S R Λ γ ε α δ β : Type}

namespace Setup

variable {T : Toolchain ι S Λ γ ε δ β} {setup : Setup ι S R Λ γ ε α} {disk : Disk S α β}

/-- What remains to be done when the compilers are done. -/
def finish (T : Toolchain ι S Λ γ ε δ β) (setup : Setup ι S R Λ γ ε α)
    (compiled : CompiledState S γ ε α δ β) :
    ProjectCompileOutput γ ε α δ β × List (DiskWrite S α β) :=
  let (state, artifactWrites) := setup.writeArtifacts T compiled
  let (output, cacheWrites) := setup.writeCache T state
  (output, artifactWrites ++ cacheWrites)

/-- The cache when the compilers are done. -/
def seenCache (cache : ArtifactsCache S γ α δ β) (mocks : Finset PathBuf)
    (jobs : List (CompilerJob ι)) : ArtifactsCache S γ α δ β :=
  (jobs.flatMap CompilerJob.actuallyDirty).foldl (fun cache file => cache.compilerSeen file)
    (cache.updateMocks mocks)

/-- The compilers run for the jobs, and their output is collected. -/
theorem compileSources_eq_ok [CompilerSettings S] {state : PreprocessedState S Λ γ α δ β}
    {compiled : CompiledState S γ ε α δ β} :
    setup.compileSources T state = .ok compiled ↔ ∃ jobs mocks outputs,
      setup.jobs T state.cache.graph state.cache.mocks state.sources = .ok (jobs, mocks) ∧
      (jobs.mapM fun job => T.compiler.compile job.input) = .ok outputs ∧
      compiled = ⟨(AggregatedCompilerOutput.ofRuns
          (List.zipWith (setup.compilerRun T) jobs outputs)).joinAll setup.paths.root,
        seenCache state.cache mocks jobs, state.primaryProfiles⟩ := by
  unfold compileSources
  cases jobsEq : setup.jobs T state.cache.graph state.cache.mocks state.sources with
  | error err => simp [bind, Except.bind]
  | ok found =>
    obtain ⟨jobs, mocks⟩ := found
    cases outputsEq : jobs.mapM fun job => T.compiler.compile job.input with
    | error err => simp [outputsEq, bind, Except.bind]
    | ok outputs =>
      simp [outputsEq, bind, Except.bind, pure, Except.pure, seenCache, eq_comm]

/-- The artifacts that are written. -/
def writtenArtifacts (T : Toolchain ι S Λ γ ε δ β) (setup : Setup ι S R Λ γ ε α)
    (compiled : CompiledState S γ ε α δ β) : Artifacts α :=
  setup.project.artifacts.onOutput T.lowercase compiled.output.contracts compiled.output.sources
    compiled.cache.outputCtx setup.paths.artifacts compiled.primaryProfiles

/-- A cache file is written for a cache that is kept, if the build succeeded. -/
theorem eq_consume_of_mem_finish {compiled : CompiledState S γ ε α δ β} {cache : CompilerCache S}
    (mem : .cacheFile cache ∈ (setup.finish T compiled).2) :
    ∃ inner, compiled.cache = .cached inner ∧ setup.skipsWriting compiled.output = false ∧
      cache = (inner.consume (setup.writtenArtifacts T compiled) compiled.output.buildInfos).2 := by
  simp only [finish, writeArtifacts] at mem
  cases skips : setup.skipsWriting compiled.output with
  | true =>
    simp only [skips, if_true, writeCache, List.nil_append] at mem
    cases cached : compiled.cache <;> simp [cached, ArtifactsCache.consume] at mem
  | false =>
    simp only [skips, Bool.false_eq_true, if_false, writeCache] at mem
    cases cached : compiled.cache with
    | ephemeral edges project => simp [cached, ArtifactsCache.consume] at mem
    | cached inner =>
      refine ⟨inner, rfl, rfl, ?_⟩
      simp only [cached, ArtifactsCache.consume, Bool.not_false, if_true, List.mem_append,
        List.mem_map, reduceCtorEq, and_false, exists_false, false_or, List.mem_singleton,
        DiskWrite.cacheFile.injEq] at mem
      rw [writtenArtifacts, cached]
      exact mem

variable [SettingsRestrictions S R] [Ord Λ] [TransOrd Λ] [CompilerSettings S]

/-- A run resolves its source sets, compiles them and finishes. -/
theorem compile_eq_ok {result : ProjectCompileOutput γ ε α δ β × List (DiskWrite S α β)} :
    setup.compile T disk = .ok result ↔
      ∃ compiler, setup.withSources T = .ok compiler ∧
        ∃ compiled, setup.compileSources T (setup.preprocess T compiler disk) = .ok compiled ∧
          setup.finish T compiled = result := by
  unfold compile
  cases setup.withSources T with
  | error err => simp [bind, Except.bind]
  | ok compiler =>
    cases compiledEq : setup.compileSources T (setup.preprocess T compiler disk) with
    | error err => simp [compiledEq, bind, Except.bind]
    | ok compiled => simp [compiledEq, bind, Except.bind, finish, pure, Except.pure]

/-- What a run that stores a cache file went through. -/
theorem of_cacheFile_mem_writes {cache : CompilerCache S}
    (mem : .cacheFile cache ∈ setup.writes T disk) :
    ∃ compiler, setup.withSources T = .ok compiler ∧
      ∃ compiled, setup.compileSources T (setup.preprocess T compiler disk) = .ok compiled ∧
        .cacheFile cache ∈ (setup.finish T compiled).2 := by
  unfold writes at mem
  split at mem
  · next output writes eq =>
    obtain ⟨compiler, sources, compiled, compiles, finish⟩ := compile_eq_ok.mp eq
    exact ⟨compiler, sources, compiled, compiles, by rwa [finish]⟩
  · cases mem

end Setup

/-! ## Runs in turn -/

/-- A run, or the part of a run before it is stopped. -/
inductive Action (ι S R Λ γ ε α : Type)
  | run (setup : Setup ι S R Λ γ ε α)
  | interrupted (setup : Setup ι S R Λ γ ε α) (writes : Nat)

namespace Action

variable [SettingsRestrictions S R] [Ord Λ] [TransOrd Λ] [CompilerSettings S]

def setup : Action ι S R Λ γ ε α → Setup ι S R Λ γ ε α
  | run setup => setup
  | interrupted setup _ => setup

/-- What is written before the run ends. -/
def writes (T : Toolchain ι S Λ γ ε δ β) (disk : Disk S α β) :
    Action ι S R Λ γ ε α → List (DiskWrite S α β)
  | run setup => setup.writes T disk
  | interrupted setup n => (setup.writes T disk).take n

theorem writes_subset {T : Toolchain ι S Λ γ ε δ β} {disk : Disk S α β}
    (action : Action ι S R Λ γ ε α) : action.writes T disk ⊆ action.setup.writes T disk := by
  cases action with
  | run setup => exact fun _ mem => mem
  | interrupted setup n => exact List.take_subset n _

end Action

/-- Runs on one disk. Each of them emits what it started from. -/
def runs [SettingsRestrictions S R] [Ord Λ] [TransOrd Λ] [CompilerSettings S]
    (T : Toolchain ι S Λ γ ε δ β) :
    Library.Machine (Disk S α β) (Action ι S R Λ γ ε α) (Disk S α β × Action ι S R Λ γ ε α) where
  step disk action := some (disk.applyAll (action.writes T disk), [(disk, action)])

theorem Disk.cacheFile_applyAll {disk : Disk S α β} {writes : List (DiskWrite S α β)}
    {cache : CompilerCache S} (stored : (disk.applyAll writes).cacheFile = some cache) :
    disk.cacheFile = some cache ∨ .cacheFile cache ∈ writes := by
  induction writes generalizing disk with
  | nil => exact .inl stored
  | cons write writes ih =>
    rcases ih stored with now | later
    · cases write with
      | cacheFile cache' =>
        obtain rfl := Option.some.inj now
        exact .inr List.mem_cons_self
      | artifact => exact .inl now
      | buildInfo => exact .inl now
      | removeBuildInfo => exact .inl now
    · exact .inr (List.mem_cons_of_mem _ later)

/-! ### A project with one file -/

/-- A parser of files without imports. -/
def SourceParser.noImports : SourceParser Unit where
  parse _ _ := some ()
  reads _ := true
  parseOrder files := files
  versionReq _ := none
  resolveImports _ _ _ := some ([], [])
  finalizeImports nodes _ := some nodes
  compilationDependencies _ _ := []
  parseOrder_perm _ := .refl _
  finalizeImports_files _ _ _ eq := by
    cases eq
    rfl

structure LoneInput where
  sources : Sources
  version : Version

/-- A file with a text has a contract, whose metadata is the text. -/
def loneCompiler : Compiler LoneInput SolcSettings String String Unit Unit where
  build sources _ _ version := ⟨sources, version⟩
  version := LoneInput.version
  stripPrefix base input := { input with
    sources := .ofList (input.sources.toList.map fun (file, source) =>
      (file.stripPrefixOrSelf base, source)) }
  compile input := .ok {
    contracts := input.sources.map fun _ source =>
      if source.content = "" then ∅ else ExtTreeMap.empty.insert "C" source.content
    sources := input.sources.map fun _ source =>
      ⟨0, some ⟨if source.content = "" then [] else [.contractDefinition], ""⟩⟩ }
  buildInfo input _ :=
    ⟨String.join (input.sources.toList.map fun (_, source) => source.content), ()⟩
  withJoinedPaths _ c := c

def loneTools : Toolchain LoneInput SolcSettings String String Unit Unit Unit where
  hashes := .text
  lowercase := .ofAscii
  parser := .noImports
  languageOf _ := "Solidity"
  versionMatches _ _ := true
  compiler := loneCompiler

/-- The file has the content; `extra` asks for the metadata of every artifact. -/
def loneSetup (content : String) (extra : Bool) :
    Setup LoneInput SolcSettings SolcRestrictions String String Unit (Option String) where
  project := {
    paths := .dapptools (.abs ["p"]) []
    settings := {}
    artifacts := ⟨fun _ _ c _ => some c, fun _ _ => some none,
      fun a => extra && a.artifact.isNone⟩
    availableVersions _ := [.installed ⟨0, 8, 30, "", ""⟩] }
  fs := .ofTexts [(["p", "src"], "a.sol", content)]
  inputFiles := [.abs ["p", "src", "a.sol"]]
  hasError _ := false
  currentDir := .abs ["p"]

/-- What a run of the project leaves on the disk. -/
def loneRun (content : String) (extra : Bool)
    (disk : Disk SolcSettings (Option String) Unit) : Disk SolcSettings (Option String) Unit :=
  disk.applyAll ((loneSetup content extra).writes loneTools disk)

end FoundryCore
