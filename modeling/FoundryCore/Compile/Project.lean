import FoundryCore.AggregatedOutput
import FoundryCore.Sparse
import FoundryCore.Resolver.Profiles

/-!
# Compiling a project

One run over a project: the source sets are resolved, the cache file is read and says which
files are to be compiled, the compilers are invoked, and artifacts, build infos and the new cache
file are written. A run is described by the writes it makes, in their order, so that it may also
stop between any two of them.
-/

open Std

namespace FoundryCore

variable {ι S R Λ γ ε α δ β : Type}

/-! ## The disk -/

/-- What the runs keep on disk, next to the files of the project. -/
structure Disk (S α β : Type) where
  cacheFile : Option (CompilerCache S) := none
  artifacts : ExtTreeMap PathBuf α := ∅
  buildInfos : ExtTreeMap PathBuf β := ∅

/-- One write to disk. -/
inductive DiskWrite (S α β : Type)
  /-- An artifact made of a source file. -/
  | artifact (source : PathBuf) (a : ArtifactFile α)
  | buildInfo (path : PathBuf) (buildContext : β)
  | removeBuildInfo (path : PathBuf)
  | cacheFile (cache : CompilerCache S)

namespace Disk

variable (disk : Disk S α β)

def apply : DiskWrite S α β → Disk S α β
  | .artifact _ a => { disk with artifacts := disk.artifacts.insert a.file a.artifact }
  | .buildInfo path buildContext =>
    { disk with buildInfos := disk.buildInfos.insert path buildContext }
  | .removeBuildInfo path => { disk with buildInfos := disk.buildInfos.erase path }
  | .cacheFile cache => { disk with cacheFile := some cache }

def applyAll (writes : List (DiskWrite S α β)) : Disk S α β := writes.foldl apply disk

/-- Whether there is an artifact below the folder. -/
def hasArtifacts (folder : PathBuf) : Bool := disk.artifacts.keys.any (·.startsWith folder)

end Disk

/-! ## The compiler -/

/-- What is used of a compiler, and of the inputs that are built for it. -/
structure Compiler (ι S Λ γ ε β : Type) where
  build : Sources → S → Λ → Version → ι
  /-- The version an input is intended for. -/
  version : ι → Version
  stripPrefix : PathBuf → ι → ι
  compile : ι → Except String (CompilerOutput γ ε)
  /-- Identifies an invocation. -/
  buildInfo : ι → CompilerOutput γ ε → RawBuildInfo β
  withJoinedPaths : PathBuf → β → β

/-- What is the same for all runs. -/
structure Toolchain (ι S Λ γ ε δ β : Type) where
  hashes : Hashes
  lowercase : Lowercase
  parser : SourceParser δ
  languageOf : δ → Λ
  versionMatches : VersionReq → Version → Bool
  compiler : Compiler ι S Λ γ ε β

/-- A run of the project as it is configured and as its files are at that time. -/
structure Setup (ι S R Λ γ ε α : Type) where
  project : CompilerProject S R Λ γ α
  fs : FileSystem
  /-- The files to start from. -/
  inputFiles : List PathBuf
  /-- Replaces compiler inputs, and adds to the files known as mocks. -/
  preprocessor : Option (Finset PathBuf → ι → Except String (ι × Finset PathBuf)) := none
  /-- Whether the diagnostics of the compilers make the run fail. -/
  hasError : List ε → Bool
  order : HashOrder := .asListed
  /-- The directory that relative paths start from. -/
  currentDir : PathBuf

namespace CompilerOutput

variable (output : CompilerOutput γ ε)

/-- Drops what belongs to other files, whatever the case of the letters. -/
def retainFiles (L : Lowercase) (files : List PathBuf) : CompilerOutput γ ε :=
  let files := files.map fun file => L.toLowercase file.toString
  { output with
    contracts := output.contracts.filter fun file _ => L.toLowercase file.toString ∈ files
    sources := output.sources.filter fun file _ => L.toLowercase file.toString ∈ files }

def joinAll (root : PathBuf) : CompilerOutput γ ε :=
  { output with
    contracts := .ofList (output.contracts.toList.map fun (path, contracts) =>
      (root.join path, contracts))
    sources := .ofList (output.sources.toList.map fun (path, source) => (root.join path, source)) }

end CompilerOutput

def AggregatedCompilerOutput.joinAll (output : AggregatedCompilerOutput γ ε β) (root : PathBuf) :
    AggregatedCompilerOutput γ ε β :=
  { output with
    contracts := .ofList (output.contracts.toList.map fun (path, contracts) =>
      (root.join path, contracts))
    sources := .ofList (output.sources.toList.map fun (path, sources) =>
      (root.join path, sources)) }

/-! ## The cache of a run -/

/-- Returns the cache to use: the one in the cache file if it is for the same directories, or
else an empty one. -/
def getCache (project : Project S γ α) (disk : Disk S α β) (invalidateCache preprocessed : Bool) :
    CompilerCache S :=
  let paths := project.paths.pathsRelative
  let empty : CompilerCache S := { paths, preprocessed }
  if invalidateCache then empty
  else
    match disk.cacheFile with
    | none => empty
    | some cache =>
      let cache := cache.readJoined project.paths
      if cache.paths = paths ∧ cache.preprocessed = preprocessed then cache else empty

/-- Reads the cache file, and the artifacts and build infos it lists. Artifacts without a build
info are left out. -/
def ArtifactsCacheInner.load (project : Project S γ α) (edges : GraphEdges δ) (fs : FileSystem)
    (disk : Disk S α β) (preprocessed : Bool) : ArtifactsCacheInner S γ α δ β :=
  -- if an import failed to resolve, the cache is not trusted
  let cache := getCache project disk (edges.unresolvedImports ≠ ∅) preprocessed
  let cache := cache.removeMissingFiles fs
  let cachedArtifacts : Artifacts α :=
    if disk.hasArtifacts project.paths.artifacts then
      (cache.readArtifacts (disk.artifacts[·]?)).getD ∅
    else ∅
  let cachedBuilds := (cache.readBuilds (disk.buildInfos[·]?) project.paths.buildInfos).getD ∅
  { cache
    cachedArtifacts := cachedArtifacts.retain fun _ _ a => a.buildId ∈ cachedBuilds
    cachedBuilds
    edges
    project }

/-- Either nothing is cached, or the cache file and what it lists. -/
inductive ArtifactsCache (S γ α δ β : Type)
  | ephemeral (edges : GraphEdges δ) (project : Project S γ α)
  | cached (inner : ArtifactsCacheInner S γ α δ β)

namespace ArtifactsCache

variable (H : Hashes)

def new (project : Project S γ α) (edges : GraphEdges δ) (fs : FileSystem) (disk : Disk S α β)
    (preprocessed : Bool) : ArtifactsCache S γ α δ β :=
  if project.cached then .cached (.load project edges fs disk preprocessed)
  else .ephemeral edges project

def graph : ArtifactsCache S γ α δ β → GraphEdges δ
  | ephemeral edges _ => edges
  | cached inner => inner.edges

/-- The artifacts whose paths are to be reused. -/
def outputCtx : ArtifactsCache S γ α δ β → ArtifactOutput.OutputContext
  | ephemeral _ _ => {}
  | cached inner => ⟨inner.cache.files.map fun _ entry => entry.artifacts⟩

def removeDirtySources [CompilerSettings S] (parser : SourceParser δ) (fs : FileSystem)
    (order : HashOrder) : ArtifactsCache S γ α δ β → ArtifactsCache S γ α δ β
  | cached inner => .cached (inner.removeDirtySources H parser fs order)
  | cache => cache

def updateMocks (mocks : Finset PathBuf) : ArtifactsCache S γ α δ β → ArtifactsCache S γ α δ β
  | cached inner => .cached { inner with cache := { inner.cache with mocks } }
  | cache => cache

def mocks : ArtifactsCache S γ α δ β → Finset PathBuf
  | cached inner => inner.cache.mocks
  | ephemeral _ _ => ∅

/-- The sources that need to be compiled. -/
def filter (sources : Sources) (version : Version) (profile : String) :
    ArtifactsCache S γ α δ β → Sources × ArtifactsCache S γ α δ β
  | cached inner =>
    let (sources, inner) := inner.filter H sources version profile
    (sources, .cached inner)
  | cache => (sources, cache)

def compilerSeen (file : PathBuf) : ArtifactsCache S γ α δ β → ArtifactsCache S γ α δ β
  | cached inner => .cached (inner.compilerSeen file)
  | cache => cache

/-- Returns the cached artifacts and build infos, and writes the cache file if asked to. -/
def consume (currentDir : PathBuf) (written : Artifacts α) (buildInfos : List (RawBuildInfo β))
    (writeToDisk : Bool) : ArtifactsCache S γ α δ β →
      (Artifacts α × ExtTreeMap String β × GraphEdges δ) × List (DiskWrite S α β)
  | ephemeral edges _ => ((∅, ∅, edges), [])
  | cached inner =>
    let (returned, cache) := inner.consume written buildInfos
    let merged := inner.mergeWritten written buildInfos
    (returned, if writeToDisk then
      (merged.outdatedBuilds.map fun buildId => .removeBuildInfo
        (currentDir.join (CompilerCache.buildInfoPath merged.paths.buildInfos buildId))) ++
        [.cacheFile cache]
    else [])

end ArtifactsCache

/-! ## The states of a run -/

/-- The files compiled together, with the settings of their profile. -/
structure SourceSet (S Λ : Type) where
  language : Λ
  version : Version
  sources : Sources
  profile : String
  settings : S

/-- All source sets of a project. -/
structure ProjectCompiler (S Λ δ : Type) where
  edges : GraphEdges δ
  primaryProfiles : ExtTreeMap PathBuf String
  sources : List (SourceSet S Λ)

/-- The source sets reduced to what has to be compiled. -/
structure PreprocessedState (S Λ γ α δ β : Type) where
  sources : List (SourceSet S Λ)
  cache : ArtifactsCache S γ α δ β
  primaryProfiles : ExtTreeMap PathBuf String

/-- An input with the files that are compiled with full output. -/
structure CompilerJob (ι : Type) where
  input : ι
  profile : String
  actuallyDirty : List PathBuf

structure CompiledState (S γ ε α δ β : Type) where
  output : AggregatedCompilerOutput γ ε β
  cache : ArtifactsCache S γ α δ β
  primaryProfiles : ExtTreeMap PathBuf String

structure ArtifactsState (S γ ε α δ β : Type) where
  output : AggregatedCompilerOutput γ ε β
  cache : ArtifactsCache S γ α δ β
  compiledArtifacts : Artifacts α

structure ProjectCompileOutput (γ ε α δ β : Type) where
  compilerOutput : AggregatedCompilerOutput γ ε β
  compiledArtifacts : Artifacts α
  cachedArtifacts : Artifacts α
  builds : ExtTreeMap String β
  edges : GraphEdges δ

namespace Setup

variable (T : Toolchain ι S Λ γ ε δ β) (setup : Setup ι S R Λ γ ε α)

def paths : ProjectPathsConfig := setup.project.paths

/-- Reads the input files. -/
def readInputFiles : Option Sources :=
  setup.inputFiles.foldlM (fun sources file =>
    (Source.read setup.fs file).map fun source => sources.insert file source) ∅

variable [SettingsRestrictions S R] [Ord Λ] [TransOrd Λ]

/-- Resolves the import graph of the input files and the source sets they make up. -/
def withSources : Except String (ProjectCompiler S Λ δ) :=
  match setup.readInputFiles with
  | none => .error "failed to read a source file"
  | some sources =>
    let sources := match setup.project.sparseOutput with
      | some filter => sources.filter fun file _ => filter file
      | none => sources
    match Graph.resolveSources T.parser setup.fs setup.paths sources with
    | none => .error "failed to resolve the graph"
    | some graph =>
      match graph.intoSourcesByVersion setup.project T.versionMatches T.parser T.languageOf with
      | .error _ => .error "failed to resolve versions or profiles"
      | .ok resolved => .ok {
          edges := resolved.edges
          primaryProfiles := resolved.primaryProfiles
          sources := resolved.sources.toList.flatMap fun (language, versioned) =>
            versioned.map fun (version, sources, profile, settings) =>
              { language, version, sources, profile, settings } }

variable [CompilerSettings S]

/-- Reduces the source sets to what the cache lacks, one after the other. -/
def filterSources (sets : List (SourceSet S Λ)) (cache : ArtifactsCache S γ α δ β) :
    List (SourceSet S Λ) × ArtifactsCache S γ α δ β :=
  sets.foldl (fun (filtered, cache) set =>
    let (sources, cache) := cache.filter T.hashes set.sources set.version set.profile
    (filtered ++ [{ set with sources }], cache)) ([], cache)

/-- Reads the cache, and retains only dirty sources and all their imports. -/
def preprocess (compiler : ProjectCompiler S Λ δ) (disk : Disk S α β) :
    PreprocessedState S Λ γ α δ β :=
  let cache := ArtifactsCache.new setup.project.toProject compiler.edges setup.fs disk
    setup.preprocessor.isSome
  let cache := cache.removeDirtySources T.hashes T.parser setup.fs setup.order
  let (sources, cache) := filterSources T compiler.sources cache
  { sources, cache, primaryProfiles := compiler.primaryProfiles }

/-- The input for a source set, and the files that are compiled with full output; none if there
are no such files. -/
def input (graph : GraphEdges δ) (set : SourceSet S Λ) : Option (CompilerJob ι) :=
  if set.sources.isEmpty then none
  else
    let (settings, actuallyDirty) :=
      (SparseOutputFilter.new setup.project.sparseOutput).sparseSources T.parser set.sources
        set.settings graph
    if actuallyDirty.isEmpty then none
    else
      let settings := CompilerSettings.withRemappings setup.paths.remappings
        (CompilerSettings.withIncludePaths
          (setup.paths.includePaths ∪ graph.resolvedSolcIncludePaths)
          (CompilerSettings.withAllowPaths setup.paths.allowedPaths
            (CompilerSettings.withBasePath setup.paths.root settings)))
      some {
        input := T.compiler.stripPrefix setup.paths.root
          (T.compiler.build set.sources settings set.language set.version)
        profile := set.profile
        actuallyDirty }

/-- The jobs of the source sets, and the mocks that preprocessing them finds. -/
def jobs (graph : GraphEdges δ) (mocks : Finset PathBuf) (sets : List (SourceSet S Λ)) :
    Except String (List (CompilerJob ι) × Finset PathBuf) :=
  sets.foldlM (fun (jobs, mocks) set =>
    match setup.input T graph set, setup.preprocessor with
    | none, _ => .ok (jobs, mocks)
    | some job, none => .ok (jobs ++ [job], mocks)
    | some job, some preprocess => (preprocess mocks job.input).map fun (input, mocks) =>
      (jobs ++ [{ job with input }], mocks)) ([], mocks)

/-- What a job adds to the output. -/
def compilerRun (job : CompilerJob ι) (output : CompilerOutput γ ε) : CompilerRun γ ε β where
  version := T.compiler.version job.input
  buildInfo := T.compiler.buildInfo job.input output
  profile := job.profile
  output := (output.retainFiles T.lowercase
    (job.actuallyDirty.map fun file => file.stripPrefixOrSelf setup.paths.root)).joinAll
      setup.paths.root

/-- Runs the compilers, and marks the files as seen. -/
def compileSources (state : PreprocessedState S Λ γ α δ β) :
    Except String (CompiledState S γ ε α δ β) := do
  let (jobs, mocks) ← setup.jobs T state.cache.graph state.cache.mocks state.sources
  let cache := state.cache.updateMocks mocks
  let outputs ← jobs.mapM fun job => T.compiler.compile job.input
  let cache := (jobs.flatMap CompilerJob.actuallyDirty).foldl
    (fun cache file => cache.compilerSeen file) cache
  let output := AggregatedCompilerOutput.ofRuns (List.zipWith (setup.compilerRun T) jobs outputs)
  return {
    output := output.joinAll setup.paths.root
    cache
    primaryProfiles := state.primaryProfiles }

/-- Whether nothing is written, not even the cache file. -/
def skipsWriting (output : AggregatedCompilerOutput γ ε β) : Bool :=
  setup.project.noArtifacts || setup.hasError output.errors

/-- Makes the artifacts, and writes them and the build infos if the build succeeded. -/
def writeArtifacts (state : CompiledState S γ ε α δ β) :
    ArtifactsState S γ ε α δ β × List (DiskWrite S α β) :=
  let output := state.output
  let ctx := state.cache.outputCtx
  let handler := setup.project.artifacts
  if setup.skipsWriting output then
    let artifacts := handler.outputToArtifacts T.lowercase output.contracts output.sources ctx
      setup.paths.artifacts state.primaryProfiles
    ({ output, cache := state.cache, compiledArtifacts := artifacts }, [])
  else
    let artifacts := handler.onOutput T.lowercase output.contracts output.sources ctx
      setup.paths.artifacts state.primaryProfiles
    ({ output, cache := state.cache, compiledArtifacts := artifacts },
      artifacts.entries.map (fun (source, _, a) => .artifact source a) ++
        output.buildInfos.map fun info => .buildInfo
          (CompilerCache.buildInfoPath setup.paths.buildInfos info.id) info.buildContext)

/-- Returns the output along with the artifacts from the cache, and writes the cache file if the
build succeeded. -/
def writeCache (state : ArtifactsState S γ ε α δ β) :
    ProjectCompileOutput γ ε α δ β × List (DiskWrite S α β) :=
  let ((cachedArtifacts, cachedBuilds, edges), writes) := state.cache.consume setup.currentDir
    state.compiledArtifacts state.output.buildInfos (!setup.skipsWriting state.output)
  ({ compilerOutput := state.output
     compiledArtifacts := state.compiledArtifacts
     cachedArtifacts
     builds := .ofList ((state.output.buildInfos.map (fun info => (info.id, info.buildContext)) ++
       cachedBuilds.toList).map fun (id, context) =>
         (id, T.compiler.withJoinedPaths setup.paths.root context))
     edges }, writes)

/-- A whole run: its result, and what it writes. -/
def compile (disk : Disk S α β) :
    Except String (ProjectCompileOutput γ ε α δ β × List (DiskWrite S α β)) := do
  let compiler ← setup.withSources T
  let compiled ← setup.compileSources T (setup.preprocess T compiler disk)
  let (state, artifactWrites) := setup.writeArtifacts T compiled
  let (output, cacheWrites) := setup.writeCache T state
  return (output, artifactWrites ++ cacheWrites)

/-- What a run writes to disk; nothing if it fails. -/
def writes (disk : Disk S α β) : List (DiskWrite S α β) :=
  match setup.compile T disk with
  | .ok (_, writes) => writes
  | .error _ => []

end Setup

end FoundryCore
