import FoundryCore.Cache.Basic

/-!
# The cache during a compilation

The preexisting cache together with what is found out about it while the project is compiled:
which files are dirty, which have to be compiled, and which cached artifacts are returned.
-/

open Std

namespace FoundryCore

variable {S γ α δ β : Type}

/-- The checksums of a source. The interface of a file may fail to parse. -/
structure Hashes where
  contentHash : String → String
  interfaceReprHash : String → PathBuf → Option String

/-- Each text is its own checksum, and no interface can be parsed. -/
def Hashes.text : Hashes := ⟨id, fun _ _ => none⟩

/-- The order in which a hash set yields its elements. It may be another one each time, so it
depends on all that was marked before. -/
structure HashOrder where
  arrange : List PathBuf → List PathBuf → List PathBuf
  perm : ∀ seen files, (arrange seen files).Perm files

/-- The order in which the elements are listed. -/
def HashOrder.asListed : HashOrder := ⟨fun _ files => files, fun _ _ => .refl _⟩

/-- Source file paths mapped to versions. -/
abbrev GroupedSources := ExtTreeMap PathBuf (Finset Version)

namespace GroupedSources

def insertVersion (sources : GroupedSources) (file : PathBuf) (version : Version) :
    GroupedSources :=
  sources.insert file (insert version (sources[file]?.getD ∅))

def includes (sources : GroupedSources) (file : PathBuf) (version : Version) : Bool :=
  sources[file]?.any fun versions => version ∈ versions

end GroupedSources

/-- What is kept of a compiler run for its build info. -/
structure RawBuildInfo (β : Type) where
  id : String
  buildContext : β

/-- The cache and what is known about it. -/
structure ArtifactsCacheInner (S γ α δ β : Type) where
  cache : CompilerCache S
  /-- All already existing artifacts. -/
  cachedArtifacts : Artifacts α
  cachedBuilds : ExtTreeMap String β
  edges : GraphEdges δ
  project : Project S γ α
  /-- Files that were invalidated and removed from the cache. -/
  dirtySources : List PathBuf := []
  /-- The files and versions of this compilation. -/
  sourcesInScope : GroupedSources := ∅
  contentHashes : ExtTreeMap PathBuf String := ∅
  interfaceReprHashes : ExtTreeMap PathBuf String := ∅

namespace ArtifactsCacheInner

variable (H : Hashes) (parser : SourceParser δ) (fs : FileSystem) (order : HashOrder)
  (inner : ArtifactsCacheInner S γ α δ β)

def isSourceFile (file : PathBuf) : Bool := inner.project.paths.isSourceFile file

/-! ## Hashes -/

/-- Gets or calculates the content hash of a source file. -/
def contentHash (source : Source) (file : PathBuf) : String × ArtifactsCacheInner S γ α δ β :=
  match inner.contentHashes[file]? with
  | some hash => (hash, inner)
  | none =>
    let hash := H.contentHash source.content
    (hash, { inner with contentHashes := inner.contentHashes.insert file hash })

/-- Gets or calculates the interface hash of a source file; it falls back to the content hash. -/
def interfaceReprHash (source : Source) (file : PathBuf) :
    String × ArtifactsCacheInner S γ α δ β :=
  match inner.interfaceReprHashes[file]? with
  | some hash => (hash, inner)
  | none =>
    let (hash, inner) :=
      match H.interfaceReprHash source.content file with
      | some hash => (hash, inner)
      | none => inner.contentHash H source file
    (hash, { inner with interfaceReprHashes := inner.interfaceReprHashes.insert file hash })

/-- Adds the file's hashes if they are not set yet; interface hashes for source files only. -/
def fillHash (entry : PathBuf × Source) : ArtifactsCacheInner S γ α δ β :=
  let inner := (inner.contentHash H entry.2 entry.1).2
  if inner.cache.preprocessed && inner.isSourceFile entry.1 then
    (inner.interfaceReprHash H entry.2 entry.1).2
  else inner

def fillHashes (sources : Sources) : ArtifactsCacheInner S γ α δ β :=
  sources.toList.foldl (fillHash H) inner

/-! ## Dirty files -/

def isDirtyImpl (file : PathBuf) (useInterfaceRepr : Bool) : Except String Unit :=
  match inner.cache.files[file]? with
  | none => .error "missing cache entry"
  | some entry =>
    if useInterfaceRepr && inner.cache.preprocessed then
      match inner.interfaceReprHashes[file]? with
      | none => .error "missing interface hash"
      | some interfaceHash =>
        if entry.interfaceReprHash ≠ some interfaceHash then .error "interface hash changed"
        else .ok ()
    else
      match inner.contentHashes[file]? with
      | none => .error "missing content hash"
      | some contentHash =>
        if entry.contentHash ≠ contentHash then .error "content hash changed" else .ok ()

def isDirty (file : PathBuf) (useInterfaceRepr : Bool) : Bool :=
  !(inner.isDirtyImpl file useInterfaceRepr).isOk

/-- The profiles of the cache whose settings are gone or do not fit the project any more. -/
def dirtyProfiles [CompilerSettings S] : List String :=
  (inner.cache.profiles.toList.filter fun (profile, settings) =>
    !inner.project.settingsProfiles[profile]?.any fun existing =>
      CompilerSettings.canUseCached existing settings).map Prod.fst

/-- Updates the profiles in the cache, removing those which are dirty alongside their artifacts.
A profile that still fits keeps the settings it has. -/
def updateProfiles [CompilerSettings S] : ArtifactsCacheInner S γ α δ β :=
  let dirty := inner.dirtyProfiles
  let profiles := dirty.foldl ExtTreeMap.erase inner.cache.profiles
  let profiles := inner.project.settingsProfiles.toList.foldl (fun profiles (profile, settings) =>
    if profile ∈ profiles then profiles else profiles.insert profile settings) profiles
  let files := inner.cache.files.filterMap fun _ entry =>
    -- keep entries which already had no artifacts
    if entry.artifacts.isEmpty then some entry
    else
      let entry := entry.retainProfiles fun profile => profile ∉ dirty
      if entry.artifacts.isEmpty then none else some entry
  { inner with cache := { inner.cache with profiles, files } }

/-- Marks the direct and indirect importers of a file. -/
def populateDirtyFiles (edges : GraphEdges δ) (file : PathBuf) (dirty : List PathBuf) :
    List PathBuf :=
  Library.mark (fun seen file => order.arrange seen (edges.importers file))
    (edges.indices.size + 1) file dirty

/-- Marks the importers of all dirty files. -/
def populateAll (edges : GraphEdges δ) (dirty : List PathBuf) : List PathBuf :=
  Library.markAll (fun seen file => order.arrange seen (edges.importers file))
    (edges.indices.size + 1) (order.arrange dirty dirty) dirty

/-- Marks a file by its imports: a source file if it imports a dirty file, another file if it
imports a dirty file that is not a source file or one whose interface changed. A mock takes any
dirty import, and the files that import it along. -/
def visitImports (edges : GraphEdges δ) (file : PathBuf) : List PathBuf → List PathBuf →
    List PathBuf
  | [], dirty => dirty
  | importFile :: rest, dirty =>
    if inner.isSourceFile file && importFile ∈ dirty then dirty.insert file
    else if !inner.isSourceFile file && importFile ∈ dirty &&
        (!inner.isSourceFile importFile || inner.isDirty importFile true ||
          file ∈ inner.cache.mocks) then
      let dirty :=
        if file ∈ inner.cache.mocks then populateDirtyFiles order edges file dirty else dirty
      visitImports edges file rest (dirty.insert file)
    else visitImports edges file rest dirty

/-- Visits the files in turn. -/
def markByImports (edges : GraphEdges δ) (files dirty : List PathBuf) : List PathBuf :=
  files.foldl (fun dirty file =>
    if file ∈ dirty then dirty
    else inner.visitImports order edges file (order.arrange dirty (edges.imports file)) dirty) dirty

/-- Reads a source, or notes that it cannot be read. -/
def readSource (done : List PathBuf × Sources) (file : PathBuf) : List PathBuf × Sources :=
  match Source.read fs file with
  | some source => (done.1, done.2.insert file source)
  | none => (done.1.insert file, done.2)

/-- The files of the cache that cannot be read, and the sources of the others. -/
def readSources : List PathBuf × Sources :=
  (order.arrange [] inner.cache.files.keys).foldl (readSource fs) ([], ∅)

/-- Marks the files of the graph that have changed, and then the files that depend on them. -/
def markGraph (graph : Graph δ) (dirty : List PathBuf) : ArtifactsCacheInner S γ α δ β :=
  let sources := graph.intoSources.1
  let edges := graph.intoSources.2
  let inner := inner.fillHashes H sources
  let dirty := sources.keys.foldl (fun dirty file =>
    if inner.isDirty file false then dirty.insert file else dirty) dirty
  { inner with dirtySources :=
      if inner.cache.preprocessed then inner.markByImports order edges sources.keys dirty
      else populateAll order edges dirty }

/-- Detects the dirty files among the entries of the cache. -/
def findDirtySources : ArtifactsCacheInner S γ α δ β :=
  let read := inner.readSources fs order
  let dirty := read.1.foldl (fun dirty file => dirty.insert file) inner.dirtySources
  match Graph.resolveSources parser fs inner.project.paths read.2 with
  | some graph => inner.markGraph H order graph dirty
  | none =>
    -- purge all sources on graph resolution error
    { inner with dirtySources :=
        inner.cache.files.keys.foldl (fun dirty file => dirty.insert file) dirty }

/-- Walks over all cache entries, detects dirty files and removes them from the cache. -/
def removeDirtySources [CompilerSettings S] : ArtifactsCacheInner S γ α δ β :=
  let inner := inner.updateProfiles.findDirtySources H parser fs order
  { inner with cache := { inner.cache with
      files := inner.dirtySources.foldl ExtTreeMap.erase inner.cache.files } }

/-! ## Files to compile -/

/-- Creates a new cache entry for the file. -/
def createCacheEntry (file : PathBuf) (source : Source) : ArtifactsCacheInner S γ α δ β :=
  let imports := (inner.edges.imports file).map fun path =>
    path.stripPrefixOrSelf inner.project.root
  let (interfaceReprHash, inner) :=
    if inner.cache.preprocessed && inner.isSourceFile file then
      let (hash, inner) := inner.interfaceReprHash H source file
      (some hash, inner)
    else (none, inner)
  let entry : CacheEntry := {
    contentHash := H.contentHash source.content
    interfaceReprHash
    sourceName := file.stripPrefixOrSelf inner.project.root
    imports := imports.toFinset
    versionRequirement := (inner.edges.versionRequirement file).map VersionReq.toString
    -- artifacts remain empty until we received the compiler output
    artifacts := ∅
    seenByCompiler := false }
  { inner with cache := { inner.cache with files := inner.cache.files.insert file entry } }

/-- Whether any requested extra file is missing for any artifact. -/
def missingExtraFiles : Bool :=
  inner.cachedArtifacts.artifactFiles.any inner.project.artifacts.isDirty

/-- Whether artifacts are missing for the file and version, and why. -/
def isMissingArtifactsImpl (file : PathBuf) (version : Version) (profile : String) :
    Except String Unit :=
  match inner.cache.files[file]? with
  | none => .error "missing cache entry"
  | some entry =>
    -- a file that only consists of import statements does not create artifacts
    if entry.seenByCompiler && entry.artifacts.isEmpty then .ok ()
    else if !entry.contains version profile then .error "missing linked artifacts"
    else if (entry.artifactsForVersion version).any fun a =>
        !inner.cachedArtifacts.hasArtifact a.path then .error "missing artifact"
    else if inner.missingExtraFiles then .error "missing extra files"
    else .ok ()

def isMissingArtifacts (file : PathBuf) (version : Version) (profile : String) : Bool :=
  !(inner.isMissingArtifactsImpl file version profile).isOk

/-- Puts the sources in scope and makes sure that they have entries. Returns those that lack
artifacts as well. -/
def checkSources (sources : List (PathBuf × Source)) (version : Version) (profile : String) :
    List PathBuf × ArtifactsCacheInner S γ α δ β :=
  sources.foldl (fun (compileComplete, inner) (file, source) =>
    let inner := { inner with
      sourcesInScope := inner.sourcesInScope.insertVersion file version }
    let compileComplete := if inner.isMissingArtifacts file version profile then
      compileComplete.insert file else compileComplete
    (compileComplete, if file ∈ inner.cache.files then inner
      else inner.createCacheEntry H file source)) ([], inner)

/-- The sources that need to be compiled to produce artifacts for the requested input: those
that lack artifacts, and what these import. -/
def filter (sources : Sources) (version : Version) (profile : String) :
    Sources × ArtifactsCacheInner S γ α δ β :=
  let (compileComplete, inner) := inner.checkSources H sources.toList version profile
  let compileOptimized := compileComplete.flatMap fun source =>
    (inner.edges.imports source).filter (· ∉ compileComplete)
  (sources.filterMap fun file source =>
    if file ∈ compileComplete then some { source with kind := .complete }
    else if file ∈ compileOptimized then some { source with kind := .optimized }
    else none, inner)

/-- Marks the entry as seen by the compiler. -/
def compilerSeen (file : PathBuf) : ArtifactsCacheInner S γ α δ β :=
  match inner.cache.files[file]? with
  | some entry =>
    { inner with cache := { inner.cache with
        files := inner.cache.files.insert file { entry with seenByCompiler := true } } }
  | none => inner

/-! ## After the compilation -/

/-- The cached artifacts that are in scope, not dirty and not written again. -/
def reusedArtifacts (written : Artifacts α) : Artifacts α :=
  inner.cachedArtifacts.retain fun file name a =>
    inner.sourcesInScope.includes file a.version && file ∉ inner.dirtySources &&
      (written.findArtifact file name a.version).isNone

/-- Updates the entry of a file. Only existing entries are updated. -/
def mergeFile (files : ExtTreeMap PathBuf CacheEntry) (file : PathBuf)
    (artifacts : ExtTreeMap String (List (ArtifactFile α))) : ExtTreeMap PathBuf CacheEntry :=
  match files[file]? with
  | some entry => files.insert file (entry.mergeArtifacts artifacts)
  | none => files

/-- The cache with the entries updated by what was written. -/
def mergeWritten (written : Artifacts α) (buildInfos : List (RawBuildInfo β)) : CompilerCache S :=
  { inner.cache with
    files := written.toList.foldl (fun files (file, artifacts) => mergeFile files file artifacts)
      inner.cache.files
    builds := inner.cache.builds.insertMany (buildInfos.map RawBuildInfo.id) }

/-- Rebuilds the cache from what was written, and returns all cached artifacts with the content
of the cache file. -/
def consume (written : Artifacts α) (buildInfos : List (RawBuildInfo β)) :
    (Artifacts α × ExtTreeMap String β × GraphEdges δ) × CompilerCache S :=
  let cache := (inner.mergeWritten written buildInfos).removeOutdatedBuilds
  ((inner.reusedArtifacts written, inner.cachedBuilds, inner.edges),
    (cache.stripEntriesPrefix inner.project.root).stripArtifactFilesPrefixes
      inner.project.paths.artifacts)

end ArtifactsCacheInner

end FoundryCore
