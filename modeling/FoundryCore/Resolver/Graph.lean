import FoundryCore.Config
import FoundryCore.Library.Map
import FoundryCore.Library.Reach
import FoundryCore.Version

/-!
# The import graph

Starting from a set of sources, the resolver reads every file that is imported from a file it
has read. A file gets its index when it is put on the queue and its node when it comes off it,
so the tables of the graph are aligned only if every file that is queued becomes a node.
-/

open Std

namespace FoundryCore

/-- A file of the graph: its content and what was parsed from it. -/
structure Node (δ : Type*) where
  path : PathBuf
  source : Source
  data : δ

/-- What a node was parsed from. -/
def Node.file {δ : Type*} (node : Node δ) : PathBuf × Source := (node.path, node.source)

/-- What the resolver uses of the parser of a language. -/
structure SourceParser (δ : Type*) where
  parse : String → PathBuf → Option δ
  /-- Whether the parser reads a file with this path. -/
  reads : PathBuf → Bool
  /-- The order in which the parsed sources are returned. -/
  parseOrder : List PathBuf → List PathBuf
  versionReq : δ → Option VersionReq
  /-- The import paths of a source, and the directories that are to become include paths. -/
  resolveImports : FileSystem → ProjectPathsConfig → δ → Option (List PathBuf × List PathBuf)
  finalizeImports : List (Node δ) → Finset PathBuf → Option (List (Node δ))
  /-- The imported files that are compiled with full output along with a source. -/
  compilationDependencies : δ → List (PathBuf × δ) → List PathBuf
  parseOrder_perm : ∀ files, (parseOrder files).Perm files
  finalizeImports_files : ∀ nodes includePaths nodes',
    finalizeImports nodes includePaths = some nodes' → nodes'.map Node.file = nodes.map Node.file

/-- A parser of files that consist of imports only, one on each line. -/
def SourceParser.importLines : SourceParser (List PathBuf) where
  parse content _ := some (((content.toList.splitOn '\n').filter (· ≠ [])).map fun line =>
    .ofString (.ofList line))
  reads _ := true
  parseOrder files := files
  versionReq _ := none
  resolveImports _ _ imports := some (imports, [])
  finalizeImports nodes _ := some nodes
  compilationDependencies _ _ := []
  parseOrder_perm _ := .refl _
  finalizeImports_files _ _ _ eq := by
    cases eq
    rfl

/-- The edges of the graph without the content of its nodes. -/
structure GraphEdges (δ : Type*) where
  /-- The row of a node lists the nodes it imports. -/
  edges : List (List Nat)
  /-- The row of a node lists the nodes that import it. -/
  revEdges : List (List Nat)
  indices : ExtTreeMap PathBuf Nat
  revIndices : ExtTreeMap Nat PathBuf
  versions : ExtTreeMap Nat (Option VersionReq)
  data : List δ
  numInputFiles : Nat
  /-- The imports that were not resolved, with the files that contain them. -/
  unresolvedImports : Finset (PathBuf × PathBuf)
  resolvedSolcIncludePaths : Finset PathBuf

structure Graph (δ : Type*) where
  nodes : List (Node δ)
  edges : GraphEdges δ
  root : PathBuf

variable {δ : Type*}

namespace GraphEdges

variable (g : GraphEdges δ)

/-- The nodes that a node imports. -/
def importedNodes (index : Nat) : List Nat := g.edges[index]?.getD []

/-- The nodes that a dependency tree spans, in the order in which `NodesIter` yields them. -/
def nodesIter (start : Nat) : List Nat :=
  Library.walk g.importedNodes (1 + (g.edges.map List.length).sum) [start] []

def files (nodes : List Nat) : List PathBuf := (nodes.filterMap (g.revIndices[·]?)).dedup

/-- All files imported by the file, directly or not. -/
def imports (file : PathBuf) : List PathBuf :=
  match g.indices[file]? with
  | some start => g.files ((g.nodesIter start).drop 1)
  | none => []

/-- All files that import the file directly. -/
def importers (file : PathBuf) : List PathBuf :=
  match g.indices[file]? with
  | some start => g.files (g.revEdges[start]?.getD [])
  | none => []

def versionRequirement (file : PathBuf) : Option VersionReq :=
  (g.indices[file]?.bind (g.versions[·]?)).join

def getParsedSource (file : PathBuf) : Option δ := g.indices[file]?.bind (g.data[·]?)

end GraphEdges

/-- The nodes of the graph as sources, and its edges with the parsed data. -/
def Graph.intoSources (g : Graph δ) : Sources × GraphEdges δ :=
  (ExtTreeMap.ofList (g.nodes.map fun node => (node.path, node.source)),
    { g.edges with data := g.edges.data ++ g.nodes.map Node.data })

namespace Graph

variable (parser : SourceParser δ) (fs : FileSystem) (paths : ProjectPathsConfig)

/-- The state of the resolver: files with an index but no node yet, and the tables so far. -/
structure Resolution (δ : Type*) where
  unresolved : List (PathBuf × Node δ)
  index : ExtTreeMap PathBuf Nat
  nodes : List (Node δ) := []
  edges : List (List Nat) := []
  resolvedSolcIncludePaths : Finset PathBuf
  unresolvedImports : Finset (PathBuf × PathBuf) := ∅

def parseNode (file : PathBuf) (source : Source) : Option (Node δ) :=
  (parser.parse source.content file).map fun data => { path := file, source, data }

def readNode (file : PathBuf) : Option (Node δ) :=
  if parser.reads file then (Source.read fs file).bind (parseNode parser file) else none

/-- Parses the given sources. -/
def parseSources (sources : Sources) : Option (List (PathBuf × Node δ)) :=
  (parser.parseOrder sources.keys).mapM fun file =>
    sources[file]?.bind fun source => (parseNode parser file source).map fun node => (file, node)

/-- The id of an import's target; a target without one is read and queued. -/
def addNode (s : Resolution δ) (target : PathBuf) : Option (Resolution δ × Nat) :=
  match s.index[target]? with
  | some idx => some (s, idx)
  | none => (readNode parser fs target).map fun node =>
    ({ s with
        unresolved := s.unresolved ++ [(target, node)]
        index := s.index.insert target s.index.size }, s.index.size)

/-- Resolves one import of a file in the directory `cwd`. -/
def resolveImport (cwd file : PathBuf) (s : Resolution δ × List Nat) (importPath : PathBuf) :
    Resolution δ × List Nat :=
  match paths.resolveImportAndIncludePaths fs cwd importPath with
  | some (target, includePath) =>
    let included := { s.1 with
      resolvedSolcIncludePaths := s.1.resolvedSolcIncludePaths ∪ includePath.toList.toFinset }
    match addNode parser fs included target with
    | some (added, idx) => (added, s.2 ++ [idx])
    | none => ({ included with
        unresolvedImports := insert (importPath, file) included.unresolvedImports }, s.2)
  | none => ({ s.1 with
      unresolvedImports := insert (importPath, file) s.1.unresolvedImports }, s.2)

/-- Turns a file from the queue into a node. -/
def resolveNode (s : Resolution δ) (path : PathBuf) (node : Node δ) : Option (Resolution δ) :=
  match path.parent with
  | none => some s
  | some cwd =>
    (parser.resolveImports fs paths node.data).map fun (imports, includePaths) =>
      let included := { s with
        resolvedSolcIncludePaths := s.resolvedSolcIncludePaths ∪ includePaths.toFinset }
      let (resolved, row) :=
        imports.foldl (resolveImport parser fs paths cwd node.path) (included, [])
      { resolved with nodes := resolved.nodes ++ [node], edges := resolved.edges ++ [row] }

/-- Works through the queue. -/
def resolveAll : Nat → Resolution δ → Option (Resolution δ)
  | 0, s => some s
  | fuel + 1, s =>
    match s.unresolved with
    | [] => some s
    | (path, node) :: rest =>
      (resolveNode parser fs paths { s with unresolved := rest } path node).bind (resolveAll fuel)

/-- The reverse of the edge table. -/
def reverseEdges (edges : List (List Nat)) : List (List Nat) :=
  edges.zipIdx.foldl (fun rev (row, idx) => row.foldl (fun rev edge =>
    rev.modify edge (· ++ [idx])) rev) (List.replicate edges.length [])

/-- The state before any import is resolved. -/
def initial (input : List (PathBuf × Node δ)) : Resolution δ where
  unresolved := input
  index := ExtTreeMap.ofList (input.zipIdx.map fun ((path, _), idx) => (path, idx))
  resolvedSolcIncludePaths := {paths.root}

/-- Resolves a number of sources within the given config. Each step takes one file off the
queue, and each file is queued once. -/
def resolveSources (sources : Sources) : Option (Graph δ) := do
  let sources := sources.makeAbsolute paths.root
  let input ← parseSources parser sources
  let done ← resolveAll parser fs paths (input.length + fs.files.size) (initial paths input)
  let nodes ← parser.finalizeImports done.nodes done.resolvedSolcIncludePaths
  some {
    nodes
    edges := {
      edges := done.edges
      revEdges := reverseEdges done.edges
      indices := done.index
      revIndices := ExtTreeMap.ofList (done.index.toList.map fun (path, idx) => (idx, path))
      versions := ExtTreeMap.ofList (nodes.zipIdx.map fun (node, idx) =>
        (idx, parser.versionReq node.data))
      data := []
      numInputFiles := input.length
      unresolvedImports := done.unresolvedImports
      resolvedSolcIncludePaths := done.resolvedSolcIncludePaths }
    root := paths.root }

end Graph

end FoundryCore
