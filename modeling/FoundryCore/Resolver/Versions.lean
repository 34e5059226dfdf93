import FoundryCore.Cache.Basic
import FoundryCore.Library.Group
import FoundryCore.Library.Retain
import FoundryCore.Resolver.WellFormed

/-!
# Compiler versions of the input files

Every input file gets the compiler version it is built with: the candidates are filtered by the
requirements of the file and of all files it imports, and among those left an installed version
is preferred to one that has to be downloaded. If the files end up with different versions, a
version that suits all of them is used where there is one.
-/

open Std Relation

namespace FoundryCore

/-- What a project demands of a file. -/
structure RestrictionsWithVersion (R : Type) where
  version : Option VersionReq := none
  restrictions : R

/-- A project with its compiler. -/
structure CompilerProject (S R Λ γ α : Type) extends Project S γ α where
  /-- Restrictions by file. -/
  restrictions : ExtTreeMap PathBuf (RestrictionsWithVersion R) := ∅
  offline : Bool := false
  /-- The versions of the compiler for a language. -/
  availableVersions : Λ → List CompilerVersion

inductive SourceVersionError
  | noMatchingVersion (req : VersionReq)
  | noMatchingVersionOffline (req : VersionReq)
deriving DecidableEq, Repr

/-- Why an input file has no version: a requirement that no version meets, or requirements that
exclude each other, with the files to point out. -/
inductive VersionError
  | invalidVersion (file : Nat) (err : SourceVersionError)
  | incompatibleVersions (file : Nat) (incompatible : List Nat)
deriving DecidableEq, Repr

inductive ResolveVersionsError (Λ : Type)
  | noVersions (language : Λ)
  | versions (errors : List VersionError)

variable {S R Λ γ α δ : Type}

namespace CompilerProject

/-- The sorted list of all versions that may be used for a language. -/
def allVersions (project : CompilerProject S R Λ γ α) (language : Λ) : List CompilerVersion :=
  if project.offline then (project.availableVersions language).filter (·.isInstalled)
  else project.availableVersions language

end CompilerProject

namespace Graph

variable (versionMatches : VersionReq → Version → Bool) (parser : SourceParser δ)
  (languageOf : δ → Λ) (project : CompilerProject S R Λ γ α) (g : Graph δ)

/-- Combines the version requirement parsed from a file and the one of the project's
restrictions. -/
def versionRequirement (idx : Nat) : Option VersionReq :=
  g.nodes[idx]?.bind fun node =>
    match parser.versionReq node.data, project.restrictions[node.path]?.bind (·.version) with
    | some parsed, some other => some ⟨parsed.comparators ++ other.comparators⟩
    | some parsed, none => some parsed
    | none, some other => some other
    | none, none => none

/-- Checks that a version for the file is available at all. -/
def checkAvailableVersion (idx : Nat) (allVersions : List CompilerVersion) :
    Except SourceVersionError Unit :=
  match g.versionRequirement parser project idx with
  | none => .ok ()
  | some req =>
    if !allVersions.any fun v => versionMatches req v.version then
      .error (if project.offline then .noMatchingVersionOffline req else .noMatchingVersion req)
    else .ok ()

/-- Filters incompatible versions from the candidates, along all imports of the node. -/
def retainCompatibleVersions (idx : Nat) (candidates : List CompilerVersion) :
    Except VersionError (List CompilerVersion) :=
  let nodes := g.edges.nodesIter idx
  match Library.retainAlong (g.versionRequirement parser project)
    (fun req v => versionMatches req v.version) nodes candidates with
  | .ok candidates => .ok candidates
  | .error failed =>
    match g.checkAvailableVersion versionMatches parser project failed candidates with
    | .error err => .error (.invalidVersion failed err)
    | .ok () =>
      -- some other node conflicts with the one that failed
      let compatible := match g.versionRequirement parser project failed with
        | some req => candidates.filter fun v => versionMatches req v.version
        | none => candidates
      match nodes.find? fun node =>
        !(g.checkAvailableVersion versionMatches parser project node compatible).isOk with
      | some node => .error (.incompatibleVersions idx [node, failed])
      | none => .error (.incompatibleVersions idx nodes)

/-- The language of a node. -/
def language (idx : Nat) : Option Λ := g.nodes[idx]?.map fun node => languageOf node.data

def inputNodesByLanguage [Ord Λ] [TransOrd Λ] : ExtTreeMap Λ (List Nat) :=
  Library.groupBy (fun _ idx => g.language languageOf idx) (List.range g.edges.numInputFiles)

end Graph

/-- The last installed version, or the last one if none is installed. -/
def pickCandidate (candidates : List CompilerVersion) : Option CompilerVersion :=
  match candidates.reverse.find? (·.isInstalled) with
  | some v => some v
  | none => candidates.getLast?

def sortVersions (versions : List CompilerVersion) : List CompilerVersion :=
  versions.insertionSort fun v w => (compare v w).isLE = true

/-- The common elements of the sets, sorted. -/
def intersection (sets : List (List CompilerVersion)) : List CompilerVersion :=
  match sets.getLast? with
  | none => []
  | some last => sortVersions (last.filter fun item => sets.dropLast.all (item ∈ ·))

/-- The last version that is used already, or the best candidate if none is. -/
def reuseVersion (versionedNodes : ExtTreeMap CompilerVersion (List Nat))
    (versions : List CompilerVersion) : Option CompilerVersion :=
  match versions.reverse.find? (· ∈ versionedNodes) with
  | some v => some v
  | none => pickCandidate versions

/-- Tries to find the best set of versions: one that suits all nodes, or else as few as a choice
of those in use already gives. -/
def resolveMultipleVersions (allCandidates : List (Nat × List CompilerVersion)) :
    ExtTreeMap CompilerVersion (List Nat) :=
  match pickCandidate (intersection (allCandidates.map Prod.snd)) with
  | some exactVersion => ExtTreeMap.empty.insert exactVersion (allCandidates.map Prod.fst)
  | none => allCandidates.foldl (fun versionedNodes (node, versions) =>
      match reuseVersion versionedNodes (sortVersions versions) with
      | some v => Library.pushAt versionedNodes v node
      | none => versionedNodes) ∅

namespace Graph

variable (versionMatches : VersionReq → Version → Bool) (parser : SourceParser δ)
  (languageOf : δ → Λ) (project : CompilerProject S R Λ γ α) (g : Graph δ)

/-- What is known about the input nodes of a language so far. -/
structure VersionWalk where
  errors : List VersionError := []
  allCandidates : List (Nat × List CompilerVersion) := []
  versionedNodes : ExtTreeMap CompilerVersion (List Nat) := ∅

/-- Finds the candidates of an input node and picks one of them. -/
def visitInput (allVersions : List CompilerVersion) (walk : VersionWalk) (idx : Nat) :
    VersionWalk :=
  match g.retainCompatibleVersions versionMatches parser project idx allVersions with
  | .error err => { walk with errors := walk.errors ++ [err] }
  | .ok candidates =>
    match pickCandidate candidates with
    | some candidate => { walk with
        allCandidates := walk.allCandidates ++ [(idx, candidates)]
        versionedNodes := Library.pushAt walk.versionedNodes candidate idx }
    | none => walk

/-- The versions of the input nodes of one language. -/
def resolveVersions (language : Λ) (nodes : List Nat) :
    Except (ResolveVersionsError Λ) (ExtTreeMap Version (List Nat)) :=
  let allVersions := project.allVersions language
  if allVersions.isEmpty && !nodes.isEmpty then .error (.noVersions language)
  else
    let walk := nodes.foldl (g.visitInput versionMatches parser project allVersions) {}
    let versionedNodes :=
      if 1 < walk.versionedNodes.size then resolveMultipleVersions walk.allCandidates
      else walk.versionedNodes
    if walk.errors.isEmpty then
      .ok (ExtTreeMap.ofList (versionedNodes.toList.map fun (v, nodes) => (v.version, nodes)))
    else .error (.versions walk.errors)

/-- The input nodes by language and by the version they are compiled with. -/
def getInputNodeVersions [Ord Λ] [TransOrd Λ] :
    Except (ResolveVersionsError Λ) (ExtTreeMap Λ (ExtTreeMap Version (List Nat))) :=
  (g.inputNodesByLanguage languageOf).toList.foldlM (fun resulted (language, nodes) => do
    let versions ← g.resolveVersions versionMatches parser project language nodes
    return resulted.insert language versions) ∅

end Graph

end FoundryCore
