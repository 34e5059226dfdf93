import FoundryCore.Resolver.Versions
import FoundryCore.Settings

/-!
# Settings profiles and source sets

Every input file gets the first settings profile that satisfies the restrictions of the file and
of all files it imports. The input files of one language, version and profile are compiled
together, with everything they import.
-/

open Std Relation

namespace FoundryCore

/-! ## Restrictions -/

/-- Bounds for a value. -/
structure Restriction (ν : Type) where
  min : Option ν := none
  max : Option ν := none
deriving DecidableEq, Repr

/-- No value satisfies no bound but the absent one. -/
def Restriction.satisfies {ν : Type} [Ord ν] (restriction : Restriction ν) (value : Option ν) :
    Bool :=
  restriction.min.all (fun min => value.any fun v => (compare min v).isLE) &&
    restriction.max.all (fun max => value.any fun v => (compare v max).isLE)

/-- What a compiler's settings can be checked for. -/
class SettingsRestrictions (S R : Type) where
  satisfiesRestrictions : S → R → Bool

deriving instance Ord for EvmVersion

structure SolcRestrictions where
  evmVersion : Restriction EvmVersion := {}
  viaIr : Option Bool := none
  optimizerRuns : Restriction Nat := {}
  bytecodeHash : Option BytecodeHash := none

/-- A lower bound on the optimizer runs also asks for the optimizer. -/
def SolcSettings.satisfiesRestrictions (self : SolcSettings) (restrictions : SolcRestrictions) :
    Bool :=
  restrictions.evmVersion.satisfies self.settings.evmVersion &&
  restrictions.viaIr.all (fun viaIr => viaIr == self.settings.viaIr.getD false) &&
  restrictions.bytecodeHash.all (fun bytecodeHash =>
    (self.settings.metadata.bind (·.bytecodeHash)) == some bytecodeHash) &&
  restrictions.optimizerRuns.satisfies self.settings.optimizer.runs &&
  restrictions.optimizerRuns.min.all
    (fun min => min == 0 || self.settings.optimizer.enabled.getD false)

instance : SettingsRestrictions SolcSettings SolcRestrictions :=
  ⟨SolcSettings.satisfiesRestrictions⟩

variable {S R Λ γ α δ : Type}

namespace CompilerProject

/-- The settings profiles, the default one first. -/
def profiles (project : CompilerProject S R Λ γ α) : List (String × S) :=
  ("default", project.settings) :: project.additionalSettings.toList

end CompilerProject

/-! ## Profiles of the input files -/

/-- Why an input file has no profile: restrictions that no profile satisfies, or restrictions that
exclude each other, with the files to point out. -/
inductive ProfileError
  | missingProfile (file : Nat)
  | incompatibleRestrictions (file : Nat) (incompatible : List Nat)
deriving DecidableEq, Repr

/-- The input nodes of a language by version and by the index of their profile. -/
abbrev ProfileNodes := ExtTreeMap Version (ExtTreeMap Nat (List Nat))

namespace Graph

variable [SettingsRestrictions S R] (project : CompilerProject S R Λ γ α) (g : Graph δ)

/-- What the project demands of the settings a file is compiled with. -/
def settingsRestrictions (idx : Nat) : Option R :=
  g.nodes[idx]?.bind fun node => project.restrictions[node.path]?.map (·.restrictions)

/-- Filters profiles incompatible with the given node and its imports. -/
def retainCompatibleProfiles (idx : Nat) (candidates : List (Nat × String × S)) :
    Except ProfileError (List (Nat × String × S)) :=
  let nodes := g.edges.nodesIter idx
  let satisfies := fun (req : R) (candidate : Nat × String × S) =>
    SettingsRestrictions.satisfiesRestrictions candidate.2.2 req
  match Library.retainAlong (g.settingsRestrictions project) satisfies nodes candidates with
  | .ok candidates => .ok candidates
  | .error failed =>
    let allProfiles := match g.settingsRestrictions project failed with
      | some req => candidates.filter (satisfies req)
      | none => candidates
    if allProfiles.isEmpty then .error (.missingProfile failed)
    else
      -- some other node conflicts with the one that failed
      match nodes.find? fun node => (g.settingsRestrictions project node).any fun req =>
        !allProfiles.any (satisfies req) with
      | some node => .error (.incompatibleRestrictions idx [node, failed])
      | none => .error (.incompatibleRestrictions idx nodes)

/-- The profile of an input node, if it has one, by its index. -/
def profileOf (idx : Nat) : Except ProfileError (Option Nat) :=
  match g.retainCompatibleProfiles project idx
    (project.profiles.mapIdx fun i profile => (i, profile)) with
  | .error err => .error err
  | .ok candidates => .ok (candidates.head?.map Prod.fst)

/-- Distributes the input nodes of each language and version over the profiles. -/
def resolveSettings [Ord Λ] [TransOrd Λ]
    (inputNodesVersions : ExtTreeMap Λ (ExtTreeMap Version (List Nat))) :
    Except (List ProfileError) (ExtTreeMap Λ ProfileNodes) :=
  let errors := inputNodesVersions.toList.flatMap fun (_, versions) =>
    versions.toList.flatMap fun (_, nodes) => nodes.filterMap fun idx =>
      match g.profileOf project idx with
      | .error err => some err
      | .ok _ => none
  if errors.isEmpty then
    .ok (inputNodesVersions.map fun _ versions => versions.map fun _ nodes =>
      Library.groupBy (fun _ idx => (g.profileOf project idx).toOption.bind id) nodes)
  else .error errors

end Graph

/-! ## Source sets -/

/-- The sources collected so far, and the nodes that need not be visited any more. -/
structure SourceWalk where
  sources : Sources := ∅
  processedSources : List Nat

/-- Inserts the imports of the given node. The fuel bounds the depth of the recursion. -/
def insertImports (allNodes : List (PathBuf × Source)) (edges : List (List Nat)) :
    Nat → Nat → SourceWalk → Option SourceWalk
  | 0, _, _ => none
  | fuel + 1, idx, walk => (edges[idx]?.getD []).foldlM (fun walk dep =>
      if dep ∈ walk.processedSources then some walk
      else
        let processedSources := dep :: walk.processedSources
        match allNodes[dep]? with
        | some (path, source) => insertImports allNodes edges fuel dep
            { sources := walk.sources.insert path source, processedSources }
        | none => some { walk with processedSources }) walk

inductive IntoSourcesError (Λ : Type)
  | versions (err : ResolveVersionsError Λ)
  | settings (errors : List ProfileError)
  /-- An index that is not one of a node or a profile. -/
  | absent
  | recursionLimit

/-- The sources of a language with the version and the profile they are compiled with. -/
abbrev VersionedSources (S : Type) := List (Version × Sources × String × S)

structure ResolvedSources (S Λ δ : Type) [Ord Λ] where
  sources : ExtTreeMap Λ (VersionedSources S)
  /-- The profile that each input file is compiled with. -/
  primaryProfiles : ExtTreeMap PathBuf String
  edges : GraphEdges δ

namespace Graph

variable [SettingsRestrictions S R] (project : CompilerProject S R Λ γ α) (g : Graph δ)

/-- The graph without its nodes. -/
def split : List (PathBuf × Source) × GraphEdges δ :=
  (g.nodes.map Node.file, { g.edges with data := g.edges.data ++ g.nodes.map Node.data })

/-- Inserts an input node and its imports. -/
def insertInput (walk : SourceWalk) (idx : Nat) : Except (IntoSourcesError Λ) SourceWalk :=
  let (allNodes, edges) := g.split
  match allNodes[idx]? with
  | none => .error .absent
  | some (path, source) =>
    match insertImports allNodes edges.edges (allNodes.length + 1) idx
      { walk with sources := walk.sources.insert path source } with
    | none => .error .recursionLimit
    | some walk => .ok walk

/-- The sources of input nodes that are compiled together. -/
def sourcesOf (inputNodeIndexes : List Nat) : Except (IntoSourcesError Λ) Sources := do
  let walk ← inputNodeIndexes.foldlM g.insertInput { processedSources := inputNodeIndexes }
  return walk.sources

end Graph

/-- The groups of input nodes that are compiled together. -/
def ProfileNodes.groups (versions : ProfileNodes) : List (Version × Nat × List Nat) :=
  versions.toList.flatMap fun (version, profileToNodes) =>
    profileToNodes.toList.map fun (profileIdx, inputNodeIndexes) =>
      (version, profileIdx, inputNodeIndexes)

namespace Graph

variable [SettingsRestrictions S R] (project : CompilerProject S R Λ γ α) (g : Graph δ)

def versionedSources (versions : ProfileNodes) : Except (IntoSourcesError Λ) (VersionedSources S) :=
  versions.groups.mapM fun (version, profileIdx, inputNodeIndexes) => do
    let sources ← g.sourcesOf inputNodeIndexes
    match project.profiles[profileIdx]? with
    | none => .error .absent
    | some profile => return (version, sources, profile)

/-- The source set for each group of input nodes. -/
def sourcesByProfile [Ord Λ] [TransOrd Λ] (versionedNodes : ExtTreeMap Λ ProfileNodes) :
    Except (IntoSourcesError Λ) (ResolvedSources S Λ δ) := do
  let sources ← versionedNodes.toList.foldlM (fun sources (language, versions) =>
    return sources.insert language (← g.versionedSources project versions)) ∅
  let inputs := versionedNodes.toList.flatMap fun (_, versions) => versions.groups.flatMap
    fun (_, profileIdx, inputNodeIndexes) => inputNodeIndexes.map (profileIdx, ·)
  let primaryProfiles := inputs.foldl (fun profiles (profileIdx, idx) =>
    match g.nodes[idx]?, project.profiles[profileIdx]? with
    | some node, some (name, _) => profiles.insert node.path name
    | _, _ => profiles) ∅
  return { sources, primaryProfiles, edges := g.split.2 }

/-- All input files together with their version and profile and with what they import. -/
def intoSourcesByVersion [Ord Λ] [TransOrd Λ] (versionMatches : VersionReq → Version → Bool)
    (parser : SourceParser δ) (languageOf : δ → Λ) :
    Except (IntoSourcesError Λ) (ResolvedSources S Λ δ) := do
  let versionedNodes ← (g.getInputNodeVersions versionMatches parser languageOf project).mapError
    .versions
  let versionedNodes ← (g.resolveSettings project versionedNodes).mapError .settings
  g.sourcesByProfile project versionedNodes

end Graph

end FoundryCore
