import FoundryCore.Artifacts
import Mathlib.Data.Finset.Card
import Mathlib.Data.Finset.Dedup
import Mathlib.Data.List.Pairwise
import Mathlib.Data.List.Sort

/-!
# Artifact paths

Every contract of a compiler output becomes an artifact with a file of its own. The path is
the one a cached artifact of the same contract has, or is built from the contract's file and
name and moved aside when another artifact has it already, whatever the case of the letters.
-/

open Std

namespace FoundryCore

/-! ## Compiler output -/

/-- The nodes of a syntax tree that matter here: whether a top-level node defines a contract. -/
inductive NodeType
  | contractDefinition
  | other
deriving DecidableEq, Repr

structure Ast where
  nodes : List NodeType
  /-- Everything else about the file and its nodes. -/
  content : String := ""
deriving DecidableEq, Repr

structure SourceFile where
  id : Nat
  ast : Option Ast
deriving DecidableEq, Repr

def SourceFile.containsContractDefinition (file : SourceFile) : Bool :=
  file.ast.any fun ast => ast.nodes.any (· = .contractDefinition)

structure VersionedSourceFile where
  sourceFile : SourceFile
  version : Version
  buildId : String
  profile : String
deriving DecidableEq, Repr

structure VersionedContract (γ : Type*) where
  contract : γ
  version : Version
  buildId : String
  profile : String
deriving DecidableEq

abbrev VersionedSourceFiles := ExtTreeMap PathBuf (List VersionedSourceFile)

abbrev VersionedContracts (γ : Type*) :=
  ExtTreeMap PathBuf (ExtTreeMap String (List (VersionedContract γ)))

def VersionedSourceFiles.findFileAndVersion (sources : VersionedSourceFiles) (path : PathBuf)
    (version : Version) : Option SourceFile :=
  (sources[path]?.getD []).findSome? fun source =>
    if source.version = version then some source.sourceFile else none

/-- How an artifact handler turns compiler output into artifacts. -/
structure ArtifactOutput (γ α : Type*) where
  contractToArtifact : PathBuf → String → γ → Option SourceFile → α
  standaloneSourceFileToArtifact : PathBuf → VersionedSourceFile → Option α
  /-- Whether the handler wants the artifact to be made again. -/
  isDirty : ArtifactFile α → Bool

/-! ## Lower case -/

/-- `str::to_lowercase`. It does not tell apart texts that agree up to the case of their ASCII
letters, and it tells apart texts that differ only in a number. -/
structure Lowercase where
  toLowercase : String → String
  ascii : ∀ s t : String, s.map Char.toLower = t.map Char.toLower → toLowercase s = toLowercase t
  number : ∀ (before after : String) (m n : Nat),
    toLowercase (before ++ toString m ++ after) = toLowercase (before ++ toString n ++ after) →
      m = n

theorem toLower_of_isDigit {c : Char} (digit : c.isDigit = true) : c.toLower = c := by
  simp only [Char.isDigit, Bool.and_eq_true, decide_eq_true_eq, ge_iff_le] at digit
  unfold Char.toLower
  split
  · next upper =>
    have below := digit.2
    have above := upper.1
    simp only [UInt32.le_iff_toNat_le] at below above
    exact absurd (above.trans below) (by decide)
  · rfl

theorem map_toLower_toDigits (n : Nat) :
    (Nat.toDigits 10 n).map Char.toLower = Nat.toDigits 10 n :=
  (List.map_congr_left fun _ mem =>
    toLower_of_isDigit (Nat.isDigit_of_mem_toDigits (by decide) (by decide) mem)).trans
      (List.map_id _)

/-- Lower case for ASCII letters only. -/
def Lowercase.ofAscii : Lowercase where
  toLowercase s := s.map Char.toLower
  ascii _ _ eq := eq
  number before after m n eq := by
    have chars := congrArg String.toList eq
    simp only [String.toList_map, String.toList_append, List.map_append] at chars
    have digits := List.append_cancel_left (List.append_cancel_right chars)
    simp only [toString, Nat.toList_repr, map_toLower_toDigits] at digits
    rw [← Nat.ofDigitChars_ten_toDigits (n := m), digits, Nat.ofDigitChars_ten_toDigits]

/-- The text of a path with its ASCII letters in lower case. -/
def PathBuf.asciiLowercase (p : PathBuf) : String := p.toString.map Char.toLower

namespace ArtifactOutput

variable {γ α : Type*} (L : Lowercase)

/-! ## Paths -/

/-- `Greeter.json`, with the version and the profile where they are needed. -/
def outputFileName (name : String) (version : Version) (profile : String)
    (withVersion withProfile : Bool) : PathBuf :=
  let name := if withVersion then
    name ++ s!".{version.major}.{version.minor}.{version.patch}" else name
  let name := if withProfile then name ++ s!".{profile}" else name
  .ofString (name ++ ".json")

/-- `contract.sol/contract.json` by default. -/
def outputFile (contractFile : PathBuf) (name : String) (version : Version) (profile : String)
    (withVersion withProfile : Bool) : PathBuf :=
  let fileName := outputFileName name version profile withVersion withProfile
  match contractFile.fileName with
  | some dir => (PathBuf.rel [dir]).join fileName
  | none => fileName

/-- The key under which a path counts as taken. -/
def takenKey (path : PathBuf) : String := L.toLowercase path.toString

/-- The directories that contain a file, the innermost first, up to the first one without a
name. -/
def parentNames (file : PathBuf) : List String :=
  (file.components.dropLast.reverse.takeWhile fun
    | .normal _ => true
    | _ => false).filterMap fun
    | .normal name => some name
    | _ => none

/-- The alternatives for a conflicting path: the names of the parent directories of the
contract's file are put in front, one more each time. -/
def parentAlternatives (artifactsFolder : PathBuf) : PathBuf → List String → List PathBuf
  | _, [] => []
  | candidate, parentName :: rest =>
    let candidate := (PathBuf.rel [parentName]).join candidate
    artifactsFolder.join candidate :: parentAlternatives artifactsFolder candidate rest

/-- The path with a number appended to its first component. -/
def numerate (path : PathBuf) (num : Nat) : PathBuf :=
  match path.components with
  | [] => path
  | .rootDir :: rest => ⟨.rootDir :: .normal ("_" ++ toString num) :: rest⟩
  | first :: rest => ⟨.normal (first.text ++ "_" ++ toString num) :: rest⟩

/-- The first numbered path that is not taken. One of the first `taken.card + 1` numbers will
do. -/
def numerated (taken : Finset String) (path : PathBuf) : PathBuf :=
  (((List.range (taken.card + 1)).map fun n => numerate path (n + 1)).find? fun candidate =>
    takenKey L candidate ∉ taken).getD path

theorem toString_numerate {path : PathBuf} (ne : path.components ≠ []) :
    ∃ before after, ∀ n, (numerate path n).toString = before ++ toString n ++ after := by
  have texts : ∀ (name : String) (rest : List Component), ∃ after, ∀ n : Nat,
      "/".intercalate ((Component.normal (name ++ "_" ++ toString n) :: rest).map Component.text) =
        name ++ "_" ++ toString n ++ after := by
    intro name rest
    cases rest with
    | nil => exact ⟨"", fun n => by simp [Component.text]⟩
    | cons c rest =>
      exact ⟨"/" ++ "/".intercalate ((c :: rest).map Component.text), fun n => by
        rw [List.map_cons, List.map_cons, String.intercalate_cons_cons, ← List.map_cons]
        simp [Component.text, String.append_assoc]⟩
  obtain ⟨components⟩ := path
  match components with
  | [] => exact absurd rfl ne
  | .rootDir :: rest =>
    obtain ⟨after, eq⟩ := texts "" rest
    refine ⟨"/_", after, fun n => ?_⟩
    have := eq n
    simp only [String.empty_append] at this
    simp only [numerate, PathBuf.toString, this, ← String.append_assoc]
    rfl
  | .curDir :: rest | .parentDir :: rest | .normal name :: rest =>
    obtain ⟨after, eq⟩ := texts _ rest
    exact ⟨_ ++ "_", after, fun n => eq n⟩

/-- The search for a number succeeds. -/
theorem takenKey_numerated {taken : Finset String} {path : PathBuf} (ne : path.components ≠ []) :
    takenKey L (numerated L taken path) ∉ taken := by
  obtain ⟨before, after, text⟩ := toString_numerate ne
  have key : ∀ n, takenKey L (numerate path n) = L.toLowercase (before ++ toString n ++ after) :=
    fun n => congrArg L.toLowercase (text n)
  cases found : ((List.range (taken.card + 1)).map fun n => numerate path (n + 1)).find?
      fun candidate => takenKey L candidate ∉ taken with
  | some out =>
    rw [numerated, found]
    simpa using List.find?_some found
  | none =>
    -- otherwise the first `taken.card + 1` numbered paths are all taken, under different keys
    have all : ∀ n ∈ Finset.range (taken.card + 1), takenKey L (numerate path (n + 1)) ∈ taken := by
      intro n mem
      have := List.find?_eq_none.mp found (numerate path (n + 1))
        (List.mem_map.mpr ⟨n, List.mem_range.mpr (Finset.mem_range.mp mem), rfl⟩)
      simpa using this
    have card := Finset.card_le_card_of_injOn _ all fun m _ n _ eq => by
      have := L.number before after (m + 1) (n + 1) (by rw [← key, ← key]; exact eq)
      omega
    rw [Finset.card_range] at card
    omega

/-- An output path for a contract whose own path is taken. -/
def conflictFreeOutputFile (alreadyTaken : Finset String) (conflict contractFile : PathBuf)
    (artifactsFolder : PathBuf) : PathBuf :=
  let relCandidate := conflict.stripPrefixOrSelf artifactsFolder
  match (parentAlternatives artifactsFolder relCandidate (parentNames contractFile)).find?
    fun out => takenKey L out ∉ alreadyTaken with
  | some out => out
  -- no alternative in the folders of the file: numerate the first folder
  | none => numerated L alreadyTaken relCandidate

/-! ## From compiler output to artifacts -/

/-- The cached artifacts of each file, whose paths are reused. -/
structure OutputContext where
  existingArtifacts : ExtTreeMap PathBuf CachedArtifacts := ∅

/-- The path of the existing artifact of a contract. -/
def OutputContext.existingArtifact (ctx : OutputContext) (file : PathBuf) (name : String)
    (version : Version) (profile : String) : Option PathBuf :=
  (ctx.existingArtifacts[file]?.bind (·.find? name version profile)).map CachedArtifact.path

/-- The paths of all existing artifacts. -/
def OutputContext.paths (ctx : OutputContext) : List PathBuf :=
  ctx.existingArtifacts.toList.flatMap fun (_, artifacts) =>
    artifacts.entries.map fun (_, _, _, a) => a.path

/-- A path for the artifact of a contract: the one it has, or its own, or a free one. -/
def getArtifactPath (ctx : OutputContext) (alreadyTaken : Finset String) (file : PathBuf)
    (name : String) (artifactsFolder : PathBuf) (version : Version) (profile : String)
    (withVersion withProfile : Bool) : PathBuf :=
  match ctx.existingArtifact file name version profile with
  | some path => path
  | none =>
    let path := artifactsFolder.join (outputFile file name version profile withVersion withProfile)
    if takenKey L path ∈ alreadyTaken then
      conflictFreeOutputFile L alreadyTaken path file artifactsFolder
    else path

/-- A contract, or a source file without contracts, that is to become an artifact. -/
structure Request (α : Type*) where
  file : PathBuf
  name : String
  version : Version
  profile : String
  buildId : String
  withVersion : Bool
  withProfile : Bool
  artifact : α
deriving DecidableEq

/-- The files with the fewest components first, so that they get the shortest paths. -/
def sortedFiles (contracts : VersionedContracts γ) : List PathBuf :=
  contracts.keys.insertionSort fun a b =>
    ((compare a.components.length b.components.length).then (compare a b)).isLE = true

/-- The contracts of an output in the order in which they choose their paths. -/
def contractRequests (out : ArtifactOutput γ α) (contracts : VersionedContracts γ)
    (sources : VersionedSourceFiles) (primaryProfiles : ExtTreeMap PathBuf String) :
    List (Request α) :=
  (sortedFiles contracts).flatMap fun file =>
    (contracts[file]?.getD ∅).toList.flatMap fun (name, versioned) =>
      let uniqueVersions := (versioned.map VersionedContract.version).toFinset
      let uniqueProfiles := (versioned.map VersionedContract.profile).toFinset
      versioned.map fun c =>
        { file, name
          version := c.version
          profile := c.profile
          buildId := c.buildId
          withVersion := 1 < uniqueVersions.card
          withProfile := 1 < uniqueProfiles.card ∧ primaryProfiles[file]? ≠ some c.profile
          artifact := out.contractToArtifact file name c.contract
            (sources.findFileAndVersion file c.version) }

/-- The source files without contracts, and without a contract definition in their syntax tree,
which stand for themselves. -/
def standaloneRequests (out : ArtifactOutput γ α) (sources : VersionedSourceFiles)
    (nonStandaloneSources : List PathBuf) : List (Request α) :=
  sources.toList.flatMap fun (file, versioned) =>
    let uniqueVersions := (versioned.map VersionedSourceFile.version).toFinset
    let uniqueProfiles := (versioned.map VersionedSourceFile.profile).toFinset
    versioned.filterMap fun source =>
      if file ∈ nonStandaloneSources then none
      else if source.sourceFile.ast.isNone ∨ source.sourceFile.containsContractDefinition then none
      else
        match file.fileStem, out.standaloneSourceFileToArtifact file source with
        | some name, some artifact => some
            { file, name
              version := source.version
              profile := source.profile
              buildId := source.buildId
              withVersion := 1 < uniqueVersions.card
              withProfile := 1 < uniqueProfiles.card
              artifact }
        | _, _ => none

/-- Everything that becomes an artifact. -/
def requests (out : ArtifactOutput γ α) (contracts : VersionedContracts γ)
    (sources : VersionedSourceFiles) (primaryProfiles : ExtTreeMap PathBuf String) :
    List (Request α) :=
  let ofContracts := out.contractRequests contracts sources primaryProfiles
  ofContracts ++ out.standaloneRequests sources (ofContracts.map Request.file)

/-- The paths in use, and the artifacts made so far. -/
structure Assigned (α : Type*) where
  taken : Finset String
  artifacts : Artifacts α := ∅

/-- Chooses a path for one artifact and marks it as taken. -/
def assign (ctx : OutputContext) (artifactsFolder : PathBuf) (s : Assigned α) (r : Request α) :
    Assigned α :=
  let path := getArtifactPath L ctx s.taken r.file r.name artifactsFolder r.version r.profile
    r.withVersion r.withProfile
  { taken := insert (takenKey L path) s.taken
    artifacts := s.artifacts.push r.file r.name
      { artifact := r.artifact, file := path, version := r.version, buildId := r.buildId
        profile := r.profile } }

/-- Converts the output of the compilers into artifacts with their paths. -/
def outputToArtifacts (out : ArtifactOutput γ α) (contracts : VersionedContracts γ)
    (sources : VersionedSourceFiles) (ctx : OutputContext) (artifactsFolder : PathBuf)
    (primaryProfiles : ExtTreeMap PathBuf String) : Artifacts α :=
  let taken := (ctx.paths.map (takenKey L)).toFinset
  ((out.requests contracts sources primaryProfiles).foldl (assign L ctx artifactsFolder)
    { taken }).artifacts

/-- What `on_output` writes to disk: the artifacts with their paths under the folder. -/
def onOutput (out : ArtifactOutput γ α) (contracts : VersionedContracts γ)
    (sources : VersionedSourceFiles) (ctx : OutputContext) (artifactsFolder : PathBuf)
    (primaryProfiles : ExtTreeMap PathBuf String) : Artifacts α :=
  (out.outputToArtifacts L contracts sources ctx artifactsFolder primaryProfiles).joinAll
    artifactsFolder

/-! ## The paths of a whole output -/

section Placed

variable {L} {ctx : OutputContext} {folder : PathBuf} {taken : Finset String} {r : Request α}
  {rs : List (Request α)} {p : PathBuf}

/-- The path that a request has from an earlier run. -/
def OutputContext.existing (ctx : OutputContext) (r : Request α) : Option PathBuf :=
  ctx.existingArtifact r.file r.name r.version r.profile

/-- The path of a request by its own file and name. -/
def Request.ownPath (folder : PathBuf) (r : Request α) : PathBuf :=
  folder.join (outputFile r.file r.name r.version r.profile r.withVersion r.withProfile)

/-- The paths that a request tries when its own is taken. -/
def Request.alternatives (folder : PathBuf) (r : Request α) : List PathBuf :=
  parentAlternatives folder ((r.ownPath folder).stripPrefixOrSelf folder) (parentNames r.file)

def Request.path (L : Lowercase) (ctx : OutputContext) (folder : PathBuf) (taken : Finset String)
    (r : Request α) : PathBuf :=
  getArtifactPath L ctx taken r.file r.name folder r.version r.profile r.withVersion r.withProfile

/-- The requests with the paths they get, in order. -/
def placed (L : Lowercase) (ctx : OutputContext) (folder : PathBuf) :
    Finset String → List (Request α) → List (Request α × PathBuf)
  | _, [] => []
  | taken, r :: rs =>
    let path := r.path L ctx folder taken
    (r, path) :: placed L ctx folder (insert (takenKey L path) taken) rs

/-- The paths that a request looks at: its own or, when that is taken, the alternatives. -/
def Request.candidates (L : Lowercase) (folder : PathBuf) (taken : Finset String) (r : Request α) :
    List PathBuf :=
  if takenKey L (r.ownPath folder) ∈ taken then r.alternatives folder else [r.ownPath folder]

/-- No request has to number its folder: at its turn one of the paths it looks at is free. -/
def NeverNumbered (L : Lowercase) (ctx : OutputContext) (folder : PathBuf) :
    Finset String → List (Request α) → Prop
  | _, [] => True
  | taken, r :: rs =>
    (ctx.existing r = none → ∃ p ∈ r.candidates L folder taken, takenKey L p ∉ taken) ∧
    NeverNumbered L ctx folder (insert (takenKey L (r.path L ctx folder taken)) taken) rs

/-- Every request finds room in the folder: at its turn one of the paths it looks at is free and
inside the folder. -/
def Housed (L : Lowercase) (ctx : OutputContext) (folder : PathBuf) :
    Finset String → List (Request α) → Prop
  | _, [] => True
  | taken, r :: rs =>
    (ctx.existing r = none →
      ∃ p ∈ r.candidates L folder taken, takenKey L p ∉ taken ∧ p.Inside folder) ∧
    Housed L ctx folder (insert (takenKey L (r.path L ctx folder taken)) taken) rs

theorem placed_cons {t : String} (path : r.path L ctx folder taken = p)
    (taking : takenKey L p = t) :
    placed L ctx folder taken (r :: rs) =
      (r, p) :: placed L ctx folder (insert t taken) rs := by
  subst path taking
  rfl

/-- The texts that enter the path of a request have no separators. -/
def Request.Plain (r : Request α) : Prop :=
  '/' ∉ r.name.toList ∧ (r.withProfile = true → '/' ∉ r.profile.toList)

theorem separator_notMem_toDigits (n : Nat) : '/' ∉ Nat.toDigits 10 n := by
  intro mem
  exact absurd (Nat.isDigit_of_mem_toDigits (by decide) (by decide) mem) (by decide)

theorem outputFileName_eq {name profile : String} {withProfile : Bool}
    (plain : '/' ∉ name.toList) (plainProfile : withProfile = true → '/' ∉ profile.toList)
    (version : Version) (withVersion : Bool) :
    ∃ text, outputFileName name version profile withVersion withProfile = .rel [text] := by
  have ending : ∀ stem : String, stem ++ ".json" ≠ "" ∧ stem ++ ".json" ≠ "." ∧
      stem ++ ".json" ≠ ".." := by
    intro stem
    refine ⟨?_, ?_, ?_⟩ <;>
    · intro eq
      have := congrArg (fun s => s.toList.length) eq
      simp at this
  unfold outputFileName
  refine ⟨_, PathBuf.ofString_eq_rel ?_ (ending _)⟩
  cases withVersion <;> cases withProfile <;>
    simp_all [separator_notMem_toDigits, toString]

/-- The file of a contract with a plain name is relative to the artifacts folder. -/
theorem outputFile_eq (plain : r.Plain) :
    ∃ names, names ≠ [] ∧
      outputFile r.file r.name r.version r.profile r.withVersion r.withProfile = .rel names := by
  obtain ⟨text, eq⟩ := outputFileName_eq plain.1 plain.2 r.version r.withVersion
  unfold outputFile
  cases r.file.fileName with
  | none => exact ⟨[text], by simp, eq⟩
  | some dir => exact ⟨[dir, text], by simp, by simp only [eq, PathBuf.rel_join_rel]⟩

theorem ownPath_inside (absolute : folder.isAbsolute = true) (plain : r.Plain) :
    (r.ownPath folder).Inside folder := by
  obtain ⟨names, ne, eq⟩ := outputFile_eq plain
  rw [Request.ownPath, eq]
  exact PathBuf.inside_join_rel absolute ne

/-- The alternatives are one path behind the folder and different names in front of it, or no
alternatives at all when that path is absolute. -/
theorem parentAlternatives_eq (absolute : folder.isAbsolute = true) {candidate : PathBuf}
    {parents : List String} (mem : p ∈ parentAlternatives folder candidate parents) :
    (candidate.isAbsolute = true ∧ p = candidate) ∨
      (candidate.isAbsolute = false ∧ ∃ names : List String, names ≠ [] ∧ p.components =
        folder.components ++ (names.map .normal ++ candidate.components.filter (· ≠ .curDir))) := by
  induction parents generalizing candidate with
  | nil => simp [parentAlternatives] at mem
  | cons parent rest ih =>
    rw [parentAlternatives] at mem
    cases abs : candidate.isAbsolute with
    | true =>
      rw [PathBuf.join_of_isAbsolute abs] at mem
      rcases List.mem_cons.mp mem with rfl | mem
      · exact .inl ⟨rfl, PathBuf.join_of_isAbsolute abs⟩
      · exact .inl ⟨rfl, ((ih mem).resolve_right fun ⟨no, _⟩ => by simp [abs] at no).2⟩
    | false =>
      have front : ((PathBuf.rel [parent]).join candidate).components =
          .normal parent :: candidate.components.filter (· ≠ .curDir) := by
        simp [PathBuf.join, abs]
      have relative : ((PathBuf.rel [parent]).join candidate).isAbsolute = false := by
        simp [PathBuf.isAbsolute, front]
      refine .inr ⟨rfl, ?_⟩
      rcases List.mem_cons.mp mem with rfl | mem
      · refine ⟨[parent], by simp, ?_⟩
        rw [PathBuf.components_join absolute relative, front]
        simp
      · obtain ⟨yes, -⟩ | ⟨-, names, ne, eq⟩ := ih mem
        · simp [relative] at yes
        · refine ⟨names ++ [parent], by simp, ?_⟩
          rw [eq, front]
          simp

/-- Of the paths that a request looks at all are inside the folder, or none. -/
theorem candidates_inside (absolute : folder.isAbsolute = true) {q : PathBuf}
    (mem : p ∈ r.candidates L folder taken) (inside : p.Inside folder)
    (mem' : q ∈ r.candidates L folder taken) : q.Inside folder := by
  rw [Request.candidates] at mem mem'
  split_ifs at mem mem'
  · rcases parentAlternatives_eq absolute mem with ⟨abs, eq⟩ | ⟨rel, names, -, eq⟩
    · rcases parentAlternatives_eq absolute mem' with ⟨-, eq'⟩ | ⟨rel, -⟩
      · rwa [eq', ← eq]
      · simp [abs] at rel
    · rcases parentAlternatives_eq absolute mem' with ⟨abs, -⟩ | ⟨-, names', ne, eq'⟩
      · simp [rel] at abs
      · obtain ⟨all, -, same⟩ := inside
        have normal := List.append_cancel_left (eq.symm.trans same)
        obtain ⟨-, rest, -, -, behind⟩ := List.append_eq_map_iff.mp normal
        exact ⟨names' ++ rest, by simp [ne], by rw [eq', ← behind, List.map_append]⟩
  · rw [List.mem_singleton] at mem mem'
    rwa [mem', ← mem]

/-- The paths that a plain request looks at are inside the folder. -/
theorem candidates_inside_of_plain (absolute : folder.isAbsolute = true) (plain : r.Plain)
    (mem : p ∈ r.candidates L folder taken) : p.Inside folder := by
  rw [Request.candidates] at mem
  split_ifs at mem
  · obtain ⟨names, -, eq⟩ := outputFile_eq plain
    rw [Request.alternatives, Request.ownPath, eq, PathBuf.stripPrefix_join_rel absolute] at mem
    rcases parentAlternatives_eq absolute mem with ⟨abs, -⟩ | ⟨-, front, ne, eq⟩
    · simp at abs
    · exact ⟨front ++ names, by simp [ne], by
        rw [eq, PathBuf.components_rel, List.map_append, List.filter_eq_self.mpr (by simp)]⟩
  · rw [List.mem_singleton.mp mem]
    exact ownPath_inside absolute plain

theorem isAbsolute_of_mem_candidates (absolute : folder.isAbsolute = true)
    (mem : p ∈ r.candidates L folder taken) : p.isAbsolute = true := by
  obtain ⟨rest, root⟩ := PathBuf.isAbsolute_iff.mp absolute
  rw [Request.candidates] at mem
  split_ifs at mem
  · rcases parentAlternatives_eq absolute mem with ⟨abs, eq⟩ | ⟨-, names, -, eq⟩
    · rwa [eq]
    · exact PathBuf.isAbsolute_iff.mpr ⟨_, by rw [eq, root, List.cons_append]⟩
  · rw [List.mem_singleton.mp mem, Request.ownPath, PathBuf.join]
    split_ifs with abs none
    · exact abs
    · simp [root] at none
    · exact PathBuf.isAbsolute_iff.mpr ⟨_, by rw [root, List.cons_append]⟩

/-- A request without an existing path that finds a free one among those it looks at takes the
first. -/
theorem path_new (new : ctx.existing r = none)
    (free : ∃ p ∈ r.candidates L folder taken, takenKey L p ∉ taken) :
    r.path L ctx folder taken ∈ r.candidates L folder taken ∧
      takenKey L (r.path L ctx folder taken) ∉ taken := by
  have eq : r.path L ctx folder taken =
      if takenKey L (r.ownPath folder) ∈ taken then
        conflictFreeOutputFile L taken (r.ownPath folder) r.file folder
      else r.ownPath folder := by
    rw [OutputContext.existing] at new
    rw [Request.path, getArtifactPath, new]
    rfl
  rw [eq]
  rw [Request.candidates] at free ⊢
  split_ifs at free ⊢ with conflict
  · obtain ⟨alternative, mem, free⟩ := free
    rw [conflictFreeOutputFile]
    split
    · next out found =>
      have fresh := List.find?_some found
      exact ⟨List.mem_of_find?_eq_some found, by simpa using fresh⟩
    · next exhausted =>
      have := List.find?_eq_none.mp exhausted alternative mem
      exact absurd free (by simpa using this)
  · exact ⟨by simp, conflict⟩

theorem path_existing (existing : ctx.existing r = some p) : r.path L ctx folder taken = p := by
  rw [OutputContext.existing] at existing
  simp [Request.path, getArtifactPath, existing]

theorem Housed.neverNumbered (h : Housed L ctx folder taken rs) :
    NeverNumbered L ctx folder taken rs := by
  induction rs generalizing taken with
  | nil => trivial
  | cons r rs ih =>
    exact ⟨fun new => (h.1 new).imp fun _ ⟨mem, free, _⟩ => ⟨mem, free⟩, ih h.2⟩

/-- A request that does not number its folder has its existing path, or gets a free path of those
it looks at. -/
theorem path_cases (never : NeverNumbered L ctx folder taken (r :: rs)) :
    ctx.existing r = some (r.path L ctx folder taken) ∨
      (ctx.existing r = none ∧ takenKey L (r.path L ctx folder taken) ∉ taken ∧
        r.path L ctx folder taken ∈ r.candidates L folder taken) := by
  cases existing : ctx.existing r with
  | some path => exact .inl (by rw [path_existing existing])
  | none => exact .inr ⟨rfl, (path_new existing (never.1 existing)).2,
      (path_new existing (never.1 existing)).1⟩

theorem placed_cases (never : NeverNumbered L ctx folder taken rs)
    (mem : (r, p) ∈ placed L ctx folder taken rs) :
    r ∈ rs ∧ (ctx.existing r = some p ∨
      (ctx.existing r = none ∧ takenKey L p ∉ taken ∧
        ∃ later, p ∈ r.candidates L folder later)) := by
  induction rs generalizing taken with
  | nil => simp [placed] at mem
  | cons first rs ih =>
    rcases List.mem_cons.mp mem with eq | mem
    · obtain ⟨rfl, rfl⟩ := Prod.mk.inj eq
      exact ⟨by simp, (path_cases never).imp_right fun ⟨new, fresh, mem⟩ => ⟨new, fresh, _, mem⟩⟩
    · obtain ⟨later, cases⟩ := ih never.2 mem
      refine ⟨by simp [later], cases.imp_right fun ⟨new, fresh, mem⟩ => ⟨new, ?_, mem⟩⟩
      exact fun old => fresh (Finset.mem_insert_of_mem old)

/-- Requests that number no folder find room in it when their paths are inside. -/
theorem housed_iff (absolute : folder.isAbsolute = true)
    (never : NeverNumbered L ctx folder taken rs) :
    Housed L ctx folder taken rs ↔
      ∀ r p, (r, p) ∈ placed L ctx folder taken rs → ctx.existing r = none → p.Inside folder := by
  induction rs generalizing taken with
  | nil => simp [Housed, placed]
  | cons first rs ih =>
    rw [Housed, ih never.2]
    constructor
    · rintro ⟨here, later⟩ r p mem new
      rcases List.mem_cons.mp mem with eq | mem
      · obtain ⟨rfl, rfl⟩ := Prod.mk.inj eq
        obtain ⟨q, listed, -, inside⟩ := here new
        exact candidates_inside absolute listed inside (path_new new (never.1 new)).1
      · exact later r p mem new
    · intro all
      refine ⟨fun new => ?_, fun r p mem => all r p (List.mem_cons_of_mem _ mem)⟩
      obtain ⟨listed, free⟩ := path_new new (never.1 new)
      exact ⟨_, listed, free, all first _ (List.mem_cons_self ..) new⟩

theorem housed_cons {t : String} (path : r.path L ctx folder taken = p)
    (taking : takenKey L p = t) (absolute : folder.isAbsolute = true) (plain : r.Plain)
    (free : takenKey L (r.ownPath folder) ∉ taken ∨
      ∃ alternative ∈ r.alternatives folder, takenKey L alternative ∉ taken)
    (later : Housed L ctx folder (insert t taken) rs) : Housed L ctx folder taken (r :: rs) := by
  subst path taking
  refine ⟨fun _ => ?_, later⟩
  suffices ∃ p ∈ r.candidates L folder taken, takenKey L p ∉ taken from
    this.imp fun p ⟨mem, free⟩ => ⟨mem, free, candidates_inside_of_plain absolute plain mem⟩
  rw [Request.candidates]
  split_ifs with own
  · exact free.resolve_left fun no => no own
  · exact ⟨_, by simp, own⟩

theorem asciiLowercase_ne {q : PathBuf} (ne : takenKey L p ≠ takenKey L q) :
    p.asciiLowercase ≠ q.asciiLowercase :=
  fun eq => ne (L.ascii _ _ eq)

theorem OutputContext.mem_paths {file : PathBuf} {name : String} {version : Version}
    {profile : String} (h : ctx.existingArtifact file name version profile = some p) :
    p ∈ ctx.paths := by
  obtain ⟨a, found, rfl⟩ := Option.map_eq_some_iff.mp h
  obtain ⟨artifacts, entry, found⟩ := Option.bind_eq_some_iff.mp found
  refine List.mem_flatMap.mpr ⟨(file, artifacts), ?_, List.mem_map.mpr ⟨(name, version, profile, a),
    CachedArtifacts.mem_entries.mpr found, rfl⟩⟩
  exact ExtTreeMap.mem_toList_iff_getElem?_eq_some.mpr entry

theorem placed_map_fst : (placed L ctx folder taken rs).map Prod.fst = rs := by
  induction rs generalizing taken with
  | nil => rfl
  | cons r rs ih => rw [placed, List.map_cons, ih]

/-- A request with an existing path is placed there. -/
theorem placed_path {x : Request α × PathBuf} (mem : x ∈ placed L ctx folder taken rs)
    (existing : ctx.existing x.1 = some p) : x.2 = p := by
  induction rs generalizing taken with
  | nil => simp [placed] at mem
  | cons r rs ih =>
    rcases List.mem_cons.mp mem with rfl | mem
    · exact path_existing existing
    · exact ih mem

theorem placed_existing (mem : r ∈ rs) (existing : ctx.existing r = some p) :
    (r, p) ∈ placed L ctx folder taken rs := by
  have listed : r ∈ (placed L ctx folder taken rs).map Prod.fst := by rwa [placed_map_fst]
  obtain ⟨⟨r, q⟩, there, rfl⟩ := List.mem_map.mp listed
  rwa [show q = p from placed_path there existing] at there

/-- The artifact file of a request with its path. -/
def toFile (x : Request α × PathBuf) : ArtifactFile α :=
  { artifact := x.1.artifact, file := x.2, version := x.1.version, buildId := x.1.buildId
    profile := x.1.profile }

/-- The artifacts of a contract are its requests with their paths. -/
theorem filesOf_foldl_assign (s : Assigned α) (file : PathBuf) (name : String) :
    (rs.foldl (assign L ctx folder) s).artifacts.filesOf file name =
      s.artifacts.filesOf file name ++
        ((placed L ctx folder s.taken rs).filter fun x =>
          x.1.file = file ∧ x.1.name = name).map toFile := by
  induction rs generalizing s with
  | nil => simp [placed]
  | cons r rs ih =>
    rw [List.foldl_cons, ih, placed]
    simp only [assign, Artifacts.filesOf_push, List.append_assoc]
    congr 1
    by_cases same : r.file = file ∧ r.name = name
    · rw [List.filter_cons_of_pos (by simpa using same), if_pos ⟨same.1.symm, same.2.symm⟩]
      rfl
    · rw [List.filter_cons_of_neg (by simpa using same),
        if_neg fun h => same ⟨h.1.symm, h.2.symm⟩]
      rfl

end Placed

/-- The contract, version and profile that a request is for. -/
def Request.key (r : Request α) : PathBuf × String × Version × String :=
  (r.file, r.name, r.version, r.profile)

theorem existing_congr {ctx : OutputContext} {r r' : Request α} (key : r.key = r'.key) :
    ctx.existing r = ctx.existing r' := by
  obtain ⟨file, name, version, profile⟩ := by simpa [Request.key] using key
  simp [OutputContext.existing, file, name, version, profile]

/-- What the code relies on to keep the artifacts of an output apart. -/
structure Separable (L : Lowercase) (ctx : OutputContext) (folder : PathBuf)
    (rs : List (Request α)) : Prop where
  /-- An existing path that is reused is inside the folder and no other cached artifact has it. -/
  reusedInside : ∀ r ∈ rs, ∀ path, ctx.existing r = some path → path.Inside folder
  reusedAlone : ∀ r ∈ rs, ∀ path, ctx.existing r = some path →
    ∀ file name version profile path', ctx.existingArtifact file name version profile = some path' →
      path'.asciiLowercase = path.asciiLowercase → (file, name, version, profile) = r.key
  /-- A key with an existing path is compiled once. -/
  reusedOnce : rs.Pairwise fun r r' => r.key = r'.key → ctx.existing r = none
  housed : Housed L ctx folder (ctx.paths.map (takenKey L)).toFinset rs

/-- The artifacts written to the folder are inside it, no two of them have one path up to ASCII
case, and none has the path of a cached artifact that is not itself written again. -/
structure Separated (ctx : OutputContext) (folder : PathBuf) (artifacts : Artifacts α) : Prop where
  inside : ∀ file name, ∀ a ∈ artifacts.filesOf file name, a.file.Inside folder
  versions : ∀ file name, (artifacts.filesOf file name).Pairwise fun a b =>
    a.file.asciiLowercase ≠ b.file.asciiLowercase
  contracts : ∀ file name file' name', (file, name) ≠ (file', name') →
    ∀ a ∈ artifacts.filesOf file name, ∀ b ∈ artifacts.filesOf file' name',
      a.file.asciiLowercase ≠ b.file.asciiLowercase
  cached : ∀ file name version profile path,
    ctx.existingArtifact file name version profile = some path →
    (∀ a ∈ artifacts.filesOf file name, ¬ (a.version = version ∧ a.profile = profile)) →
    ∀ file' name', ∀ a ∈ artifacts.filesOf file' name',
      a.file.asciiLowercase ≠ path.asciiLowercase

section Separation

variable {L} {ctx : OutputContext} {folder : PathBuf} {rs : List (Request α)}

namespace Separable

theorem placed_inside (h : Separable L ctx folder rs) (absolute : folder.isAbsolute = true)
    {r : Request α} {p : PathBuf}
    (mem : (r, p) ∈ placed L ctx folder (ctx.paths.map (takenKey L)).toFinset rs) :
    p.Inside folder := by
  obtain ⟨listed, old | ⟨new, -⟩⟩ := placed_cases h.housed.neverNumbered mem
  · exact h.reusedInside r listed p old
  · exact (housed_iff absolute h.housed.neverNumbered).mp h.housed r p mem new

/-- The path of a request is that of no other cached artifact. -/
theorem placed_cached (h : Separable L ctx folder rs) {r : Request α} {p path : PathBuf}
    (mem : (r, p) ∈ placed L ctx folder (ctx.paths.map (takenKey L)).toFinset rs)
    {file : PathBuf} {name : String} {version : Version} {profile : String}
    (cached : ctx.existingArtifact file name version profile = some path)
    (other : (file, name, version, profile) ≠ r.key) : p.asciiLowercase ≠ path.asciiLowercase := by
  obtain ⟨mem, old | ⟨-, fresh, -⟩⟩ := placed_cases h.housed.neverNumbered mem
  · exact fun eq => other (h.reusedAlone r mem p old file name version profile path cached eq.symm)
  · refine asciiLowercase_ne (L := L) fun eq => fresh ?_
    rw [eq, List.mem_toFinset]
    exact List.mem_map_of_mem (OutputContext.mem_paths cached)

/-- No two requests get one path. -/
theorem placed_pairwise (h : Separable L ctx folder rs) :
    (placed L ctx folder (ctx.paths.map (takenKey L)).toFinset rs).Pairwise fun x y =>
      x.2.asciiLowercase ≠ y.2.asciiLowercase := by
  -- along the list the taken paths only grow, and always hold the cached ones
  suffices ∀ (rs' : List (Request α)) (taken : Finset String), rs'.Sublist rs →
      (ctx.paths.map (takenKey L)).toFinset ⊆ taken → NeverNumbered L ctx folder taken rs' →
      (placed L ctx folder taken rs').Pairwise fun x y =>
        x.2.asciiLowercase ≠ y.2.asciiLowercase from
    this rs _ (List.Sublist.refl rs) (fun _ mem => mem) h.housed.neverNumbered
  intro rs' taken sub cached never
  induction rs' generalizing taken with
  | nil => exact .nil
  | cons r rs' ih =>
    refine List.Pairwise.cons ?_ (ih _ (List.sublist_of_cons_sublist sub)
      (cached.trans (Finset.subset_insert _ _)) never.2)
    rintro ⟨r', p'⟩ mem
    obtain ⟨later, old | ⟨-, fresh, -⟩⟩ := placed_cases never.2 mem
    · have known : takenKey L p' ∈ taken := cached (by
        rw [List.mem_toFinset]
        exact List.mem_map_of_mem (OutputContext.mem_paths old))
      rcases path_cases never with mine | ⟨-, fresh, -⟩
      · intro eq
        have key : r'.key = r.key := h.reusedAlone r (sub.subset (by simp)) _ mine r'.file r'.name
          r'.version r'.profile p' old eq.symm
        have once := (List.pairwise_cons.mp (h.reusedOnce.sublist sub)).1 r' later key.symm
        simp [once] at mine
      · exact asciiLowercase_ne (L := L) fun eq => fresh (eq ▸ known)
    · exact asciiLowercase_ne (L := L) fun eq => fresh (eq ▸ Finset.mem_insert_self _ _)

end Separable

variable {γ : Type*} (out : ArtifactOutput γ α) (contracts : VersionedContracts γ)
  (sources : VersionedSourceFiles) (primaryProfiles : ExtTreeMap PathBuf String)

/-- The written artifacts are the placed requests when the paths these have are absolute: joining
them with the folder changes nothing. -/
theorem filesOf_onOutput (absolute : folder.isAbsolute = true)
    (cachedAbsolute : ∀ path ∈ ctx.paths, path.isAbsolute = true)
    (never : NeverNumbered L ctx folder (ctx.paths.map (takenKey L)).toFinset
      (out.requests contracts sources primaryProfiles)) (file : PathBuf) (name : String) :
    (out.onOutput L contracts sources ctx folder primaryProfiles).filesOf file name =
      ((placed L ctx folder (ctx.paths.map (takenKey L)).toFinset
        (out.requests contracts sources primaryProfiles)).filter fun x =>
          x.1.file = file ∧ x.1.name = name).map toFile := by
  rw [onOutput, Artifacts.filesOf_joinAll, outputToArtifacts, filesOf_foldl_assign,
    Artifacts.filesOf_empty, List.nil_append, List.map_map]
  refine List.map_congr_left fun ⟨r, p⟩ mem => ?_
  have absolute : p.isAbsolute = true := by
    obtain ⟨-, old | ⟨-, -, _, listed⟩⟩ := placed_cases never (List.mem_of_mem_filter mem)
    · exact cachedAbsolute p (OutputContext.mem_paths old)
    · exact isAbsolute_of_mem_candidates absolute listed
  simp [toFile, PathBuf.join_of_isAbsolute absolute]

section Files

variable {artifacts : Artifacts α} {xs : List (Request α × PathBuf)}
  (files : ∀ file name, artifacts.filesOf file name =
    (xs.filter fun x => x.1.file = file ∧ x.1.name = name).map toFile)

include files

theorem mem_filesOf_iff {file : PathBuf} {name : String} {a : ArtifactFile α} :
    a ∈ artifacts.filesOf file name ↔
      ∃ x ∈ xs, x.1.file = file ∧ x.1.name = name ∧ toFile x = a := by
  simp [files, and_assoc]

theorem forall_inside_iff :
    (∀ file name, ∀ a ∈ artifacts.filesOf file name, a.file.Inside folder) ↔
      ∀ r p, (r, p) ∈ xs → p.Inside folder := by
  constructor
  · intro inside r p mem
    exact inside r.file r.name (toFile (r, p))
      ((mem_filesOf_iff files).mpr ⟨_, mem, rfl, rfl, rfl⟩)
  · intro inside file name a mem
    obtain ⟨x, listed, -, -, rfl⟩ := (mem_filesOf_iff files).mp mem
    exact inside x.1 x.2 listed

/-- Artifacts of one contract and of different ones have different paths when the placed requests
have. -/
theorem pairwise_iff :
    ((∀ file name, (artifacts.filesOf file name).Pairwise fun a b =>
        a.file.asciiLowercase ≠ b.file.asciiLowercase) ∧
      ∀ file name file' name', (file, name) ≠ (file', name') →
        ∀ a ∈ artifacts.filesOf file name, ∀ b ∈ artifacts.filesOf file' name',
          a.file.asciiLowercase ≠ b.file.asciiLowercase) ↔
    xs.Pairwise fun x y => x.2.asciiLowercase ≠ y.2.asciiLowercase := by
  constructor
  · rintro ⟨versions, contracts⟩
    refine List.pairwise_iff_forall_sublist.mpr fun {x y} sub => ?_
    have memX : x ∈ xs := sub.subset (by simp)
    have memY : y ∈ xs := sub.subset (by simp)
    by_cases same : (x.1.file, x.1.name) = (y.1.file, y.1.name)
    · obtain ⟨file, name⟩ := Prod.mk.inj same
      have apart := versions x.1.file x.1.name
      rw [files, List.pairwise_map] at apart
      refine List.pairwise_iff_forall_sublist.mp apart ?_
      have := sub.filter fun z => decide (z.1.file = x.1.file ∧ z.1.name = x.1.name)
      simpa [file, name] using this
    · exact contracts _ _ _ _ same _ ((mem_filesOf_iff files).mpr ⟨x, memX, rfl, rfl, rfl⟩) _
        ((mem_filesOf_iff files).mpr ⟨y, memY, rfl, rfl, rfl⟩)
  · intro apart
    refine ⟨fun file name => ?_, fun file name file' name' ne a mem b mem' => ?_⟩
    · rw [files]
      exact (apart.filter _).map _ fun x y ne => ne
    · obtain ⟨x, listed, rfl, rfl, rfl⟩ := (mem_filesOf_iff files).mp mem
      obtain ⟨y, listed', rfl, rfl, rfl⟩ := (mem_filesOf_iff files).mp mem'
      have distinct : x ≠ y := by
        rintro rfl
        exact ne rfl
      have : Std.Symm fun x y : Request α × PathBuf =>
        x.2.asciiLowercase ≠ y.2.asciiLowercase := ⟨fun _ _ => Ne.symm⟩
      exact apart.forall listed listed' distinct

end Files

/-- The artifacts of an output are kept apart when every request finds room in the folder and the
existing paths it reuses are apart, and where no request numbers its folder only then. -/
theorem onOutput_separated (absolute : folder.isAbsolute = true)
    (cachedAbsolute : ∀ path ∈ ctx.paths, path.isAbsolute = true) :
    (Separable L ctx folder (out.requests contracts sources primaryProfiles) →
      Separated ctx folder (out.onOutput L contracts sources ctx folder primaryProfiles)) ∧
    (NeverNumbered L ctx folder (ctx.paths.map (takenKey L)).toFinset
        (out.requests contracts sources primaryProfiles) →
      Separated ctx folder (out.onOutput L contracts sources ctx folder primaryProfiles) →
      Separable L ctx folder (out.requests contracts sources primaryProfiles)) := by
  constructor
  · intro h
    have files := filesOf_onOutput out contracts sources primaryProfiles absolute cachedAbsolute
      h.housed.neverNumbered
    obtain ⟨versions, between⟩ := (pairwise_iff files).mpr h.placed_pairwise
    refine ⟨(forall_inside_iff files).mpr fun r p mem => h.placed_inside absolute mem, versions,
      between, fun file name version profile path cached absent file' name' a mem => ?_⟩
    obtain ⟨x, listed, rfl, rfl, rfl⟩ := (mem_filesOf_iff files).mp mem
    refine h.placed_cached listed cached fun same => ?_
    obtain ⟨rfl, rfl, rfl, rfl⟩ := by simpa [Request.key] using same
    exact absent (toFile x) ((mem_filesOf_iff files).mpr ⟨x, listed, rfl, rfl, rfl⟩) ⟨rfl, rfl⟩
  · intro never h
    have files := filesOf_onOutput out contracts sources primaryProfiles absolute cachedAbsolute
      never
    have inside := (forall_inside_iff files).mp h.inside
    have apart := (pairwise_iff files).mp ⟨h.versions, h.contracts⟩
    have reused : ∀ r ∈ out.requests contracts sources primaryProfiles, ∀ path,
        ctx.existing r = some path → (r, path) ∈ placed L ctx folder
          (ctx.paths.map (takenKey L)).toFinset (out.requests contracts sources primaryProfiles) :=
      fun _ mem _ old => placed_existing mem old
    refine ⟨fun r mem path old => inside r path (reused r mem path old), ?_, ?_,
      (housed_iff absolute never).mpr fun r p mem _ => inside r p mem⟩
    · intro r mem path old file name version profile path' cached same
      by_contra other
      have placedHere := reused r mem path old
      -- the other cached artifact is either written again, or it loses its path
      by_cases again : ∃ a ∈ (out.onOutput L contracts sources ctx folder primaryProfiles).filesOf
          file name, a.version = version ∧ a.profile = profile
      · obtain ⟨a, listed, rfl, rfl⟩ := again
        obtain ⟨⟨r', p'⟩, there, rfl, rfl, rfl⟩ := (mem_filesOf_iff files).mp listed
        obtain ⟨listed', -⟩ := placed_cases never there
        have known : ctx.existing r' = some path' := cached
        have : Std.Symm fun x y : Request α × PathBuf =>
          x.2.asciiLowercase ≠ y.2.asciiLowercase := ⟨fun _ _ => Ne.symm⟩
        refine apart.forall (reused r' listed' path' known) placedHere ?_ same
        intro eq
        obtain ⟨rfl, -⟩ := Prod.mk.inj eq
        exact other rfl
      · refine h.cached file name version profile path' cached
          (fun a mem both => again ⟨a, mem, both⟩) r.file r.name (toFile (r, path))
          ((mem_filesOf_iff files).mpr ⟨_, placedHere, rfl, rfl, rfl⟩) same.symm
    · have once : (placed L ctx folder (ctx.paths.map (takenKey L)).toFinset
          (out.requests contracts sources primaryProfiles)).Pairwise fun x y =>
          x.1.key = y.1.key → ctx.existing x.1 = none := by
        refine apart.imp_of_mem fun {x y} memX memY ne key => ?_
        by_contra known
        obtain ⟨path, old⟩ := Option.ne_none_iff_exists'.mp known
        have old' : ctx.existing y.1 = some path := by
          rw [← old]
          exact existing_congr key.symm
        have eqX := placed_path memX old
        have eqY := placed_path memY old'
        exact ne (by rw [eqX, eqY])
      have mapped := List.Pairwise.map (S := fun r r' : Request α =>
        r.key = r'.key → ctx.existing r = none) Prod.fst (fun _ _ new => new) once
      rwa [placed_map_fst] at mapped

end Separation

/-! ## Where the folder is numbered -/

/-- A file with contracts whose names differ only in case. -/
def variants (file : PathBuf) (names : List String) : VersionedContracts Unit :=
  let contract : VersionedContract Unit := ⟨(), ⟨0, 8, 30, "", ""⟩, "b", "default"⟩
  ExtTreeMap.empty.insert file (ExtTreeMap.ofList (names.map fun name => (name, [contract])))

/-- The request of such a contract. -/
def variantRequest (file : PathBuf) (name : String) : Request Unit where
  file := file
  name := name
  version := ⟨0, 8, 30, "", ""⟩
  profile := "default"
  buildId := "b"
  withVersion := false
  withProfile := false
  artifact := ()

/-- Artifacts without content. -/
def unitOutput : ArtifactOutput Unit Unit where
  contractToArtifact _ _ _ _ := ()
  standaloneSourceFileToArtifact _ _ := none
  isDirty _ := false

theorem onOutput_separated_variants :
    Separated {} (.abs ["out"])
      (unitOutput.onOutput .ofAscii (variants (.abs ["p", "A.sol"]) ["Foo", "foo"]) ∅ {}
        (.abs ["out"]) ∅) := by
  have new : ∀ r : Request Unit, OutputContext.existing {} r = none := fun r => by
    simp [OutputContext.existing, OutputContext.existingArtifact]
  have requests : unitOutput.requests (variants (.abs ["p", "A.sol"]) ["Foo", "foo"]) ∅ ∅ =
      [variantRequest (.abs ["p", "A.sol"]) "Foo", variantRequest (.abs ["p", "A.sol"]) "foo"] := by
    decide +kernel
  have plain : ∀ name ∈ ["Foo", "foo"],
      (variantRequest (.abs ["p", "A.sol"]) name).Plain := by
    unfold Request.Plain
    decide +kernel
  refine (onOutput_separated unitOutput (variants (.abs ["p", "A.sol"]) ["Foo", "foo"]) ∅ ∅
    (by decide) (by simp [OutputContext.paths])).1
    ⟨by simp [new], by simp [new], List.pairwise_of_forall fun _ _ _ => new _, ?_⟩
  have empty : ((OutputContext.paths {}).map (takenKey .ofAscii)).toFinset = ∅ := by
    decide +kernel
  rw [requests, empty]
  refine housed_cons (p := .abs ["out", "A.sol", "Foo.json"])
    (t := "/out/a.sol/foo.json") (by decide +kernel) (by decide +kernel) (by decide)
    (plain _ (by simp)) (.inl ?_) ?_
  · exact Finset.notMem_empty _
  refine housed_cons (p := .abs ["out", "p", "A.sol", "foo.json"])
    (t := "/out/p/a.sol/foo.json") (by decide +kernel) (by decide +kernel) (by decide)
    (plain _ (by simp)) (.inr ?_) trivial
  decide +kernel

/-- What the cache keeps when `/p/A.sol` with three such contracts was compiled alone. -/
def variantsContext : OutputContext where
  existingArtifacts := ExtTreeMap.empty.insert (.abs ["p", "A.sol"]) (ExtTreeMap.ofList
    ([("Foo", ["out", "A.sol", "Foo.json"]), ("fOO", ["out", "p", "A.sol", "fOO.json"]),
      ("foo", ["out", "A.sol_1", "foo.json"])].map fun (name, path) =>
        (name, ExtTreeMap.empty.insert (Version.mk 0 8 30 "" "")
          (ExtTreeMap.empty.insert "default" (CachedArtifact.mk (.abs path) "b")))))

/-- A second file of that name is compiled next, and numbers its folder as the first one did. -/
theorem variants_not_separated :
    ¬ Separated variantsContext (.abs ["out"])
      (unitOutput.onOutput .ofAscii (variants (.abs ["p", "q", "A.sol"]) ["Foo", "fOO", "foo"]) ∅
        variantsContext (.abs ["out"]) ∅) := by
  have cached : variantsContext.existingArtifact (.abs ["p", "A.sol"]) "foo" ⟨0, 8, 30, "", ""⟩
      "default" = some (.abs ["out", "A.sol_1", "foo.json"]) := by decide +kernel
  have requests : unitOutput.requests (variants (.abs ["p", "q", "A.sol"]) ["Foo", "fOO", "foo"])
      ∅ ∅ = ["Foo", "fOO", "foo"].map (variantRequest (.abs ["p", "q", "A.sol"])) := by
    decide +kernel
  have taken : (variantsContext.paths.map (takenKey .ofAscii)).toFinset =
      {"/out/a.sol/foo.json", "/out/p/a.sol/foo.json", "/out/a.sol_1/foo.json"} := by
    decide +kernel
  have files : ∀ file name, (unitOutput.onOutput .ofAscii
      (variants (.abs ["p", "q", "A.sol"]) ["Foo", "fOO", "foo"]) ∅ variantsContext (.abs ["out"])
        ∅).filesOf file name =
      (([("Foo", PathBuf.abs ["out", "q", "A.sol", "Foo.json"]),
        ("fOO", .abs ["out", "p", "q", "A.sol", "fOO.json"]),
        ("foo", .rel ["A.sol_1", "foo.json"])].map
        fun x => (variantRequest (.abs ["p", "q", "A.sol"]) x.1, x.2)).filter fun x =>
          x.1.file = file ∧ x.1.name = name).map fun x =>
            { toFile x with file := PathBuf.join (.abs ["out"]) x.2 } := by
    intro file name
    rw [onOutput, Artifacts.filesOf_joinAll, outputToArtifacts, filesOf_foldl_assign,
      Artifacts.filesOf_empty, List.nil_append, List.map_map, requests, taken]
    rw [List.map_cons, placed_cons (p := .abs ["out", "q", "A.sol", "Foo.json"])
      (t := "/out/q/a.sol/foo.json") (by decide +kernel) (by decide +kernel)]
    rw [List.map_cons, placed_cons (p := .abs ["out", "p", "q", "A.sol", "fOO.json"])
      (t := "/out/p/q/a.sol/foo.json") (by decide +kernel) (by decide +kernel)]
    rw [List.map_cons, placed_cons (p := .rel ["A.sol_1", "foo.json"])
      (t := "a.sol_1/foo.json") (by decide +kernel) (by decide +kernel)]
    rfl
  intro h
  refine h.cached _ _ _ _ _ cached (fun a mem => ?_) (.abs ["p", "q", "A.sol"]) "foo"
    ⟨(), .abs ["out", "A.sol_1", "foo.json"], ⟨0, 8, 30, "", ""⟩, "b", "default"⟩ ?_ rfl
  · rw [files] at mem
    exact absurd mem (by simp [variantRequest, PathBuf.abs])
  · rw [files]
    decide +kernel

end ArtifactOutput

end FoundryCore
