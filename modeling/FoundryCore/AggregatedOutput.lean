import FoundryCore.Cache.Inner

/-!
# The output of several compiler runs

The outputs of all compiler runs are merged into one map of contracts and one of sources. A
contract is joined with its source again when it becomes an artifact, by file and version; the
run it came from may have used another profile of that version.
-/

open Std

namespace FoundryCore

/-- The output of one compiler invocation; `ε` are the errors of the compiler. -/
structure CompilerOutput (γ ε : Type) where
  errors : List ε := []
  contracts : ExtTreeMap PathBuf (ExtTreeMap String γ) := ∅
  sources : ExtTreeMap PathBuf SourceFile := ∅

/-- The merged output of all compiler invocations. -/
structure AggregatedCompilerOutput (γ ε β : Type) where
  errors : List ε := []
  sources : VersionedSourceFiles := ∅
  contracts : VersionedContracts γ := ∅
  buildInfos : List (RawBuildInfo β) := []

/-- A compiler invocation with its output. -/
structure CompilerRun (γ ε β : Type) where
  version : Version
  buildInfo : RawBuildInfo β
  profile : String
  output : CompilerOutput γ ε

variable {γ ε β α : Type}

namespace CompilerRun

variable (run : CompilerRun γ ε β)

def versionedSource (sourceFile : SourceFile) : VersionedSourceFile :=
  { sourceFile, version := run.version, buildId := run.buildInfo.id, profile := run.profile }

def versionedContract (contract : γ) : VersionedContract γ :=
  { contract, version := run.version, buildId := run.buildInfo.id, profile := run.profile }

/-- The contract with the given file and name. -/
def contract? (file : PathBuf) (name : String) : Option γ :=
  run.output.contracts[file]?.bind (·[name]?)

end CompilerRun

namespace AggregatedCompilerOutput

/-- Adds the sources of a run. -/
def extendSources (run : CompilerRun γ ε β) (sources : VersionedSourceFiles) :
    VersionedSourceFiles :=
  run.output.sources.toList.foldl (fun sources (path, sourceFile) =>
    sources.insert path (sources[path]?.getD [] ++ [run.versionedSource sourceFile])) sources

/-- Adds the contracts that a run found in one file. -/
def extendFile (run : CompilerRun γ ε β) (newContracts : ExtTreeMap String γ)
    (contracts : ExtTreeMap String (List (VersionedContract γ))) :
    ExtTreeMap String (List (VersionedContract γ)) :=
  newContracts.toList.foldl (fun contracts (name, contract) =>
    contracts.insert name (contracts[name]?.getD [] ++ [run.versionedContract contract])) contracts

/-- Adds the contracts of a run. -/
def extendContracts (run : CompilerRun γ ε β) (contracts : VersionedContracts γ) :
    VersionedContracts γ :=
  run.output.contracts.toList.foldl (fun contracts (file, newContracts) =>
    contracts.insert file (extendFile run newContracts (contracts[file]?.getD ∅))) contracts

/-- Adds a new compiler output to the aggregated output. -/
def extend (output : AggregatedCompilerOutput γ ε β) (run : CompilerRun γ ε β) :
    AggregatedCompilerOutput γ ε β where
  errors := output.errors ++ run.output.errors
  sources := extendSources run output.sources
  contracts := extendContracts run output.contracts
  buildInfos := output.buildInfos ++ [run.buildInfo]

/-- The output of the given runs. -/
def ofRuns (runs : List (CompilerRun γ ε β)) : AggregatedCompilerOutput γ ε β :=
  runs.foldl extend {}

/-- The versions of a source file. -/
def sourcesOf (output : AggregatedCompilerOutput γ ε β) (file : PathBuf) :
    List VersionedSourceFile :=
  output.sources[file]?.getD []

/-- The versions of a contract. -/
def contractsOf (contracts : VersionedContracts γ) (file : PathBuf) (name : String) :
    List (VersionedContract γ) :=
  (contracts[file]?.bind (·[name]?)).getD []

/-! ## What the runs leave in the maps -/

theorem sourcesOf_extend (output : AggregatedCompilerOutput γ ε β) (run : CompilerRun γ ε β)
    (file : PathBuf) :
    (output.extend run).sourcesOf file =
      output.sourcesOf file ++ (run.output.sources[file]?.map run.versionedSource).toList := by
  simp only [sourcesOf, extend, extendSources]
  rw [Library.getElem?_foldl_update fun sourceFile old =>
    old.getD [] ++ [run.versionedSource sourceFile]]
  cases run.output.sources[file]? <;> simp

theorem contractsOf_extend (output : AggregatedCompilerOutput γ ε β) (run : CompilerRun γ ε β)
    (file : PathBuf) (name : String) :
    contractsOf (output.extend run).contracts file name =
      contractsOf output.contracts file name ++
        ((run.contract? file name).map run.versionedContract).toList := by
  simp only [contractsOf, extend, extendContracts, CompilerRun.contract?]
  rw [Library.getElem?_foldl_update fun newContracts old =>
    extendFile run newContracts (old.getD ∅)]
  cases run.output.contracts[file]? with
  | none => simp
  | some newContracts =>
    simp only [Option.map_some, Option.some_or, Option.bind_some, extendFile]
    rw [Library.getElem?_foldl_update fun contract old =>
      old.getD [] ++ [run.versionedContract contract]]
    cases output.contracts[file]? <;> cases newContracts[name]? <;> simp

theorem sourcesOf_ofRuns (runs : List (CompilerRun γ ε β)) (file : PathBuf) :
    (ofRuns runs).sourcesOf file =
      runs.filterMap fun run => run.output.sources[file]?.map run.versionedSource := by
  suffices ∀ output : AggregatedCompilerOutput γ ε β, (runs.foldl extend output).sourcesOf file =
      output.sourcesOf file ++
        runs.filterMap fun run => run.output.sources[file]?.map run.versionedSource by
    simpa [sourcesOf, ofRuns] using this {}
  intro output
  induction runs generalizing output with
  | nil => simp
  | cons run runs ih =>
    rw [List.foldl_cons, ih, sourcesOf_extend, List.append_assoc]
    cases source : run.output.sources[file]? <;> simp [source]

theorem contractsOf_ofRuns (runs : List (CompilerRun γ ε β)) (file : PathBuf) (name : String) :
    contractsOf (ofRuns runs).contracts file name =
      runs.filterMap fun run => (run.contract? file name).map run.versionedContract := by
  suffices ∀ output : AggregatedCompilerOutput γ ε β,
      contractsOf (runs.foldl extend output).contracts file name =
        contractsOf output.contracts file name ++
          runs.filterMap fun run => (run.contract? file name).map run.versionedContract by
    simpa [contractsOf, ofRuns] using this {}
  intro output
  induction runs generalizing output with
  | nil => simp
  | cons run runs ih =>
    rw [List.foldl_cons, ih, contractsOf_extend, List.append_assoc]
    cases contract : run.contract? file name <;> simp [contract]

/-- The source file that a contract is joined with: that of the first run of the version. -/
def firstSource (runs : List (CompilerRun γ ε β)) (file : PathBuf) (version : Version) :
    Option SourceFile :=
  runs.findSome? fun run => if run.version = version then run.output.sources[file]? else none

theorem findFileAndVersion_ofRuns (runs : List (CompilerRun γ ε β)) (file : PathBuf)
    (version : Version) :
    (ofRuns runs).sources.findFileAndVersion file version = firstSource runs file version := by
  have sources := sourcesOf_ofRuns runs file
  rw [sourcesOf] at sources
  rw [VersionedSourceFiles.findFileAndVersion, sources, ← List.head?_filterMap,
    List.filterMap_filterMap, List.head?_filterMap]
  refine congrArg (List.findSome? · runs) (funext fun run => ?_)
  cases run.output.sources[file]? <;> simp [CompilerRun.versionedSource]

end AggregatedCompilerOutput

/-! ## The artifacts of a contract -/

namespace ArtifactOutput

variable {L : Lowercase} {ctx : OutputContext} {folder : PathBuf}

theorem map_fst_placed (taken : Finset String) (rs : List (Request α)) :
    (placed L ctx folder taken rs).map Prod.fst = rs := by
  induction rs generalizing taken with
  | nil => rfl
  | cons r rs ih => rw [placed, List.map_cons, ih]

/-- Only one index contributes to what passes the test. -/
theorem filter_flatMap_of_unique {ι κ : Type*} {l : List ι} (distinct : l.Nodup) {f : ι → List κ}
    {p : κ → Bool} {i : ι} (mem : i ∈ l) (other : ∀ j ∈ l, j ≠ i → ∀ x ∈ f j, ¬ p x) :
    (l.flatMap f).filter p = (f i).filter p := by
  obtain ⟨before, after, rfl⟩ := List.append_of_mem mem
  have rest : ∀ l' : List ι, (∀ j ∈ l', j ∈ before ++ i :: after ∧ j ≠ i) →
      (l'.flatMap f).filter p = [] := by
    intro l' inside
    refine List.filter_eq_nil_iff.mpr fun x listed => ?_
    obtain ⟨j, here, listed⟩ := List.mem_flatMap.mp listed
    exact other j (inside j here).1 (inside j here).2 x listed
  rw [List.flatMap_append, List.flatMap_cons, List.filter_append, List.filter_append,
    rest before fun j here => ⟨by simp [here], by rintro rfl; grind⟩,
    rest after fun j here => ⟨by simp [here], by rintro rfl; grind⟩]
  simp

/-- What an artifact is made of, and the compiler run it is ascribed to. -/
abbrev Content (α : Type) := α × Version × String × String

def content (a : ArtifactFile α) : Content α := (a.artifact, a.version, a.profile, a.buildId)

def Request.content (r : Request α) : Content α := (r.artifact, r.version, r.profile, r.buildId)

/-- The requests of a contract, in the order of its versions. -/
theorem content_contractRequests (out : ArtifactOutput γ α) (contracts : VersionedContracts γ)
    (sources : VersionedSourceFiles) (primaryProfiles : ExtTreeMap PathBuf String)
    (file : PathBuf) (name : String) :
    ((out.contractRequests contracts sources primaryProfiles).filter fun r =>
        r.file = file ∧ r.name = name).map Request.content =
      (AggregatedCompilerOutput.contractsOf contracts file name).map fun c =>
        (out.contractToArtifact file name c.contract (sources.findFileAndVersion file c.version),
          c.version, c.profile, c.buildId) := by
  have distinct : (sortedFiles contracts).Nodup :=
    (List.perm_insertionSort _ _).nodup_iff.mpr ExtTreeMap.nodup_keys
  have listed : file ∈ sortedFiles contracts ↔ file ∈ contracts := by
    rw [sortedFiles, (List.perm_insertionSort _ _).mem_iff, ExtTreeMap.mem_keys]
  unfold contractRequests AggregatedCompilerOutput.contractsOf
  cases found : contracts[file]? with
  | none =>
    rw [List.filter_eq_nil_iff.mpr]
    · rfl
    · intro r mem
      simp only [List.mem_flatMap, List.mem_map] at mem
      obtain ⟨file', listed', _, -, _, -, rfl⟩ := mem
      have : file' ≠ file := by
        rintro rfl
        simp [listed.mp listed'] at found
      simp [this]
  | some names =>
    rw [filter_flatMap_of_unique distinct (i := file)
      (listed.mpr (ExtTreeMap.mem_iff_isSome_getElem?.mpr (Option.isSome_of_eq_some found)))]
    · simp only [found, Option.getD_some, Option.bind_some]
      cases found' : names[name]? with
      | none =>
        rw [List.filter_eq_nil_iff.mpr]
        · rfl
        · intro r mem
          simp only [List.mem_flatMap, List.mem_map] at mem
          obtain ⟨⟨name', versioned⟩, entry, _, -, rfl⟩ := mem
          rw [ExtTreeMap.mem_toList_iff_getElem?_eq_some] at entry
          have : name' ≠ name := by grind
          simp [this]
      | some versioned =>
        rw [filter_flatMap_of_unique (i := (name, versioned)), List.filter_eq_self.mpr]
        · simp [Function.comp_def, Request.content]
        · simp
        · refine .of_map Prod.fst ?_
          rw [ExtTreeMap.map_fst_toList_eq_keys]
          exact ExtTreeMap.nodup_keys
        · exact ExtTreeMap.mem_toList_iff_getElem?_eq_some.mpr found'
        · rintro ⟨name', versioned'⟩ entry ne r mem
          obtain ⟨_, -, rfl⟩ := List.mem_map.mp mem
          rw [ExtTreeMap.mem_toList_iff_getElem?_eq_some] at entry
          have : name' ≠ name := by grind
          simp [this]
    · intro other _ ne r mem
      simp only [List.mem_flatMap, List.mem_map] at mem
      obtain ⟨_, -, _, -, rfl⟩ := mem
      simp [ne]

/-- The artifacts of a file with contracts are those of its contracts. -/
theorem content_outputToArtifacts (out : ArtifactOutput γ α) (contracts : VersionedContracts γ)
    (sources : VersionedSourceFiles) (primaryProfiles : ExtTreeMap PathBuf String)
    {file : PathBuf} (found : ∃ name, AggregatedCompilerOutput.contractsOf contracts file name ≠ [])
    (name : String) :
    ((out.outputToArtifacts L contracts sources ctx folder primaryProfiles).filesOf file name).map
        content =
      (AggregatedCompilerOutput.contractsOf contracts file name).map fun c =>
        (out.contractToArtifact file name c.contract (sources.findFileAndVersion file c.version),
          c.version, c.profile, c.buildId) := by
  have nonStandalone :
      file ∈ (out.contractRequests contracts sources primaryProfiles).map Request.file := by
    obtain ⟨name', someEq⟩ := found
    have contents := content_contractRequests out contracts sources primaryProfiles file name'
    have requested : (out.contractRequests contracts sources primaryProfiles).filter
        (fun r => r.file = file ∧ r.name = name') ≠ [] := by
      intro none
      rw [none] at contents
      exact someEq (by simpa using contents.symm)
    obtain ⟨r, mem⟩ := List.exists_mem_of_ne_nil _ requested
    obtain ⟨mem, same⟩ := List.mem_filter.mp mem
    exact List.mem_map.mpr ⟨r, mem, by simpa using (of_decide_eq_true same).1⟩
  have standalone : (out.standaloneRequests sources
      ((out.contractRequests contracts sources primaryProfiles).map Request.file)).filter
        (fun r => r.file = file ∧ r.name = name) = [] := by
    refine List.filter_eq_nil_iff.mpr fun r mem => ?_
    obtain ⟨⟨file', versioned⟩, -, mem⟩ := List.mem_flatMap.mp mem
    obtain ⟨source, -, eq⟩ := List.mem_filterMap.mp mem
    have away : file' ≠ file := by
      rintro rfl
      simp [nonStandalone] at eq
    have : r.file = file' := by grind
    simp [this, away]
  rw [← content_contractRequests out contracts sources primaryProfiles file name,
    outputToArtifacts, filesOf_foldl_assign, Artifacts.filesOf_empty, List.nil_append, List.map_map]
  have requests : ((placed L ctx folder (ctx.paths.map (takenKey L)).toFinset
      (out.requests contracts sources primaryProfiles)).filter fun x =>
        x.1.file = file ∧ x.1.name = name).map Prod.fst =
      (out.contractRequests contracts sources primaryProfiles).filter fun r =>
        r.file = file ∧ r.name = name := by
    have := List.filter_map (f := Prod.fst)
      (p := fun r : Request α => r.file = file ∧ r.name = name)
      (l := placed L ctx folder (ctx.paths.map (takenKey L)).toFinset
        (out.requests contracts sources primaryProfiles))
    rw [map_fst_placed, requests, List.filter_append, standalone, List.append_nil] at this
    exact this.symm
  rw [← requests, List.map_map]
  rfl

end ArtifactOutput

/-! ## Contracts with their sources -/

namespace AggregatedCompilerOutput

/-- Each contract of a run is converted along with the source file of its own run. -/
def JoinedByRun (out : ArtifactOutput γ α) (runs : List (CompilerRun γ ε β))
    (artifacts : Artifacts α) : Prop :=
  ∀ file, (∃ run ∈ runs, ∃ name, (run.contract? file name).isSome) → ∀ name,
    (artifacts.filesOf file name).map ArtifactOutput.content = runs.filterMap fun run =>
      (run.contract? file name).map fun contract =>
        (out.contractToArtifact file name contract run.output.sources[file]?,
          run.version, run.profile, run.buildInfo.id)

/-- The handler that keeps what it is given. -/
def keepGiven : ArtifactOutput γ (γ × Option SourceFile) where
  contractToArtifact _ _ contract sourceFile := (contract, sourceFile)
  standaloneSourceFileToArtifact _ _ := none
  isDirty _ := false

theorem filterMap_map_inj {κ ι : Type*} {l : List κ} {o : κ → Option γ} {f g : κ → γ → ι} :
    (l.filterMap fun x => (o x).map (f x)) = (l.filterMap fun x => (o x).map (g x)) ↔
      ∀ x ∈ l, ∀ c, o x = some c → f x c = g x c := by
  induction l with
  | nil => simp
  | cons x l ih => cases someEq : o x <;> simp [someEq, ih]

/-- Whatever the handler, contracts are joined with the sources of their own runs exactly if the
first run of a version that has a file with contracts has the same source for it as the others. -/
theorem outputToArtifacts_joined_iff (L : Lowercase) (ctx : ArtifactOutput.OutputContext)
    (folder : PathBuf) (primaryProfiles : ExtTreeMap PathBuf String)
    (runs : List (CompilerRun γ ε β)) :
    (∀ (α : Type) (out : ArtifactOutput γ α), JoinedByRun out runs (out.outputToArtifacts L
        (ofRuns runs).contracts (ofRuns runs).sources ctx folder primaryProfiles)) ↔
      ∀ run ∈ runs, ∀ file, (∃ name, (run.contract? file name).isSome) →
        firstSource runs file run.version = run.output.sources[file]? := by
  have contents : ∀ {α : Type} (out : ArtifactOutput γ α) (file : PathBuf),
      (∃ run ∈ runs, ∃ name, (run.contract? file name).isSome) → ∀ name,
      ((out.outputToArtifacts L (ofRuns runs).contracts (ofRuns runs).sources ctx folder
          primaryProfiles).filesOf file name).map ArtifactOutput.content =
        runs.filterMap fun run => (run.contract? file name).map fun contract =>
          (out.contractToArtifact file name contract (firstSource runs file run.version),
            run.version, run.profile, run.buildInfo.id) := by
    rintro α out file ⟨run, mem, name', someEq⟩ name
    rw [ArtifactOutput.content_outputToArtifacts out _ _ _ ⟨name', ?_⟩, contractsOf_ofRuns,
      List.map_filterMap]
    · simp [findFileAndVersion_ofRuns, CompilerRun.versionedContract, Function.comp_def]
    · obtain ⟨contract, eq⟩ := Option.isSome_iff_exists.mp someEq
      rw [contractsOf_ofRuns]
      exact List.ne_nil_of_mem (List.mem_filterMap.mpr ⟨run, mem, by rw [eq]; rfl⟩)
  constructor
  · rintro joined run mem file ⟨name, someEq⟩
    have found : ∃ run ∈ runs, ∃ name, (run.contract? file name).isSome := ⟨run, mem, name, someEq⟩
    obtain ⟨contract, eq⟩ := Option.isSome_iff_exists.mp someEq
    have same :=
      (contents keepGiven file found name).symm.trans (joined _ keepGiven file found name)
    have pair := filterMap_map_inj.mp same run mem contract eq
    exact (Prod.mk.inj (Prod.mk.inj pair).1).2
  · intro same α out file found name
    rw [contents out file found name, filterMap_map_inj]
    intro run mem contract eq
    rw [same run mem file ⟨name, by rw [eq]; rfl⟩]

/-- A run that compiles one contract, whose source gets the given id. -/
def oneContract (profile buildId : String) (id : Nat) : CompilerRun Unit Unit Unit where
  version := ⟨0, 8, 30, "", ""⟩
  buildInfo := ⟨buildId, ()⟩
  profile
  output := {
    contracts := ExtTreeMap.empty.insert (.abs ["p", "A.sol"]) (ExtTreeMap.empty.insert "A" ())
    sources := ExtTreeMap.empty.insert (.abs ["p", "A.sol"]) ⟨id, none⟩ }

/-- The file has another id in the second profile, whose contract gets the source of the first. -/
theorem outputToArtifacts_not_joined :
    let runs := [oneContract "default" "a" 0, oneContract "other" "b" 1]
    ¬ JoinedByRun keepGiven runs (keepGiven.outputToArtifacts .ofAscii (ofRuns runs).contracts
      (ofRuns runs).sources {} (.abs ["p", "out"]) ∅) := by
  intro runs joined
  have artifacts := joined (.abs ["p", "A.sol"])
    ⟨oneContract "default" "a" 0, by simp [runs], "A", by decide +kernel⟩ "A"
  exact absurd artifacts (by decide +kernel)

end AggregatedCompilerOutput

end FoundryCore
