import FoundryCore.AggregatedOutput
import FoundryCore.BlockExplorers.SourceTree
import FoundryCore.Bytecode.AllReferences
import FoundryCore.Library.Writes

/-!
# Configurable artifacts

A configuration says what of the compiler's output goes into the artifact of a contract and what is
written to files beside it. The files of an artifact that comes from the cache are written from the
artifact, which another configuration may have made.
-/

open Std

namespace FoundryCore

open Library

open Linking (Bytes BytecodeObject CompactBytecode LinkReferences Offsets utf8)

/-! ## The output of the compiler -/

variable {ν : Type}

/-- Bytecode with all that the compiler tells about it; `ν` are values that are written as JSON. -/
structure BytecodeOutput (ν : Type) extends Linking.Bytecode where
  functionDebugData : ExtTreeMap String ν := ∅
  opcodes : Option String := none
  generatedSources : List ν := []

def BytecodeOutput.compact (code : BytecodeOutput ν) : CompactBytecode :=
  { object := code.object, sourceMap := code.sourceMap, linkReferences := code.linkReferences }

structure DeployedBytecodeOutput (ν : Type) where
  bytecode : Option (BytecodeOutput ν)
  immutableReferences : ExtTreeMap String (List Offsets) := ∅

structure CompactDeployedOutput where
  bytecode : Option CompactBytecode
  immutableReferences : ExtTreeMap String (List Offsets) := ∅

def DeployedBytecodeOutput.compact (code : DeployedBytecodeOutput ν) : CompactDeployedOutput :=
  { bytecode := code.bytecode.map BytecodeOutput.compact
    immutableReferences := code.immutableReferences }

structure Evm (ν : Type) where
  assembly : Option String := none
  legacyAssembly : Option ν := none
  bytecode : Option (BytecodeOutput ν) := none
  deployedBytecode : Option (DeployedBytecodeOutput ν) := none
  methodIdentifiers : ExtTreeMap String String := ∅
  gasEstimates : Option ν := none

structure LosslessMetadata (ν : Type) where
  rawMetadata : String
  metadata : ν

/-- A Solidity contract. -/
structure ContractOutput (ν : Type) where
  abi : Option ν
  metadata : Option (LosslessMetadata ν)
  userdoc : ν
  devdoc : ν
  ir : Option String
  storageLayout : ν
  transientStorageLayout : ν
  evm : Option (Evm ν)
  ewasm : Option ν
  irOptimized : Option String
  irOptimizedAst : Option ν

/-! ## Configurations -/

/-- Determines the additional values to include in the contract's artifact file. -/
structure ExtraOutputValues where
  ast : Bool := false
  userdoc : Bool := false
  devdoc : Bool := false
  methodIdentifiers : Bool := false
  storageLayout : Bool := false
  transientStorageLayout : Bool := false
  assembly : Bool := false
  legacyAssembly : Bool := false
  gasEstimates : Bool := false
  metadata : Bool := false
  ir : Bool := false
  irOptimized : Bool := false
  irOptimizedAst : Bool := false
  ewasm : Bool := false
  functionDebugData : Bool := false
  generatedSources : Bool := false
  sourceMap : Bool := false
  opcodes : Bool := false

/-- Determines what to emit as an additional file. -/
structure ExtraOutputFiles where
  abi : Bool := false
  metadata : Bool := false
  ir : Bool := false
  irOptimized : Bool := false
  ewasm : Bool := false
  assembly : Bool := false
  legacyAssembly : Bool := false
  sourceMap : Bool := false
  generatedSources : Bool := false
  bytecode : Bool := false
  deployedBytecode : Bool := false

structure ConfigurableArtifacts where
  additionalValues : ExtraOutputValues := {}
  additionalFiles : ExtraOutputFiles := {}

inductive BytecodeOutputSelection
  | all | functionDebugData | object | opcodes | sourceMap | linkReferences | generatedSources
deriving DecidableEq, Repr

inductive DeployedBytecodeOutputSelection
  | all | functionDebugData | object | opcodes | sourceMap | linkReferences | generatedSources
  | immutableReferences
deriving DecidableEq, Repr

/-- Contract level output selection for `evm`. -/
inductive EvmOutputSelection
  | all | assembly | legacyAssembly | methodIdentifiers | gasEstimates
  | byteCode (selection : BytecodeOutputSelection)
  | deployedByteCode (selection : DeployedBytecodeOutputSelection)
deriving DecidableEq, Repr

inductive EwasmOutputSelection
  | all | wast | wasm
deriving DecidableEq, Repr

/-- Contract level output selection. -/
inductive ContractOutputSelection
  | abi | devDoc | userDoc | metadata | ir | irOptimized | irOptimizedAst | storageLayout
  | transientStorageLayout
  | evm (selection : EvmOutputSelection)
  | ewasm (selection : EwasmOutputSelection)
deriving DecidableEq, Repr

namespace ContractOutputSelection

/-- The basic set of contract level settings that should be included in the contract. -/
def basic : List ContractOutputSelection :=
  [.abi, .evm (.byteCode .object), .evm (.byteCode .sourceMap), .evm (.byteCode .linkReferences),
    .evm (.deployedByteCode .object), .evm (.deployedByteCode .sourceMap),
    .evm (.deployedByteCode .linkReferences), .evm (.deployedByteCode .immutableReferences),
    .evm .methodIdentifiers]

end ContractOutputSelection

/-- The artifact that a configuration makes of a contract. -/
structure ConfigurableContractArtifact (ν : Type) where
  abi : Option ν := none
  bytecode : Option CompactBytecode := none
  deployedBytecode : Option CompactDeployedOutput := none
  assembly : Option String := none
  legacyAssembly : Option ν := none
  opcodes : Option String := none
  methodIdentifiers : Option (ExtTreeMap String String) := none
  generatedSources : List ν := []
  functionDebugData : Option (ExtTreeMap String ν) := none
  gasEstimates : Option ν := none
  rawMetadata : Option String := none
  metadata : Option ν := none
  storageLayout : Option ν := none
  transientStorageLayout : Option ν := none
  userdoc : Option ν := none
  devdoc : Option ν := none
  ir : Option String := none
  irOptimized : Option String := none
  irOptimizedAst : Option ν := none
  ewasm : Option ν := none
  ast : Option Ast := none
  id : Option Nat := none

/-- The creation bytecode `sourceMap` if it was included in the compiler output. -/
def ConfigurableContractArtifact.getSourceMapStr (artifact : ConfigurableContractArtifact ν) :
    Option String :=
  artifact.bytecode.bind (·.sourceMap)

namespace ConfigurableArtifacts

variable (config : ConfigurableArtifacts)

/-- What the configuration asks for beyond the basic settings. -/
def requests : List (Bool × ContractOutputSelection) :=
  let values := config.additionalValues
  let files := config.additionalFiles
  [(values.ir || files.ir, .ir), (values.irOptimized || files.irOptimized, .irOptimized),
    (values.metadata || files.metadata, .metadata), (values.storageLayout, .storageLayout),
    (values.devdoc, .devDoc), (values.userdoc, .userDoc),
    (values.gasEstimates, .evm .gasEstimates),
    (values.assembly || files.assembly, .evm .assembly),
    (values.legacyAssembly || files.legacyAssembly, .evm .legacyAssembly),
    (values.ewasm || files.ewasm, .ewasm .all),
    (values.functionDebugData, .evm (.byteCode .functionDebugData)),
    (values.methodIdentifiers, .evm .methodIdentifiers),
    (values.generatedSources, .evm (.byteCode .generatedSources)),
    (values.sourceMap, .evm (.byteCode .sourceMap)), (values.irOptimizedAst, .irOptimizedAst),
    (values.opcodes, .evm (.byteCode .opcodes)),
    (values.transientStorageLayout, .transientStorageLayout)]

/-- The output selection corresponding to this configuration. -/
def outputSelection : List ContractOutputSelection :=
  ContractOutputSelection.basic ++ config.requests.filterMap fun (requested, selection) =>
    if requested then some selection else none

/-- `if` the value is requested. -/
def keep {τ : Type} (requested : Bool) (value : Option τ) : Option τ :=
  if requested then value else none

def contractToArtifact (contract : ContractOutput ν) (sourceFile : Option SourceFile) :
    ConfigurableContractArtifact ν :=
  let values := config.additionalValues
  let files := config.additionalFiles
  let metadata := keep (values.metadata || files.metadata) contract.metadata
  let bytecode := contract.evm.bind (·.bytecode)
  { abi := contract.abi
    bytecode := bytecode.map BytecodeOutput.compact
    deployedBytecode := (contract.evm.bind (·.deployedBytecode)).map DeployedBytecodeOutput.compact
    assembly := keep (values.assembly || files.assembly) (contract.evm.bind (·.assembly))
    legacyAssembly :=
      keep (values.legacyAssembly || files.legacyAssembly) (contract.evm.bind (·.legacyAssembly))
    opcodes := keep values.opcodes (bytecode.bind (·.opcodes))
    methodIdentifiers := contract.evm.map (·.methodIdentifiers)
    generatedSources :=
      (keep values.generatedSources (bytecode.map (·.generatedSources))).getD []
    functionDebugData := keep values.functionDebugData (bytecode.map (·.functionDebugData))
    gasEstimates := keep values.gasEstimates (contract.evm.bind (·.gasEstimates))
    rawMetadata := metadata.map (·.rawMetadata)
    metadata := metadata.map (·.metadata)
    storageLayout := keep values.storageLayout (some contract.storageLayout)
    transientStorageLayout :=
      keep values.transientStorageLayout (some contract.transientStorageLayout)
    userdoc := keep values.userdoc (some contract.userdoc)
    devdoc := keep values.devdoc (some contract.devdoc)
    ir := keep (values.ir || files.ir) contract.ir
    irOptimized := keep (values.irOptimized || files.irOptimized) contract.irOptimized
    irOptimizedAst := keep values.irOptimizedAst contract.irOptimizedAst
    ewasm := keep (values.ewasm || files.ewasm) contract.ewasm
    ast := sourceFile.bind (·.ast)
    id := sourceFile.map (·.id) }

/-- The artifact of a source file without contracts has an empty ABI and no code. -/
def standaloneSourceFileToArtifact (emptyAbi : ν) (file : VersionedSourceFile) :
    Option (ConfigurableContractArtifact ν) :=
  let empty : CompactBytecode := { object := .bytecode [], linkReferences := ∅ }
  file.sourceFile.ast.map fun ast =>
    { abi := some emptyAbi
      id := some file.sourceFile.id
      ast := some ast
      bytecode := some empty
      deployedBytecode := some { bytecode := some empty } }

/-- Recompilation is enforced if the artifact is missing data for extra files. -/
def isDirty (artifact : ConfigurableContractArtifact ν) : Bool :=
  let files := config.additionalFiles
  files.metadata && artifact.metadata.isNone || files.ir && artifact.ir.isNone ||
    files.irOptimized && artifact.irOptimized.isNone || files.ewasm && artifact.ewasm.isNone ||
    files.assembly && artifact.assembly.isNone ||
    files.legacyAssembly && artifact.legacyAssembly.isNone ||
    files.sourceMap && artifact.getSourceMapStr.isNone ||
    -- whether generated sources are missing or just empty is not known
    files.generatedSources

/-- The configuration as a handler of artifacts. -/
def handler (emptyAbi : ν) :
    ArtifactOutput (ContractOutput ν) (ConfigurableContractArtifact ν) where
  contractToArtifact _ _ contract sourceFile := config.contractToArtifact contract sourceFile
  standaloneSourceFileToArtifact _ file := standaloneSourceFileToArtifact emptyAbi file
  isDirty a := config.isDirty a.artifact

end ConfigurableArtifacts

/-! ## Extra files -/

/-- How values are written: pretty JSON, compact JSON and hexadecimal digits. -/
structure OutputTexts (ν : Type) where
  pretty : ν → Bytes
  prettyList : List ν → Bytes
  display : ν → Bytes
  hex : Bytes → Bytes

/-- The bytes of an object, be it linked or not. -/
def BytecodeObject.asRef : BytecodeObject → Bytes
  | .bytecode bytes => bytes
  | .unlinked code => code

abbrev ExtraWrite := PathBuf × Bytes

/-- Writes the content to a file beside the artifact, if it is requested and there. -/
def processExtra {τ : Type} (requested : Bool) (extension : String) (text : τ → Bytes)
    (content : Option τ) (file : PathBuf) : List ExtraWrite :=
  match ConfigurableArtifacts.keep requested content with
  | some content => [(file.withExtension extension, text content)]
  | none => []

namespace ExtraOutputFiles

variable (t : OutputTexts ν) (files : ExtraOutputFiles)

def processAbi : Option ν → PathBuf → List ExtraWrite :=
  processExtra files.abi "abi.json" t.pretty

def processMetadata : Option ν → PathBuf → List ExtraWrite :=
  processExtra files.metadata "metadata.json" t.pretty

def processIr : Option String → PathBuf → List ExtraWrite :=
  processExtra files.ir "ir" fun ir => utf8 ir.toList

def processIrOptimized : Option String → PathBuf → List ExtraWrite :=
  processExtra files.irOptimized "iropt" fun ir => utf8 ir.toList

def processEwasm : Option ν → PathBuf → List ExtraWrite :=
  processExtra files.ewasm "ewasm" t.pretty

def processAssembly : Option String → PathBuf → List ExtraWrite :=
  processExtra files.assembly "asm" fun asm => utf8 asm.toList

def processLegacyAssembly : Option ν → PathBuf → List ExtraWrite :=
  processExtra files.legacyAssembly "legacyAssembly.json" t.display

def processGeneratedSources : Option (List ν) → PathBuf → List ExtraWrite :=
  processExtra files.generatedSources "gensources" t.prettyList

def processSourceMap : Option String → PathBuf → List ExtraWrite :=
  processExtra files.sourceMap "sourcemap" fun map => utf8 map.toList

def processBytecode : Option BytecodeObject → PathBuf → List ExtraWrite :=
  processExtra files.bytecode "bin" fun code => t.hex (BytecodeObject.asRef code)

def processDeployedBytecode : Option BytecodeObject → PathBuf → List ExtraWrite :=
  processExtra files.deployedBytecode "deployed-bin" fun code => t.hex (BytecodeObject.asRef code)

/-- Writes the set values of a contract as separate files. -/
def writeExtras (contract : ContractOutput ν) (file : PathBuf) : List ExtraWrite :=
  let evm := contract.evm
  let bytecode := evm.bind (·.bytecode)
  let deployedBytecode := evm.bind (·.deployedBytecode)
  files.processAbi t contract.abi file ++
    files.processMetadata t (contract.metadata.map (·.metadata)) file ++
    files.processIr contract.ir file ++ files.processIrOptimized contract.irOptimized file ++
    files.processEwasm t contract.ewasm file ++
    files.processAssembly (evm.bind (·.assembly)) file ++
    files.processLegacyAssembly t (evm.bind (·.legacyAssembly)) file ++
    files.processGeneratedSources t (bytecode.map (·.generatedSources)) file ++
    files.processSourceMap (bytecode.bind (·.sourceMap)) file ++
    files.processBytecode t (bytecode.map (·.object)) file ++
    files.processDeployedBytecode t
      ((deployedBytecode.bind (·.bytecode)).map (·.object)) file

/-- What `handle_cached_artifacts` writes for an artifact. -/
def writeCached (artifact : ConfigurableContractArtifact ν) (file : PathBuf) : List ExtraWrite :=
  files.processAbi t artifact.abi file ++ files.processAssembly artifact.assembly file ++
    files.processLegacyAssembly t artifact.legacyAssembly file ++
    files.processBytecode t (artifact.bytecode.map (·.object)) file ++
    files.processDeployedBytecode t
      ((artifact.deployedBytecode.bind (·.bytecode)).map (·.object)) file ++
    files.processGeneratedSources t (some artifact.generatedSources) file ++
    files.processIr artifact.ir file ++ files.processIrOptimized artifact.irOptimized file ++
    files.processEwasm t artifact.ewasm file ++ files.processMetadata t artifact.metadata file ++
    files.processSourceMap artifact.getSourceMapStr file

end ExtraOutputFiles

namespace ConfigurableArtifacts

variable (t : OutputTexts ν) (config : ConfigurableArtifacts)

/-- Writes extra files for compiled contracts, each beside its artifact. -/
def handleArtifacts (contracts : VersionedContracts (ContractOutput ν))
    (artifacts : Artifacts (ConfigurableContractArtifact ν)) : List ExtraWrite :=
  contracts.toList.flatMap fun (file, contracts) =>
    contracts.toList.flatMap fun (name, versioned) =>
      versioned.flatMap fun c =>
        match artifacts.findArtifactWithProfile file name c.version c.profile with
        | some a => config.additionalFiles.writeExtras t c.contract a.file
        | none => []

/-- Writes extra files for cached artifacts. -/
def handleCachedArtifacts (artifacts : Artifacts (ConfigurableContractArtifact ν)) :
    List ExtraWrite :=
  artifacts.artifactFiles.flatMap fun a => config.additionalFiles.writeCached t a.artifact a.file

end ConfigurableArtifacts

/-! ## The files of an artifact -/

theorem PathBuf.withExtension_inj {file : PathBuf} (named : file.fileStem.isSome)
    {extension extension' : String} (ne : extension ≠ "") (ne' : extension' ≠ "")
    (same : file.withExtension extension = file.withExtension extension') :
    extension = extension' := by
  obtain ⟨stem, eq⟩ := Option.isSome_iff_exists.mp named
  simpa [withExtension, eq, ne, ne'] using same

section Extras

variable {τ τ' : Type} {requested kept : Bool} {extension : String} {text : τ → Bytes}
  {content : Option τ} {file : PathBuf} {t : OutputTexts ν}

theorem ConfigurableArtifacts.keep_map {f : τ → τ'} :
    (keep requested content).map f = keep requested (content.map f) := by
  cases requested <;> rfl

@[simp] theorem processExtra_false :
    processExtra false extension text content file = [] := rfl

theorem paths_processExtra :
    ((processExtra requested extension text content file).map Prod.fst).Sublist
      [file.withExtension extension] := by
  cases requested <;> cases content <;> simp [processExtra, ConfigurableArtifacts.keep]

/-- The extensions of the files that `writeExtras` writes. -/
def ExtraOutputFiles.extensions : List String :=
  ["abi.json", "metadata.json", "ir", "iropt", "ewasm", "asm", "legacyAssembly.json", "gensources",
    "sourcemap", "bin", "deployed-bin"]

theorem ExtraOutputFiles.nodup_writeExtras (files : ExtraOutputFiles) (contract : ContractOutput ν)
    (named : file.fileStem.isSome) : ((files.writeExtras t contract file).map Prod.fst).Nodup := by
  have paths : ((files.writeExtras t contract file).map Prod.fst).Sublist
      (extensions.map file.withExtension) := by
    simp only [writeExtras, List.map_append]
    exact ((paths_processExtra.append paths_processExtra).append paths_processExtra
      |>.append paths_processExtra |>.append paths_processExtra |>.append paths_processExtra
      |>.append paths_processExtra |>.append paths_processExtra |>.append paths_processExtra
      |>.append paths_processExtra |>.append paths_processExtra)
  have nonempty : ∀ extension ∈ extensions, extension ≠ "" := by decide
  refine paths.nodup (List.Nodup.map_on ?_ (by decide))
  exact fun x mem y mem' => PathBuf.withExtension_inj named (nonempty x mem) (nonempty y mem')

end Extras

/-! ## What the compiler is asked for -/

/-- An output of the compiler is not affected by what else it is asked for. -/
def Answered {τ : Type} (compile : List ContractOutputSelection → ContractOutput ν)
    (selected : ContractOutputSelection) (output : ContractOutput ν → Option τ) : Prop :=
  ∀ selection selection', selected ∈ selection → selected ∈ selection' →
    output (compile selection) = output (compile selection')

/-- The compiler of a contract, by the outputs that are selected. -/
structure Answers (compile : List ContractOutputSelection → ContractOutput ν) : Prop where
  abi : Answered compile .abi (·.abi)
  metadata : Answered compile .metadata (·.metadata.map (·.metadata))
  ir : Answered compile .ir (·.ir)
  irOptimized : Answered compile .irOptimized (·.irOptimized)
  ewasm : Answered compile (.ewasm .all) (·.ewasm)
  assembly : Answered compile (.evm .assembly) (·.evm.bind (·.assembly))
  legacyAssembly : Answered compile (.evm .legacyAssembly) (·.evm.bind (·.legacyAssembly))
  sourceMap : Answered compile (.evm (.byteCode .sourceMap))
    fun contract => (contract.evm.bind (·.bytecode)).bind (·.sourceMap)
  bytecode : Answered compile (.evm (.byteCode .object))
    fun contract => (contract.evm.bind (·.bytecode)).map (·.object)
  deployedBytecode : Answered compile (.evm (.deployedByteCode .object))
    fun contract => ((contract.evm.bind (·.deployedBytecode)).bind (·.bytecode)).map (·.object)

namespace ConfigurableArtifacts

variable {config : ConfigurableArtifacts}

theorem basic_subset : ContractOutputSelection.basic ⊆ config.outputSelection :=
  List.subset_append_left _ _

theorem mem_outputSelection {requested : Bool} {selected : ContractOutputSelection}
    (listed : (requested, selected) ∈ config.requests) (asked : requested = true) :
    selected ∈ config.outputSelection :=
  List.mem_append_right _ (List.mem_filterMap.mpr ⟨_, listed, if_pos asked⟩)

end ConfigurableArtifacts

section Kept

variable {now before : ConfigurableArtifacts}
  {compile : List ContractOutputSelection → ContractOutput ν}
  {file : PathBuf} {t : OutputTexts ν}

/-- The basic outputs are part of every selection. -/
theorem Answered.of_basic {τ : Type} {selected : ContractOutputSelection}
    {output : ContractOutput ν → Option τ} (answered : Answered compile selected output)
    (before now : ConfigurableArtifacts) (basic : selected ∈ ContractOutputSelection.basic) :
    output (compile before.outputSelection) = output (compile now.outputSelection) :=
  answered _ _ (ConfigurableArtifacts.basic_subset basic)
    (ConfigurableArtifacts.basic_subset basic)

/-- What was kept is what would be written, if nothing that is wanted is missing. -/
theorem processExtra_kept {τ : Type} {extension : String} {text : τ → Bytes}
    {selected : ContractOutputSelection} {output : ContractOutput ν → Option τ}
    (value : ExtraOutputValues → Bool) (wanted : ExtraOutputFiles → Bool)
    (answered : Answered compile selected output)
    (listed : ∀ config : ConfigurableArtifacts,
      (value config.additionalValues || wanted config.additionalFiles, selected) ∈ config.requests)
    (clean : (wanted now.additionalFiles && (ConfigurableArtifacts.keep
      (value before.additionalValues || wanted before.additionalFiles)
      (output (compile before.outputSelection))).isNone) = false) :
    processExtra (wanted now.additionalFiles) extension text (ConfigurableArtifacts.keep
        (value before.additionalValues || wanted before.additionalFiles)
        (output (compile before.outputSelection))) file =
      processExtra (wanted now.additionalFiles) extension text
        (output (compile now.outputSelection)) file := by
  cases asks : wanted now.additionalFiles with
  | false => rfl
  | true =>
    cases kept : value before.additionalValues || wanted before.additionalFiles with
    | true =>
      rw [answered now.outputSelection before.outputSelection
        (ConfigurableArtifacts.mem_outputSelection (listed now) (by rw [asks, Bool.or_true]))
        (ConfigurableArtifacts.mem_outputSelection (listed before) kept)]
      rfl
    | false => simp [asks, kept, ConfigurableArtifacts.keep] at clean

/-- What is written for an artifact of the cache is what its contract would have written if it had
been compiled again, whatever configuration made the artifact. -/
theorem ExtraOutputFiles.writeCached_perm (answers : Answers compile)
    {sourceFile : Option SourceFile} {artifact : ConfigurableContractArtifact ν}
    (made : artifact = before.contractToArtifact (compile before.outputSelection) sourceFile)
    (clean : now.isDirty artifact = false) :
    (now.additionalFiles.writeCached t artifact file).Perm
      (now.additionalFiles.writeExtras t (compile now.outputSelection) file) := by
  obtain ⟨contract, again⟩ : ∃ contract, contract = compile now.outputSelection := ⟨_, rfl⟩
  simp only [ConfigurableArtifacts.isDirty, Bool.or_eq_false_iff] at clean
  obtain ⟨⟨⟨⟨⟨⟨⟨metadata, ir⟩, irOptimized⟩, ewasm⟩, assembly⟩, legacyAssembly⟩, -⟩, none⟩ := clean
  -- these values are in the artifact if they are wanted
  have ofMetadata : now.additionalFiles.processMetadata t artifact.metadata file =
      now.additionalFiles.processMetadata t (contract.metadata.map (·.metadata)) file := by
    have kept : artifact.metadata = ConfigurableArtifacts.keep
        (before.additionalValues.metadata || before.additionalFiles.metadata)
        ((compile before.outputSelection).metadata.map (·.metadata)) := by
      rw [made]; exact ConfigurableArtifacts.keep_map
    rw [kept] at metadata ⊢
    rw [again]
    exact processExtra_kept (·.metadata) (·.metadata) answers.metadata
      (fun _ => by simp [ConfigurableArtifacts.requests]) metadata
  have ofIr : now.additionalFiles.processIr artifact.ir file =
      now.additionalFiles.processIr contract.ir file := by
    subst made again
    exact processExtra_kept (·.ir) (·.ir) answers.ir
      (fun _ => by simp [ConfigurableArtifacts.requests]) ir
  have ofIrOptimized : now.additionalFiles.processIrOptimized artifact.irOptimized file =
      now.additionalFiles.processIrOptimized contract.irOptimized file := by
    subst made again
    exact processExtra_kept (·.irOptimized) (·.irOptimized) answers.irOptimized
      (fun _ => by simp [ConfigurableArtifacts.requests]) irOptimized
  have ofEwasm : now.additionalFiles.processEwasm t artifact.ewasm file =
      now.additionalFiles.processEwasm t contract.ewasm file := by
    subst made again
    exact processExtra_kept (·.ewasm) (·.ewasm) answers.ewasm
      (fun _ => by simp [ConfigurableArtifacts.requests]) ewasm
  have ofAssembly : now.additionalFiles.processAssembly artifact.assembly file =
      now.additionalFiles.processAssembly (contract.evm.bind (·.assembly)) file := by
    subst made again
    exact processExtra_kept (·.assembly) (·.assembly) answers.assembly
      (fun _ => by simp [ConfigurableArtifacts.requests]) assembly
  have ofLegacyAssembly : now.additionalFiles.processLegacyAssembly t artifact.legacyAssembly file =
      now.additionalFiles.processLegacyAssembly t (contract.evm.bind (·.legacyAssembly)) file := by
    subst made again
    exact processExtra_kept (·.legacyAssembly) (·.legacyAssembly) answers.legacyAssembly
      (fun _ => by simp [ConfigurableArtifacts.requests]) legacyAssembly
  -- and these in any case
  have ofAbi : artifact.abi = contract.abi := by
    rw [made, again]
    exact answers.abi.of_basic before now (by decide)
  have ofSourceMap : artifact.getSourceMapStr =
      (contract.evm.bind (·.bytecode)).bind (·.sourceMap) := by
    rw [made, again, ← answers.sourceMap.of_basic before now (by decide)]
    exact Option.bind_map ..
  have ofBytecode : artifact.bytecode.map (·.object) =
      (contract.evm.bind (·.bytecode)).map (·.object) := by
    rw [made, again, ← answers.bytecode.of_basic before now (by decide)]
    exact Option.map_map ..
  have ofDeployed : (artifact.deployedBytecode.bind (·.bytecode)).map (·.object) =
      ((contract.evm.bind (·.deployedBytecode)).bind (·.bytecode)).map (·.object) := by
    rw [made, again, ← answers.deployedBytecode.of_basic before now (by decide),
      ConfigurableArtifacts.contractToArtifact]
    rcases (compile before.outputSelection).evm.bind (·.deployedBytecode) with _ | ⟨_ | _, _⟩ <;>
      rfl
  rw [← again]
  simp only [writeCached, writeExtras, ofMetadata, ofIr, ofIrOptimized, ofEwasm, ofAssembly,
    ofLegacyAssembly, ofAbi, ofSourceMap, ofBytecode, ofDeployed, processGeneratedSources, none,
    processExtra_false, List.append_nil]
  classical
  refine List.perm_iff_count.mpr fun x => ?_
  simp only [List.count_append]
  omega

end Kept

/-! ## Builds with other configurations -/

namespace ConfigurableArtifacts

open AggregatedCompilerOutput (contractsOf)

/-- The compilers of the contracts of a project, each by the outputs that are selected. -/
abbrev Compilers (ν : Type) := VersionedContracts (List ContractOutputSelection → ContractOutput ν)

variable {compilers : Compilers ν} {artifacts : Artifacts (ConfigurableContractArtifact ν)}
  {before now : ConfigurableArtifacts} {file : PathBuf} {name : String}

/-- What the compilers give for the selection of the configuration. -/
def compiled (config : ConfigurableArtifacts) (compilers : Compilers ν) :
    VersionedContracts (ContractOutput ν) :=
  compilers.map fun _ contracts => contracts.map fun _ versioned => versioned.map fun c =>
    { c with contract := c.contract config.outputSelection }

theorem contractsOf_compiled :
    contractsOf (now.compiled compilers) file name =
      (contractsOf compilers file name).map fun c =>
        { c with contract := c.contract now.outputSelection } := by
  simp only [contractsOf, compiled, ExtTreeMap.getElem?_map]
  cases compilers[file]? with
  | none => rfl
  | some contracts =>
    simp only [Option.map_some, Option.bind_some, ExtTreeMap.getElem?_map]
    cases contracts[name]? <;> rfl

/-- The artifact was made of the contract by some configuration. -/
def MadeFrom (c : VersionedContract (List ContractOutputSelection → ContractOutput ν))
    (a : ArtifactFile (ConfigurableContractArtifact ν)) : Prop :=
  a.version = c.version ∧ a.profile = c.profile ∧
    ∃ before : ConfigurableArtifacts, ∃ sourceFile,
      a.artifact = before.contractToArtifact (c.contract before.outputSelection) sourceFile

/-- An artifact of each contract and no others. -/
def AllMadeFrom (compilers : Compilers ν)
    (artifacts : Artifacts (ConfigurableContractArtifact ν)) : Prop :=
  ∀ file name, List.Forall₂ MadeFrom (contractsOf compilers file name) (artifacts.filesOf file name)

/-- A build that compiles all contracts makes artifacts of them, if no source file stands for
itself. -/
theorem allMadeFrom_onOutput (L : Lowercase) (emptyAbi : ν) {sources : VersionedSourceFiles}
    (contracted : ∀ file ∈ sources, ∃ name, contractsOf compilers file name ≠ [])
    (ctx : ArtifactOutput.OutputContext) (folder : PathBuf)
    (primaryProfiles : ExtTreeMap PathBuf String) :
    AllMadeFrom compilers ((before.handler emptyAbi).onOutput L (before.compiled compilers) sources
      ctx folder primaryProfiles) := by
  intro file name
  by_cases found : ∃ name, contractsOf compilers file name ≠ []
  · have found' : ∃ name, contractsOf (before.compiled compilers) file name ≠ [] := by
      simpa [contractsOf_compiled] using found
    have contents : (((before.handler emptyAbi).outputToArtifacts L (before.compiled compilers)
        sources ctx folder primaryProfiles).filesOf file name).map ArtifactOutput.content = _ :=
      ArtifactOutput.content_outputToArtifacts _ _ _ _ found' name
    rw [contractsOf_compiled, List.map_map] at contents
    rw [ArtifactOutput.onOutput, Artifacts.filesOf_joinAll, List.forall₂_map_right_iff]
    refine (List.forall₂_map_left_iff.mp (List.forall₂_map_right_iff.mp
      (List.forall₂_eq_eq_eq ▸ contents.symm))).imp fun c a same => ?_
    simp only [ArtifactOutput.content, Function.comp_apply, Prod.mk.injEq] at same
    obtain ⟨artifact, version, profile, -⟩ := same
    exact ⟨version.symm, profile.symm, before, _, artifact.symm⟩
  · simp only [not_exists, not_not] at found
    suffices (((before.handler emptyAbi).onOutput L (before.compiled compilers) sources ctx folder
        primaryProfiles).filesOf file name) = [] by
      rw [found, this]
      exact .nil
    rw [ArtifactOutput.onOutput, Artifacts.filesOf_joinAll, ArtifactOutput.outputToArtifacts,
      ArtifactOutput.filesOf_foldl_assign, Artifacts.filesOf_empty, List.nil_append, List.map_map,
      List.map_eq_nil_iff, List.filter_eq_nil_iff]
    rintro ⟨r, path⟩ listed same
    obtain ⟨rfl, rfl⟩ : r.file = file ∧ r.name = name := by simpa using same
    have requested := List.mem_map_of_mem (f := Prod.fst) listed
    rw [ArtifactOutput.map_fst_placed] at requested
    rcases List.mem_append.mp requested with ofContract | standalone
    · have contents := ArtifactOutput.content_contractRequests (before.handler emptyAbi)
        (before.compiled compilers) sources primaryProfiles r.file r.name
      rw [contractsOf_compiled, found, List.map_nil, List.map_nil, List.map_eq_nil_iff] at contents
      exact absurd same (List.filter_eq_nil_iff.mp contents r ofContract)
    · obtain ⟨⟨file, versioned⟩, entry, inside⟩ := List.mem_flatMap.mp standalone
      obtain ⟨source, -, eq⟩ := List.mem_filterMap.mp inside
      have getEq : r.file = file := by grind
      obtain ⟨name, someEq⟩ := contracted file (ExtTreeMap.mem_iff_isSome_getElem?.mpr
        (Option.isSome_of_eq_some (ExtTreeMap.mem_toList_iff_getElem?_eq_some.mp entry)))
      exact someEq (getEq ▸ found name)

variable {writable : PathBuf → Bool} {t : OutputTexts ν}

/-- Two artifacts of a contract differ in version or profile. -/
theorem findArtifactWithProfile_eq
    {c : VersionedContract (List ContractOutputSelection → ContractOutput ν)}
    {a : ArtifactFile (ConfigurableContractArtifact ν)}
    (all : List.Forall₂ MadeFrom (contractsOf compilers file name) (artifacts.filesOf file name))
    (single : ((contractsOf compilers file name).map fun c => (c.version, c.profile)).Nodup)
    (listed : a ∈ artifacts.filesOf file name) (made : MadeFrom c a) :
    artifacts.findArtifactWithProfile file name c.version c.profile = some a := by
  have keys : (artifacts.filesOf file name).map (fun a => (a.version, a.profile)) =
      (contractsOf compilers file name).map fun c => (c.version, c.profile) := by
    rw [← List.forall₂_eq_eq_eq, List.forall₂_map_left_iff, List.forall₂_map_right_iff]
    exact all.flip.imp fun a c made => Prod.ext made.1 made.2.1
  rw [← keys] at single
  cases found : artifacts.findArtifactWithProfile file name c.version c.profile with
  | none =>
    rw [Artifacts.findArtifactWithProfile, List.find?_eq_none] at found
    exact absurd (decide_eq_true ⟨made.1, made.2.1⟩) (found a listed)
  | some b =>
    have getEq := List.find?_some found
    rw [decide_eq_true_eq] at getEq
    rw [List.inj_on_of_nodup_map single (List.mem_of_find?_eq_some found) listed
      (Prod.ext (getEq.1.trans made.1.symm) (getEq.2.trans made.2.1.symm))]

/-- Where no artifact is made again, the same files are written beside the artifacts as by a build
that compiles everything, whatever configurations made the artifacts. -/
theorem cached_extras
    (answers : ∀ file name, ∀ c ∈ contractsOf compilers file name, Answers c.contract)
    (single : ∀ file name,
      ((contractsOf compilers file name).map fun c => (c.version, c.profile)).Nodup)
    (made : AllMadeFrom compilers artifacts)
    (named : ∀ a ∈ artifacts.artifactFiles, a.file.fileStem.isSome)
    (clean : ∀ a ∈ artifacts.artifactFiles, now.isDirty a.artifact = false) :
    Interchangeable writable (now.handleCachedArtifacts t artifacts)
      (now.handleArtifacts t (now.compiled compilers) artifacts) := by
  have ofContract : ∀ file name, Interchangeable writable
      ((artifacts.filesOf file name).flatMap fun a =>
        now.additionalFiles.writeCached t a.artifact a.file)
      ((contractsOf (now.compiled compilers) file name).flatMap fun c =>
        match artifacts.findArtifactWithProfile file name c.version c.profile with
        | some a => now.additionalFiles.writeExtras t c.contract a.file
        | none => []) := by
    intro file name
    rw [contractsOf_compiled, List.flatMap_map]
    have all := made file name
    refine .flatMap (List.forall₂_iff_zip.mpr ⟨all.length_eq.symm, fun {a c} pair => ?_⟩)
    obtain ⟨listed, listed'⟩ := List.of_mem_zip pair
    have here : MadeFrom c a := List.forall₂_zip all.flip pair
    have entry : a ∈ artifacts.artifactFiles :=
      List.mem_map.mpr ⟨_, Artifacts.mem_entries.mpr listed, rfl⟩
    rw [findArtifactWithProfile_eq all (single file name) listed here]
    obtain ⟨-, -, before, sourceFile, artifact⟩ := here
    have perm : (now.additionalFiles.writeCached t a.artifact a.file).Perm
        (now.additionalFiles.writeExtras t (c.contract now.outputSelection) a.file) :=
      ExtraOutputFiles.writeCached_perm (answers file name c listed') artifact (clean a entry)
    exact interchangeable_of_perm perm
      ((perm.map _).nodup_iff.mpr (ExtraOutputFiles.nodup_writeExtras _ _ (named a entry)))
  rw [handleCachedArtifacts, handleArtifacts, Artifacts.artifactFiles, Artifacts.entries,
    List.flatMap_map, List.flatMap_assoc]
  refine .flatMap_toList fun file => ?_
  simp only [List.flatMap_assoc, List.flatMap_map]
  refine .flatMap_getD fun name => ?_
  have entries := ofContract file name
  rw [Artifacts.filesOf, contractsOf] at entries
  revert entries
  cases artifacts[file]?.bind (·[name]?) <;>
    cases (now.compiled compilers)[file]?.bind (·[name]?) <;> exact id

/-- A compiler of a contract whose intermediate code is asked for or not. -/
def compileCounter (selection : List ContractOutputSelection) : ContractOutput String where
  abi := some "[]"
  metadata := none
  userdoc := "{}"
  devdoc := "{}"
  ir := if .ir ∈ selection then some "object \"Counter\"" else none
  storageLayout := "{}"
  transientStorageLayout := "{}"
  evm := some { bytecode := some { object := .bytecode [0x60, 0x80], linkReferences := ∅ } }
  ewasm := none
  irOptimized := none
  irOptimizedAst := none

def counterContract : VersionedContract (List ContractOutputSelection → ContractOutput String) :=
  { contract := compileCounter, version := ⟨0, 8, 30, "", ""⟩, buildId := "b"
    profile := "default" }

def counterCompilers : Compilers String :=
  (∅ : Compilers String).insert (.abs ["src", "Counter.sol"])
    ((∅ : ExtTreeMap String _).insert "Counter" [counterContract])

/-- The intermediate code that the artifact of the first build includes is written to a file by the
second. -/
theorem cached_extras_ir :
    let before : ConfigurableArtifacts := { additionalValues := { ir := true } }
    let now : ConfigurableArtifacts := { additionalFiles := { ir := true, bytecode := true } }
    let t : OutputTexts String :=
      { pretty := fun s => utf8 s.toList
        prettyList := fun _ => []
        display := fun s => utf8 s.toList
        hex := id }
    let artifacts := (before.handler "[]").onOutput .ofAscii (before.compiled counterCompilers) ∅ {}
      (.abs ["out"]) ∅
    (now.handleCachedArtifacts t artifacts).map Prod.fst =
        [.abs ["out", "Counter.sol", "Counter.bin"], .abs ["out", "Counter.sol", "Counter.ir"]] ∧
      Interchangeable (fun _ => true) (now.handleCachedArtifacts t artifacts)
        (now.handleArtifacts t (now.compiled counterCompilers) artifacts) := by
  have only : ∀ file name, contractsOf counterCompilers file name =
      if file = .abs ["src", "Counter.sol"] ∧ name = "Counter" then [counterContract] else [] := by
    intro file name
    simp only [contractsOf, counterCompilers, Library.getElem?_insert_eq]
    by_cases here : file = .abs ["src", "Counter.sol"] <;> by_cases named : name = "Counter" <;>
      simp [Library.getElem?_insert_eq, here, named]
  refine ⟨by decide +kernel, cached_extras (fun file name c listed => ?_) (fun file name => ?_)
    (allMadeFrom_onOutput .ofAscii "[]" (by simp) {} (.abs ["out"]) ∅) (by decide +kernel)
    (by decide +kernel)⟩
  · rw [only] at listed
    obtain rfl : c = counterContract := by split_ifs at listed <;> simp_all
    constructor <;> intro selection selection' mem mem' <;>
      simp_all [counterContract, compileCounter]
  · rw [only]
    split_ifs <;> simp

end ConfigurableArtifacts

end FoundryCore
