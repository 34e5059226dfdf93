import FoundryCore.Config
import FoundryCore.Version

/-!
# Compiler settings

What the compiler is asked for: the settings of `solc`, the outputs selected for each file and
contract, and when artifacts made under one request may serve another.
-/

open Std

namespace FoundryCore

/-! ## Output selection -/

/-- The outputs selected for the contracts of a file. The empty name stands for the file itself
and `*` for all contracts. -/
abbrev FileOutputSelection := ExtTreeMap String (List String)

/-- The selected outputs by file; `*` stands for all files. -/
abbrev OutputSelection := ExtTreeMap String FileOutputSelection

namespace OutputSelection

/-- The outputs requested by default for each contract. -/
def basic : List String :=
  ["abi", "evm.bytecode.object", "evm.bytecode.sourceMap", "evm.bytecode.linkReferences",
    "evm.deployedBytecode.object", "evm.deployedBytecode.sourceMap",
    "evm.deployedBytecode.linkReferences", "evm.deployedBytecode.immutableReferences",
    "evm.methodIdentifiers"]

def defaultFileOutputSelection : FileOutputSelection := ExtTreeMap.empty.insert "*" basic

def defaultOutputSelection : OutputSelection :=
  ExtTreeMap.empty.insert "*" defaultFileOutputSelection

def emptyFileOutputSelect : FileOutputSelection := ∅

/-- Selects the same outputs for each contract of each source. -/
def commonOutputSelection (outputs : List String) : OutputSelection :=
  ExtTreeMap.empty.insert "*" (ExtTreeMap.empty.insert "*" outputs)

/-- Requests the syntax tree as well. -/
def withAst (selection : OutputSelection) : OutputSelection :=
  selection.insert "*" ((selection["*"]?.getD ∅).insert "" ["ast"])

/-- Whether the selection asks for nothing that the other one does not. -/
def isSubsetOf (self other : OutputSelection) : Bool :=
  self.toList.all fun (file, selection) =>
    other[file]?.any fun otherSelection =>
      selection.toList.all fun (contract, outputs) =>
        otherSelection[contract]?.any fun otherOutputs =>
          outputs.all fun output => output ∈ otherOutputs

/-- Whether the syntax tree is requested. -/
def containsAst (selection : OutputSelection) : Bool :=
  selection.toList.any fun (_, fileSelection) =>
    fileSelection.toList.any fun (contractName, outputs) =>
      contractName.isEmpty && outputs.any fun o => o = "ast" || o = "*"

/-- The outputs selected under a file and a contract name. -/
def outputs (selection : OutputSelection) (file contract : String) : Option (List String) :=
  selection[file]?.bind (·[contract]?)

end OutputSelection

/-! ## Settings of the compiler -/

inductive EvmVersion
  | homestead | tangerineWhistle | spuriousDragon | byzantium | constantinople | petersburg
  | istanbul | berlin | london | paris | shanghai | cancun | prague | osaka | amsterdam
deriving DecidableEq, Repr

structure YulDetails where
  stackAllocation : Option Bool := none
  optimizerSteps : Option String := none
deriving DecidableEq, Repr

/-- Optimizer components, each on, off or as the compiler likes. -/
structure OptimizerDetails where
  peephole : Option Bool := none
  inliner : Option Bool := none
  jumpdestRemover : Option Bool := none
  orderLiterals : Option Bool := none
  deduplicate : Option Bool := none
  cse : Option Bool := none
  constantOptimizer : Option Bool := none
  yul : Option Bool := none
  yulDetails : Option YulDetails := none
  simpleCounterForLoopUncheckedIncrement : Option Bool := none
deriving DecidableEq, Repr

structure Optimizer where
  enabled : Option Bool := some false
  runs : Option Nat := some 200
  details : Option OptimizerDetails := none
deriving DecidableEq, Repr

inductive BytecodeHash
  | ipfs | none | bzzr1
deriving DecidableEq, Repr

structure SettingsMetadata where
  useLiteralContent : Option Bool := none
  bytecodeHash : Option BytecodeHash := none
  cborMetadata : Option Bool := none
deriving DecidableEq, Repr

inductive RevertStrings
  | default | strip | debug | verboseDebug
deriving DecidableEq, Repr

structure DebuggingSettings where
  revertStrings : Option RevertStrings := none
  debugInfo : List String := []
deriving DecidableEq, Repr

inductive ModelCheckerEngine
  | default | all | bmc | chc
deriving DecidableEq, Repr

inductive ModelCheckerTarget
  | assert | underflow | overflow | divByZero | constantCondition | popEmptyArray | outOfBounds
  | balance
deriving DecidableEq, Repr

inductive ModelCheckerInvariant
  | contract | reentrancy
deriving DecidableEq, Repr

inductive ModelCheckerSolver
  | cvc4 | eld | smtlib2 | z3
deriving DecidableEq, Repr

structure ModelCheckerSettings where
  contracts : ExtTreeMap String (List String) := ∅
  engine : Option ModelCheckerEngine := none
  timeout : Option Nat := none
  targets : Option (List ModelCheckerTarget) := none
  invariants : Option (List ModelCheckerInvariant) := none
  showUnproved : Option Bool := none
  divModWithSlacks : Option Bool := none
  solvers : Option (List ModelCheckerSolver) := none
  showUnsupported : Option Bool := none
  showProvedSafe : Option Bool := none
deriving DecidableEq

/-- Addresses of libraries by file and name. -/
abbrev Libraries := ExtTreeMap PathBuf (ExtTreeMap String String)

structure Settings where
  stopAfter : Option String := none
  remappings : List Remapping := []
  optimizer : Optimizer := {}
  modelChecker : Option ModelCheckerSettings := none
  metadata : Option SettingsMetadata := none
  outputSelection : OutputSelection := OutputSelection.defaultOutputSelection.withAst
  evmVersion : Option EvmVersion := some .prague
  viaIr : Option Bool := none
  debug : Option DebuggingSettings := none
  libraries : Libraries := ∅
deriving DecidableEq

structure CliSettings where
  extraArgs : List String := []
  allowPaths : Finset PathBuf := ∅
  basePath : Option PathBuf := none
  includePaths : Finset PathBuf := ∅
deriving DecidableEq

structure SolcSettings where
  settings : Settings := {}
  cliSettings : CliSettings := {}
deriving DecidableEq

/-- What the project and its cache use of the settings of a compiler. -/
class CompilerSettings (S : Type*) where
  outputSelection : S → OutputSelection
  updateOutputSelection : (OutputSelection → OutputSelection) → S → S
  /-- Whether artifacts compiled with the other settings can serve these. -/
  canUseCached : S → S → Bool
  withRemappings : List Remapping → S → S
  withAllowPaths : Finset PathBuf → S → S
  withBasePath : PathBuf → S → S
  withIncludePaths : Finset PathBuf → S → S

namespace SolcSettings

/-- All settings must agree, except that fewer outputs may be selected. -/
def canUseCached (self other : SolcSettings) : Bool :=
  decide (self.settings.stopAfter = other.settings.stopAfter) &&
  decide (self.settings.remappings = other.settings.remappings) &&
  decide (self.settings.optimizer = other.settings.optimizer) &&
  decide (self.settings.modelChecker = other.settings.modelChecker) &&
  decide (self.settings.metadata = other.settings.metadata) &&
  decide (self.settings.evmVersion = other.settings.evmVersion) &&
  decide (self.settings.viaIr = other.settings.viaIr) &&
  decide (self.settings.debug = other.settings.debug) &&
  decide (self.settings.libraries = other.settings.libraries) &&
  self.settings.outputSelection.isSubsetOf other.settings.outputSelection

instance : CompilerSettings SolcSettings where
  outputSelection s := s.settings.outputSelection
  updateOutputSelection f s :=
    { s with settings := { s.settings with outputSelection := f s.settings.outputSelection } }
  canUseCached := canUseCached
  withRemappings remappings s := { s with settings := { s.settings with remappings } }
  withAllowPaths paths s := { s with cliSettings := { s.cliSettings with allowPaths := paths } }
  withBasePath path s := { s with cliSettings := { s.cliSettings with basePath := some path } }
  withIncludePaths paths s :=
    { s with cliSettings := { s.cliSettings with includePaths := paths } }

end SolcSettings

end FoundryCore
