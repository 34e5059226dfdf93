import FoundryCore.EvmVersion
import FoundryCore.Library.Interior
import FoundryCore.Resolver.Multi
import FoundryCore.Settings
import FoundryCore.Sources

/-!
# Settings that a compiler accepts

An older compiler does not know all options. Before the input is handed over, the settings are
sanitized: options that came later are removed and the EVM version is lowered. What remains is as
much of the settings as the compiler accepts.
-/

open Std

namespace FoundryCore

open Library

/-- The version is older than the other one. -/
def Version.before (version since : Version) : Bool := compare version since = .lt

/-! ## Sanitizing -/

namespace Settings

variable (s : Settings)

def clearBytecodeHash : Settings :=
  { s with metadata := s.metadata.map fun metadata => { metadata with bytecodeHash := none } }

def clearDebug : Settings := { s with debug := none }

def clearStopAfter : Settings := { s with stopAfter := none }

def clearViaIr : Settings := { s with viaIr := none }

def clearInliner : Settings :=
  { s with optimizer := { s.optimizer with
    details := s.optimizer.details.map fun details => { details with inliner := none } } }

def clearModelChecker : Settings := { s with modelChecker := none }

def clearDebugInfo : Settings :=
  { s with debug := s.debug.map fun debug => { debug with debugInfo := [] } }

def clearInvariants : Settings :=
  { s with modelChecker := s.modelChecker.map fun checker => { checker with invariants := none } }

def clearCborMetadata : Settings :=
  { s with metadata := s.metadata.map fun metadata => { metadata with cborMetadata := none } }

def removeEld : Settings :=
  { s with modelChecker := s.modelChecker.map fun checker =>
    { checker with solvers := checker.solvers.map (List.filter (· ≠ .eld)) } }

def clearShown : Settings :=
  { s with modelChecker := s.modelChecker.map fun checker =>
    { checker with showProvedSafe := none, showUnsupported := none } }

def normalizeEvmVersion (version : Version) : Settings :=
  { s with evmVersion := s.evmVersion.bind (·.normalizeVersionSolc version) }

def clearRemappings : Settings := { s with remappings := [] }

/-- Removes and adjusts what is not compatible with the version. -/
def sanitize (version : Version) (language : SolcLanguage) : Settings :=
  let s := if version.before (.new 0 6 0) then s.clearBytecodeHash.clearDebug else s
  let s := if version.before (.new 0 7 3) then s.clearStopAfter else s
  let s := if version.before (.new 0 7 5) then s.clearViaIr else s
  let s := if version.before (.new 0 8 5) then s.clearInliner else s
  let s := if version.before (.new 0 8 7) then s.clearModelChecker else s
  let s := if version.before (.new 0 8 10) then s.clearDebugInfo.clearInvariants else s
  let s := if version.before (.new 0 8 18) then s.clearCborMetadata.removeEld else s
  let s := if version.before (.new 0 8 20) then s.clearShown else s
  let s := s.normalizeEvmVersion version
  match language with
  | .solidity => s
  | .yul => s.clearRemappings

end Settings

/-- Input for `solc`. -/
structure SolcInput where
  language : SolcLanguage := .solidity
  sources : Sources := ∅
  settings : Settings := {}

namespace SolcInput

def new (language : SolcLanguage) (sources : Sources) (settings : Settings) : SolcInput where
  language
  sources
  settings :=
    if language = .yul && !settings.remappings.isEmpty then { settings with remappings := [] }
    else settings

def sanitized (input : SolcInput) (version : Version) : SolcInput :=
  { input with settings := input.settings.sanitize version input.language }

end SolcInput

structure SolcVersionedInput where
  version : Version
  input : SolcInput
  cliSettings : CliSettings

/-- The input that the settings of a project become for a compiler. -/
def SolcVersionedInput.build (sources : Sources) (settings : SolcSettings)
    (language : SolcLanguage) (version : Version) : SolcVersionedInput where
  version
  input := (SolcInput.new language sources settings.settings).sanitized version
  cliSettings := settings.cliSettings

/-! ## Asking for less -/

/-- Options may be unset, an EVM version may be lower and a list shorter; other values agree. -/
structure SettingsMetadata.Within (a b : SettingsMetadata) : Prop where
  useLiteralContent : a.useLiteralContent = b.useLiteralContent
  bytecodeHash : Option.le Eq a.bytecodeHash b.bytecodeHash
  cborMetadata : Option.le Eq a.cborMetadata b.cborMetadata

structure OptimizerDetails.Within (a b : OptimizerDetails) : Prop where
  inliner : Option.le Eq a.inliner b.inliner
  rest : { a with inliner := none } = { b with inliner := none }

structure Optimizer.Within (a b : Optimizer) : Prop where
  enabled : a.enabled = b.enabled
  runs : a.runs = b.runs
  details : Option.le OptimizerDetails.Within a.details b.details

structure DebuggingSettings.Within (a b : DebuggingSettings) : Prop where
  revertStrings : a.revertStrings = b.revertStrings
  debugInfo : a.debugInfo.Sublist b.debugInfo

structure ModelCheckerSettings.Within (a b : ModelCheckerSettings) : Prop where
  contracts : a.contracts = b.contracts
  engine : a.engine = b.engine
  timeout : a.timeout = b.timeout
  targets : a.targets = b.targets
  invariants : Option.le Eq a.invariants b.invariants
  showUnproved : a.showUnproved = b.showUnproved
  divModWithSlacks : a.divModWithSlacks = b.divModWithSlacks
  solvers : Option.le List.Sublist a.solvers b.solvers
  showUnsupported : Option.le Eq a.showUnsupported b.showUnsupported
  showProvedSafe : Option.le Eq a.showProvedSafe b.showProvedSafe

def EvmVersion.Within (a b : EvmVersion) : Prop := (compare a b).isLE = true

structure Settings.Within (a b : Settings) : Prop where
  stopAfter : Option.le Eq a.stopAfter b.stopAfter
  remappings : a.remappings.Sublist b.remappings
  optimizer : a.optimizer.Within b.optimizer
  modelChecker : Option.le ModelCheckerSettings.Within a.modelChecker b.modelChecker
  metadata : Option.le SettingsMetadata.Within a.metadata b.metadata
  outputSelection : a.outputSelection = b.outputSelection
  evmVersion : Option.le EvmVersion.Within a.evmVersion b.evmVersion
  viaIr : Option.le Eq a.viaIr b.viaIr
  debug : Option.le DebuggingSettings.Within a.debug b.debug
  libraries : a.libraries = b.libraries

instance : IsPartialOrder SettingsMetadata SettingsMetadata.Within where
  refl _ := ⟨rfl, refl_of _ _, refl_of _ _⟩
  trans _ _ _ ab bc := ⟨ab.1.trans bc.1, trans_of _ ab.2 bc.2, trans_of _ ab.3 bc.3⟩
  antisymm a b ab ba := by
    have hash := antisymm_of _ ab.bytecodeHash ba.bytecodeHash
    have cbor := antisymm_of _ ab.cborMetadata ba.cborMetadata
    have literal := ab.useLiteralContent
    cases a
    cases b
    simp_all

instance : IsPartialOrder OptimizerDetails OptimizerDetails.Within where
  refl _ := ⟨refl_of _ _, rfl⟩
  trans _ _ _ ab bc := ⟨trans_of _ ab.1 bc.1, ab.2.trans bc.2⟩
  antisymm a b ab ba := by
    have inliner := antisymm_of _ ab.inliner ba.inliner
    have rest := ab.rest
    cases a
    cases b
    simp_all

instance : IsPartialOrder Optimizer Optimizer.Within where
  refl _ := ⟨rfl, rfl, refl_of _ _⟩
  trans _ _ _ ab bc := ⟨ab.1.trans bc.1, ab.2.trans bc.2, trans_of _ ab.3 bc.3⟩
  antisymm a b ab ba := by
    have details := antisymm_of _ ab.details ba.details
    have rest := And.intro ab.enabled ab.runs
    cases a
    cases b
    simp_all

instance : IsPartialOrder DebuggingSettings DebuggingSettings.Within where
  refl _ := ⟨rfl, refl_of _ _⟩
  trans _ _ _ ab bc := ⟨ab.1.trans bc.1, trans_of _ ab.2 bc.2⟩
  antisymm a b ab ba := by
    have info := antisymm_of _ ab.debugInfo ba.debugInfo
    have strings := ab.revertStrings
    cases a
    cases b
    simp_all

instance : IsPartialOrder ModelCheckerSettings ModelCheckerSettings.Within where
  refl _ := ⟨rfl, rfl, rfl, rfl, refl_of _ _, rfl, rfl, refl_of _ _, refl_of _ _, refl_of _ _⟩
  trans _ _ _ ab bc := ⟨ab.1.trans bc.1, ab.2.trans bc.2, ab.3.trans bc.3, ab.4.trans bc.4,
    trans_of _ ab.5 bc.5, ab.6.trans bc.6, ab.7.trans bc.7, trans_of _ ab.8 bc.8,
    trans_of _ ab.9 bc.9, trans_of _ ab.10 bc.10⟩
  antisymm a b ab ba := by
    have invariants := antisymm_of _ ab.invariants ba.invariants
    have solvers := antisymm_of _ ab.solvers ba.solvers
    have unsupported := antisymm_of _ ab.showUnsupported ba.showUnsupported
    have safe := antisymm_of _ ab.showProvedSafe ba.showProvedSafe
    obtain ⟨contracts, engine, timeout, targets, -, unproved, slacks, -, -, -⟩ := ab
    cases a
    cases b
    simp_all

instance : IsPartialOrder EvmVersion EvmVersion.Within where
  refl a := isLE_refl a
  trans _ _ _ ab bc := TransCmp.isLE_trans ab bc
  antisymm a b ab ba := by
    rw [EvmVersion.Within, EvmVersion.compare_eq, Nat.isLE_compare] at ab ba
    exact EvmVersion.ctorIdx_injective (Nat.le_antisymm ab ba)

instance : IsPartialOrder Settings Settings.Within where
  refl _ := ⟨refl_of _ _, refl_of _ _, refl_of _ _, refl_of _ _, refl_of _ _, rfl, refl_of _ _,
    refl_of _ _, refl_of _ _, rfl⟩
  trans _ _ _ ab bc := ⟨trans_of _ ab.1 bc.1, trans_of _ ab.2 bc.2, trans_of _ ab.3 bc.3,
    trans_of _ ab.4 bc.4, trans_of _ ab.5 bc.5, ab.6.trans bc.6, trans_of _ ab.7 bc.7,
    trans_of _ ab.8 bc.8, trans_of _ ab.9 bc.9, ab.10.trans bc.10⟩
  antisymm a b ab ba := by
    have stopAfter := antisymm_of _ ab.stopAfter ba.stopAfter
    have remappings := antisymm_of _ ab.remappings ba.remappings
    have optimizer := antisymm_of _ ab.optimizer ba.optimizer
    have modelChecker := antisymm_of _ ab.modelChecker ba.modelChecker
    have metadata := antisymm_of _ ab.metadata ba.metadata
    have evmVersion := antisymm_of _ ab.evmVersion ba.evmVersion
    have viaIr := antisymm_of _ ab.viaIr ba.viaIr
    have debug := antisymm_of _ ab.debug ba.debug
    have rest := And.intro ab.outputSelection ab.libraries
    cases a
    cases b
    simp_all

/-! ## What a compiler accepts -/

/-- No option is set that came after the version. -/
@[mk_iff]
structure Settings.Known (version : Version) (s : Settings) : Prop where
  bytecodeHash : version.before (.new 0 6 0) → ∀ m ∈ s.metadata, m.bytecodeHash = none
  debug : version.before (.new 0 6 0) → s.debug = none
  stopAfter : version.before (.new 0 7 3) → s.stopAfter = none
  viaIr : version.before (.new 0 7 5) → s.viaIr = none
  inliner : version.before (.new 0 8 5) → ∀ d ∈ s.optimizer.details, d.inliner = none
  modelChecker : version.before (.new 0 8 7) → s.modelChecker = none
  debugInfo : version.before (.new 0 8 10) → ∀ d ∈ s.debug, d.debugInfo = []
  invariants : version.before (.new 0 8 10) → ∀ m ∈ s.modelChecker, m.invariants = none
  cborMetadata : version.before (.new 0 8 18) → ∀ m ∈ s.metadata, m.cborMetadata = none
  solvers : version.before (.new 0 8 18) →
    ∀ m ∈ s.modelChecker, ∀ solvers ∈ m.solvers, .eld ∉ solvers
  showProvedSafe : version.before (.new 0 8 20) → ∀ m ∈ s.modelChecker, m.showProvedSafe = none
  showUnsupported : version.before (.new 0 8 20) → ∀ m ∈ s.modelChecker, m.showUnsupported = none
  evmVersion : ∀ evm ∈ s.evmVersion, ∃ newest, EvmVersion.newest version = some newest ∧
    evm.Within newest

/-- All options are known to the version, and those of Yul sources have no remappings. -/
structure Settings.Accepted (version : Version) (language : SolcLanguage) (s : Settings) : Prop
    extends s.Known version where
  remappings : language = .yul → s.remappings = []

/-! ### The parts that are lowered -/

theorem SettingsMetadata.part_bytecodeHash : Part Within (Option.le Eq) bytecodeHash
    fun x m => { m with bytecodeHash := x } where
  get_set _ _ := rfl
  mono le := le.bytecodeHash
  below le := { refl_of Within _ with bytecodeHash := le }
  above le le' := { le with bytecodeHash := le' }

theorem SettingsMetadata.part_cborMetadata : Part Within (Option.le Eq) cborMetadata
    fun x m => { m with cborMetadata := x } where
  get_set _ _ := rfl
  mono le := le.cborMetadata
  below le := { refl_of Within _ with cborMetadata := le }
  above le le' := { le with cborMetadata := le' }

theorem OptimizerDetails.part_inliner : Part Within (Option.le Eq) inliner
    fun x d => { d with inliner := x } where
  get_set _ _ := rfl
  mono le := le.inliner
  below le := { refl_of Within _ with inliner := le }
  above le le' := { le with inliner := le' }

theorem Optimizer.part_details : Part Within (Option.le OptimizerDetails.Within) details
    fun x o => { o with details := x } where
  get_set _ _ := rfl
  mono le := le.details
  below le := { refl_of Within _ with details := le }
  above le le' := { le with details := le' }

theorem DebuggingSettings.part_debugInfo : Part Within List.Sublist debugInfo
    fun x d => { d with debugInfo := x } where
  get_set _ _ := rfl
  mono le := le.debugInfo
  below le := { refl_of Within _ with debugInfo := le }
  above le le' := { le with debugInfo := le' }

namespace ModelCheckerSettings

theorem part_invariants : Part Within (Option.le Eq) invariants
    fun x m => { m with invariants := x } where
  get_set _ _ := rfl
  mono le := le.invariants
  below le := { refl_of Within _ with invariants := le }
  above le le' := { le with invariants := le' }

theorem part_solvers : Part Within (Option.le List.Sublist) solvers
    fun x m => { m with solvers := x } where
  get_set _ _ := rfl
  mono le := le.solvers
  below le := { refl_of Within _ with solvers := le }
  above le le' := { le with solvers := le' }

theorem part_showProvedSafe : Part Within (Option.le Eq) showProvedSafe
    fun x m => { m with showProvedSafe := x } where
  get_set _ _ := rfl
  mono le := le.showProvedSafe
  below le := { refl_of Within _ with showProvedSafe := le }
  above le le' := { le with showProvedSafe := le' }

theorem part_showUnsupported : Part Within (Option.le Eq) showUnsupported
    fun x m => { m with showUnsupported := x } where
  get_set _ _ := rfl
  mono le := le.showUnsupported
  below le := { refl_of Within _ with showUnsupported := le }
  above le le' := { le with showUnsupported := le' }

end ModelCheckerSettings

namespace Settings

theorem part_stopAfter : Part Within (Option.le Eq) stopAfter
    fun x s => { s with stopAfter := x } where
  get_set _ _ := rfl
  mono le := le.stopAfter
  below le := { refl_of Within _ with stopAfter := le }
  above le le' := { le with stopAfter := le' }

theorem part_remappings : Part Within List.Sublist remappings
    fun x s => { s with remappings := x } where
  get_set _ _ := rfl
  mono le := le.remappings
  below le := { refl_of Within _ with remappings := le }
  above le le' := { le with remappings := le' }

theorem part_optimizer : Part Within Optimizer.Within optimizer
    fun x s => { s with optimizer := x } where
  get_set _ _ := rfl
  mono le := le.optimizer
  below le := { refl_of Within _ with optimizer := le }
  above le le' := { le with optimizer := le' }

theorem part_modelChecker : Part Within (Option.le ModelCheckerSettings.Within) modelChecker
    fun x s => { s with modelChecker := x } where
  get_set _ _ := rfl
  mono le := le.modelChecker
  below le := { refl_of Within _ with modelChecker := le }
  above le le' := { le with modelChecker := le' }

theorem part_metadata : Part Within (Option.le SettingsMetadata.Within) metadata
    fun x s => { s with metadata := x } where
  get_set _ _ := rfl
  mono le := le.metadata
  below le := { refl_of Within _ with metadata := le }
  above le le' := { le with metadata := le' }

theorem part_evmVersion : Part Within (Option.le EvmVersion.Within) evmVersion
    fun x s => { s with evmVersion := x } where
  get_set _ _ := rfl
  mono le := le.evmVersion
  below le := { refl_of Within _ with evmVersion := le }
  above le le' := { le with evmVersion := le' }

theorem part_viaIr : Part Within (Option.le Eq) viaIr fun x s => { s with viaIr := x } where
  get_set _ _ := rfl
  mono le := le.viaIr
  below le := { refl_of Within _ with viaIr := le }
  above le le' := { le with viaIr := le' }

theorem part_debug : Part Within (Option.le DebuggingSettings.Within) debug
    fun x s => { s with debug := x } where
  get_set _ _ := rfl
  mono le := le.debug
  below le := { refl_of Within _ with debug := le }
  above le le' := { le with debug := le' }

/-! ### Sanitizing is lowering to what is accepted -/

theorem interior_evmVersion (version : Version) : Interior (Option.le EvmVersion.Within)
    (fun o => ∀ evm ∈ o, ∃ newest, EvmVersion.newest version = some newest ∧ evm.Within newest)
    (fun o => o.bind (·.normalizeVersionSolc version)) where
  lower a b le mem evm here := by
    cases a <;> simp_all [Option.le]
    obtain ⟨newest, found, le'⟩ := mem
    exact ⟨newest, found, trans_of EvmVersion.Within le le'⟩
  below o := by
    cases o with
    | none => trivial
    | some evm =>
      rw [Option.bind_some, EvmVersion.normalizeVersionSolc_eq]
      cases EvmVersion.newest version with
      | none => trivial
      | some newest => exact (isLE_ordMin.mp (isLE_refl _)).1
  mem o evm here := by
    obtain ⟨evm', -, normalized⟩ := Option.bind_eq_some_iff.mp here
    rw [EvmVersion.normalizeVersionSolc_eq] at normalized
    obtain ⟨newest, found, rfl⟩ := Option.map_eq_some_iff.mp normalized
    exact ⟨newest, found, (isLE_ordMin.mp (isLE_refl _)).2⟩
  greatest a b le mem := by
    cases b with
    | none => exact optionLe_none _
    | some b =>
      cases a with
      | none => cases le
      | some a =>
        obtain ⟨newest, found, le'⟩ := mem b rfl
        rw [Option.bind_some, EvmVersion.normalizeVersionSolc_eq, found]
        exact isLE_ordMin.mpr ⟨le, le'⟩

theorem interior_clearBytecodeHash :
    Interior Within (fun s => ∀ m ∈ s.metadata, m.bytecodeHash = none) clearBytecodeHash :=
  .part part_metadata (.map (.part SettingsMetadata.part_bytecodeHash .none))

theorem interior_clearDebug : Interior Within (fun s => s.debug = none) clearDebug :=
  .part part_debug .none

theorem interior_clearStopAfter : Interior Within (fun s => s.stopAfter = none) clearStopAfter :=
  .part part_stopAfter .none

theorem interior_clearViaIr : Interior Within (fun s => s.viaIr = none) clearViaIr :=
  .part part_viaIr .none

theorem interior_clearInliner :
    Interior Within (fun s => ∀ d ∈ s.optimizer.details, d.inliner = none) clearInliner :=
  .part part_optimizer (.part Optimizer.part_details
    (.map (.part OptimizerDetails.part_inliner .none)))

theorem interior_clearModelChecker :
    Interior Within (fun s => s.modelChecker = none) clearModelChecker :=
  .part part_modelChecker .none

theorem interior_clearDebugInfo :
    Interior Within (fun s => ∀ d ∈ s.debug, d.debugInfo = []) clearDebugInfo :=
  .part part_debug (.map (.part DebuggingSettings.part_debugInfo .nil))

theorem interior_clearInvariants :
    Interior Within (fun s => ∀ m ∈ s.modelChecker, m.invariants = none) clearInvariants :=
  .part part_modelChecker (.map (.part ModelCheckerSettings.part_invariants .none))

theorem interior_clearCborMetadata :
    Interior Within (fun s => ∀ m ∈ s.metadata, m.cborMetadata = none) clearCborMetadata :=
  .part part_metadata (.map (.part SettingsMetadata.part_cborMetadata .none))

theorem interior_removeEld : Interior Within
    (fun s => ∀ m ∈ s.modelChecker, ∀ solvers ∈ m.solvers, ∀ solver ∈ solvers,
      decide (solver ≠ .eld) = true) removeEld :=
  .part part_modelChecker (.map (.part ModelCheckerSettings.part_solvers (.map (.filter _))))

theorem interior_clearShown : Interior Within
    (fun s => ∀ m ∈ s.modelChecker, m.showProvedSafe = none ∧ m.showUnsupported = none)
    clearShown :=
  .part part_modelChecker (.map (.comp (.part ModelCheckerSettings.part_showProvedSafe .none)
    (.part ModelCheckerSettings.part_showUnsupported .none)))

theorem interior_normalizeEvmVersion (version : Version) : Interior Within
    (fun s => ∀ evm ∈ s.evmVersion, ∃ newest, EvmVersion.newest version = some newest ∧
      evm.Within newest) (normalizeEvmVersion · version) :=
  .part part_evmVersion (interior_evmVersion version)

theorem interior_clearRemappings : Interior Within (fun s => s.remappings = []) clearRemappings :=
  .part part_remappings .nil

theorem not_eld {solvers : List ModelCheckerSolver} :
    (∀ solver ∈ solvers, decide (solver ≠ .eld) = true) ↔ .eld ∉ solvers := by
  simp only [decide_eq_true_eq]
  exact ⟨fun others mem => others _ mem rfl, fun absent solver mem same => absent (same ▸ mem)⟩

/-- Sanitizing keeps as much of the settings as the compiler accepts. -/
theorem interior_sanitize (version : Version) (language : SolcLanguage) :
    Interior Within (Accepted version language) fun s => s.sanitize version language := by
  have gates := ((((((((interior_clearBytecodeHash.comp interior_clearDebug).when
      (version.before (.new 0 6 0) = true)).comp
    (interior_clearStopAfter.when (version.before (.new 0 7 3) = true))).comp
    (interior_clearViaIr.when (version.before (.new 0 7 5) = true))).comp
    (interior_clearInliner.when (version.before (.new 0 8 5) = true))).comp
    (interior_clearModelChecker.when (version.before (.new 0 8 7) = true))).comp
    ((interior_clearDebugInfo.comp interior_clearInvariants).when
      (version.before (.new 0 8 10) = true))).comp
    ((interior_clearCborMetadata.comp interior_removeEld).when
      (version.before (.new 0 8 18) = true))).comp
    (interior_clearShown.when (version.before (.new 0 8 20) = true))
  have known := (gates.comp (interior_normalizeEvmVersion version)).congr (B := Known version) ?_
  · cases language with
    | solidity =>
      have whole : Interior Within _ fun s : Settings => s.sanitize version .solidity := known
      exact whole.congr fun s => ⟨fun known => ⟨known, by simp⟩, Accepted.toKnown⟩
    | yul =>
      have whole : Interior Within _ fun s : Settings => s.sanitize version .yul :=
        known.comp interior_clearRemappings
      exact whole.congr fun s => ⟨fun both => ⟨both.1, fun _ => both.2⟩,
        fun h => ⟨h.toKnown, h.remappings rfl⟩⟩
  intro s
  constructor
  · rintro ⟨⟨⟨⟨⟨⟨⟨⟨since06, since073⟩, since075⟩, since085⟩, since087⟩, since0810⟩, since0818⟩,
      since0820⟩, evmVersion⟩
    exact {
      bytecodeHash := fun old => (since06 old).1, debug := fun old => (since06 old).2
      stopAfter := since073, viaIr := since075, inliner := since085, modelChecker := since087
      debugInfo := fun old => (since0810 old).1, invariants := fun old => (since0810 old).2
      cborMetadata := fun old => (since0818 old).1
      solvers := fun old m here solvers here' => not_eld.mp ((since0818 old).2 m here solvers here')
      showProvedSafe := fun old m here => (since0820 old m here).1
      showUnsupported := fun old m here => (since0820 old m here).2
      evmVersion }
  · intro h
    exact ⟨⟨⟨⟨⟨⟨⟨⟨fun old => ⟨h.bytecodeHash old, h.debug old⟩, h.stopAfter⟩, h.viaIr⟩, h.inliner⟩,
      h.modelChecker⟩, fun old => ⟨h.debugInfo old, h.invariants old⟩⟩,
      fun old => ⟨h.cborMetadata old, fun m here solvers here' =>
        not_eld.mpr (h.solvers old m here solvers here')⟩⟩,
      fun old m here => ⟨h.showProvedSafe old m here, h.showUnsupported old m here⟩⟩,
      h.evmVersion⟩

/-! ### Versions -/

theorem before_ordMin {v w since : Version} :
    (ordMin v w).before since = true ↔ v.before since = true ∨ w.before since = true := by
  simp only [Version.before, decide_eq_true_eq, compare_eq_lt_iff, isLE_ordMin, not_and_or]

theorem newest_ordMin {v w : Version} {evm : EvmVersion} :
    (∃ newest, EvmVersion.newest (ordMin v w) = some newest ∧ evm.Within newest) ↔
      (∃ newest, EvmVersion.newest v = some newest ∧ evm.Within newest) ∧
        ∃ newest, EvmVersion.newest w = some newest ∧ evm.Within newest := by
  have newer : ∀ {v w : Version}, (compare v w).isLE = true →
      (∃ newest, EvmVersion.newest v = some newest ∧ evm.Within newest) →
        ∃ newest, EvmVersion.newest w = some newest ∧ evm.Within newest := by
    rintro v w le ⟨newest, found, within⟩
    obtain ⟨newest', found', le'⟩ := EvmVersion.newest_mono le found
    exact ⟨newest', found', trans_of EvmVersion.Within within le'⟩
  have both := isLE_ordMin.mp (isLE_refl (ordMin v w))
  refine ⟨fun h => ⟨newer both.1 h, newer both.2 h⟩, fun h => ?_⟩
  unfold ordMin
  split
  · exact h.2
  · exact h.1

/-- The older of two compilers accepts what both accept. -/
theorem accepted_ordMin {v w : Version} {language : SolcLanguage} {s : Settings} :
    Accepted (ordMin v w) language s ↔ Accepted v language s ∧ Accepted w language s := by
  have known : s.Known (ordMin v w) ↔ s.Known v ∧ s.Known w := by
    simp only [known_iff, before_ordMin, newest_ordMin, or_imp, forall_and]
    exact iff_of_eq (by ac_rfl)
  constructor
  · intro h
    exact ⟨⟨(known.mp h.toKnown).1, h.remappings⟩, ⟨(known.mp h.toKnown).2, h.remappings⟩⟩
  · rintro ⟨hv, hw⟩
    exact ⟨known.mpr ⟨hv.toKnown, hw.toKnown⟩, hv.remappings⟩

/-! ### Output selections -/

def select (s : Settings) (selection : OutputSelection) : Settings :=
  { s with outputSelection := selection }

theorem ite_select {selection : OutputSelection} {p : Prop} [Decidable p]
    {f : Settings → Settings} (same : ∀ s, f (s.select selection) = (f s).select selection)
    (s : Settings) : (if p then f (s.select selection) else s.select selection) =
      (if p then f s else s).select selection := by
  split
  · exact same s
  · rfl

/-- The selected outputs neither matter for sanitizing nor change by it. -/
theorem sanitize_select (s : Settings) (selection : OutputSelection) (version : Version)
    (language : SolcLanguage) : (s.select selection).sanitize version language =
      (s.sanitize version language).select selection := by
  dsimp only [sanitize]
  rw [ite_select (f := fun s => s.clearBytecodeHash.clearDebug) fun _ => rfl]
  rw [ite_select (f := clearStopAfter) fun _ => rfl, ite_select (f := clearViaIr) fun _ => rfl,
    ite_select (f := clearInliner) fun _ => rfl, ite_select (f := clearModelChecker) fun _ => rfl]
  rw [ite_select (f := fun s => s.clearDebugInfo.clearInvariants) fun _ => rfl,
    ite_select (f := fun s => s.clearCborMetadata.removeEld) fun _ => rfl,
    ite_select (f := clearShown) fun _ => rfl]
  cases language <;> rfl

end Settings

namespace SolcVersionedInput

variable (sources : Sources) (settings : SolcSettings) (language : SolcLanguage)
  (version : Version)

theorem build_settings : (build sources settings language version).input.settings =
    settings.settings.sanitize version language := by
  cases language with
  | solidity => rfl
  | yul =>
    have cleared : (SolcInput.new .yul sources settings.settings).settings =
        settings.settings.clearRemappings := by
      cases remappings : settings.settings.remappings <;>
        simp [SolcInput.new, Settings.clearRemappings, remappings]
      rw [← remappings]
    have twice := (Settings.interior_clearRemappings.comp
      (Settings.interior_sanitize version .yul)).congr (B := Settings.Accepted version .yul)
      fun s => ⟨And.right, fun h => ⟨h.remappings rfl, h⟩⟩
    rw [build, SolcInput.sanitized, cleared]
    exact twice.unique (Settings.interior_sanitize version .yul) settings.settings

/-- The input for a compiler asks for as much of the settings as the compiler accepts. Settings
that were built for one compiler become for another one what they are for the older of the two.
Artifacts that may serve the settings were made with the same input, but for outputs. -/
theorem build_greatest :
    let built := (build sources settings language version).input.settings
    built.Within settings.settings ∧ built.Accepted version language ∧
      (∀ s : Settings, s.Within settings.settings → s.Accepted version language →
        s.Within built) ∧
      (∀ version', (build sources { settings with settings := built } language
          version').input.settings =
        (build sources settings language (ordMin version version')).input.settings) ∧
      ∀ other : SolcSettings, settings.canUseCached other = true →
        ∃ selection, (build sources other language version).input.settings =
          { built with outputSelection := selection } ∧
            built.outputSelection.isSubsetOf selection = true := by
  have interior := Settings.interior_sanitize version language
  simp only [build_settings]
  refine ⟨interior.below _, interior.mem _, fun s => interior.greatest _ s, fun version' => ?_,
    fun other cached => ?_⟩
  · have both := (interior.comp (Settings.interior_sanitize version' language)).congr
      fun s => Settings.accepted_ordMin.symm
    exact both.unique (Settings.interior_sanitize _ language) settings.settings
  · have same : other.settings = settings.settings.select other.settings.outputSelection := by
      simp only [SolcSettings.canUseCached, Bool.and_eq_true, decide_eq_true_eq] at cached
      cases otherEq : other.settings
      simp_all [Settings.select]
    refine ⟨other.settings.outputSelection, ?_, ?_⟩
    · rw [same, Settings.sanitize_select]
      rfl
    · simp only [SolcSettings.canUseCached, Bool.and_eq_true] at cached
      rw [(interior.below settings.settings).outputSelection]
      exact cached.2

/-- Options that an older compiler does not know, with a single output. -/
def newOptions : SolcSettings where
  settings := {
    remappings := [{ name := "lib/", path := "/p/lib/" }]
    metadata := some { bytecodeHash := some .none, cborMetadata := some false }
    outputSelection := OutputSelection.commonOutputSelection ["abi"]
    evmVersion := some .cancun
    viaIr := some true }

/-- The same with more outputs. -/
def newOptionsWider : SolcSettings where
  settings := { newOptions.settings with
    outputSelection := OutputSelection.commonOutputSelection ["metadata", "abi"] }

theorem build_greatest_newOptions :
    (build ∅ newOptions .yul (.new 0 7 4)).input.settings = { newOptions.settings with
      remappings := []
      metadata := some { bytecodeHash := some .none }
      evmVersion := some .istanbul
      viaIr := none } ∧
    ∃ selection, (build ∅ newOptionsWider .yul (.new 0 7 4)).input.settings =
      { (build ∅ newOptions .yul (.new 0 7 4)).input.settings with outputSelection := selection } ∧
        (build ∅ newOptions .yul (.new 0 7 4)).input.settings.outputSelection.isSubsetOf
          selection = true :=
  ⟨by decide +kernel, (build_greatest ∅ newOptions .yul (.new 0 7 4)).2.2.2.2 newOptionsWider
    (by decide +kernel)⟩

end SolcVersionedInput

end FoundryCore
