import FoundryCore.Diagnostics.Error

/-!
# Diagnostics that fail a build

A build fails if there is an error, and if warnings are errors to it, if there is a warning that is
not ignored. What is no warning is never ignored and so counts as one: an error or an info makes
the output have warnings.
-/

open Std

namespace FoundryCore

/-- The interface of a contract, by the names of its functions. -/
structure JsonAbi where
  functions : ExtTreeMap String (List String)

class CompilerContract (γ : Type) where
  abiRef : γ → Option JsonAbi

/-- A contract of Solc. -/
structure Contract where
  abi : Option JsonAbi

instance : CompilerContract Contract := ⟨Contract.abi⟩

/-- The codes, the codes below paths and the paths whose warnings are ignored. -/
structure Ignored where
  errorCodes : List UInt64
  errorCodesFrom : List (PathBuf × List UInt64)
  filePaths : List PathBuf

namespace AggregatedCompilerOutput

open CompilationError CompilerContract

variable {γ ε β : Type} [CompilerContract γ] [CompilationError ε]
  (output : AggregatedCompilerOutput γ ε β)

/-- The contracts with their files. -/
def contractsWithFiles : List (PathBuf × γ) :=
  output.contracts.toList.flatMap fun (file, contracts) =>
    contracts.toList.flatMap fun (_, versions) => versions.map fun c => (file, c.contract)

/-- Whether the contract is expected to be a test; a path is given by its text. -/
def isTest (contractPath : String) : Bool :=
  if ".t.sol".toList.isSuffixOf contractPath.toList then true
  else (output.contractsWithFiles.filter fun (path, _) => path = .ofString contractPath).any
    fun (_, contract) => (abiRef contract).any fun abi => abi.functions.contains "IS_TEST"

variable (ignored : Ignored)

def shouldIgnore (error : ε) : Bool :=
  if !isWarning error then false
  else match errorCode error with
    | none => false
    | some code => ignored.errorCodes.contains code || match sourceLocation error with
      | none => false
      | some loc =>
        let path := PathBuf.ofString loc.file
        ignored.filePaths.any path.startsWith ||
          ignored.errorCodesFrom.any (fun (start, codes) =>
            path.startsWith start && codes.contains code) ||
          -- licenses and the sizes of contracts are of no interest in tests
          (output.isTest loc.file && (code == 1878 || code == 5574))

def hasWarning : Bool := output.errors.any fun error => !output.shouldIgnore ignored error

def hasError (compilerSeverityFilter : Severity) : Bool :=
  output.errors.any fun err =>
    if isError err then true
    else if severity err ≤ compilerSeverityFilter then
      -- the other diagnostics are looked at as well
      if compilerSeverityFilter.isWarning then output.hasWarning ignored else true
    else false

/-! ## What the diagnostics say -/

/-- There is an error. -/
def Fails : Prop := ∃ err ∈ output.errors, isError err = true

/-- There is a warning that is not ignored. -/
def Warns : Prop :=
  ∃ err ∈ output.errors, isWarning err = true ∧ output.shouldIgnore ignored err = false

/-- The output without its informational diagnostics. -/
def withoutInfos : AggregatedCompilerOutput γ ε β :=
  { output with errors := output.errors.filter fun err => !(severity err).isInfo }

/-- Errors and the warnings that are not ignored decide whether there are errors, and these
warnings alone whether there are warnings. -/
structure FiltersBySeverity : Prop where
  error : output.hasError ignored .warning ↔ output.Fails ∨ output.Warns ignored
  warning : output.hasWarning ignored ↔ output.Warns ignored
  infos_error :
    output.withoutInfos.hasError ignored .warning = output.hasError ignored .warning
  infos_warning : output.withoutInfos.hasWarning ignored = output.hasWarning ignored

variable {output ignored}

theorem shouldIgnore_of_not_isWarning {err : ε} (other : isWarning err = false) :
    output.shouldIgnore ignored err = false := by
  simp [shouldIgnore, other]

/-- Whatever is no warning counts as one. -/
theorem hasWarning_iff : output.hasWarning ignored ↔
    (∃ err ∈ output.errors, isWarning err = false) ∨ output.Warns ignored := by
  simp only [hasWarning, List.any_eq_true, Bool.not_eq_true', Warns]
  constructor
  · rintro ⟨err, mem, kept⟩
    cases warning : isWarning err with
    | false => exact .inl ⟨err, mem, warning⟩
    | true => exact .inr ⟨err, mem, warning, kept⟩
  · rintro (⟨err, mem, other⟩ | ⟨err, mem, -, kept⟩)
    · exact ⟨err, mem, shouldIgnore_of_not_isWarning other⟩
    · exact ⟨err, mem, kept⟩

/-- A warning has all diagnostics looked at, also if it is ignored. -/
theorem hasError_iff : output.hasError ignored .warning ↔
    output.Fails ∨ (∃ err ∈ output.errors, isWarning err = true) ∧ output.hasWarning ignored := by
  have each (err : ε) : (if isError err then true
      else if severity err ≤ .warning then
        if Severity.warning.isWarning then output.hasWarning ignored else true
      else false) = true ↔
        isError err = true ∨ isWarning err = true ∧ output.hasWarning ignored := by
    rw [isError_eq, isWarning_eq]
    cases severity err <;> simp [Severity.le_warning_iff, Severity.isError, Severity.isWarning]
  simp only [hasError, List.any_eq_true, each, Fails]
  grind

omit [CompilerContract γ] in
theorem mem_withoutInfos {err : ε} : err ∈ output.withoutInfos.errors ↔
    err ∈ output.errors ∧ (severity err).isInfo = false := by
  simp [withoutInfos]

theorem warns_withoutInfos : output.withoutInfos.Warns ignored ↔ output.Warns ignored := by
  have same (err : ε) :
      output.withoutInfos.shouldIgnore ignored err = output.shouldIgnore ignored err := rfl
  simp only [Warns, same, mem_withoutInfos, isWarning_eq]
  grind [Severity.isInfo, Severity.isWarning]

omit [CompilerContract γ] in
theorem fails_withoutInfos : output.withoutInfos.Fails ↔ output.Fails := by
  simp only [Fails, mem_withoutInfos, isError_eq]
  grind [Severity.isInfo, Severity.isError]

/-- There are only warnings, or one that is not ignored. -/
def OnlyWarns (output : AggregatedCompilerOutput γ ε β) (ignored : Ignored) : Prop :=
  (∀ err ∈ output.errors, isWarning err = true) ∨ output.Warns ignored

theorem OnlyWarns.hasWarning_iff (only : output.OnlyWarns ignored) :
    output.hasWarning ignored ↔ output.Warns ignored := by
  rw [AggregatedCompilerOutput.hasWarning_iff]
  grind [OnlyWarns]

theorem OnlyWarns.hasError_iff (only : output.OnlyWarns ignored) :
    output.hasError ignored .warning ↔ output.Fails ∨ output.Warns ignored := by
  rw [AggregatedCompilerOutput.hasError_iff, only.hasWarning_iff]
  grind [Warns]

theorem OnlyWarns.withoutInfos (only : output.OnlyWarns ignored) :
    output.withoutInfos.OnlyWarns ignored := by
  refine only.imp (fun only err mem => only err ?_) warns_withoutInfos.mpr
  exact List.mem_of_mem_filter mem

/-- The severities decide if and only if there are only warnings, or one that is not ignored. -/
theorem filtersBySeverity_iff (output : AggregatedCompilerOutput γ ε β) (ignored : Ignored) :
    output.FiltersBySeverity ignored ↔ output.OnlyWarns ignored := by
  constructor
  · rintro ⟨-, warning, -, -⟩
    rw [hasWarning_iff] at warning
    by_contra neither
    obtain ⟨notOnly, silent⟩ := not_or.mp neither
    obtain ⟨err, mem, other⟩ : ∃ err ∈ output.errors, isWarning err = false := by
      simpa using notOnly
    exact silent (warning.mp (.inl ⟨err, mem, other⟩))
  · intro only
    refine ⟨only.hasError_iff, only.hasWarning_iff, ?_, ?_⟩
    · rw [Bool.eq_iff_iff, only.hasError_iff, only.withoutInfos.hasError_iff, warns_withoutInfos,
        fails_withoutInfos]
    · rw [Bool.eq_iff_iff, only.hasWarning_iff, only.withoutInfos.hasWarning_iff,
        warns_withoutInfos]

/-! ## An info next to an ignored warning -/

/-- A warning and an info. -/
def warningAndInfo : AggregatedCompilerOutput Contract Error Unit where
  errors := [⟨none, .warning, some 2018, "can be view", none⟩, ⟨none, .info, none, "done", none⟩]

def onlyCode : Ignored := ⟨[2018], [], []⟩

/-- The warning is ignored, and the build fails because of the info. -/
theorem not_filtersBySeverity_info :
    warningAndInfo.hasError onlyCode .warning = true ∧
      warningAndInfo.withoutInfos.hasError onlyCode .warning = false ∧
      ¬warningAndInfo.FiltersBySeverity onlyCode := by
  refine ⟨by decide, by decide, fun filters => ?_⟩
  have same := filters.infos_error
  revert same
  decide

end AggregatedCompilerOutput

end FoundryCore
