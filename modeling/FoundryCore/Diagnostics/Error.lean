import FoundryCore.AggregatedOutput

/-!
# Diagnostics of the compilers

Each compiler has its own type of diagnostics. What a build asks of them is their severity, and
the code and the file that they may have.
-/

namespace FoundryCore

/-- The severity of the error. -/
inductive Severity
  | error | warning | info
deriving DecidableEq, Repr

namespace Severity

/-- The place in the derived order, where an error is the least. -/
def rank : Severity → Nat
  | error => 0
  | warning => 1
  | info => 2

instance : LE Severity := ⟨fun a b => a.rank ≤ b.rank⟩

instance : DecidableLE Severity := fun a b => inferInstanceAs (Decidable (a.rank ≤ b.rank))

def isError (severity : Severity) : Bool := severity = error

def isWarning (severity : Severity) : Bool := severity = warning

def isInfo (severity : Severity) : Bool := severity = info

def asStr : Severity → String
  | error => "Error"
  | warning => "Warning"
  | info => "Info"

theorem le_warning_iff {severity : Severity} : severity ≤ warning ↔ severity ≠ info := by
  cases severity <;> decide

end Severity

structure SourceLocation where
  file : String
  start : Int32
  stop : Int32
deriving DecidableEq

/-- A diagnostic of Solc. -/
structure Error where
  sourceLocation : Option SourceLocation
  severity : Severity
  errorCode : Option UInt64
  message : String
  formattedMessage : Option String
deriving DecidableEq

/-- A diagnostic of Vyper. -/
structure VyperCompilationError where
  message : String
  severity : Severity
  formattedMessage : Option String
deriving DecidableEq

inductive MultiCompilerError
  | solc (error : Error)
  | vyper (error : VyperCompilationError)
deriving DecidableEq

class CompilationError (ε : Type) where
  isWarning : ε → Bool
  isError : ε → Bool
  sourceLocation : ε → Option SourceLocation
  severity : ε → Severity
  errorCode : ε → Option UInt64
  isWarning_eq : ∀ err, isWarning err = (severity err).isWarning
  isError_eq : ∀ err, isError err = (severity err).isError

instance : CompilationError Error where
  isWarning err := err.severity.isWarning
  isError err := err.severity.isError
  sourceLocation := Error.sourceLocation
  severity := Error.severity
  errorCode := Error.errorCode
  isWarning_eq _ := rfl
  isError_eq _ := rfl

instance : CompilationError VyperCompilationError where
  isWarning err := err.severity.isWarning
  isError err := err.severity.isError
  sourceLocation _ := none
  severity := VyperCompilationError.severity
  errorCode _ := none
  isWarning_eq _ := rfl
  isError_eq _ := rfl

open CompilationError in
instance : CompilationError MultiCompilerError where
  isWarning
    | .solc err => isWarning err
    | .vyper err => isWarning err
  isError
    | .solc err => isError err
    | .vyper err => isError err
  sourceLocation
    | .solc err => sourceLocation err
    | .vyper err => sourceLocation err
  severity
    | .solc err => severity err
    | .vyper err => severity err
  errorCode
    | .solc err => errorCode err
    | .vyper err => errorCode err
  isWarning_eq err := by cases err <;> rfl
  isError_eq err := by cases err <;> rfl

end FoundryCore
