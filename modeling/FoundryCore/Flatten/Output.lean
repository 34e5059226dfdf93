import FoundryCore.Flatten.Passes

/-!
# The flattened output

The updates of all passes are applied to the sources, and what they leave is written behind the
license and the pragmas, with no more than one empty line in a row.
-/

open Std

namespace FoundryCore.Flatten

/-- A text that was built in memory. -/
def held (text : String) : Option Str :=
  if fits : text.utf8ByteSize ≤ isizeMax then some ⟨text, fits⟩ else none

/-- The derived order of updates. -/
def compareUpdates : Range × String → Range × String → Ordering :=
  compareLex (compareOn (·.1.1)) (compareLex (compareOn (·.1.2)) (compareOn (·.2)))

/-- The updates of a file, in their order. -/
def updatesOf (updates : Updates) (path : PathBuf) : List (Range × String) :=
  Library.sortBy compareUpdates ((updates.filter (·.1.path = path)).map fun (loc, text) =>
    ((loc.start.toNat, loc.stop.toNat), text))

/-- The content of a file with its updates. -/
def updatedContent (updates : Updates) (path : PathBuf) (content : String) : Option String := do
  let content ← held content
  let updates ← (updatesOf updates path).mapM fun (range, text) => (held text).map (range, ·)
  let updated ← (replaceSourceContent content updates).toOption
  return updated.1

/-- Utility function to apply a set of updates to provided sources. -/
def applyUpdates (sources : Sources) (updates : Updates) : Option Sources :=
  sources.toList.foldlM (fun sources (path, source) => do
    let content ← updatedContent updates path source.content
    return sources.insert path { source with content }) sources

/-- Takes the contents out of the sources in the order of the paths. -/
def takeContents (sources : Sources) : List PathBuf → Option (List String)
  | [] => some []
  | path :: paths => do
    let source ← sources[path]?
    let contents ← takeContents (sources.erase path) paths
    return source.content :: contents

structure FlatteningResult where
  /-- Updated sources in the order they are written to the output file. -/
  sources : List String
  pragmas : List String
  license : Option String

/-- What is written in front of the first pragma. -/
def FlatteningResult.head (result : FlatteningResult) : String :=
  match result.license with
  | some license => "// " ++ license ++ "\n"
  | none => ""

/-- Everything that is written, before newlines are shortened. -/
def FlatteningResult.text (result : FlatteningResult) : String :=
  result.head ++ String.join (result.pragmas.map (· ++ "\n")) ++
    String.join (result.sources.map ("\n\n" ++ ·))

def FlatteningResult.getFlattenedTarget (result : FlatteningResult) : String :=
  trim (.ofList (Library.shorten '\n' result.text.toList)) ++ "\n"

namespace Flattener

variable (flattener : Flattener)

/-- The updated sources of all files, with the pragmas and the license of the target. -/
def flattenResult (semver : Semver) (order : IterationOrder) : Option FlatteningResult := do
  let updates := insertAll [] flattener.appendFilenames
  let (topLevelNames, updates) ← flattener.renameTopLevelDefinitions order updates
  let updates := insertAll updates
    (← flattener.renameContractLevelTypesReferences order topLevelNames)
  let updates := insertAll updates (flattener.removeQualifiedImports order)
  let updates := insertAll updates (← flattener.updateInheritdocs topLevelNames)
  let updates := insertAll updates (flattener.removeImports order)
  let (targetPragmas, new) ← flattener.processPragmas semver order
  let updates := insertAll updates new
  let (targetLicense, new) ← flattener.processLicenses order
  let updates := insertAll updates new
  let sources ← applyUpdates flattener.sources updates
  let sources ← takeContents sources flattener.orderedSources
  return ⟨sources, targetPragmas, targetLicense⟩

/-- Flattens target file and returns the result as a string. -/
def flatten (semver : Semver) (order : IterationOrder) : Option String :=
  (flattener.flattenResult semver order).map FlatteningResult.getFlattenedTarget

end Flattener

end FoundryCore.Flatten
