import FoundryCore.Flatten.Pragmas
import FoundryCore.Flatten.Renaming
import FoundryCore.Library.Runs

/-!
# The passes of the flattener

Each pass adds updates for the files: comments with their names, the new names of members of
contracts and in documentation tags, and the removal of qualifiers, imports, pragmas and licenses.
Where the program panics, a pass is none.
-/

open Std

namespace FoundryCore.Flatten

open Ast

/-! ## Texts -/

/-- Where a text stands first in another one. -/
def find (pattern text : String) : Option Nat :=
  Library.find Char.utf8Size pattern.toList text.toList

/-- `str::contains`. -/
def contains (text pattern : String) : Bool := (find pattern text).isSome

/-- `str::trim`. -/
def trim (text : String) : String := .ofList (Library.trim isWhitespace text.toList)

/-- What stands before and behind a position of a text. -/
def splitAt (position : Nat) (text : String) : List Char × List Char :=
  (Library.cut Char.utf8Size position text.toList).getD ([], [])

/-- The pragma is about an experimental feature or the ABI coder. -/
def isExperimental (pragmaContent : String) : Bool :=
  contains pragmaContent "experimental" || contains pragmaContent "abicoder"

/-- The range of the first line with a license identifier. -/
def licenseLine (content : String) : Option (Nat × Nat) := do
  let licenseStart ← find "SPDX-License-Identifier:" content
  let lineBefore := (splitAt licenseStart content).1.reverse.takeWhile (· ≠ '\n')
  let start := licenseStart - bytes lineBefore
  let line := (splitAt start content).2.takeWhile (· ≠ '\n')
  return (start, start + bytes line)

/-! ## Nodes -/

/-- The identifier and the name of a contract-level definition. -/
def Member.definition : Member → Option (Id × String)
  | enumDefinition id name => some (id, name)
  | errorDefinition id name _ _ => some (id, name)
  | eventDefinition id name _ _ => some (id, name)
  | structDefinition id name _ => some (id, name)
  | functionDefinition id name _ _ => some (id, name)
  | variableDeclaration id name _ _ => some (id, name)
  | userDefinedValueTypeDefinition id name _ => some (id, name)
  | _ => none

def Member.documentation : Member → Option Documentation
  | eventDefinition _ _ documentation _ => documentation
  | errorDefinition _ _ documentation _ => documentation
  | functionDefinition _ _ documentation _ => documentation
  | variableDeclaration _ _ documentation _ => documentation
  | _ => none

/-- The contract that a node defines, with its members. -/
def FileNode.contract : FileNode → Option (Id × List Member)
  | contractDefinition named _ nodes => some (named.id, nodes)
  | _ => none

def FileNode.importId : FileNode → Option Id
  | importDirective id _ _ => some id
  | _ => none

def FileNode.importSrc : FileNode → Option SourceLocation
  | importDirective _ src _ => some src
  | _ => none

def FileNode.pragmaSrc : FileNode → Option SourceLocation
  | pragmaDirective src => some src
  | _ => none

/-! ## Hash maps and sets -/

/-- The entries of a hash map of hash sets. -/
def IterationOrder.entries {κ β : Type} [DecidableEq κ] (order : IterationOrder) (place : Nat)
    (map : List (κ × β)) : List (κ × β) :=
  (order.arrange place (map.map Prod.fst).dedup).flatMap fun key =>
    order.arrange (place + 1) (map.filter (·.1 = key))

/-- All new updates are inserted. -/
def insertAll (updates new : Updates) : Updates :=
  new.foldl (fun updates update => updates.insert update) updates

/-- The places are removed. -/
def removed (locs : List ItemLocation) : Updates := locs.map fun loc => (loc, "")

namespace Flattener

variable (flattener : Flattener)

/-- A comment with the file name for the beginning of each source. -/
def appendFilenames : Updates :=
  flattener.orderedSources.map fun path =>
    (⟨path, 0, 0⟩, "// " ++ (path.stripPrefixOrSelf flattener.projectRoot).toString ++ "\n")

/-- The locations of the file-level nodes of a kind. -/
def collectLocations (kind : FileNode → Option SourceLocation) : List ItemLocation :=
  (flattener.asts.flatMap fun (path, ast) =>
    (ast.nodes.filterMap kind).filterMap (ItemLocation.tryFromSourceLoc · path)).dedup

/-! ## References -/

/-- All contract-level definitions, with their names and contracts. -/
def collectContractLevelDefinitions : List (Id × String × Id) :=
  flattener.asts.flatMap fun (_, ast) =>
    (ast.nodes.filterMap FileNode.contract).flatMap fun (contractId, nodes) =>
      (nodes.filterMap Member.definition).map fun (id, name) => (id, name, contractId)

/-- The update of a reference to a contract-level definition. -/
def contractLevelReference (names : Names) (path : PathBuf) (reference : Reference) :
    Option Updates :=
  let (id, loc) := reference
  match flattener.collectContractLevelDefinitions.reverse.find? (·.1 = id) with
  | none => some []
  | some (_, name, contractId) =>
    -- Such items cannot be aliased, so comparing lengths tells if it is referenced by its name.
    if loc.stop - loc.start = BitVec.ofNat 64 name.utf8ByteSize then some []
    else do
      let parentName ← names contractId
      return [(⟨path, loc.start, loc.stop⟩, parentName ++ "." ++ name)]

/-- References to items defined in contracts use the new names of the contracts. -/
def renameContractLevelTypesReferences (order : IterationOrder) (names : Names) :
    Option Updates := do
  let updates ← flattener.asts.mapM fun (path, ast) => do
    let updates ← ast.nodes.mapM fun node => do
      let references := order.entries 3 (gathered flattener.target ⟨[node.part]⟩)
      let updates ← references.mapM (flattener.contractLevelReference names path)
      return updates.flatten
    return updates.flatten
  return updates.flatten

/-- References to imports are removed, with the dot behind them. -/
def removeQualifiedImports (order : IterationOrder) : Updates :=
  let importsIds := flattener.asts.flatMap fun (_, ast) => ast.nodes.filterMap FileNode.importId
  (order.entries 5 flattener.collectReferences).filterMap fun (id, loc) =>
    if id ∈ importsIds then some (⟨loc.path, loc.start, loc.stop + 1⟩, "") else none

/-! ## Documentation tags -/

/-- The tag of a documentation gets the new name of the contract, or is removed. -/
def updateInheritdoc (names : Names) (path : PathBuf)
    (exportedSymbols : ExtTreeMap String (List Id)) : Documentation → Option Updates
  | .raw _ => some []
  | .structured src => do
    let srcStart ← src.start
    let srcEnd := srcStart + (← src.length)
    let content ← flattener.readLocation ⟨path, srcStart, srcEnd⟩
    match find "@inheritdoc" content with
    | none => return []
    | some tagStart =>
      let rest := (splitAt (tagStart + 11) content).2
      if rest.dropWhile (· = ' ') = [] then return []
      let nameStart := tagStart + 11 + (rest.takeWhile (· = ' ')).length
      let name := (rest.dropWhile (· = ' ')).takeWhile (· ∉ [' ', '\n', '*', '/'])
      let nameEnd := nameStart + bytes name
      match (exportedSymbols[String.ofList name]?.bind List.head?).bind names with
      | some newName => return [(⟨path, srcStart + BitVec.ofNat 64 nameStart,
          srcStart + BitVec.ofNat 64 nameEnd⟩, newName)]
      | none => return [(⟨path, srcStart + BitVec.ofNat 64 tagStart,
          srcStart + BitVec.ofNat 64 nameEnd⟩, "")]

/-- Finds all `@inheritdoc` tags in natspec comments and tries replacing them. -/
def updateInheritdocs (names : Names) : Option Updates := do
  let updates ← flattener.asts.mapM fun (path, ast) => do
    let docs := ((ast.nodes.filterMap FileNode.contract).flatMap Prod.snd).filterMap
      Member.documentation
    let updates ← docs.mapM (flattener.updateInheritdoc names path ast.exportedSymbols)
    return updates.flatten
  return updates.flatten

/-! ## Imports, pragmas and licenses -/

/-- Removes all imports from all sources. -/
def removeImports (order : IterationOrder) : Updates :=
  removed (order.arrange 7 (flattener.collectLocations FileNode.importSrc))

def collectPragmas : List ItemLocation := flattener.collectLocations FileNode.pragmaSrc

/-- Removes all pragma directives from all sources. Returns the combined version pragma and the
first experimental one, if present. -/
def processPragmas (semver : Semver) (order : IterationOrder) :
    Option (List String × Updates) := do
  let pragmas := order.arrange 8 flattener.collectPragmas
  let contents ← pragmas.mapM flattener.readLocation
  let abicoderV2 := contents.find? isExperimental
  let versionPragmas := contents.filter fun content =>
    !isExperimental content && contains content "solidity"
  let versionPragma ← combineVersionPragmas semver versionPragmas
  return (versionPragma.toList ++ abicoderV2.toList, removed pragmas)

/-- Collects the locations of the license identifiers, one of each file. -/
def collectLicenses : List ItemLocation :=
  flattener.sources.toList.filterMap fun (path, source) =>
    (licenseLine source.content).map fun (start, stop) =>
      ⟨path, BitVec.ofNat 64 start, BitVec.ofNat 64 stop⟩

/-- Removes all license identifiers from all sources. Returns license identifier from target file,
if any. -/
def processLicenses (order : IterationOrder) : Option (Option String × Updates) := do
  let licenses := order.arrange 10 flattener.collectLicenses
  let targetLicenses ← (licenses.filter (·.path = flattener.target)).mapM fun loc => do
    let licenseLine ← flattener.readLocation loc
    let licenseStart ← find "SPDX-License-Identifier:" licenseLine
    return trim (.ofList (splitAt licenseStart licenseLine).2)
  return (targetLicenses.getLast?, removed licenses)

end Flattener

end FoundryCore.Flatten
