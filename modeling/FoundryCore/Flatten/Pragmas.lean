import FoundryCore.Library.SortBy
import FoundryCore.Remappings.Text

/-!
# Version pragmas

The version requirements of all files are combined to one pragma: each is read as a list of
comparators, and all comparators are written once, in the order of their texts. What is used of the
`semver` crate is given.
-/

open Std

namespace FoundryCore.Flatten

/-- What is used of the `semver` crate. -/
structure Semver where
  Comparator : Type
  /-- The comparators of a version requirement, if it parses. -/
  parse : String → Option (List Comparator)
  /-- The comparator with the operator for the very same version. -/
  exact : Comparator → Comparator
  toString : Comparator → String

/-! ## Finding the version -/

/-- The text after one or more whitespace characters. -/
def afterSpaces (text : List Char) : Option (List Char) :=
  if (text.takeWhile isWhitespace).isEmpty then none else some (text.dropWhile isWhitespace)

/-- `.+?;`: the characters before the first semicolon that is not the first character, if they are
on one line. -/
def versionUpToSemicolon : List Char → Option (List Char)
  | [] => none
  | c :: rest =>
    let version := c :: rest.takeWhile fun c => c ≠ ';' && c ≠ '\n'
    match rest.dropWhile fun c => c ≠ ';' && c ≠ '\n' with
    | ';' :: _ => if c = '\n' then none else some version
    | _ => none

/-- The version of a pragma at the beginning of the text. The version may begin with some of the
whitespace, if it cannot begin behind all of it. -/
def versionOf (text : List Char) : Option (List Char) := do
  let text ← text.dropPrefix? "pragma".toList
  let text ← afterSpaces text
  let text ← text.dropPrefix? "solidity".toList
  let spaces := (text.takeWhile isWhitespace).length
  (List.range spaces).findSome? fun given => versionUpToSemicolon (text.drop (spaces - given))

/-- The version of the first pragma in the text, as `pragma\s+solidity\s+(?P<version>.+?);`
captures it. -/
def findVersionPragma (text : String) : Option String :=
  (text.toList.tails.findSome? versionOf).map String.ofList

/-! ## Version requirements -/

variable (semver : Semver)

/-- Returns the corresponding version requirement for the solidity version, as comparators; an
inner none if it does not parse, and an outer one if there is no first comparator to patch. -/
def parseVersionReq (version : String) : Option (Option (List semver.Comparator)) :=
  let replaced := version.toList.map fun c => if c = ' ' then ',' else c
  -- Solidity takes a version without an operator as the very same one.
  let exact : Bool := match replaced with
    | c :: _ => c ∉ ['*', '^', '=', '>', '<', '~']
    | [] => true
  match semver.parse (.ofList replaced), exact with
  | none, _ => some none
  | some comparators, false => some (some comparators)
  | some (comparator :: comparators), true => some (some (semver.exact comparator :: comparators))
  | some [], true => none

/-- Parses the version pragma; no comparators if none is found or it does not parse. -/
def parseVersionPragma (pragma : String) : Option (List semver.Comparator) :=
  match findVersionPragma pragma with
  | none => some []
  | some version => (parseVersionReq semver version).map (·.getD [])

/-- The comparators of all pragmas, as one pragma. The outer option is none if the function
panics. -/
def combineVersionPragmas (pragmas : List String) : Option (Option String) := do
  let comparators ← pragmas.mapM (parseVersionPragma semver)
  let versions := Library.sortBy compare (comparators.flatten.map semver.toString).dedup
  if versions.isEmpty then return none
  return some ("pragma solidity " ++ " ".intercalate versions ++ ";")

end FoundryCore.Flatten
