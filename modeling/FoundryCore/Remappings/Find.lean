import FoundryCore.Config
import Mathlib.Data.List.Sort
import Std.Data.ExtTreeMap

/-!
# Finding remappings

The directories below a root are searched for Solidity files. A window lies between two library
barriers (`lib` or `node_modules`), and a file found in it belongs to the directory that opened
the window. Directories hold files and directories; there are no symbolic links.
-/

open Std

namespace FoundryCore.Remappings

/-- What a directory lists. -/
inductive Entry
  | file (name : String)
  | dir (name : String) (entries : List Entry)

/-! ## Paths -/

/-- `Path::ends_with`, by components. -/
def endsWith (p suffix : PathBuf) : Bool := suffix.components.isSuffixOf p.components

def isSourceDir (dir : PathBuf) : Bool :=
  match dir.fileName with
  | some name => name = "src" || name = "contracts"
  | none => false

def isLibDir (dir : PathBuf) : Bool :=
  match dir.fileName with
  | some name => name = "lib" || name = "node_modules"
  | none => false

def isHidden (name : String) : Bool := name.toList.head? = some '.'

/-- `Path::extension` of a file name. -/
def extension (name : String) : Option (List Char) :=
  match (name.toList.splitOn '.').dropLast with
  | [] | [[]] => none
  | _ => (name.toList.splitOn '.').getLast?

def noRecurse (dir : PathBuf) : Bool :=
  endsWith dir (.rel ["tests"]) || endsWith dir (.rel ["test"]) || endsWith dir (.rel ["demo"])

/-- Counts the number of components between `root` and `current`. -/
def dirDistance (root current : PathBuf) : Nat :=
  if root = current then 0
  else match current.stripPrefix root with
    | some rem => rem.components.length
    | none => 0

/-- The first window opener among the directories that the components lead to. -/
def openWindow (root p : PathBuf) : List Component → PathBuf
  | [] => root
  | c :: rest =>
    let next := p.join ⟨[c]⟩
    if !isLibDir next || !endsWith next (.rel ["contracts"]) then next
    else openWindow root next rest

/-- This finds the next window between `root` and `current`. -/
def nextNestedWindow (root current : PathBuf) : PathBuf :=
  if !isLibDir root || root = current then root
  else match current.stripPrefix root with
    | some rem => openWindow root root rem.components
    | none => root

/-- Goes up from `p` to the root or a source directory; the fuel bounds the way. -/
def climb (root : PathBuf) : Nat → PathBuf → PathBuf
  | 0, _ => root
  | fuel + 1, p =>
    match p.parent with
    | none => root
    | some parent =>
      if parent = root then root
      else if isSourceDir parent then parent
      else climb root fuel parent

/-- Finds the last valid source directory in the window (root -> dir). -/
def lastNestedSourceDir (root dir : PathBuf) : PathBuf :=
  if isSourceDir dir then dir else climb root dir.components.length dir

/-! ## Candidates -/

structure Candidate where
  /-- The directory that opened the window. -/
  windowStart : PathBuf
  /-- The directory that contains the solidity file. -/
  sourceDir : PathBuf
  /-- The number of the current nested dependency. -/
  windowLevel : Nat
deriving DecidableEq

namespace Candidate

/-- Whether the `source_dir` ends with `contracts` or `contracts/src`. -/
def sourceDirEndsWithJsSource (c : Candidate) : Bool :=
  endsWith c.sourceDir (.rel ["contracts"]) || endsWith c.sourceDir (.rel ["contracts", "src"])

/-- The position of the only candidate that ends with `src`. -/
def singleSource (candidates : List Candidate) : Option Nat :=
  (candidates.zipIdx.foldl (fun (acc : Nat × Option Nat) (entry : Candidate × Nat) =>
    if endsWith entry.1.sourceDir (.rel ["src"]) then
      (acc.1 + 1, if acc.1 + 1 = 1 then some entry.2 else none)
    else acc) (0, none)).2

def mergeOnSameLevel (candidates : List Candidate) (currentDir : PathBuf) (currentLevel : Nat)
    (windowStart : PathBuf) (isInsideNodeModules : Bool) : List Candidate :=
  match singleSource candidates with
  | some pos => candidates[pos]?.toList
  | none =>
    let candidates := candidates.filter fun c => c.windowLevel ≠ currentLevel
    let sourceDir := if isInsideNodeModules then windowStart else currentDir
    -- the window start and the source dir are the same directory: `<dep>/src/lib/`
    if 0 < currentLevel ∧ sourceDir = windowStart ∧
        (isSourceDir sourceDir || isLibDir sourceDir) then
      candidates
    else candidates ++ [{ windowStart, sourceDir, windowLevel := currentLevel }]

end Candidate

/-! ## The search -/

/-- Adjusts a single nested candidate: `current/nested/contracts/c.sol` should point to
`current`. -/
def adjustSource (opener windowStart : PathBuf) (c : Candidate) : Candidate :=
  if 1 < dirDistance c.windowStart c.sourceDir ∧ c.sourceDirEndsWithJsSource then
    { c with sourceDir := windowStart }
  else if !isSourceDir c.sourceDir && c.sourceDir ≠ c.windowStart then
    { c with sourceDir := lastNestedSourceDir opener c.sourceDir }
  else c

/-- What a directory makes of the candidates found below it. -/
def adjustCandidates (isInsideNodeModules : Bool) (currentDir opener : PathBuf)
    (currentLevel : Nat) (isCandidate : Bool) (candidates : List Candidate) : List Candidate :=
  let windowStart := nextNestedWindow opener currentDir
  if isCandidate || 1 < (candidates.filter fun c =>
      c.windowLevel = currentLevel && c.windowStart = windowStart).length then
    Candidate.mergeOnSameLevel candidates currentDir currentLevel windowStart isInsideNodeModules
  else
    candidates.modify (candidates.findIdx fun c => c.windowLevel = currentLevel)
      (adjustSource opener windowStart)

/-- Whether the directory with the entries holds a Solidity file directly. -/
def hasSource (entries : List Entry) : Bool :=
  entries.any fun
    | .file name => !isHidden name && extension name = some "sol".toList
    | .dir _ _ => false

mutual

/-- The candidates in an entry of a directory. -/
def searchEntry (isInsideNodeModules : Bool) :
    Entry → PathBuf → PathBuf → Nat → List Candidate
  | .file _, _, _, _ => []
  | .dir name entries, currentDir, opener, currentLevel =>
    let subdir := currentDir.join (.rel [name])
    if isHidden name || noRecurse subdir then []
    -- a lib barrier opens a new window
    else if isLibDir subdir then
      adjustCandidates isInsideNodeModules subdir subdir (currentLevel + 1) (hasSource entries)
        (searchSubdirs isInsideNodeModules entries subdir subdir (currentLevel + 1))
    else
      adjustCandidates isInsideNodeModules subdir opener currentLevel (hasSource entries)
        (searchSubdirs isInsideNodeModules entries subdir opener currentLevel)

/-- The candidates in the subdirectories of a directory. -/
def searchSubdirs (isInsideNodeModules : Bool) :
    List Entry → PathBuf → PathBuf → Nat → List Candidate
  | [], _, _, _ => []
  | entry :: rest, currentDir, opener, currentLevel =>
    searchEntry isInsideNodeModules entry currentDir opener currentLevel ++
      searchSubdirs isInsideNodeModules rest currentDir opener currentLevel

end

/-- Finds all remappings in the directory recursively. -/
def findRemappingCandidates (isInsideNodeModules : Bool) (entries : List Entry)
    (currentDir opener : PathBuf) (currentLevel : Nat) : List Candidate :=
  adjustCandidates isInsideNodeModules currentDir opener currentLevel (hasSource entries)
    (searchSubdirs isInsideNodeModules entries currentDir opener currentLevel)

/-- Prefers `1/2` to `1/2/3`, and a path that ends with `src`. -/
def insertPrioritized (mappings : ExtTreeMap String PathBuf) (key : String) (path : PathBuf) :
    ExtTreeMap String PathBuf :=
  match mappings[key]? with
  | some old =>
    if old.components.length > path.components.length ∨
        (endsWith path (.rel ["src"]) ∧ ¬ endsWith old (.rel ["src"])) then
      mappings.insert key path
    else mappings
  | none => mappings.insert key path

/-- The candidates in all directories of the root. -/
def rootCandidates (dir : PathBuf) (entries : List Entry) : List Candidate :=
  entries.flatMap fun
    | .file _ => []
    | .dir name entries =>
      if isHidden name then []
      else
        findRemappingCandidates (endsWith dir (.rel ["node_modules"])) entries
          (dir.join (.rel [name])) (dir.join (.rel [name])) 0

/-- All combined remappings from all subdirectories. -/
def allRemappings (dir : PathBuf) (entries : List Entry) : ExtTreeMap String PathBuf :=
  let candidates := (rootCandidates dir entries).insertionSort fun a b =>
    (compare a.sourceDir b.sourceDir).isLE
  candidates.foldl (fun mappings c =>
    match c.windowStart.fileName with
    | some name => insertPrioritized mappings (name ++ "/") c.sourceDir
    | none => mappings) ∅

/-- `Remapping::find_many`. -/
def findMany (dir : PathBuf) (entries : List Entry) : List Remapping :=
  (allRemappings dir entries).toList.map fun (name, path) =>
    { context := none, name, path := path.toString ++ "/" }

end FoundryCore.Remappings
