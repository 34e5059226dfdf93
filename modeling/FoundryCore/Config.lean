import FoundryCore.Sources
import Mathlib.Data.Finset.Image

/-!
# Project paths

The directories of a project, which files count as its sources, and how import paths resolve
to files by relative paths, remappings and libraries.
-/

namespace FoundryCore

/-- Redirects the imports that start with `name`, in the files below `context`. -/
structure Remapping where
  context : Option String := none
  name : String
  path : String
deriving DecidableEq, Repr

/-- Where to find all files or where to write them. -/
structure ProjectPathsConfig where
  root : PathBuf
  cache : PathBuf
  artifacts : PathBuf
  buildInfos : PathBuf
  sources : PathBuf
  tests : PathBuf
  scripts : PathBuf
  libraries : List PathBuf := []
  remappings : List Remapping := []
  includePaths : Finset PathBuf := ∅
  allowedPaths : Finset PathBuf := ∅
deriving DecidableEq

/-- The dapptools layout of a project. -/
def ProjectPathsConfig.dapptools (root : PathBuf) (remappings : List Remapping) :
    ProjectPathsConfig where
  root
  cache := (root.join (.rel ["cache"])).join (.rel ["solidity-files-cache.json"])
  artifacts := root.join (.rel ["out"])
  buildInfos := (root.join (.rel ["out"])).join (.rel ["build-info"])
  sources := root.join (.rel ["src"])
  tests := root.join (.rel ["test"])
  scripts := root.join (.rel ["script"])
  libraries := [root.join (.rel ["lib"])]
  remappings
  allowedPaths := {root}

/-- The directories of a project that the cache file keeps. -/
structure ProjectPaths where
  artifacts : PathBuf
  buildInfos : PathBuf
  sources : PathBuf
  tests : PathBuf
  scripts : PathBuf
  libraries : Finset PathBuf
deriving DecidableEq

/-! ## Paths on disk -/

/-- Resolves `.` and `..` without looking at the file system. A `..` that follows no name
stays. -/
def cleanSolidityPath (path : PathBuf) : PathBuf :=
  ⟨path.components.foldl (fun new component =>
    match component with
    | .curDir => new
    | .parentDir =>
      match new.getLast? with
      | some (.normal _) => new.dropLast
      | _ => new ++ [Component.parentDir]
    | component => new ++ [component]) []⟩

/-- The normalized path of an import, if it exists. -/
def normalizeSolidityImportPath (fs : FileSystem) (directory importPath : PathBuf) :
    Option PathBuf :=
  let normalized := cleanSolidityPath (directory.join importPath)
  if fs.pathExists normalized then some normalized else none

/-- The path of a source under one of the libraries, if it exists there. -/
def resolveLibrary (fs : FileSystem) (libs : List PathBuf) (source : PathBuf) : Option PathBuf :=
  match source.components with
  | .normal firstDir :: rest =>
    libs.findSome? fun lib =>
      let contract := lib.join source
      if fs.pathExists contract then some contract
      else
        -- check for `<lib>/<first_dir>/src/name.sol`
        let contract := ((lib.join (.rel [firstDir])).join (.rel ["src"])).join ⟨rest⟩
        if fs.pathExists contract then some contract else none
  | .rootDir :: _ => some source
  | _ => none

/-- The directories strictly above `path` and below `root`, the innermost first; all of them
when `root` is not one of them. -/
def parentsBelow (root : PathBuf) : Nat → PathBuf → List PathBuf
  | 0, _ => []
  | fuel + 1, path =>
    match path.parent with
    | none => []
    | some parent => if parent = root then [] else parent :: parentsBelow root fuel parent

/-- Looks for an absolute import like `src/interfaces/IConfig.sol` next to the directories above
`cwd`. Also returns the directory that has it. -/
def resolveAbsoluteLibrary (fs : FileSystem) (root cwd importPath : PathBuf) :
    Option (PathBuf × PathBuf) :=
  (parentsBelow root cwd.components.length cwd).findSome? fun parent =>
    (normalizeSolidityImportPath fs parent importPath).map fun found => (parent, found)

/-- Whether `a` starts with `b` or `b - root`. -/
def pathStartsWithRooted (a b root : PathBuf) : Bool :=
  a.startsWith b || (b.stripPrefix root).any a.startsWith

/-- Whether a remapping applies to imports made in `cwd`. -/
def Remapping.appliesIn (r : Remapping) (cwd : PathBuf) : Bool :=
  r.context.all fun context => cwd.startsWith (.ofString context)

namespace ProjectPathsConfig

variable (paths : ProjectPathsConfig)

def isTest (path : PathBuf) : Bool := pathStartsWithRooted path paths.tests paths.root

def isScript (path : PathBuf) : Bool := pathStartsWithRooted path paths.scripts paths.root

def isTestOrScript (path : PathBuf) : Bool := paths.isTest path || paths.isScript path

def isSourceFile (path : PathBuf) : Bool := !paths.isTestOrScript path

/-- The configured directories with the root stripped from them. -/
def pathsRelative : ProjectPaths where
  artifacts := paths.artifacts.stripPrefixOrSelf paths.root
  buildInfos := paths.buildInfos.stripPrefixOrSelf paths.root
  sources := paths.sources.stripPrefixOrSelf paths.root
  tests := paths.tests.stripPrefixOrSelf paths.root
  scripts := paths.scripts.stripPrefixOrSelf paths.root
  libraries := paths.libraries.toFinset.image fun lib => lib.stripPrefixOrSelf paths.root

/-! ## Imports -/

/-- The first library that is an ancestor of the file. -/
def findLibraryAncestor (file : PathBuf) : Option PathBuf :=
  paths.libraries.find? fun lib =>
    (!lib.isAbsolute && file.isAbsolute && file.startsWith paths.root &&
        file.startsWith (paths.root.join lib)) ||
      (!file.isAbsolute && lib.isAbsolute && lib.startsWith paths.root &&
        (paths.root.join file).startsWith lib) ||
      file.startsWith lib

/-- The path of an import after the first remapping that fits, or in a library. -/
def resolveLibraryImport (fs : FileSystem) (cwd importPath : PathBuf) : Option PathBuf :=
  let cwd := cwd.stripPrefixOrSelf paths.root
  match (paths.remappings.filter (·.appliesIn cwd)).findSome? fun r =>
      (importPath.stripPrefix (.ofString r.name)).map fun stripped =>
        let libPath :=
          if stripped.components = [] ∧ ".sol".toList <:+ r.path.toList then .ofString r.path
          else (PathBuf.ofString r.path).join stripped
        -- the path of the remapping may already end with the `contracts` of the import
        match stripped.stripPrefix (.rel ["contracts"]) with
        | some adjusted =>
          if "contracts/".toList <:+ r.path.toList ∧ ¬ fs.pathExists (paths.root.join libPath) then
            (PathBuf.ofString r.path).join adjusted
          else libPath
        | none => libPath with
  | some path => some (paths.root.join path)
  | none => resolveLibrary fs paths.libraries importPath

/-- The file a resolved path is remapped to: the first that exists. -/
def applyRemappingToPath (fs : FileSystem) (cwd resolvedPath : PathBuf) : PathBuf :=
  match resolvedPath.stripPrefix paths.root with
  | none => resolvedPath
  | some relative =>
    let cwd := cwd.stripPrefixOrSelf paths.root
    ((paths.remappings.filter (·.appliesIn cwd)).findSome? fun r =>
      (relative.stripPrefix (.ofString r.name)).bind fun stripped =>
        let remapped := paths.root.join ((PathBuf.ofString r.path).join stripped)
        if fs.joinedExists remapped stripped then some remapped else none).getD resolvedPath

/-- The file an import made in `cwd` means, and the directory that is to become an include path
for it, if any. -/
def resolveImportAndIncludePaths (fs : FileSystem) (cwd importPath : PathBuf) :
    Option (PathBuf × Option PathBuf) :=
  match importPath.components.head? with
  | none => none
  | some .curDir | some .parentDir =>
    (normalizeSolidityImportPath fs cwd importPath).map fun resolved =>
      (paths.applyRemappingToPath fs cwd resolved, none)
  | some _ =>
    match paths.resolveLibraryImport fs cwd importPath with
    | some resolved => some (resolved, none)
    | none =>
      match (paths.findLibraryAncestor cwd).bind fun lib =>
          resolveAbsoluteLibrary fs lib cwd importPath with
      | some (includePath, resolved) => some (resolved, some includePath)
      | none =>
        -- absolute imports from the project paths
        ([paths.root, paths.sources, paths.tests, paths.scripts].findSome? fun path =>
          if cwd.startsWith path then normalizeSolidityImportPath fs path importPath
          else none).map fun resolved => (resolved, none)

end ProjectPathsConfig

end FoundryCore
