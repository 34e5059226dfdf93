import FoundryCore.Library.Rename
import FoundryCore.Resolver.Graph
import FoundryCore.Settings

/-!
# Sparse output

The compiler gets all files of a source set, but is asked for the output of those files only that
have to be compiled. For this the output selection is spelled out file by file, and later the
files are named relative to the project root.
-/

open Std

namespace FoundryCore

/-! ## Paths in settings -/

namespace PathBuf

def isBlank (part : String) : Bool := part = "" || part = "."

/-- Drops components from the parts of a path between separators. -/
def dropComponents : Nat → List String → List String
  | 0, parts => parts.dropWhile isBlank
  | n + 1, parts => dropComponents n ((parts.dropWhile isBlank).drop 1)

/-- The text of a path with the base taken off where the path lies under it. -/
def stripText (base : PathBuf) (text : String) : String :=
  if (ofString text).startsWith base && base.components ≠ [] then
    let parts := (text.toList.splitOn '/').map String.ofList
    let rest := match base.components with
      | .rootDir :: components | .curDir :: components =>
        dropComponents components.length (parts.drop 1)
      | components => dropComponents components.length parts
    "/".intercalate (rest.reverse.dropWhile isBlank).reverse
  else text

end PathBuf

def Remapping.stripPrefix (base : PathBuf) (r : Remapping) : Remapping :=
  { r with path := base.stripText r.path }

def OutputSelection.stripPrefix (base : PathBuf) (selection : OutputSelection) : OutputSelection :=
  Library.renameKeys base.stripText selection

def Settings.stripPrefix (base : PathBuf) (settings : Settings) : Settings :=
  { settings with
    remappings := settings.remappings.map (·.stripPrefix base)
    libraries := Library.renameKeys (·.stripPrefixOrSelf base) settings.libraries
    outputSelection := settings.outputSelection.stripPrefix base
    modelChecker := settings.modelChecker.map fun modelChecker =>
      { modelChecker with contracts := Library.renameKeys base.stripText modelChecker.contracts } }

/-! ## Sparse sources -/

/-- Which dirty files are compiled with full output. -/
inductive SparseOutputFilter
  | optimized
  | custom (filter : PathBuf → Bool)

namespace SparseOutputFilter

def new : Option (PathBuf → Bool) → SparseOutputFilter
  | some filter => .custom filter
  | none => .optimized

def isMatch : SparseOutputFilter → PathBuf → Bool
  | .optimized, _ => true
  | .custom filter, file => filter file

variable {δ S : Type} (self : SparseOutputFilter) (parser : SourceParser δ) (sources : Sources)
  (graph : GraphEdges δ)

/-- The dirty files that match, and those they need compiled along with them. -/
def fullCompilation : List PathBuf :=
  let required := sources.dirtyFiles.flatMap fun file =>
    if self.isMatch file then
      file :: match graph.getParsedSource file with
        | none => []
        | some data => parser.compilationDependencies data ((graph.imports file).filterMap
            fun imported => (graph.getParsedSource imported).map (imported, ·))
    else []
  (required.filter fun file => sources[file]?.any Source.isDirty).dedup

end SparseOutputFilter

/-- Moves the selection for all files to the given ones, and selects nothing for other files. -/
def OutputSelection.sparse (selection : OutputSelection) (files full : List PathBuf) :
    OutputSelection :=
  if selection.containsAst then selection
  else
    let defaultSelection := selection["*"]?.getD defaultFileOutputSelection
    files.foldl (fun selection file => selection.insert file.toString
      (if file ∈ full then defaultSelection else emptyFileOutputSelect)) (selection.erase "*")

/-- The settings with a sparse selection, and the files that are compiled with full output. -/
def SparseOutputFilter.sparseSources {δ S : Type} [CompilerSettings S] (self : SparseOutputFilter)
    (parser : SourceParser δ) (sources : Sources) (settings : S) (graph : GraphEdges δ) :
    S × List PathBuf :=
  let full := self.fullCompilation parser sources graph
  (CompilerSettings.updateOutputSelection (·.sparse sources.keys full) settings, full)

/-! ## What is selected for a file -/

namespace OutputSelection

variable {β : Type} (requested : FileOutputSelection → Set β)

/-- What is requested under one name. -/
def requestedAt (selection : OutputSelection) (name : String) : Set β :=
  selection[name]?.elim ∅ requested

/-- What is requested for a file: under its own name and for all files. -/
def selected (selection : OutputSelection) (name : String) : Set β :=
  selection.requestedAt requested name ∪ selection.requestedAt requested "*"

end OutputSelection

/-- The name under which the compiler knows a source. -/
def PathBuf.sourceName (base file : PathBuf) : String := base.stripText file.toString

/-- The selection that is left, once the paths are stripped, requests what is configured for the
files that are compiled with full output, and nothing for other files. -/
def SelectsConfigured {β : Type} (requested : FileOutputSelection → Set β) (base : PathBuf)
    (configured left : OutputSelection) (sources : Sources) (full : List PathBuf) : Prop :=
  ∀ file ∈ sources,
    (left.stripPrefix base).selected requested (base.sourceName file) =
      if file ∈ full then (configured.stripPrefix base).selected requested (base.sourceName file)
      else ∅

/-! ## When the sparse selection is right -/

namespace OutputSelection

variable (selection : OutputSelection) (base : PathBuf)

/-- A key of the selection stands for the file and comes after its path. -/
def Overrides (file : PathBuf) : Prop :=
  ∃ key ∈ selection, key ≠ "*" ∧ base.stripText key = base.sourceName file ∧
    compare file.toString key = .lt

/-- The selection without the key for all files. -/
def special : OutputSelection := selection.erase "*"

variable {selection base} {files full : List PathBuf} {file : PathBuf} {key : String}

theorem getElem?_special (other : key ≠ "*") : selection.special[key]? = selection[key]? := by
  rw [special, Library.getElem?_erase_eq, if_neg other]

theorem mem_special : key ∈ selection.special ↔ key ≠ "*" ∧ key ∈ selection := by
  rw [special, ExtTreeMap.mem_erase, Ne, LawfulEqCmp.compare_eq_iff_eq, eq_comm (a := "*")]

theorem getElem?_stripPrefix {name : String} : (selection.stripPrefix base)[name]? =
    (Library.lastEntry (base.stripText · = name) selection).map Prod.snd :=
  Library.getElem?_renameKeys

theorem stripText_star (root : base.isAbsolute = true) : base.stripText "*" = "*" := by
  obtain ⟨rest, components⟩ := PathBuf.isAbsolute_iff.mp root
  have star : PathBuf.ofString "*" = .rel ["*"] := PathBuf.ofString_eq_rel (by decide) (by decide)
  have out : (PathBuf.ofString "*").startsWith base = false := by
    rw [star, PathBuf.startsWith, components]
    rfl
  simp [PathBuf.stripText, out]

/-- Keys other than `*` decide what is selected under another name. -/
theorem getElem?_stripPrefix_special (root : base.isAbsolute = true) {name : String}
    (other : name ≠ "*") : (selection.special.stripPrefix base)[name]? =
      (selection.stripPrefix base)[name]? := by
  rw [getElem?_stripPrefix, getElem?_stripPrefix]
  refine congrArg _ (Library.lastEntry_congr fun key named => getElem?_special ?_)
  rintro rfl
  rw [decide_eq_true_eq, stripText_star root] at named
  exact other named.symm

/-- What the sparse selection writes for a file. -/
def written (selection : OutputSelection) (full : List PathBuf) (file : PathBuf) :
    FileOutputSelection :=
  if file ∈ full then selection["*"]?.getD defaultFileOutputSelection else emptyFileOutputSelect

theorem getElem?_sparse (noAst : selection.containsAst = false) :
    (selection.sparse files full)[key]? =
      ((files.reverse.find? (·.toString = key)).map (written selection full)).or
        selection.special[key]? := by
  rw [sparse, noAst]
  exact Library.getElem?_foldl_insert _ _ _ files

theorem getElem?_sparse_of_mem (noAst : selection.containsAst = false)
    (distinct : ∀ f ∈ files, f.toString = file.toString → f = file) (mem : file ∈ files) :
    (selection.sparse files full)[file.toString]? = some (written selection full file) := by
  rw [getElem?_sparse noAst]
  cases found : files.reverse.find? (·.toString = file.toString) with
  | none => simpa using List.find?_eq_none.mp found file (List.mem_reverse.mpr mem)
  | some f =>
    have same := List.find?_some found
    rw [decide_eq_true_eq] at same
    rw [distinct f (List.mem_reverse.mp (List.mem_of_find?_eq_some found)) same]
    rfl

theorem getElem?_sparse_of_not_mem (noAst : selection.containsAst = false)
    (out : ∀ f ∈ files, f.toString ≠ key) :
    (selection.sparse files full)[key]? = selection.special[key]? := by
  rw [getElem?_sparse noAst, List.find?_eq_none.mpr]
  · rfl
  · intro f mem
    simpa using out f (List.mem_reverse.mp mem)

theorem mem_sparse (noAst : selection.containsAst = false)
    (mem : key ∈ selection.sparse files full) :
    (∃ f ∈ files, f.toString = key) ∨ key ∈ selection.special := by
  by_cases written : ∃ f ∈ files, f.toString = key
  · exact .inl written
  · push Not at written
    rw [ExtTreeMap.mem_iff_isSome_getElem?, getElem?_sparse_of_not_mem noAst written,
      ← ExtTreeMap.mem_iff_isSome_getElem?] at mem
    exact .inr mem

section Survivor

variable (noAst : selection.containsAst = false)
  (named : ∀ f ∈ files, base.sourceName f = base.sourceName file → f = file)
include noAst named

/-- A key that stands for the file and comes after its path survives. -/
theorem getElem?_stripPrefix_sparse_of_overrides (overrides : selection.Overrides base file) :
    ((selection.sparse files full).stripPrefix base)[base.sourceName file]? =
      (selection.special.stripPrefix base)[base.sourceName file]? := by
  rw [getElem?_stripPrefix, getElem?_stripPrefix]
  refine congrArg _ ?_
  obtain ⟨key, listed, other, same, after⟩ := overrides
  cases last : Library.lastEntry (base.stripText · = base.sourceName file) selection.special with
  | none =>
    have out := Library.lastEntry_eq_none.mp last key (mem_special.mpr ⟨other, listed⟩)
    simp [same] at out
  | some entry =>
    obtain ⟨k, v⟩ := entry
    obtain ⟨getEq, name, greatest⟩ := Library.lastEntry_eq_some.mp last
    have later : compare file.toString k = .lt := TransCmp.lt_of_lt_of_isLE after
      (greatest key (mem_special.mpr ⟨other, listed⟩) (by simpa using same))
    have notSource : ∀ f ∈ files, f.toString ≠ k := by
      rintro f source rfl
      rw [decide_eq_true_eq] at name
      rw [named f source name, ReflOrd.compare_self] at later
      cases later
    refine Library.lastEntry_eq_some.mpr
      ⟨(getElem?_sparse_of_not_mem noAst notSource).trans getEq, name, fun k' mem' name' => ?_⟩
    rcases mem_sparse noAst mem' with ⟨f, source, rfl⟩ | special
    · rw [decide_eq_true_eq] at name'
      rw [named f source name', later]
      rfl
    · exact greatest k' special name'

/-- Otherwise what is written for the file stays. -/
theorem getElem?_stripPrefix_sparse_of_not_overrides (mem : file ∈ files)
    (free : ¬ selection.Overrides base file) :
    ((selection.sparse files full).stripPrefix base)[base.sourceName file]? =
      some (written selection full file) := by
  have distinct : ∀ f ∈ files, f.toString = file.toString → f = file := fun f source same =>
    named f source (congrArg base.stripText same)
  rw [getElem?_stripPrefix, Library.lastEntry_eq_some.mpr
    ⟨getElem?_sparse_of_mem noAst distinct mem, by simp [PathBuf.sourceName],
      fun k' mem' name' => ?_⟩]
  · rfl
  · rw [decide_eq_true_eq] at name'
    rcases mem_sparse noAst mem' with ⟨f, source, rfl⟩ | special
    · rw [named f source name', ReflOrd.compare_self]
      rfl
    · obtain ⟨other, listed⟩ := mem_special.mp special
      have notAfter : compare file.toString k' ≠ .lt := fun after =>
        free ⟨k', listed, other, name', after⟩
      rw [show compare k' file.toString = (compare file.toString k').swap from OrientedCmp.eq_swap,
        Ordering.isLE_swap]
      cases order : compare file.toString k' <;> simp_all

end Survivor

/-- No source is called `*`, so the other keys decide what is left for all files. -/
theorem getElem?_stripPrefix_sparse_star (noAst : selection.containsAst = false)
    (single : ∀ f ∈ files, base.sourceName f ≠ "*") :
    ((selection.sparse files full).stripPrefix base)["*"]? =
      (selection.special.stripPrefix base)["*"]? := by
  rw [getElem?_stripPrefix, getElem?_stripPrefix]
  refine congrArg _ (Library.lastEntry_congr fun key named => ?_)
  refine getElem?_sparse_of_not_mem noAst ?_
  rintro f source rfl
  exact single f source (of_decide_eq_true named)

variable {β : Type} {requested : FileOutputSelection → Set β}

/-- The key that survives for a file requests what is configured for it, or nothing where nothing
is to be compiled. -/
structure Faithful (requested : FileOutputSelection → Set β) (base : PathBuf)
    (selection : OutputSelection) (full : List PathBuf) (file : PathBuf) : Prop where
  /-- The key of the file itself survives: `*` adds nothing to it. -/
  own : file ∈ full → selection.Overrides base file →
    (selection.special.stripPrefix base).selected requested (base.sourceName file) =
      (selection.stripPrefix base).selected requested (base.sourceName file)
  /-- The selection for all files is written for the file: its own key adds nothing to it. -/
  general : file ∈ full → ¬ selection.Overrides base file →
    requested (selection["*"]?.getD defaultFileOutputSelection) ∪
      (selection.special.stripPrefix base).requestedAt requested "*" =
        (selection.stripPrefix base).selected requested (base.sourceName file)
  /-- Nothing is requested for all files, nor under a surviving key of the file. -/
  silent : file ∉ full → (selection.special.stripPrefix base).requestedAt requested "*" = ∅ ∧
    (selection.Overrides base file →
      (selection.special.stripPrefix base).requestedAt requested (base.sourceName file) = ∅)

theorem selected_stripPrefix_sparse_iff (nothing : requested emptyFileOutputSelect = ∅)
    (noAst : selection.containsAst = false)
    (named : ∀ f ∈ files, base.sourceName f = base.sourceName file → f = file)
    (single : ∀ f ∈ files, base.sourceName f ≠ "*") (mem : file ∈ files) :
    ((selection.sparse files full).stripPrefix base).selected requested (base.sourceName file) =
        (if file ∈ full then
          (selection.stripPrefix base).selected requested (base.sourceName file) else ∅) ↔
      selection.Faithful requested base full file := by
  have star : ((selection.sparse files full).stripPrefix base).requestedAt requested "*" =
      (selection.special.stripPrefix base).requestedAt requested "*" := by
    rw [requestedAt, getElem?_stripPrefix_sparse_star noAst single, requestedAt]
  by_cases overrides : selection.Overrides base file
  · have left : ((selection.sparse files full).stripPrefix base).selected requested
        (base.sourceName file) =
          (selection.special.stripPrefix base).selected requested (base.sourceName file) := by
      rw [selected, star, requestedAt,
        getElem?_stripPrefix_sparse_of_overrides noAst named overrides]
      rfl
    rw [left]
    split_ifs with compiled
    · exact ⟨fun eq => ⟨fun _ _ => eq, fun _ free => absurd overrides free, absurd compiled⟩,
        fun h => h.own compiled overrides⟩
    · rw [selected, Set.union_empty_iff]
      exact ⟨fun ⟨own, all⟩ => ⟨fun h => absurd h compiled, fun h => absurd h compiled,
        fun _ => ⟨all, fun _ => own⟩⟩,
        fun h => ⟨(h.silent compiled).2 overrides, (h.silent compiled).1⟩⟩
  · have left : ((selection.sparse files full).stripPrefix base).selected requested
        (base.sourceName file) = requested (written selection full file) ∪
          (selection.special.stripPrefix base).requestedAt requested "*" := by
      rw [selected, star, requestedAt,
        getElem?_stripPrefix_sparse_of_not_overrides noAst named mem overrides]
      rfl
    rw [left]
    split_ifs with compiled
    · rw [written, if_pos compiled]
      exact ⟨fun eq => ⟨fun _ taken => absurd taken overrides, fun _ _ => eq, absurd compiled⟩,
        fun h => h.general compiled overrides⟩
    · rw [written, if_neg compiled, nothing, Set.empty_union]
      exact ⟨fun all => ⟨fun h => absurd h compiled, fun h => absurd h compiled,
        fun _ => ⟨all, fun taken => absurd taken overrides⟩⟩, fun h => (h.silent compiled).1⟩

/-- A selection for all files and no others keeps what is configured. -/
theorem faithful_of_star (root : base.isAbsolute = true) (only : ∀ key ∈ selection, key = "*")
    (star : "*" ∈ selection) (single : base.sourceName file ≠ "*") :
    selection.Faithful requested base full file := by
  have none : ∀ name : String, (selection.special.stripPrefix base)[name]? = none := by
    intro name
    rw [getElem?_stripPrefix, Library.lastEntry_eq_none.mpr]
    · rfl
    · intro key mem
      obtain ⟨other, listed⟩ := mem_special.mp mem
      exact absurd (only key listed) other
  have free : ¬ selection.Overrides base file := fun ⟨key, listed, other, _⟩ =>
    other (only key listed)
  obtain ⟨s, getEq⟩ := Option.isSome_iff_exists.mp (ExtTreeMap.mem_iff_isSome_getElem?.mp star)
  have all : (selection.stripPrefix base)["*"]? = some s := by
    rw [getElem?_stripPrefix, Library.lastEntry_eq_some.mpr
      ⟨getEq, by simp [stripText_star root], fun key mem _ => ?_⟩]
    · rfl
    · rw [only key mem, ReflOrd.compare_self]
      rfl
  have own : (selection.stripPrefix base)[base.sourceName file]? = Option.none := by
    rw [← getElem?_stripPrefix_special root single]
    exact none _
  refine ⟨fun _ taken => absurd taken free, fun _ _ => ?_,
    fun _ => ⟨?_, fun taken => absurd taken free⟩⟩
  · simp [selected, requestedAt, none, all, own, getEq]
  · simp [requestedAt, none]

/-- The pairs of a contract name and an output that a selection lists. -/
def pairs (selection : FileOutputSelection) : Set (String × String) :=
  {p | ∃ outputs, selection[p.1]? = some outputs ∧ p.2 ∈ outputs}

theorem mem_selected_pairs {name contract output : String} :
    (contract, output) ∈ selection.selected pairs name ↔
      ((selection.outputs name contract).any (output ∈ ·) ||
        (selection.outputs "*" contract).any (output ∈ ·)) = true := by
  have single : ∀ name, (contract, output) ∈ selection.requestedAt pairs name ↔
      (selection.outputs name contract).any (output ∈ ·) = true := by
    intro name
    cases getEq : selection[name]? <;> simp [requestedAt, outputs, pairs, getEq, Option.any_eq_true]
  rw [selected, Set.mem_union, single, single, Bool.or_eq_true]

end OutputSelection

namespace SparseOutputFilter

variable {β δ : Type} {requested : FileOutputSelection → Set β} {parser : SourceParser δ}
  {self : SparseOutputFilter} {sources : Sources} {graph : GraphEdges δ} {base : PathBuf}

/-- The sparse settings select what is configured exactly if, for each source, the key that
survives requests it. -/
theorem sparseSources_selects_iff (settings : SolcSettings)
    (nothing : requested OutputSelection.emptyFileOutputSelect = ∅)
    (noAst : settings.settings.outputSelection.containsAst = false)
    (named : ∀ f ∈ sources, ∀ g ∈ sources, base.sourceName f = base.sourceName g → f = g)
    (single : ∀ f ∈ sources, base.sourceName f ≠ "*") :
    let (left, full) := self.sparseSources parser sources settings graph
    SelectsConfigured requested base settings.settings.outputSelection
        left.settings.outputSelection sources full ↔
      ∀ file ∈ sources, settings.settings.outputSelection.Faithful requested base full file := by
  have keys : ∀ f, f ∈ sources.keys ↔ f ∈ sources := fun _ => ExtTreeMap.mem_keys
  refine forall_congr' fun file => forall_congr' fun mem => ?_
  exact OutputSelection.selected_stripPrefix_sparse_iff nothing noAst
    (fun f listed => named f ((keys f).mp listed) file mem)
    (fun f listed => single f ((keys f).mp listed)) ((keys file).mpr mem)

/-! ### A dirty file, a clean file, and a selection for one of them -/

def pairSources : Sources :=
  (ExtTreeMap.empty.insert (.abs ["p", "src", "A.sol"]) { content := "" }).insert
    (.abs ["p", "src", "B.sol"]) { content := "", kind := .optimized }

def emptyEdges : GraphEdges (List PathBuf) := ⟨[], [], ∅, ∅, ∅, [], 0, ∅, ∅⟩

/-- Selects the same for all files. -/
def commonSettings : SolcSettings :=
  { settings := { outputSelection := OutputSelection.commonOutputSelection ["abi"] } }

/-- Selects more for one file. -/
def specialSelection : OutputSelection :=
  (OutputSelection.commonOutputSelection ["abi"]).insert "src/A.sol"
    (ExtTreeMap.empty.insert "*" ["metadata"])

def specialSettings : SolcSettings := { settings := { outputSelection := specialSelection } }

theorem mem_pairSources {file : PathBuf} (mem : file ∈ pairSources) :
    file = .abs ["p", "src", "A.sol"] ∨ file = .abs ["p", "src", "B.sol"] := by
  simp only [pairSources, ExtTreeMap.empty_eq_emptyc, ExtTreeMap.mem_insert,
    LawfulEqCmp.compare_eq_iff_eq, ExtTreeMap.not_mem_empty, or_false] at mem
  exact mem.symm.imp Eq.symm Eq.symm

theorem sparseSources_selects_common :
    let (left, full) := optimized.sparseSources .importLines pairSources commonSettings emptyEdges
    full = [.abs ["p", "src", "A.sol"]] ∧
      SelectsConfigured OutputSelection.pairs (.abs ["p"])
        commonSettings.settings.outputSelection left.settings.outputSelection pairSources full := by
  have single : ∀ f ∈ pairSources, PathBuf.sourceName (.abs ["p"]) f ≠ "*" := by
    intro f mem
    rcases mem_pairSources mem with rfl | rfl <;> decide +kernel
  refine ⟨by decide +kernel, (sparseSources_selects_iff commonSettings ?_ (by decide +kernel) ?_
    single).mpr fun file mem => ?_⟩
  · simp [OutputSelection.pairs, OutputSelection.emptyFileOutputSelect]
  · intro f mem g mem'
    rcases mem_pairSources mem with rfl | rfl <;> rcases mem_pairSources mem' with rfl | rfl <;>
      decide +kernel
  · refine OutputSelection.faithful_of_star rfl (fun key listed => ?_) (by decide +kernel)
      (single file mem)
    simp only [commonSettings, OutputSelection.commonOutputSelection, ExtTreeMap.empty_eq_emptyc,
      ExtTreeMap.mem_insert, LawfulEqCmp.compare_eq_iff_eq, ExtTreeMap.not_mem_empty,
      or_false] at listed
    exact listed.symm

/-- The file with a selection of its own loses what is selected for all files. -/
theorem sparseSources_not_selects_special :
    let (left, full) := optimized.sparseSources .importLines pairSources specialSettings emptyEdges
    specialSettings.settings.outputSelection.containsAst = false ∧
      ¬ SelectsConfigured OutputSelection.pairs (.abs ["p"]) specialSelection
        left.settings.outputSelection pairSources full := by
  refine ⟨by decide +kernel, fun selects => ?_⟩
  have same := selects (.abs ["p", "src", "A.sol"]) (by decide +kernel)
  have same := Set.ext_iff.mp same ("*", "abi")
  rw [if_pos (by decide +kernel), OutputSelection.mem_selected_pairs,
    OutputSelection.mem_selected_pairs] at same
  revert same
  decide +kernel

end SparseOutputFilter

end FoundryCore
