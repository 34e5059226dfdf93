import Mathlib.Data.Finset.Basic

/-!
# Paths

A path is the list of its components, which is how `std::path` compares, orders, joins and
takes paths apart on Unix. Repeated separators and inner `.` components do not survive
parsing, so two texts with the same components are one path.
-/

open Std

namespace FoundryCore

inductive Component
  | rootDir | curDir | parentDir
  | normal (name : String)
deriving DecidableEq, Repr

namespace Component

/-- The place of a component in the derived order: the variant first, then the name. -/
def rank : Component → Nat × String
  | rootDir => (0, "")
  | curDir => (1, "")
  | parentDir => (2, "")
  | normal name => (3, name)

def text : Component → String
  | rootDir => "/"
  | curDir => "."
  | parentDir => ".."
  | normal name => name

theorem rank_injective {a b : Component} (h : a.rank = b.rank) : a = b := by
  cases a <;> cases b <;> simp_all [rank]

attribute [local instance] lexOrd

instance : Ord Component := ⟨compareOn rank⟩

instance : TransOrd Component where
  eq_swap {a b} := OrientedOrd.eq_swap (a := a.rank) (b := b.rank)
  isLE_trans {a b c} := TransOrd.isLE_trans (a := a.rank) (b := b.rank) (c := c.rank)

instance : LawfulEqOrd Component where
  compare_self {a} := ReflOrd.compare_self (a := a.rank)
  eq_of_compare h := rank_injective (LawfulEqOrd.eq_of_compare h)

end Component

structure PathBuf where
  components : List Component
deriving DecidableEq, Repr

namespace PathBuf

instance : Ord PathBuf := ⟨compareOn components⟩

instance : TransOrd PathBuf where
  eq_swap {a b} := OrientedOrd.eq_swap (a := a.components) (b := b.components)
  isLE_trans {a b c} :=
    TransOrd.isLE_trans (a := a.components) (b := b.components) (c := c.components)

instance : LawfulEqOrd PathBuf where
  compare_self {a} := ReflOrd.compare_self (a := a.components)
  eq_of_compare {a b} h := by
    cases a
    cases b
    exact congrArg PathBuf.mk (LawfulEqOrd.eq_of_compare h)

/-- Parses a path: `/` separates, empty and inner `.` components vanish. -/
def ofString (text : String) : PathBuf :=
  let parts := ((text.toList.splitOn '/').map String.ofList).filter (· ≠ "")
  let leading :=
    if text.toList.head? = some '/' then [.rootDir]
    else if parts.head? = some "." then [.curDir]
    else []
  ⟨leading ++ (parts.filter (· ≠ ".")).map fun part =>
    if part = ".." then .parentDir else .normal part⟩

/-- The file names from the root: `/a/b` is `abs ["a", "b"]`. -/
def abs (names : List String) : PathBuf := ⟨.rootDir :: names.map .normal⟩

/-- The relative path of the file names. -/
def rel (names : List String) : PathBuf := ⟨names.map .normal⟩

def isAbsolute (p : PathBuf) : Bool := p.components.head? = some .rootDir

/-- `Path::join`: an absolute path replaces the base. -/
def join (base p : PathBuf) : PathBuf :=
  if p.isAbsolute then p
  else if base.components = [] then p
  else ⟨base.components ++ p.components.filter (· ≠ .curDir)⟩

def startsWith (p base : PathBuf) : Bool := base.components.isPrefixOf p.components

/-- `Path::strip_prefix`. -/
def stripPrefix (p base : PathBuf) : Option PathBuf :=
  if p.startsWith base then some ⟨p.components.drop base.components.length⟩ else none

/-- `utils::strip_prefix`: the path relative to the base where it lies under it. -/
def stripPrefixOrSelf (p base : PathBuf) : PathBuf := (p.stripPrefix base).getD p

/-- `Path::parent`: none for the root and for the empty path. -/
def parent (p : PathBuf) : Option PathBuf :=
  match p.components.getLast? with
  | none | some .rootDir => none
  | some _ => some ⟨p.components.dropLast⟩

def fileName (p : PathBuf) : Option String :=
  match p.components.getLast? with
  | some (.normal name) => some name
  | _ => none

/-- The part of a file name before its last dot; a leading dot does not count. -/
def fileStem (p : PathBuf) : Option String :=
  p.fileName.map fun name =>
    match (name.toList.splitOn '.').dropLast with
    | [] | [[]] => name
    | parts => String.ofList (['.'].intercalate parts)

/-- The text of the path. -/
def toString (p : PathBuf) : String :=
  match p.components with
  | .rootDir :: rest => "/" ++ "/".intercalate (rest.map Component.text)
  | components => "/".intercalate (components.map Component.text)

/-! ## Paths below a directory -/

/-- `p` is the directory followed by file names. -/
def Inside (p dir : PathBuf) : Prop :=
  ∃ names : List String, names ≠ [] ∧ p.components = dir.components ++ names.map .normal

variable {p dir : PathBuf}

theorem isAbsolute_iff : p.isAbsolute = true ↔ ∃ rest, p.components = .rootDir :: rest := by
  cases p with
  | mk components => cases components <;> simp [isAbsolute]

@[simp] theorem components_rel (names : List String) :
    (rel names).components = names.map .normal := rfl

@[simp] theorem isAbsolute_rel (names : List String) : (rel names).isAbsolute = false := by
  cases names <;> simp [rel, isAbsolute]

theorem join_of_isAbsolute (h : p.isAbsolute = true) : dir.join p = p := by
  simp [join, h]

theorem components_join (h : dir.isAbsolute = true) (relative : p.isAbsolute = false) :
    (dir.join p).components = dir.components ++ p.components.filter (· ≠ .curDir) := by
  obtain ⟨rest, eq⟩ := isAbsolute_iff.mp h
  simp [join, relative, eq]

theorem components_join_rel (h : dir.isAbsolute = true) (names : List String) :
    (dir.join (rel names)).components = dir.components ++ names.map .normal := by
  rw [components_join h (isAbsolute_rel names), components_rel,
    List.filter_eq_self.mpr (by simp)]

theorem rel_join_rel (name : String) (names : List String) :
    (rel [name]).join (rel names) = rel (name :: names) := by
  simp only [join, isAbsolute_rel, components_rel]
  simp [rel, List.filter_map, Function.comp_def]

theorem inside_join_rel (h : dir.isAbsolute = true) {names : List String} (ne : names ≠ []) :
    (dir.join (rel names)).Inside dir :=
  ⟨names, ne, components_join_rel h names⟩

theorem Inside.isAbsolute (inside : p.Inside dir) (h : dir.isAbsolute = true) :
    p.isAbsolute = true := by
  obtain ⟨names, -, eq⟩ := inside
  obtain ⟨rest, root⟩ := isAbsolute_iff.mp h
  exact isAbsolute_iff.mpr ⟨rest ++ names.map .normal, by rw [eq, root, List.cons_append]⟩

theorem stripPrefix_join_rel (h : dir.isAbsolute = true) (names : List String) :
    (dir.join (rel names)).stripPrefixOrSelf dir = rel names := by
  have eq := components_join_rel h names
  have below : dir.components.isPrefixOf (dir.join (rel names)).components = true := by
    rw [eq]
    simp
  rw [stripPrefixOrSelf, stripPrefix, startsWith, if_pos below, eq, List.drop_left]
  rfl

/-- A text without separators, other than the special names, is a file name. -/
theorem ofString_eq_rel {text : String} (plain : '/' ∉ text.toList)
    (proper : text ≠ "" ∧ text ≠ "." ∧ text ≠ "..") : ofString text = rel [text] := by
  have parts : text.toList.splitOn '/' = [text.toList] := by
    rw [List.splitOn_eq_splitOnP]
    refine List.splitOnP_eq_singleton fun c mem => ?_
    have : c ≠ '/' := fun eq => plain (eq ▸ mem)
    simp [this]
  have head : text.toList.head? ≠ some '/' := by
    intro eq
    exact plain (List.mem_of_head? eq)
  simp [ofString, parts, head, proper, rel]

end PathBuf

end FoundryCore
