import FoundryCore.Path

/-!
# Source files

The files a project is read from, and the sources made of them.
-/

open Std

namespace FoundryCore

/-- The files that read as text, by path, and what else exists. -/
structure FileSystem where
  files : ExtTreeMap PathBuf String
  directories : List PathBuf
  /-- Files that do not read as text. -/
  others : List PathBuf
  named : ∀ file ∈ files, file.fileName.isSome

namespace FileSystem

def isDir (fs : FileSystem) (path : PathBuf) : Bool := path ∈ fs.directories

def pathExists (fs : FileSystem) (path : PathBuf) : Bool :=
  path ∈ fs.files || fs.isDir path || path ∈ fs.others

/-- Whether `path`, the outcome of a join with `rest`, exists. The text of a path that is joined
with an empty one ends in a separator, behind which only a directory is found. -/
def joinedExists (fs : FileSystem) (path rest : PathBuf) : Bool :=
  if rest.components = [] then fs.isDir path else fs.pathExists path

end FileSystem

/-- How much output of a source is requested. -/
inductive SourceCompilationKind
  | complete
  /-- Only needed because another file imports it. -/
  | optimized
deriving DecidableEq, Repr

/-- The content of a source file. -/
structure Source where
  content : String
  kind : SourceCompilationKind := .complete
deriving DecidableEq, Repr

def Source.isDirty (source : Source) : Bool := source.kind = .complete

/-- Replaces `\r\n` by `\n`. -/
def normalizeLineEndings : List Char → List Char
  | '\r' :: '\n' :: rest => '\n' :: normalizeLineEndings rest
  | c :: rest => c :: normalizeLineEndings rest
  | [] => []

/-- Reads a file's content. -/
def Source.read (fs : FileSystem) (file : PathBuf) : Option Source :=
  fs.files[file]?.map fun text => { content := .ofList (normalizeLineEndings text.toList) }

/-- An ordered list of files and their source. -/
abbrev Sources := ExtTreeMap PathBuf Source

/-- Joins all paths relative to `root`. -/
def Sources.makeAbsolute (sources : Sources) (root : PathBuf) : Sources :=
  sources.toList.foldl (fun absolute (path, source) => absolute.insert (root.join path) source) ∅

/-- The files that are compiled for their own sake. -/
def Sources.dirtyFiles (sources : Sources) : List PathBuf :=
  (sources.toList.filter fun (_, source) => source.isDirty).map Prod.fst

theorem Source.read_isSome {fs : FileSystem} {file : PathBuf} :
    (Source.read fs file).isSome ↔ file ∈ fs.files := by
  simp [Source.read]

/-- A file has a directory around it. -/
theorem PathBuf.parent_isSome_of_fileName {p : PathBuf} (named : p.fileName.isSome) :
    p.parent.isSome := by
  unfold PathBuf.fileName at named
  unfold PathBuf.parent
  split at named
  · next last => simp [last]
  · simp at named

theorem FileSystem.parent_isSome (fs : FileSystem) {file : PathBuf} (mem : file ∈ fs.files) :
    file.parent.isSome :=
  PathBuf.parent_isSome_of_fileName (fs.named file mem)

theorem PathBuf.fileName_isSome_iff {p : PathBuf} :
    p.fileName.isSome ↔ ∃ name, p.components.getLast? = some (.normal name) := by
  unfold PathBuf.fileName
  split
  · next name last => simp [last]
  · next other =>
    simp only [Option.isSome_none, Bool.false_eq_true, false_iff, not_exists]
    exact other

theorem PathBuf.fileName_isSome_abs (dirs : List String) (name : String) :
    (abs (dirs ++ [name])).fileName.isSome := by
  rw [fileName_isSome_iff]
  exact ⟨name, by simp [abs, List.getLast?_cons]⟩

/-- The file system with the given texts, each with the directories and the name of its file. -/
def FileSystem.ofTexts (texts : List (List String × String × String)) : FileSystem where
  files := .ofList (texts.map fun (dirs, name, text) => (PathBuf.abs (dirs ++ [name]), text))
  directories := []
  others := []
  named file mem := by
    simp only [ExtTreeMap.mem_ofList, List.contains_iff_mem, List.map_map, List.mem_map,
      Function.comp_apply] at mem
    obtain ⟨entry, -, rfl⟩ := mem
    exact PathBuf.fileName_isSome_abs _ _

theorem PathBuf.fileName_isSome_join {p root : PathBuf} (named : p.fileName.isSome) :
    (root.join p).fileName.isSome := by
  unfold PathBuf.join
  split_ifs
  · exact named
  · exact named
  · rw [fileName_isSome_iff] at named ⊢
    obtain ⟨name, last⟩ := named
    obtain ⟨init, eq⟩ := List.getLast?_eq_some_iff.mp last
    exact ⟨name, by simp [eq, List.filter_append]⟩

theorem Sources.mem_makeAbsolute {sources : Sources} {root p : PathBuf}
    (mem : p ∈ sources.makeAbsolute root) : ∃ file ∈ sources, p = root.join file := by
  suffices loop : ∀ (l : List (PathBuf × Source)) (m : Sources), p ∈ l.foldl
      (fun absolute (path, source) => absolute.insert (root.join path) source) m →
        p ∈ m ∨ ∃ entry ∈ l, p = root.join entry.1 by
    obtain impossible | ⟨⟨file, source⟩, entry, rfl⟩ := loop _ _ mem
    · simp at impossible
    · refine ⟨file, ?_, rfl⟩
      exact ExtTreeMap.mem_iff_isSome_getElem?.mpr
        (Option.isSome_of_eq_some (ExtTreeMap.mem_toList_iff_getElem?_eq_some.mp entry))
  intro l
  induction l with
  | nil => exact fun m mem => .inl mem
  | cons entry l ih =>
    intro m mem
    obtain old | ⟨entry', mem', eq⟩ := ih _ mem
    · rw [ExtTreeMap.mem_insert, LawfulEqCmp.compare_eq_iff_eq] at old
      exact old.elim (fun eq => .inr ⟨entry, by simp, eq.symm⟩) .inl
    · exact .inr ⟨entry', by simp [mem'], eq⟩

end FoundryCore
