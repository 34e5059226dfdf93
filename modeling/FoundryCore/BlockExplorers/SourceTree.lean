import Mathlib.Data.List.Infix
import FoundryCore.Resolver.Multi
import FoundryCore.Resolver.Rooted

/-!
# Source trees

The sources of a contract from a block explorer are written into a directory. Their paths come
from elsewhere: they are sanitized before, so that nothing is written outside of the directory.
-/

open Std

namespace FoundryCore

/-- `Path::with_extension`. A path without a file name stays as it is. -/
def PathBuf.withExtension (p : PathBuf) (extension : String) : PathBuf :=
  match p.fileStem with
  | none => p
  | some stem =>
    let name := if extension = "" then stem else stem ++ "." ++ extension
    ⟨p.components.dropLast ++ [Component.normal name]⟩

/-- What parsing a text gives: `/` and `.` only at the start, and no empty names. -/
structure PathBuf.Parsed (p : PathBuf) : Prop where
  wellFormed : p.WellFormed
  names : .normal "" ∉ p.components

theorem PathBuf.parsed_ofString (text : String) : (ofString text).Parsed where
  wellFormed := wellFormed_ofString text
  names := by
    intro mem
    simp only [ofString, List.mem_append, List.mem_map, List.mem_filter] at mem
    rcases mem with leading | ⟨part, ⟨⟨-, someEq⟩, -⟩, eq⟩
    · split_ifs at leading <;> simp at leading
    · split_ifs at eq
      cases eq
      simp at someEq

theorem PathBuf.Parsed.join {p base : PathBuf} (h : base.Parsed) (parsed : p.Parsed) :
    (base.join p).Parsed where
  wellFormed := h.wellFormed.join parsed.wellFormed
  names := by
    unfold PathBuf.join
    split_ifs
    · exact parsed.names
    · exact parsed.names
    · intro mem
      rcases List.mem_append.mp mem with mem | mem
      · exact h.names mem
      · exact parsed.names (List.mem_filter.mp mem).1

/-- A source and its path. -/
structure SourceTreeEntry where
  path : PathBuf
  contents : String
  parsed : path.Parsed

def SourceTreeEntry.ofStrings (path contents : String) : SourceTreeEntry where
  path := .ofString path
  contents
  parsed := PathBuf.parsed_ofString path

namespace SourceTree

/-- Remove any components in a smart contract source path that could cause a directory
traversal. -/
def sanitizePath (path : PathBuf) : PathBuf :=
  (PathBuf.mk (path.components.filter (· ≠ .parentDir))).stripPrefixOrSelf ⟨[.rootDir]⟩

/-- The path below the directory that an entry is written to. -/
def targetPath (entries : List SourceTreeEntry) (entry : SourceTreeEntry) : PathBuf :=
  let sanitizedPath := sanitizePath entry.path
  if sanitizedPath.extension = none then
    let withExtension := sanitizedPath.withExtension "sol"
    if entries.any fun e => e.path = withExtension then sanitizedPath else withExtension
  else sanitizedPath

/-! ## The disk -/

/-- Files with their contents and directories. Paths that differ in `.` only are one. -/
structure Disk where
  files : ExtTreeMap PathBuf String := ∅
  dirs : ExtTreeSet PathBuf := ∅

/-- A path without `.` components. -/
def key (path : PathBuf) : PathBuf := ⟨path.components.filter (· ≠ .curDir)⟩

namespace Disk

/-- Whether the system lets an operation through, for whatever reason. -/
abbrev System := Disk → PathBuf → Bool

variable (os : System)

/-- Creates the directories in turn, unless they are there. -/
def createDirs : List PathBuf → Disk → Bool × Disk
  | [], disk => (true, disk)
  | dir :: rest, disk =>
    if key dir ∈ disk.dirs then createDirs rest disk
    else if key dir ∈ disk.files ∨ os disk dir = false then (false, disk)
    else createDirs rest { disk with dirs := disk.dirs.insert (key dir) }

/-- The path and all its parents, from the first one on. -/
def prefixes (path : PathBuf) : List PathBuf := path.components.inits.tail.map .mk

/-- `std::fs::create_dir_all`. -/
def createDirAll (path : PathBuf) (disk : Disk) : Bool × Disk := createDirs os (prefixes path) disk

/-- `std::fs::write`. -/
def write (path : PathBuf) (contents : String) (disk : Disk) : Bool × Disk :=
  if path.fileName = none ∨ key path ∈ disk.dirs ∨ os disk path = false then (false, disk)
  else (true, { disk with files := disk.files.insert (key path) contents })

/-- `std::fs::read_to_string`. -/
def read (disk : Disk) (path : PathBuf) : Option String :=
  if path.fileName = none then none else disk.files[key path]?

end Disk

open Disk

/-! ## Writing the tree -/

/-- Writes one entry. It is passed over if its path in the directory has no parent. -/
def writeEntry (os : System) (dir : PathBuf) (entries : List SourceTreeEntry)
    (entry : SourceTreeEntry) (disk : Disk) : Bool × Disk :=
  let joined := dir.join (targetPath entries entry)
  match joined.parent with
  | none => (true, disk)
  | some parent =>
    let (created, disk) := createDirAll os parent disk
    if created then disk.write os joined entry.contents else (false, disk)

/-- Writes entries in turn, until one fails. -/
def writeEntries (os : System) (dir : PathBuf) (entries : List SourceTreeEntry) :
    List SourceTreeEntry → Disk → Bool × Disk
  | [], disk => (true, disk)
  | entry :: rest, disk =>
    let (written, disk) := writeEntry os dir entries entry disk
    if written then writeEntries os dir entries rest disk else (false, disk)

/-- Expand the source tree into the provided directory. -/
def writeTo (os : System) (dir : PathBuf) (entries : List SourceTreeEntry) (disk : Disk) :
    Bool × Disk :=
  let (created, disk) := createDirAll os dir disk
  if created then writeEntries os dir entries entries disk else (false, disk)

/-! ## Sanitized paths -/

variable {path dir : PathBuf} {entries : List SourceTreeEntry} {entry : SourceTreeEntry}

theorem stripPrefixOrSelf_rootDir {components : List Component}
    (relative : .rootDir ∉ components) :
    (PathBuf.mk components).stripPrefixOrSelf ⟨[.rootDir]⟩ = ⟨components⟩ := by
  have outside : (PathBuf.mk components).startsWith ⟨[.rootDir]⟩ = false := by
    refine Bool.eq_false_iff.mpr fun below => relative ?_
    exact (List.isPrefixOf_iff_prefix.mp below).subset List.mem_cons_self
  simp [PathBuf.stripPrefixOrSelf, PathBuf.stripPrefix, outside]

/-- Sanitizing drops the components that lead upwards or to the root. -/
theorem components_sanitizePath (wellFormed : path.WellFormed) :
    (sanitizePath path).components =
      path.components.filter fun c => c ≠ .parentDir ∧ c ≠ .rootDir := by
  have same : ∀ {components : List Component}, .rootDir ∉ components →
      components.filter (· ≠ .parentDir) =
        components.filter fun c => c ≠ .parentDir ∧ c ≠ .rootDir := by
    intro components relative
    refine List.filter_congr fun c mem => ?_
    have other : c ≠ .rootDir := fun same => relative (same ▸ mem)
    simp [other]
  obtain ⟨components⟩ := path
  cases components with
  | nil => rfl
  | cons first rest =>
    have inner : .rootDir ∉ rest := fun mem => (wellFormed .rootDir mem).1 rfl
    by_cases root : first = .rootDir
    · subst root
      have below : (PathBuf.mk (.rootDir :: rest.filter (· ≠ .parentDir))).stripPrefixOrSelf
          ⟨[.rootDir]⟩ = ⟨rest.filter (· ≠ .parentDir)⟩ := by
        simp [PathBuf.stripPrefixOrSelf, PathBuf.stripPrefix, PathBuf.startsWith]
      have filtered : (Component.rootDir :: rest).filter (· ≠ .parentDir) =
          .rootDir :: rest.filter (· ≠ .parentDir) := rfl
      rw [sanitizePath, filtered, below, same inner]
      rfl
    · have relative : .rootDir ∉ first :: rest := by
        rw [List.mem_cons, not_or]
        exact ⟨Ne.symm root, inner⟩
      have filtered : .rootDir ∉ (first :: rest).filter (· ≠ .parentDir) :=
        fun mem => relative (List.mem_filter.mp mem).1
      rw [sanitizePath, stripPrefixOrSelf_rootDir filtered, same relative]

/-- The path does not lead upwards or to the root. -/
def Plain (path : PathBuf) : Prop := ∀ c ∈ path.components, c ≠ .parentDir ∧ c ≠ .rootDir

theorem plain_sanitizePath (wellFormed : path.WellFormed) : Plain (sanitizePath path) := by
  intro c mem
  rw [components_sanitizePath wellFormed] at mem
  simpa using (List.mem_filter.mp mem).2

theorem plain_withExtension (plain : Plain path) (extension : String) :
    Plain (path.withExtension extension) := by
  unfold PathBuf.withExtension
  split
  · exact plain
  · intro c mem
    rcases List.mem_append.mp mem with mem | mem
    · exact plain c (List.dropLast_subset _ mem)
    · obtain rfl := List.mem_singleton.mp mem
      simp

theorem plain_targetPath (entries : List SourceTreeEntry) (entry : SourceTreeEntry) :
    Plain (targetPath entries entry) := by
  have plain := plain_sanitizePath entry.parsed.wellFormed
  simp only [targetPath]
  split_ifs
  · exact plain
  · exact plain_withExtension plain "sol"
  · exact plain

theorem Plain.isAbsolute (plain : Plain path) : path.isAbsolute = false := by
  obtain ⟨components⟩ := path
  cases components with
  | nil => rfl
  | cons first rest => simpa [PathBuf.isAbsolute] using (plain first List.mem_cons_self).2

theorem exists_names {components : List Component}
    (all : ∀ c ∈ components, c ≠ .rootDir ∧ c ≠ .curDir ∧ c ≠ .parentDir) :
    ∃ names : List String, components = names.map .normal := by
  induction components with
  | nil => exact ⟨[], rfl⟩
  | cons first rest ih =>
    obtain ⟨names, rfl⟩ := ih fun c mem => all c (List.mem_cons_of_mem _ mem)
    have plain := all first List.mem_cons_self
    cases first with
    | normal name => exact ⟨name :: names, rfl⟩
    | _ => simp at plain

/-- Without `.`, what is left of such a path is names. -/
theorem Plain.key (plain : Plain path) :
    ∃ names : List String, (key path).components = names.map .normal := by
  refine exists_names fun c mem => ?_
  obtain ⟨mem, ne⟩ := List.mem_filter.mp mem
  exact ⟨(plain c mem).2, by simpa using ne, (plain c mem).1⟩

/-- A path joined to a directory is behind the directory. -/
theorem Plain.key_join (plain : Plain path) (dir : PathBuf) :
    (SourceTree.key (dir.join path)).components =
      (SourceTree.key dir).components ++ (SourceTree.key path).components := by
  unfold PathBuf.join
  rw [if_neg (by simp [plain.isAbsolute])]
  split_ifs with empty
  · simp [SourceTree.key, empty]
  · simp [SourceTree.key, List.filter_append]

theorem parsed_sanitizePath (parsed : path.Parsed) : (sanitizePath path).Parsed where
  wellFormed c mem := by
    rw [components_sanitizePath parsed.wellFormed] at mem
    exact parsed.wellFormed c (List.filter_sublist.tail.subset mem)
  names mem := by
    rw [components_sanitizePath parsed.wellFormed] at mem
    exact parsed.names (List.mem_filter.mp mem).1

/-- Maps the sources of a contract to entries. -/
def sourceEntries (contractName : String) (sources : List (String × String)) :
    List SourceTreeEntry :=
  sources.map fun (path, contents) => {
    path := (PathBuf.ofString contractName).join (sanitizePath (.ofString path))
    contents
    parsed := (PathBuf.parsed_ofString contractName).join
      (parsed_sanitizePath (PathBuf.parsed_ofString path)) }

/-! ## Containment -/

/-- The path is the directory or below it. -/
def Within (path dir : PathBuf) : Prop :=
  ∃ names : List String, path.components = dir.components ++ names.map .normal

/-- The sources of a contract are in the folder of the contract, whatever they call themselves. -/
theorem within_of_mem_sourceEntries {contractName : String} {sources : List (String × String)}
    {entry : SourceTreeEntry} (mem : entry ∈ sourceEntries contractName sources) :
    Within (key entry.path) (key (.ofString contractName)) := by
  obtain ⟨⟨path, contents⟩, -, rfl⟩ := List.mem_map.mp mem
  have plain := plain_sanitizePath (PathBuf.parsed_ofString path).wellFormed
  obtain ⟨names, eq⟩ := plain.key
  exact ⟨names, by rw [plain.key_join, eq]⟩

/-- The path is the directory or one of its ancestors. -/
def Above (path dir : PathBuf) : Prop := path.components <+: dir.components

/-- Between two states of the disk, files were written below the directory only, and no other
directories were created than below it and above it. -/
structure Contained (dir : PathBuf) (disk disk' : Disk) : Prop where
  files : ∀ (path : PathBuf) contents, disk'.files[path]? = some contents →
    disk.files[path]? = some contents ∨ Within path (key dir)
  dirs : ∀ path ∈ disk'.dirs, path ∈ disk.dirs ∨ Within path (key dir) ∨ Above path (key dir)

variable {os : System} {disk disk' disk'' : Disk}

theorem Contained.refl : Contained dir disk disk where
  files _ _ := .inl
  dirs _ := .inl

theorem Contained.trans (first : Contained dir disk disk') (second : Contained dir disk' disk'') :
    Contained dir disk disk'' where
  files path contents getEq := by
    rcases second.files path contents getEq with before | within
    · exact first.files path contents before
    · exact .inr within
  dirs path mem := by
    rcases second.dirs path mem with before | inside
    · exact first.dirs path before
    · exact .inr inside

theorem within_or_above {names : List String}
    (pre : path.components <+: dir.components ++ names.map .normal) :
    Within path dir ∨ Above path dir := by
  rcases List.prefix_or_prefix_of_prefix pre (List.prefix_append ..) with above | ⟨rest, eq⟩
  · exact .inr above
  · rw [← eq, List.prefix_append_right_inj] at pre
    rw [Within, ← eq, List.prefix_iff_eq_take.mp pre, ← List.map_take]
    exact .inl ⟨_, rfl⟩

theorem createDirs_contained {paths : List PathBuf}
    (inside : ∀ path ∈ paths, Within (key path) (key dir) ∨ Above (key path) (key dir)) :
    Contained dir disk (createDirs os paths disk).2 := by
  induction paths generalizing disk with
  | nil => exact .refl
  | cons path paths ih =>
    have rest : ∀ disk, Contained dir disk (createDirs os paths disk).2 :=
      fun disk => ih fun p mem => inside p (List.mem_cons_of_mem _ mem)
    rw [createDirs]
    split_ifs
    · exact rest disk
    · exact .refl
    · refine Contained.trans ?_ (rest _)
      refine ⟨fun _ _ => .inl, fun p mem => ?_⟩
      rcases ExtTreeSet.mem_insert.mp mem with same | before
      · obtain rfl := LawfulEqOrd.eq_of_compare same
        exact .inr (inside path List.mem_cons_self)
      · exact .inl before

theorem write_contained {contents : String} (within : Within (key path) (key dir)) :
    Contained dir disk (disk.write os path contents).2 := by
  rw [Disk.write]
  split_ifs
  · exact .refl
  · refine ⟨fun p contents' getEq => ?_, fun _ => .inl⟩
    rw [Library.getElem?_insert_eq] at getEq
    split_ifs at getEq with same
    · exact .inr (same ▸ within)
    · exact .inl getEq

theorem mem_prefixes {q : PathBuf} (mem : q ∈ prefixes path) :
    q.components <+: path.components := by
  obtain ⟨components, init, rfl⟩ := List.mem_map.mp mem
  exact (List.mem_inits _ _).mp (List.mem_of_mem_tail init)

theorem components_parent {parent : PathBuf} (eq : path.parent = some parent) :
    parent.components <+: path.components := by
  unfold PathBuf.parent at eq
  split at eq
  · cases eq
  · cases eq
  · cases eq
    exact List.dropLast_prefix _

/-- The path of an entry is the directory or below it. -/
theorem within_join (dir : PathBuf) (entries : List SourceTreeEntry) (entry : SourceTreeEntry) :
    Within (key (dir.join (targetPath entries entry))) (key dir) := by
  have plain := plain_targetPath entries entry
  obtain ⟨names, eq⟩ := plain.key
  exact ⟨names, by rw [plain.key_join dir, eq]⟩

theorem writeEntry_contained :
    Contained dir disk (writeEntry os dir entries entry disk).2 := by
  have within := within_join dir entries entry
  simp only [writeEntry]
  cases parentEq : (dir.join (targetPath entries entry)).parent with
  | none => exact .refl
  | some parent =>
    have created : Contained dir disk (createDirAll os parent disk).2 := by
      refine createDirs_contained fun q mem => ?_
      have pre : (key q).components <+: (key (dir.join (targetPath entries entry))).components :=
        ((mem_prefixes mem).trans (components_parent parentEq)).filter _
      obtain ⟨names, eq⟩ := within
      exact within_or_above (eq ▸ pre)
    dsimp only
    split_ifs
    · exact created.trans (write_contained within)
    · exact created

theorem writeEntries_contained {rest : List SourceTreeEntry} :
    Contained dir disk (writeEntries os dir entries rest disk).2 := by
  induction rest generalizing disk with
  | nil => exact .refl
  | cons entry rest ih =>
    simp only [writeEntries]
    split_ifs
    · exact writeEntry_contained.trans ih
    · exact writeEntry_contained

/-- Whatever the paths of the entries are, nothing is written and no directory is created outside
of the directory, but for the ancestors of the directory. -/
theorem writeTo_contained (os : System) (dir : PathBuf) (entries : List SourceTreeEntry)
    (disk : Disk) : Contained dir disk (writeTo os dir entries disk).2 ∧
      ∀ entry ∈ entries, Within (key (dir.join (targetPath entries entry))) (key dir) := by
  have created : Contained dir disk (createDirAll os dir disk).2 := by
    refine createDirs_contained fun q mem => .inr ?_
    exact (mem_prefixes mem).filter _
  refine ⟨?_, fun entry _ => within_join dir entries entry⟩
  simp only [writeTo]
  split_ifs
  · exact created.trans writeEntries_contained
  · exact created

end SourceTree

end FoundryCore
