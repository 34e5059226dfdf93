import FoundryCore.BlockExplorers.SourceTree

/-!
# Files of a source tree

Each source of a tree should have a file of its own. An entry without an extension gets one, unless
that is the path of another entry, which is compared before it is sanitized: two entries go to one
file if only their sanitized paths tell that they do.
-/

open Std

namespace FoundryCore

namespace PathBuf

variable {p q : PathBuf}

/-! ## Names and extensions -/

theorem fileName_eq_some {name : String} :
    p.fileName = some name ↔ ∃ dirs, p.components = dirs ++ [Component.normal name] := by
  obtain ⟨components⟩ := p
  induction components using List.reverseRecOn with
  | nil => simp [fileName]
  | append_singleton dirs last _ =>
    cases last <;> simp [fileName]

/-- A name without an extension is its own stem. -/
theorem fileStem_of_extension {name : String} (named : p.fileName = some name)
    (bare : p.extension = none) : p.fileStem = some name := by
  have parts : (name.toList.splitOn '.').dropLast = [] ∨
      (name.toList.splitOn '.').dropLast = [[]] := by
    rw [extension, named, Option.bind_some] at bare
    split at bare
    · next single => exact .inl single
    · next hidden => exact .inr hidden
    · obtain ⟨last, lastEq⟩ := Option.isSome_iff_exists.mp
        (List.getLast?_isSome.mpr (List.splitOn_ne_nil '.' name.toList))
      simp [lastEq] at bare
  rcases parts with single | hidden
  · simp [fileStem, named, single]
  · simp [fileStem, named, hidden]

/-- Extending a name. -/
theorem withExtension_eq {name : String} {dirs : List Component}
    (eq : p.components = dirs ++ [Component.normal name]) (bare : p.extension = none) :
    p.withExtension "sol" = ⟨dirs ++ [Component.normal (name ++ ".sol")]⟩ := by
  have named := fileName_eq_some.mpr ⟨dirs, eq⟩
  have dot : name ++ "." ++ "sol" = name ++ ".sol" := by
    rw [String.append_assoc]
    rfl
  simp [withExtension, fileStem_of_extension named bare, eq, dot]

theorem extension_sol {name : String} (dirs : List Component) (nonempty : name ≠ "") :
    (PathBuf.mk (dirs ++ [Component.normal (name ++ ".sol")])).extension = some "sol" := by
  have named : (PathBuf.mk (dirs ++ [Component.normal (name ++ ".sol")])).fileName =
      some (name ++ ".sol") :=
    fileName_eq_some.mpr ⟨dirs, rfl⟩
  have parts : (name ++ ".sol").toList.splitOn '.' =
      name.toList.splitOn '.' ++ [['s', 'o', 'l']] := by
    have text : (name ++ ".sol").toList = name.toList ++ '.' :: ['s', 'o', 'l'] := by simp
    rw [text, List.splitOn_append_cons_self]
    rfl
  have visible : name.toList.splitOn '.' ≠ [[]] := by
    intro hidden
    have joined : ['.'].intercalate (name.toList.splitOn '.') = name.toList :=
      List.intercalate_splitOn '.'
    rw [hidden] at joined
    exact nonempty (String.toList_eq_nil_iff.mp joined.symm)
  rw [extension, named, Option.bind_some, parts, List.dropLast_concat]
  split
  · next noneEq => exact absurd noneEq (List.splitOn_ne_nil _ _)
  · next hidden => exact absurd hidden visible
  · simp

end PathBuf

namespace SourceTree

open Disk

variable {os : System} {dir path : PathBuf} {entries rest : List SourceTreeEntry}
  {entry : SourceTreeEntry} {disk disk' : Disk}

/-! ## Paths without dots -/

/-- Parsing leaves a `.` only at the start. -/
theorem components_eq_key (wellFormed : path.WellFormed) :
    path.components = (key path).components ∨
      path.components = .curDir :: (key path).components := by
  obtain ⟨components⟩ := path
  cases components with
  | nil => exact .inl rfl
  | cons first rest =>
    have kept : rest.filter (· ≠ .curDir) = rest :=
      List.filter_eq_self.mpr fun c mem => by simpa using (wellFormed c mem).2
    by_cases dot : first = .curDir
    · subst dot
      exact .inr (congrArg (_ :: ·) kept.symm)
    · refine .inl (Eq.symm ?_)
      exact (List.filter_cons_of_pos (by simpa using dot)).trans (congrArg (_ :: ·) kept)

theorem fileName_key (wellFormed : path.WellFormed) : (key path).fileName = path.fileName := by
  rcases components_eq_key wellFormed with eq | eq
  · rw [PathBuf.fileName, PathBuf.fileName, ← eq]
  · rw [PathBuf.fileName, PathBuf.fileName, eq]
    cases last : (key path).components.getLast? with
    | none =>
      rw [List.getLast?_eq_none_iff.mp last]
      rfl
    | some c =>
      rw [List.getLast?_cons, last, Option.getD_some]

theorem extension_key (wellFormed : path.WellFormed) : (key path).extension = path.extension := by
  rw [PathBuf.extension, PathBuf.extension, fileName_key wellFormed]

/-- A path with a name but no extension, and what extending it does to it without dots. -/
theorem key_withExtension {name : String} (named : path.fileName = some name)
    (bare : path.extension = none) :
    ∃ dirs, (key path).components = dirs ++ [Component.normal name] ∧
      (key (path.withExtension "sol")).components =
        dirs ++ [Component.normal (name ++ ".sol")] := by
  obtain ⟨dirs, eq⟩ := PathBuf.fileName_eq_some.mp named
  refine ⟨dirs.filter (· ≠ .curDir), ?_, ?_⟩
  · simp [key, eq, List.filter_append]
  · simp [key, PathBuf.withExtension_eq eq bare, List.filter_append]

/-- Extending keeps paths apart. -/
theorem key_withExtension_inj {path' : PathBuf} {name name' : String}
    (named : path.fileName = some name) (named' : path'.fileName = some name')
    (bare : path.extension = none) (bare' : path'.extension = none)
    (same : key (path.withExtension "sol") = key (path'.withExtension "sol")) :
    key path = key path' := by
  obtain ⟨dirs, eq, extended⟩ := key_withExtension named bare
  obtain ⟨dirs', eq', extended'⟩ := key_withExtension named' bare'
  have parts : dirs ++ [Component.normal (name ++ ".sol")] =
      dirs' ++ [Component.normal (name' ++ ".sol")] := by
    rw [← extended, ← extended', same]
  obtain ⟨rfl, last⟩ := List.append_inj' parts rfl
  have names : name = name' := by
    have appended : name ++ ".sol" = name' ++ ".sol" := by simpa using last
    have lists := congrArg String.toList appended
    rw [String.toList_append, String.toList_append] at lists
    exact String.toList_injective (List.append_cancel_right lists)
  have components : (key path).components = (key path').components := by rw [eq, eq', names]
  exact congrArg PathBuf.mk components

theorem key_join_inj {path' : PathBuf} (plain : Plain path) (plain' : Plain path') :
    key (dir.join path) = key (dir.join path') ↔ key path = key path' := by
  have components : ∀ {p q : PathBuf}, p = q ↔ p.components = q.components := by
    intro p q
    exact ⟨congrArg _, congrArg PathBuf.mk⟩
  rw [components, plain.key_join, plain'.key_join, List.append_cancel_left_eq, ← components]

/-! ## Targets -/

theorem targetPath_cases (entries : List SourceTreeEntry) (entry : SourceTreeEntry) :
    (((sanitizePath entry.path).extension = none →
        ∃ e ∈ entries, e.path = (sanitizePath entry.path).withExtension "sol") ∧
      targetPath entries entry = sanitizePath entry.path) ∨
      ((sanitizePath entry.path).extension = none ∧
        (∀ e ∈ entries, e.path ≠ (sanitizePath entry.path).withExtension "sol") ∧
        targetPath entries entry = (sanitizePath entry.path).withExtension "sol") := by
  simp only [targetPath]
  split_ifs with bare taken
  · refine .inl ⟨fun _ => ?_, rfl⟩
    simpa using taken
  · refine .inr ⟨bare, ?_, rfl⟩
    simpa using taken
  · exact .inl ⟨fun bare' => absurd bare' bare, rfl⟩

/-- Which entries have a path of their own. -/
structure Separate (entries : List SourceTreeEntry) : Prop where
  named : ∀ entry ∈ entries, (sanitizePath entry.path).fileName ≠ none
  /-- No two sanitized paths are the same but for a leading `.`. -/
  dots : entries.Pairwise fun e e' => key (sanitizePath e.path) ≠ key (sanitizePath e'.path)
  /-- Where the sanitized path of an entry is that of another one with an extension, there is an
  entry with this very path. -/
  extended : ∀ e ∈ entries, ∀ e' ∈ entries, (sanitizePath e.path).extension = none →
    key (sanitizePath e'.path) = key ((sanitizePath e.path).withExtension "sol") →
      ∃ e'' ∈ entries, e''.path = (sanitizePath e.path).withExtension "sol"

/-- Two entries do not go to one file. -/
def Apart (dir : PathBuf) (entries : List SourceTreeEntry) (e e' : SourceTreeEntry) : Prop :=
  key (dir.join (targetPath entries e)) ≠ key (dir.join (targetPath entries e'))

theorem apart_iff {e e' : SourceTreeEntry} : Apart dir entries e e' ↔
    key (targetPath entries e) ≠ key (targetPath entries e') :=
  (key_join_inj (plain_targetPath entries e) (plain_targetPath entries e')).not

theorem Separate.apart (separate : Separate entries) (dir : PathBuf) :
    entries.Pairwise (Apart dir entries) := by
  refine separate.dots.imp_of_mem fun {e e'} mem mem' differ => ?_
  rw [apart_iff]
  intro same
  rcases targetPath_cases entries e with ⟨-, target⟩ | ⟨bare, free, target⟩ <;>
    rcases targetPath_cases entries e' with ⟨-, target'⟩ | ⟨bare', free', target'⟩ <;>
    rw [target, target'] at same
  · exact differ same
  · obtain ⟨e'', mem'', eq⟩ := separate.extended e' mem' e mem bare' same
    exact free' e'' mem'' eq
  · obtain ⟨e'', mem'', eq⟩ := separate.extended e mem e' mem' bare same.symm
    exact free e'' mem'' eq
  · obtain ⟨name, named⟩ := Option.ne_none_iff_exists'.mp (separate.named e mem)
    obtain ⟨name', named'⟩ := Option.ne_none_iff_exists'.mp (separate.named e' mem')
    exact differ (key_withExtension_inj named named' bare bare' same)

/-- Extending paths that are the same without dots. -/
theorem key_withExtension_congr {path' : PathBuf} {name : String} (wellFormed : path.WellFormed)
    (wellFormed' : path'.WellFormed) (named : path.fileName = some name)
    (bare : path.extension = none) (same : key path = key path') :
    key (path.withExtension "sol") = key (path'.withExtension "sol") := by
  have named' : path'.fileName = some name := by
    rw [← fileName_key wellFormed', ← same, fileName_key wellFormed, named]
  have bare' : path'.extension = none := by
    rw [← extension_key wellFormed', ← same, extension_key wellFormed, bare]
  obtain ⟨dirs, eq, extended⟩ := key_withExtension named bare
  obtain ⟨dirs', eq', extended'⟩ := key_withExtension named' bare'
  have parts : dirs ++ [Component.normal name] = dirs' ++ [Component.normal name] := by
    rw [← eq, ← eq', same]
  rw [List.append_cancel_right parts, ← extended'] at extended
  exact congrArg PathBuf.mk extended

/-- A path that is sanitized already. -/
theorem sanitizePath_of_plain (wellFormed : path.WellFormed) (plain : Plain path) :
    sanitizePath path = path := by
  have all : path.components.filter (fun c => c ≠ .parentDir ∧ c ≠ .rootDir) = path.components :=
    List.filter_eq_self.mpr fun c mem => by simpa using plain c mem
  rw [← components_sanitizePath wellFormed] at all
  exact congrArg PathBuf.mk all

theorem separate_of_apart (named : ∀ entry ∈ entries, (sanitizePath entry.path).fileName ≠ none)
    (apart : entries.Pairwise (Apart dir entries)) : Separate entries := by
  have wellFormed : ∀ e : SourceTreeEntry, (sanitizePath e.path).WellFormed :=
    fun e => (parsed_sanitizePath e.parsed).wellFormed
  have : Symm (Apart dir entries) := ⟨fun _ _ apart => apart.symm⟩
  have distinct : ∀ e ∈ entries, ∀ e' ∈ entries, e ≠ e' → Apart dir entries e e' :=
    fun e mem e' mem' ne => apart.forall mem mem' ne
  have extended : ∀ e ∈ entries, ∀ e' ∈ entries, (sanitizePath e.path).extension = none →
      key (sanitizePath e'.path) = key ((sanitizePath e.path).withExtension "sol") →
        ∃ e'' ∈ entries, e''.path = (sanitizePath e.path).withExtension "sol" := by
    intro e mem e' mem' bare same
    by_contra! free
    obtain ⟨name, namedEq⟩ := Option.ne_none_iff_exists'.mp (named e mem)
    obtain ⟨dirs, -, extended⟩ := key_withExtension namedEq bare
    have nonempty : name ≠ "" := by
      rintro rfl
      obtain ⟨dirs, eq⟩ := PathBuf.fileName_eq_some.mp namedEq
      exact (parsed_sanitizePath e.parsed).names (by simp [eq])
    have sol : (sanitizePath e'.path).extension = some "sol" := by
      rw [← extension_key (wellFormed e'), same, ← PathBuf.extension_sol dirs nonempty,
        ← extended]
    have ne : e ≠ e' := by
      rintro rfl
      rw [bare] at sol
      cases sol
    have target : targetPath entries e = (sanitizePath e.path).withExtension "sol" := by
      rcases targetPath_cases entries e with ⟨taken, -⟩ | ⟨-, -, target⟩
      · obtain ⟨e'', mem'', eq⟩ := taken bare
        exact absurd eq (free e'' mem'')
      · exact target
    have target' : targetPath entries e' = sanitizePath e'.path := by
      rcases targetPath_cases entries e' with ⟨-, target⟩ | ⟨bare', -, -⟩
      · exact target
      · simp [bare'] at sol
    exact apart_iff.mp (distinct e mem e' mem' ne) (by rw [target, target', same])
  have extendsEach : ∀ e ∈ entries, ∀ e' ∈ entries,
      key (sanitizePath e.path) = key (sanitizePath e'.path) →
        (sanitizePath e'.path).extension = none →
          ((sanitizePath e.path).extension = none →
            ∃ e'' ∈ entries, e''.path = (sanitizePath e.path).withExtension "sol") →
              ∃ e'' ∈ entries, e''.path = (sanitizePath e'.path).withExtension "sol" := by
    intro e mem e' mem' same bare' taken
    have bare : (sanitizePath e.path).extension = none := by
      rw [← extension_key (wellFormed e), same, extension_key (wellFormed e'), bare']
    obtain ⟨name, namedEq⟩ := Option.ne_none_iff_exists'.mp (named e mem)
    obtain ⟨e'', mem'', eq⟩ := taken bare
    refine extended e' mem' e'' mem'' bare' ?_
    have plain : Plain e''.path := by
      rw [eq]
      exact plain_withExtension (plain_sanitizePath e.parsed.wellFormed) "sol"
    rw [sanitizePath_of_plain e''.parsed.wellFormed plain, eq]
    exact key_withExtension_congr (wellFormed e) (wellFormed e') namedEq bare same
  refine ⟨named, apart.imp_of_mem fun {e e'} mem mem' apart same => ?_, extended⟩
  rw [apart_iff] at apart
  rcases targetPath_cases entries e with ⟨taken, target⟩ | ⟨bare, free, target⟩ <;>
    rcases targetPath_cases entries e' with ⟨taken', target'⟩ | ⟨bare', free', target'⟩
  · exact apart (by rw [target, target', same])
  · obtain ⟨e'', mem'', eq⟩ := extendsEach e mem e' mem' same bare' taken
    exact free' e'' mem'' eq
  · obtain ⟨e'', mem'', eq⟩ := extendsEach e' mem' e mem same.symm bare taken'
    exact free e'' mem'' eq
  · obtain ⟨name, namedEq⟩ := Option.ne_none_iff_exists'.mp (named e mem)
    refine apart ?_
    rw [target, target', key_withExtension_congr (wellFormed e) (wellFormed e') namedEq bare same]

/-! ## What is on the disk -/

/-- Every entry has a file of its own, from which its content can be read. -/
structure Kept (dir : PathBuf) (entries : List SourceTreeEntry) (disk : Disk) : Prop where
  apart : entries.Pairwise (Apart dir entries)
  read : ∀ entry ∈ entries,
    disk.read (dir.join (targetPath entries entry)) = some entry.contents

theorem files_createDirs (paths : List PathBuf) (disk : Disk) :
    (createDirs os paths disk).2.files = disk.files := by
  induction paths generalizing disk with
  | nil => rfl
  | cons path paths ih =>
    rw [createDirs]
    split_ifs
    · exact ih disk
    · rfl
    · exact ih _

theorem dirs_createDirs (os : System) (paths : List PathBuf) (disk : Disk) {q : PathBuf}
    (mem : q ∈ disk.dirs) : q ∈ (createDirs os paths disk).2.dirs := by
  induction paths generalizing disk with
  | nil => exact mem
  | cons path paths ih =>
    rw [createDirs]
    split_ifs
    · exact ih disk mem
    · exact mem
    · exact ih _ (ExtTreeSet.mem_insert.mpr (.inr mem))

theorem parent_ne_none (named : path.fileName ≠ none) : path.parent ≠ none := by
  obtain ⟨name, named⟩ := Option.ne_none_iff_exists'.mp named
  obtain ⟨dirs, eq⟩ := PathBuf.fileName_eq_some.mp named
  simp [PathBuf.parent, eq]

/-- All directories are there after they were created. -/
theorem mem_createDirs {paths : List PathBuf} (created : createDirs os paths disk = (true, disk'))
    (mem : path ∈ paths) : key path ∈ disk'.dirs := by
  induction paths generalizing disk with
  | nil => cases mem
  | cons first paths ih =>
    rw [createDirs] at created
    split_ifs at created with there refused
    · rcases List.mem_cons.mp mem with rfl | mem
      · have kept := dirs_createDirs os paths disk there
        rwa [created] at kept
      · exact ih created mem
    · simp at created
    · rcases List.mem_cons.mp mem with rfl | mem
      · have kept := dirs_createDirs os paths
          { disk with dirs := disk.dirs.insert (key path) }
          (ExtTreeSet.mem_insert.mpr (.inl ReflOrd.compare_self))
        rwa [created] at kept
      · exact ih created mem

theorem write_eq_true {contents : String} (written : disk.write os path contents = (true, disk')) :
    path.fileName ≠ none ∧ key path ∉ disk.dirs ∧
      disk' = { disk with files := disk.files.insert (key path) contents } := by
  unfold Disk.write at written
  split_ifs at written with refused
  · simp at written
  · simp only [not_or] at refused
    exact ⟨refused.1, refused.2.1, (Prod.mk.inj written).2.symm⟩

/-- What a successful step does: nothing if the path has no parent, else it writes a file where
there was no directory. -/
theorem writeEntry_eq_true (written : writeEntry os dir entries entry disk = (true, disk')) :
    (∀ q ∈ disk.dirs, q ∈ disk'.dirs) ∧
    ((dir.join (targetPath entries entry)).parent = none ∧ disk' = disk ∨
      (dir.join (targetPath entries entry)).fileName ≠ none ∧
        key (dir.join (targetPath entries entry)) ∉ disk.dirs ∧
        disk'.files =
          disk.files.insert (key (dir.join (targetPath entries entry))) entry.contents) := by
  simp only [writeEntry] at written
  cases parentEq : (dir.join (targetPath entries entry)).parent with
  | none =>
    rw [parentEq] at written
    obtain rfl := (Prod.mk.inj written).2
    exact ⟨fun _ => id, .inl ⟨rfl, rfl⟩⟩
  | some parent =>
    rw [parentEq] at written
    dsimp only at written
    split_ifs at written with created
    · obtain ⟨named, free, rfl⟩ := write_eq_true written
      have kept : ∀ q ∈ disk.dirs, q ∈ (createDirAll os parent disk).2.dirs :=
        fun q mem => dirs_createDirs os _ disk mem
      refine ⟨kept, .inr ⟨named, fun mem => free (kept _ mem), ?_⟩⟩
      rw [createDirAll, files_createDirs]
    · simp at written

/-- In a successful run, each path was free when the run began. -/
theorem free_of_writeEntries (written : writeEntries os dir entries rest disk = (true, disk')) :
    ∀ entry ∈ rest, (dir.join (targetPath entries entry)).fileName ≠ none →
      key (dir.join (targetPath entries entry)) ∉ disk.dirs := by
  induction rest generalizing disk with
  | nil => simp
  | cons first rest ih =>
    simp only [writeEntries] at written
    split_ifs at written with ok
    · have step := writeEntry_eq_true (Prod.ext ok rfl)
      intro entry mem named
      rcases List.mem_cons.mp mem with rfl | mem
      · rcases step.2 with ⟨root, -⟩ | ⟨-, free, -⟩
        · exact absurd root (parent_ne_none named)
        · exact free
      · exact fun there => ih written entry mem named (step.1 _ there)
    · simp at written

/-- Other files stay as they are. -/
theorem files_writeEntries (written : writeEntries os dir entries rest disk = (true, disk'))
    {q : PathBuf} (other : ∀ entry ∈ rest, key (dir.join (targetPath entries entry)) ≠ q) :
    disk'.files[q]? = disk.files[q]? := by
  induction rest generalizing disk with
  | nil =>
    obtain rfl := (Prod.mk.inj written).2
    rfl
  | cons first rest ih =>
    simp only [writeEntries] at written
    split_ifs at written with ok
    · have step := writeEntry_eq_true (Prod.ext ok rfl)
      rw [ih written fun entry mem => other entry (List.mem_cons_of_mem _ mem)]
      rcases step.2 with ⟨-, same⟩ | ⟨-, -, files⟩
      · exact congrArg (fun disk : Disk => disk.files[q]?) same
      · rw [files, Library.getElem?_insert_eq, if_neg (other first List.mem_cons_self).symm]
    · simp at written

theorem read_of_writeEntries (apart : rest.Pairwise (Apart dir entries))
    (named : ∀ entry ∈ rest, (dir.join (targetPath entries entry)).fileName ≠ none)
    (written : writeEntries os dir entries rest disk = (true, disk')) :
    ∀ entry ∈ rest, disk'.read (dir.join (targetPath entries entry)) = some entry.contents := by
  induction rest generalizing disk with
  | nil => simp
  | cons first rest ih =>
    obtain ⟨other, apart⟩ := List.pairwise_cons.mp apart
    simp only [writeEntries] at written
    split_ifs at written with ok
    · have step := writeEntry_eq_true (Prod.ext ok rfl)
      intro entry mem
      rcases List.mem_cons.mp mem with rfl | mem
      · have name := named entry List.mem_cons_self
        rcases step.2 with ⟨root, -⟩ | ⟨-, -, files⟩
        · exact absurd root (parent_ne_none name)
        · rw [Disk.read, if_neg name, files_writeEntries written fun e mem => (other e mem).symm,
            files, Library.getElem?_insert_eq, if_pos rfl]
      · exact ih apart (fun e mem => named e (List.mem_cons_of_mem _ mem)) written entry mem
    · simp at written

/-! ## Entries that are kept -/

theorem fileName_join {name : String} (plain : Plain path) (named : path.fileName = some name)
    (dir : PathBuf) : (dir.join path).fileName = some name := by
  obtain ⟨dirs, eq⟩ := PathBuf.fileName_eq_some.mp named
  unfold PathBuf.join
  rw [if_neg (by simp [plain.isAbsolute])]
  split_ifs
  · exact named
  · refine PathBuf.fileName_eq_some.mpr ⟨dir.components ++ dirs.filter (· ≠ .curDir), ?_⟩
    simp [eq, List.filter_append]

theorem fileName_targetPath (entries : List SourceTreeEntry)
    (named : (sanitizePath entry.path).fileName ≠ none) :
    ∃ name, (targetPath entries entry).fileName = some name := by
  obtain ⟨name, named⟩ := Option.ne_none_iff_exists'.mp named
  rcases targetPath_cases entries entry with ⟨-, target⟩ | ⟨bare, -, target⟩
  · exact ⟨name, by rw [target, named]⟩
  · obtain ⟨dirs, eq⟩ := PathBuf.fileName_eq_some.mp named
    rw [target, PathBuf.withExtension_eq eq bare]
    exact ⟨_, PathBuf.fileName_eq_some.mpr ⟨dirs, rfl⟩⟩

/-- An entry without a name has the path of the directory itself. -/
theorem targetPath_of_nameless (entries : List SourceTreeEntry)
    (nameless : (sanitizePath entry.path).fileName = none) :
    targetPath entries entry = sanitizePath entry.path ∧
      (key (sanitizePath entry.path)).components = [] := by
  have stemless : (sanitizePath entry.path).withExtension "sol" = sanitizePath entry.path := by
    simp [PathBuf.withExtension, PathBuf.fileStem, nameless]
  constructor
  · rcases targetPath_cases entries entry with ⟨-, target⟩ | ⟨-, -, target⟩
    · exact target
    · rw [target, stemless]
  · obtain ⟨names, eq⟩ := (plain_sanitizePath entry.parsed.wellFormed).key
    rcases List.eq_nil_or_concat' names with rfl | ⟨names, name, rfl⟩
    · exact eq
    · have named : (key (sanitizePath entry.path)).fileName = some name :=
        PathBuf.fileName_eq_some.mpr ⟨names.map .normal, by simp [eq]⟩
      rw [fileName_key (parsed_sanitizePath entry.parsed).wellFormed, nameless] at named
      cases named

theorem mem_prefixes_self (nonempty : dir.components ≠ []) : dir ∈ prefixes dir := by
  obtain ⟨components⟩ := dir
  obtain ⟨first, rest, rfl⟩ := List.exists_cons_of_ne_nil nonempty
  exact List.mem_map.mpr ⟨_, by simp, rfl⟩

/-- After a successful run, the contents of all entries can be read from files of their own if the
entries are separate, and only then. -/
theorem writeTo_kept_iff (os : System) (dir : PathBuf) (entries : List SourceTreeEntry)
    (disk : Disk) (success : writeTo os dir entries disk = (true, disk')) :
    Kept dir entries disk' ↔ Separate entries := by
  simp only [writeTo] at success
  split_ifs at success with created
  · constructor
    · intro kept
      refine separate_of_apart (fun entry mem nameless => ?_) kept.apart
      obtain ⟨target, empty⟩ := targetPath_of_nameless entries nameless
      have plain := plain_sanitizePath entry.parsed.wellFormed
      have named : (dir.join (targetPath entries entry)).fileName ≠ none := by
        intro noneEq
        have read := kept.read entry mem
        rw [Disk.read, if_pos noneEq] at read
        cases read
      -- the directory is there, so that no file can be written in its place
      by_cases here : dir.components = []
      · have joined : dir.join (sanitizePath entry.path) = sanitizePath entry.path := by
          rw [PathBuf.join, if_neg (by simp [plain.isAbsolute]), if_pos here]
        rw [target, joined] at named
        exact named nameless
      · have there := mem_createDirs (Prod.ext created rfl) (mem_prefixes_self here)
        have same : key (dir.join (targetPath entries entry)) = key dir := by
          have components := plain.key_join dir
          rw [empty, List.append_nil, ← target] at components
          exact congrArg PathBuf.mk components
        exact free_of_writeEntries success entry mem named (same ▸ there)
    · intro separate
      have named : ∀ entry ∈ entries, (dir.join (targetPath entries entry)).fileName ≠ none := by
        intro entry mem
        obtain ⟨name, named⟩ := fileName_targetPath entries (separate.named entry mem)
        rw [fileName_join (plain_targetPath entries entry) named dir]
        simp
      exact ⟨separate.apart dir, read_of_writeEntries (separate.apart dir) named success⟩
  · simp at success

/-- A system that lets everything through. -/
def permissive : System := fun _ _ => true

def extendedEntries : List SourceTreeEntry :=
  [.ofStrings "a/a.sol" "Test", .ofStrings "b/b" "Test 2"]

theorem kept_extendedEntries : Kept (.abs ["out"]) extendedEntries
    (writeTo permissive (.abs ["out"]) extendedEntries {}).2 := by
  have success : (writeTo permissive (.abs ["out"]) extendedEntries {}).1 = true := by
    decide +kernel
  refine (writeTo_kept_iff permissive (.abs ["out"]) extendedEntries {}
    (Prod.ext success rfl)).mpr ⟨?_, ?_, ?_⟩
  · decide +kernel
  · decide +kernel
  · decide +kernel

/-- Two sources of one contract. -/
def rootedEntries : List SourceTreeEntry := [.ofStrings "a" "1", .ofStrings "/a.sol" "2"]

/-- Both sources go to one file, as the path of the second one is compared with its root. -/
theorem not_kept_rootedEntries :
    rootedEntries.Pairwise (fun e e' => sanitizePath e.path ≠ sanitizePath e'.path) ∧
      (writeTo permissive (.abs ["out"]) rootedEntries {}).1 = true ∧
      (writeTo permissive (.abs ["out"]) rootedEntries {}).2.read (.abs ["out", "a.sol"]) =
        some "2" ∧
      ¬ Kept (.abs ["out"]) rootedEntries
        (writeTo permissive (.abs ["out"]) rootedEntries {}).2 := by
  refine ⟨by decide +kernel, by decide +kernel, by decide +kernel, fun kept => ?_⟩
  have read := kept.read (.ofStrings "a" "1") List.mem_cons_self
  revert read
  decide +kernel

end SourceTree

end FoundryCore
