import FoundryCore.Library.Except
import FoundryCore.Resolver.Alignment
import FoundryCore.Resolver.Profiles

/-!
# Absolute paths

With canonical directories every import leads to an absolute path, so all files of the import
graph, and of the source sets made of it, have absolute paths. Such a path is the same after it was
taken relative to the root of the project and joined with it again.
-/

open Std

namespace FoundryCore

namespace PathBuf

/-- What parsing a text gives: `/` and `.` only at the start. -/
def WellFormed (p : PathBuf) : Prop := ∀ c ∈ p.components.tail, c ≠ .rootDir ∧ c ≠ .curDir

/-- An absolute path. -/
structure Rooted (p : PathBuf) : Prop where
  isAbsolute : p.isAbsolute = true
  wellFormed : p.WellFormed

variable {p base : PathBuf}

theorem rooted_iff : p.Rooted ↔
    ∃ rest, p.components = .rootDir :: rest ∧ ∀ c ∈ rest, c ≠ .rootDir ∧ c ≠ .curDir := by
  constructor
  · rintro ⟨absolute, wellFormed⟩
    obtain ⟨rest, eq⟩ := isAbsolute_iff.mp absolute
    exact ⟨rest, eq, by simpa [WellFormed, eq] using wellFormed⟩
  · rintro ⟨rest, eq, plain⟩
    exact ⟨isAbsolute_iff.mpr ⟨rest, eq⟩, by simpa [WellFormed, eq] using plain⟩

theorem wellFormed_rel (names : List String) : (rel names).WellFormed := by
  intro c mem
  obtain ⟨name, -, rfl⟩ := List.mem_map.mp (List.mem_of_mem_tail mem)
  simp

theorem rooted_abs (names : List String) : (abs names).Rooted :=
  rooted_iff.mpr ⟨names.map .normal, rfl, fun c mem => by
    obtain ⟨name, -, rfl⟩ := List.mem_map.mp mem
    simp⟩

theorem wellFormed_ofString (text : String) : (ofString text).WellFormed := by
  have plain : ∀ parts : List String, ∀ c ∈ parts.map fun part =>
      if part = ".." then Component.parentDir else .normal part,
        c ≠ .rootDir ∧ c ≠ .curDir := by
    intro parts c mem
    obtain ⟨part, -, rfl⟩ := List.mem_map.mp mem
    split_ifs <;> simp
  intro c mem
  simp only [ofString] at mem
  split_ifs at mem
  · exact plain _ c mem
  · exact plain _ c mem
  · exact plain _ c (List.mem_of_mem_tail mem)

theorem WellFormed.drop (h : p.WellFormed) (n : Nat) :
    (PathBuf.mk (p.components.drop n)).WellFormed := by
  intro c mem
  rw [List.tail_drop, ← List.drop_tail] at mem
  exact h c (List.mem_of_mem_drop mem)

theorem WellFormed.of_stripPrefix (h : p.WellFormed) {stripped : PathBuf}
    (eq : p.stripPrefix base = some stripped) : stripped.WellFormed := by
  unfold stripPrefix at eq
  split_ifs at eq
  cases eq
  exact h.drop _

theorem WellFormed.strip (h : p.WellFormed) (base : PathBuf) :
    (p.stripPrefixOrSelf base).WellFormed := by
  rw [stripPrefixOrSelf]
  cases eq : p.stripPrefix base with
  | none => exact h
  | some stripped => exact h.of_stripPrefix eq

/-- A relative path has neither `/` nor, after the first component, `.` in it. -/
theorem WellFormed.ne_rootDir (h : p.WellFormed) (relative : p.isAbsolute = false) :
    ∀ c ∈ p.components, c ≠ .rootDir := by
  intro c mem
  obtain ⟨components⟩ := p
  cases components with
  | nil => cases mem
  | cons first rest =>
    rcases List.mem_cons.mp mem with rfl | later
    · rintro rfl
      simp [PathBuf.isAbsolute] at relative
    · exact (h c later).1

theorem WellFormed.join (h : base.WellFormed) (wellFormed : p.WellFormed) :
    (base.join p).WellFormed := by
  unfold PathBuf.join
  split_ifs with absolute empty
  · exact wellFormed
  · exact wellFormed
  · intro c mem
    rw [List.tail_append_of_ne_nil empty] at mem
    rcases List.mem_append.mp mem with mem | mem
    · exact h c mem
    · obtain ⟨mem, ne⟩ := List.mem_filter.mp mem
      exact ⟨wellFormed.ne_rootDir (by simpa using absolute) c mem, by simpa using ne⟩

theorem Rooted.join (h : base.Rooted) (wellFormed : p.WellFormed) : (base.join p).Rooted := by
  refine ⟨?_, h.wellFormed.join wellFormed⟩
  unfold PathBuf.join
  obtain ⟨rest, eq⟩ := isAbsolute_iff.mp h.isAbsolute
  split_ifs with absolute empty
  · exact absolute
  · simp [eq] at empty
  · exact isAbsolute_iff.mpr ⟨rest ++ p.components.filter (· ≠ .curDir), by simp [eq]⟩

/-- Taking a path relative to a directory and joining it again gives the path back. -/
theorem Rooted.join_strip (h : p.Rooted) (base : PathBuf) :
    base.join (p.stripPrefixOrSelf base) = p := by
  obtain ⟨rest, eq, plain⟩ := rooted_iff.mp h
  unfold stripPrefixOrSelf stripPrefix startsWith
  split_ifs with below
  · obtain ⟨after, split⟩ := List.isPrefixOf_iff_prefix.mp below
    have dropped : p.components.drop base.components.length = after := by
      rw [← split, List.drop_left]
    cases start : base.components with
    | nil =>
      rw [start, List.nil_append] at split
      rw [start] at dropped
      simp only [Option.getD_some, List.length_nil, List.drop_zero]
      exact join_of_isAbsolute h.isAbsolute
    | cons first others =>
      rw [← start, Option.getD_some, dropped]
      have inside : ∀ c ∈ after, c ∈ rest := by
        intro c mem
        rw [eq, start, List.cons_append, List.cons.injEq] at split
        rw [← split.2]
        exact List.mem_append_right _ mem
      have relative : (PathBuf.mk after).isAbsolute = false := by
        cases after with
        | nil => rfl
        | cons c _ => simpa [PathBuf.isAbsolute] using (plain c (inside c (by simp))).1
      have kept : after.filter (· ≠ .curDir) = after :=
        List.filter_eq_self.mpr fun c mem => by simpa using (plain c (inside c mem)).2
      have absolute : (PathBuf.mk after).isAbsolute ≠ true := by simp [relative]
      unfold PathBuf.join
      rw [if_neg absolute, if_neg (by simp [start]), kept, split]
  · exact join_of_isAbsolute h.isAbsolute

theorem Rooted.of_parent (h : p.Rooted) {dir : PathBuf} (eq : p.parent = some dir) :
    dir.Rooted := by
  obtain ⟨rest, components, plain⟩ := rooted_iff.mp h
  unfold parent at eq
  rw [components] at eq
  cases rest with
  | nil => simp at eq
  | cons c rest =>
    split at eq
    · cases eq
    · cases eq
    · cases eq
      refine rooted_iff.mpr ⟨(c :: rest).dropLast, by simp, fun c' mem => ?_⟩
      exact plain c' (List.dropLast_subset _ mem)

end PathBuf

/-- Resolving `.` and `..` keeps a path absolute. -/
theorem rooted_cleanSolidityPath {p : PathBuf} (h : p.Rooted) :
    (cleanSolidityPath p).Rooted := by
  obtain ⟨rest, eq, plain⟩ := PathBuf.rooted_iff.mp h
  unfold cleanSolidityPath
  rw [eq, List.foldl_cons]
  -- the root stays in front of what is collected
  refine List.foldlRecOn rest _ (motive := fun new => (PathBuf.mk new).Rooted)
    (PathBuf.rooted_iff.mpr ⟨[], rfl, by simp⟩) fun new rooted c mem => ?_
  obtain ⟨before, eq, ok⟩ := PathBuf.rooted_iff.mp rooted
  have push : ∀ c : Component, c ≠ .rootDir ∧ c ≠ .curDir →
      (PathBuf.mk (new ++ [c])).Rooted := fun c fine => by
    refine PathBuf.rooted_iff.mpr ⟨before ++ [c], by simpa using congrArg (· ++ [c]) eq, ?_⟩
    intro c' mem
    rcases List.mem_append.mp mem with mem | mem
    · exact ok c' mem
    · rwa [List.mem_singleton.mp mem]
  cases c with
  | rootDir => exact absurd rfl (plain _ mem).1
  | curDir => exact rooted
  | normal name => exact push _ (by simp)
  | parentDir =>
    simp only
    split
    · next name last =>
      simp only at eq
      subst eq
      cases before with
      | nil => simp at last
      | cons b before =>
        exact PathBuf.rooted_iff.mpr ⟨(b :: before).dropLast, by simp,
          fun c' mem => ok c' (List.dropLast_subset _ mem)⟩
    · exact push _ (by simp)

/-! ## Imports -/

/-- The directories of the project are absolute. -/
structure ProjectPathsConfig.Canonical (paths : ProjectPathsConfig) : Prop where
  root : paths.root.Rooted
  artifacts : paths.artifacts.Rooted
  sources : paths.sources.Rooted
  tests : paths.tests.Rooted
  scripts : paths.scripts.Rooted
  libraries : ∀ lib ∈ paths.libraries, lib.Rooted

section Imports

variable {fs : FileSystem} {paths : ProjectPathsConfig} {cwd importPath target : PathBuf}

theorem rooted_normalizeSolidityImportPath {dir : PathBuf} (h : dir.Rooted)
    (wellFormed : importPath.WellFormed)
    (eq : normalizeSolidityImportPath fs dir importPath = some target) : target.Rooted := by
  unfold normalizeSolidityImportPath at eq
  simp only at eq
  split_ifs at eq
  cases eq
  exact rooted_cleanSolidityPath (h.join wellFormed)

theorem rooted_resolveLibrary {libs : List PathBuf} (h : ∀ lib ∈ libs, lib.Rooted)
    (wellFormed : importPath.WellFormed) (eq : resolveLibrary fs libs importPath = some target) :
    target.Rooted := by
  unfold resolveLibrary at eq
  split at eq
  · next firstDir rest components =>
    obtain ⟨lib, mem, found⟩ := List.exists_of_findSome?_eq_some eq
    have below : (PathBuf.mk rest).WellFormed := by
      have := wellFormed.drop 1
      rwa [components] at this
    simp only at found
    split_ifs at found
    · cases found
      exact (h lib mem).join wellFormed
    · cases found
      exact (((h lib mem).join (PathBuf.wellFormed_rel _)).join (PathBuf.wellFormed_rel _)).join
        below
  · next rest components =>
    cases eq
    exact ⟨PathBuf.isAbsolute_iff.mpr ⟨rest, components⟩, wellFormed⟩
  · cases eq

theorem rooted_of_mem_parentsBelow {root p dir : PathBuf} (h : p.Rooted) {fuel : Nat}
    (mem : dir ∈ parentsBelow root fuel p) : dir.Rooted := by
  induction fuel generalizing p with
  | zero => cases mem
  | succ fuel ih =>
    unfold parentsBelow at mem
    split at mem
    · cases mem
    · next parent eq =>
      split_ifs at mem
      · cases mem
      · rcases List.mem_cons.mp mem with rfl | mem
        · exact h.of_parent eq
        · exact ih (h.of_parent eq) mem

theorem rooted_resolveLibraryImport (canonical : paths.Canonical)
    (wellFormed : importPath.WellFormed)
    (eq : paths.resolveLibraryImport fs cwd importPath = some target) : target.Rooted := by
  unfold ProjectPathsConfig.resolveLibraryImport at eq
  simp only at eq
  split at eq
  · next path found =>
    cases eq
    refine canonical.root.join ?_
    obtain ⟨r, -, mapped⟩ := List.exists_of_findSome?_eq_some found
    obtain ⟨stripped, strips, rfl⟩ := Option.map_eq_some_iff.mp mapped
    have below : stripped.WellFormed := wellFormed.of_stripPrefix strips
    have joined : ∀ rest : PathBuf, rest.WellFormed →
        ((PathBuf.ofString r.path).join rest).WellFormed :=
      fun rest => (PathBuf.wellFormed_ofString _).join
    have own : (if stripped.components = [] ∧ ".sol".toList <:+ r.path.toList
        then PathBuf.ofString r.path
        else (PathBuf.ofString r.path).join stripped).WellFormed := by
      split_ifs
      · exact PathBuf.wellFormed_ofString _
      · exact joined _ below
    split
    · next adjusted strips' =>
      by_cases adjusts : "contracts/".toList <:+ r.path.toList ∧ ¬ fs.pathExists (paths.root.join
          (if stripped.components = [] ∧ ".sol".toList <:+ r.path.toList
            then PathBuf.ofString r.path
            else (PathBuf.ofString r.path).join stripped))
      · rw [if_pos adjusts]
        exact joined _ (below.of_stripPrefix strips')
      · rw [if_neg adjusts]
        exact own
    · exact own
  · exact rooted_resolveLibrary canonical.libraries wellFormed eq

theorem rooted_applyRemappingToPath (canonical : paths.Canonical) {path : PathBuf}
    (h : path.Rooted) : (paths.applyRemappingToPath fs cwd path).Rooted := by
  unfold ProjectPathsConfig.applyRemappingToPath
  split
  · exact h
  · next relative strips =>
    simp only
    cases found : (paths.remappings.filter
        (·.appliesIn (cwd.stripPrefixOrSelf paths.root))).findSome? _ with
    | none => exact h
    | some remapped =>
      obtain ⟨r, -, someEq⟩ := List.exists_of_findSome?_eq_some found
      obtain ⟨stripped, strips', eq⟩ := Option.bind_eq_some_iff.mp someEq
      split_ifs at eq
      cases eq
      exact canonical.root.join ((PathBuf.wellFormed_ofString _).join
        ((h.wellFormed.of_stripPrefix strips).of_stripPrefix strips'))

/-- In a project with canonical directories, imports lead to absolute paths. -/
theorem rooted_resolveImport (canonical : paths.Canonical) (h : cwd.Rooted)
    (wellFormed : importPath.WellFormed) {includePath : Option PathBuf}
    (eq : paths.resolveImportAndIncludePaths fs cwd importPath = some (target, includePath)) :
    target.Rooted := by
  unfold ProjectPathsConfig.resolveImportAndIncludePaths at eq
  have relative : ∀ {result}, (normalizeSolidityImportPath fs cwd importPath).map
      (fun resolved => (paths.applyRemappingToPath fs cwd resolved, (none : Option PathBuf))) =
        some result → result.1.Rooted := by
    intro result eq
    obtain ⟨resolved, normalized, rfl⟩ := Option.map_eq_some_iff.mp eq
    exact rooted_applyRemappingToPath canonical
      (rooted_normalizeSolidityImportPath h wellFormed normalized)
  split at eq
  · cases eq
  · exact relative eq
  · exact relative eq
  · split at eq
    · next resolved found =>
      cases eq
      exact rooted_resolveLibraryImport canonical wellFormed found
    · split at eq
      · next found =>
        cases eq
        obtain ⟨lib, -, absolute⟩ := Option.bind_eq_some_iff.mp found
        obtain ⟨parent, mem, someEq⟩ := List.exists_of_findSome?_eq_some absolute
        obtain ⟨file, normalized, pair⟩ := Option.map_eq_some_iff.mp someEq
        cases pair
        exact rooted_normalizeSolidityImportPath (rooted_of_mem_parentsBelow h mem) wellFormed
          normalized
      · obtain ⟨resolved, found, pair⟩ := Option.map_eq_some_iff.mp eq
        cases pair
        obtain ⟨dir, mem, someEq⟩ := List.exists_of_findSome?_eq_some found
        split_ifs at someEq
        refine rooted_normalizeSolidityImportPath ?_ wellFormed someEq
        simp only [List.mem_cons, List.not_mem_nil, or_false] at mem
        obtain rfl | rfl | rfl | rfl := mem
        · exact canonical.root
        · exact canonical.sources
        · exact canonical.tests
        · exact canonical.scripts

end Imports

/-! ## Files of the graph -/

/-- The import paths of a parser are parsed from texts. -/
def SourceParser.ParsesPaths {δ : Type*} (parser : SourceParser δ) : Prop :=
  ∀ fs paths data, ∀ importPath ∈ Graph.importPaths parser fs paths data, importPath.WellFormed

namespace Graph

variable {δ : Type} {parser : SourceParser δ} {fs : FileSystem} {paths : ProjectPathsConfig}
  {P : PathBuf → Prop} {s s' : Resolution δ}

/-- The files on the queue and in the tables have a property. -/
def Resolution.All (P : PathBuf → Prop) (s : Resolution δ) : Prop :=
  (∀ entry ∈ s.unresolved, P entry.1 ∧ entry.2.path = entry.1) ∧ ∀ node ∈ s.nodes, P node.path

theorem addNode_all {target : PathBuf} {idx : Nat} (all : s.All P) (holds : P target)
    (eq : addNode parser fs s target = some (s', idx)) : s'.All P := by
  unfold addNode at eq
  split at eq
  · cases eq
    exact all
  · obtain ⟨node, read, pair⟩ := Option.map_eq_some_iff.mp eq
    cases pair
    refine ⟨fun entry mem => ?_, all.2⟩
    rcases List.mem_append.mp mem with old | new
    · exact all.1 entry old
    · cases List.mem_singleton.mp new
      exact ⟨holds, (readNode_eq_some read).1⟩

/-- The files a file imports have the property whenever the file has it. -/
def Hereditary (parser : SourceParser δ) (fs : FileSystem) (paths : ProjectPathsConfig)
    (P : PathBuf → Prop) : Prop :=
  ∀ file cwd data importPath target includePath, P file → file.parent = some cwd →
    importPath ∈ importPaths parser fs paths data →
    paths.resolveImportAndIncludePaths fs cwd importPath = some (target, includePath) → P target

theorem resolveImport_all {cwd file importPath : PathBuf} {row : List Nat}
    (holds : ∀ target includePath,
      paths.resolveImportAndIncludePaths fs cwd importPath = some (target, includePath) →
        P target)
    (all : s.All P) : (resolveImport parser fs paths cwd file (s, row) importPath).1.All P := by
  unfold resolveImport
  split
  · next target includePath eq =>
    simp only
    split
    · next added idx found =>
      refine addNode_all ?_ (holds target includePath eq) found
      exact all
    · exact all
  · exact all

theorem resolveNode_all (h : Hereditary parser fs paths P) {path : PathBuf} {node : Node δ}
    (all : s.All P) (holds : P path) (named : node.path = path)
    (eq : resolveNode parser fs paths s path node = some s') : s'.All P := by
  unfold resolveNode at eq
  split at eq
  · cases eq
    exact all
  · next cwd parent =>
    obtain ⟨⟨imports, includePaths⟩, someEq, rfl⟩ := Option.map_eq_some_iff.mp eq
    have listed : ∀ importPath ∈ imports, importPath ∈ importPaths parser fs paths node.data := by
      intro importPath mem
      simpa [importPaths, someEq] using mem
    have loop : ∀ (l : List PathBuf) (s₁ : Resolution δ) (row : List Nat), (∀ i ∈ l, i ∈ imports) →
        s₁.All P → (l.foldl (resolveImport parser fs paths cwd node.path) (s₁, row)).1.All P := by
      intro l
      induction l with
      | nil => exact fun _ _ _ all => all
      | cons importPath l ih =>
        intro s₁ row sub all
        rw [List.foldl_cons]
        refine ih _ _ (fun i mem => sub i (List.mem_cons_of_mem _ mem))
          (resolveImport_all (fun target includePath eq => ?_) all)
        exact h path cwd node.data importPath target includePath holds parent
          (listed _ (sub _ List.mem_cons_self)) eq
    have done := loop imports { s with
      resolvedSolcIncludePaths := s.resolvedSolcIncludePaths ∪ includePaths.toFinset } []
      (fun _ mem => mem) all
    refine ⟨done.1, fun node' mem => ?_⟩
    rcases List.mem_append.mp mem with old | new
    · exact done.2 node' old
    · rwa [List.mem_singleton.mp new, named]

theorem resolveAll_all (h : Hereditary parser fs paths P) {fuel : Nat} (all : s.All P)
    (eq : resolveAll parser fs paths fuel s = some s') : s'.All P := by
  induction fuel generalizing s with
  | zero =>
    cases eq
    exact all
  | succ fuel ih =>
    unfold resolveAll at eq
    split at eq
    · cases eq
      exact all
    · next path node rest queue =>
      obtain ⟨s₁, first, later⟩ := Option.bind_eq_some_iff.mp eq
      obtain ⟨holds, named⟩ := all.1 (path, node) (by rw [queue]; exact List.mem_cons_self)
      refine ih (resolveNode_all h ?_ holds named first) later
      exact ⟨fun entry mem => all.1 entry (by rw [queue]; exact List.mem_cons_of_mem _ mem), all.2⟩

/-- A property of the inputs that is passed on along imports holds of all files of the graph. -/
theorem forall_nodes_of_hereditary (h : Hereditary parser fs paths P) {sources : Sources}
    (inputs : ∀ p ∈ sources.makeAbsolute paths.root, P p) {g : Graph δ}
    (eq : resolveSources parser fs paths sources = some g) : ∀ node ∈ g.nodes, P node.path := by
  simp only [resolveSources, Option.bind_eq_bind, Option.bind_eq_some_iff, Option.some.injEq] at eq
  obtain ⟨input, parsed, done, resolved, nodes, finalized, rfl⟩ := eq
  have start : (initial paths input).All P := by
    refine ⟨fun entry mem => ?_, by simp [initial]⟩
    obtain ⟨perm, files⟩ := parseSources_spec parsed
    refine ⟨inputs _ ?_, (files entry mem).1⟩
    rw [← ExtTreeMap.mem_keys, ← perm.mem_iff]
    exact List.mem_map_of_mem mem
  have all := (resolveAll_all h start resolved).2
  intro node mem
  obtain ⟨i, original, getEq, path, -⟩ :=
    exists_of_files (parser.finalizeImports_files _ _ _ finalized) mem
  rw [← path]
  exact all original (List.mem_of_getElem? getEq)

/-- All files of the graph have absolute paths. -/
theorem rooted_nodes (canonical : paths.Canonical) (parses : parser.ParsesPaths)
    {sources : Sources} (inputs : ∀ p ∈ sources, p.WellFormed) {g : Graph δ}
    (eq : resolveSources parser fs paths sources = some g) :
    ∀ node ∈ g.nodes, node.path.Rooted := by
  refine forall_nodes_of_hereditary (P := PathBuf.Rooted) ?_ ?_ eq
  · intro file cwd data importPath target includePath rooted parent listed found
    exact rooted_resolveImport canonical (rooted.of_parent parent)
      (parses fs paths data importPath listed) found
  · intro p mem
    obtain ⟨file, listed, rfl⟩ := Sources.mem_makeAbsolute mem
    exact canonical.root.join (inputs file listed)

/-! ## Files of the source sets -/

variable {allNodes : List (PathBuf × Source)} {edges : List (List Nat)}

theorem insertImports_subset {fuel idx : Nat} {walk walk' : SourceWalk}
    (sub : ∀ file source, walk.sources[file]? = some source → (file, source) ∈ allNodes)
    (eq : insertImports allNodes edges fuel idx walk = some walk') :
    ∀ file source, walk'.sources[file]? = some source → (file, source) ∈ allNodes := by
  induction fuel generalizing idx walk walk' with
  | zero => cases eq
  | succ fuel ih =>
    simp only [insertImports] at eq
    generalize edges[idx]?.getD [] = deps at eq
    induction deps generalizing walk with
    | nil =>
      cases eq
      exact sub
    | cons dep deps loop =>
      rw [List.foldlM_cons] at eq
      obtain ⟨walk₁, first, later⟩ := Option.bind_eq_some_iff.mp eq
      refine loop ?_ later
      split_ifs at first with processed
      · cases first
        exact sub
      · split at first
        · next path source getEq =>
          refine ih ?_ first
          intro file source' found
          rw [Library.getElem?_insert_eq] at found
          split_ifs at found with same
          · cases found
            rw [same]
            exact List.mem_of_getElem? getEq
          · exact sub file source' found
        · cases first
          exact sub

variable {S R Λ γ α : Type} {g : Graph δ}

theorem insertInput_subset {walk walk' : SourceWalk} {idx : Nat}
    (sub : ∀ file source, walk.sources[file]? = some source →
      (file, source) ∈ g.nodes.map Node.file)
    (eq : g.insertInput (Λ := Λ) walk idx = .ok walk') :
    ∀ file source, walk'.sources[file]? = some source →
      (file, source) ∈ g.nodes.map Node.file := by
  unfold insertInput split at eq
  simp only at eq
  split at eq
  · cases eq
  · next path source getEq =>
    split at eq
    · cases eq
    · next walk₁ someEq =>
      cases eq
      refine insertImports_subset (fun file source' found => ?_) someEq
      simp only at found
      rw [Library.getElem?_insert_eq] at found
      split_ifs at found with same
      · cases found
        rw [same]
        exact List.mem_of_getElem? getEq
      · exact sub file source' found

/-- Source sets consist of files of the graph. -/
theorem sourcesOf_subset {inputNodeIndexes : List Nat} {sources : Sources}
    (eq : g.sourcesOf (Λ := Λ) inputNodeIndexes = .ok sources) :
    ∀ file source, sources[file]? = some source → (file, source) ∈ g.nodes.map Node.file := by
  have loop : ∀ (l : List Nat) (walk walk' : SourceWalk),
      (∀ file source, walk.sources[file]? = some source → (file, source) ∈ g.nodes.map Node.file) →
      l.foldlM (g.insertInput (Λ := Λ)) walk = .ok walk' →
      ∀ file source, walk'.sources[file]? = some source →
        (file, source) ∈ g.nodes.map Node.file := by
    intro l
    induction l with
    | nil =>
      intro walk walk' sub eq
      cases eq
      exact sub
    | cons idx l ih =>
      intro walk walk' sub eq
      rw [List.foldlM_cons] at eq
      cases first : g.insertInput (Λ := Λ) walk idx with
      | error err => simp [first, bind, Except.bind] at eq
      | ok walk₁ =>
        simp only [first, bind, Except.bind] at eq
        exact ih walk₁ walk' (insertInput_subset sub first) eq
  unfold sourcesOf at eq
  cases walked : inputNodeIndexes.foldlM (g.insertInput (Λ := Λ))
      { processedSources := inputNodeIndexes } with
  | error err => simp [walked, bind, Except.bind] at eq
  | ok walk =>
    simp only [walked, bind, Except.bind, pure, Except.pure, Except.ok.injEq] at eq
    rw [← eq]
    exact loop _ _ _ (by simp) walked

/-- What a source set consists of. -/
structure MadeOf (project : CompilerProject S R Λ γ α) (g : Graph δ)
    (set : Version × Sources × String × S) : Prop where
  files : ∀ file source, set.2.1[file]? = some source → (file, source) ∈ g.nodes.map Node.file
  profile : set.2.2 ∈ project.profiles

theorem versionedSources_madeOf {project : CompilerProject S R Λ γ α} {versions : ProfileNodes}
    {versioned : VersionedSources S}
    (eq : g.versionedSources (Λ := Λ) project versions = .ok versioned) :
    ∀ set ∈ versioned, MadeOf project g set := by
  unfold versionedSources at eq
  generalize versions.groups = groups at eq
  induction groups generalizing versioned with
  | nil =>
    cases eq
    simp
  | cons group groups ih =>
    obtain ⟨version, profileIdx, inputNodeIndexes⟩ := group
    rw [List.mapM_cons] at eq
    cases sources : g.sourcesOf (Λ := Λ) inputNodeIndexes with
    | error err => simp [sources, bind, Except.bind] at eq
    | ok found =>
      cases profile : project.profiles[profileIdx]? with
      | none => simp [sources, profile, bind, Except.bind] at eq
      | some settings =>
        simp only [sources, profile, bind, Except.bind, pure, Except.pure] at eq
        split at eq
        · cases eq
        · next rest later =>
          cases eq
          intro set mem
          rcases List.mem_cons.mp mem with rfl | mem
          · exact ⟨sourcesOf_subset sources, List.mem_of_getElem? profile⟩
          · exact ih later set mem

variable [SettingsRestrictions S R] [DecidableEq Λ] [Ord Λ] [TransOrd Λ] [LawfulEqOrd Λ]

/-- All source sets of a graph consist of its files and have a profile of the project. -/
theorem intoSourcesByVersion_madeOf {project : CompilerProject S R Λ γ α}
    {versionMatches : VersionReq → Version → Bool} {languageOf : δ → Λ}
    {resolved : ResolvedSources S Λ δ}
    (eq : g.intoSourcesByVersion project versionMatches parser languageOf = .ok resolved) :
    resolved.edges = g.split.2 ∧ ∀ (language : Λ) (versioned : VersionedSources S),
      resolved.sources[language]? = some versioned → ∀ set ∈ versioned, MadeOf project g set := by
  unfold intoSourcesByVersion at eq
  cases first : g.getInputNodeVersions versionMatches parser languageOf project with
  | error err => simp [first, Except.mapError, bind, Except.bind] at eq
  | ok resulted =>
    cases second : g.resolveSettings project resulted with
    | error err => simp [first, second, Except.mapError, bind, Except.bind] at eq
    | ok versionedNodes =>
      simp only [first, second, Except.mapError, bind, Except.bind] at eq
      unfold sourcesByProfile at eq
      obtain ⟨sources, third, eq⟩ := Library.bind_eq_ok.mp eq
      cases eq
      refine ⟨rfl, fun language versioned getEq => ?_⟩
      obtain ⟨here, absent⟩ := Library.getElem?_foldlM_insert (a := language)
        (f := fun _ versions => g.versionedSources (Λ := Λ) project versions) third
      cases known : versionedNodes[language]? with
      | none => simp [absent known] at getEq
      | some versions =>
        obtain ⟨versioned', ok, found⟩ := here versions known
        obtain rfl := Option.some.inj (found.symm.trans getEq)
        exact versionedSources_madeOf ok

end Graph

end FoundryCore
