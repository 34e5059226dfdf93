import FoundryCore.Resolver.Graph
import Mathlib.Algebra.BigOperators.Fin

/-!
# The resolver builds the import graph

The queue runs empty, every file has one index under which all tables know it, the reverse
table is the transpose of the edge table, and the rows hold the files that the imports of a
file lead to.
-/

open Std

namespace FoundryCore

variable {δ : Type*}

namespace Graph

variable (parser : SourceParser δ) (fs : FileSystem) (paths : ProjectPathsConfig)

/-! ## The tables while the queue is worked off -/

section Spec

variable {parser fs paths} {sources : Sources} {s s' : Resolution δ} {mid : List (Node δ)}

/-- Whether a file is an input or can be read. -/
def known (parser : SourceParser δ) (fs : FileSystem) (sources : Sources) (file : PathBuf) : Bool :=
  file ∈ sources || (readNode parser fs file).isSome

/-- The file an import made in `cwd` leads to, if it is there. -/
def target (parser : SourceParser δ) (fs : FileSystem) (paths : ProjectPathsConfig)
    (sources : Sources) (cwd importPath : PathBuf) : Option PathBuf :=
  ((paths.resolveImportAndIncludePaths fs cwd importPath).map Prod.fst).filter
    (known parser fs sources)

/-- The import paths of a file. -/
def importPaths (parser : SourceParser δ) (fs : FileSystem) (paths : ProjectPathsConfig)
    (data : δ) : List PathBuf :=
  ((parser.resolveImports fs paths data).map Prod.fst).getD []

/-- The files that a file imports directly, one for each import that is resolved. -/
def targets (parser : SourceParser δ) (fs : FileSystem) (paths : ProjectPathsConfig)
    (sources : Sources) (file : PathBuf) (data : δ) : List PathBuf :=
  match file.parent with
  | some cwd => (importPaths parser fs paths data).filterMap (target parser fs paths sources cwd)
  | none => []

/-- A node holds what its file parses to, an input or else a file that was read. -/
structure Node.Genuine (parser : SourceParser δ) (fs : FileSystem) (sources : Sources)
    (node : Node δ) : Prop where
  source : (sources[node.path]? <|> Source.read fs node.path) = some node.source
  parsed : parser.parse node.source.content node.path = some node.data
  parent : node.path.parent.isSome
  reads : node.path ∉ sources → parser.reads node.path = true

/-- The nodes with an index, in the order of their indices: `mid` is off the queue and not in the
tables yet. -/
def Resolution.all (s : Resolution δ) (mid : List (Node δ)) : List (Node δ) :=
  s.nodes ++ mid ++ s.unresolved.map Prod.snd

/-- The tables are aligned with the nodes. -/
structure Resolution.Valid (parser : SourceParser δ) (fs : FileSystem) (paths : ProjectPathsConfig)
    (sources : Sources) (s : Resolution δ) (mid : List (Node δ)) : Prop where
  named : ∀ entry ∈ s.unresolved, entry.2.path = entry.1
  index : ∀ (p : PathBuf) (i : Nat), s.index[p]? = some i ↔
    ((s.all mid).map Node.path)[i]? = some p
  size : s.index.size = (s.all mid).length
  genuine : ∀ node ∈ s.all mid, Node.Genuine parser fs sources node
  rows : s.edges.length = s.nodes.length
  inputs : ∀ p ∈ sources, p ∈ s.index
  row : ∀ (i : Nat) node row, s.nodes[i]? = some node → s.edges[i]? = some row →
    row.map (fun j => ((s.all mid).map Node.path)[j]?) =
      (targets parser fs paths sources node.path node.data).map some
  unresolved : ∀ node ∈ s.nodes, ∀ cwd, node.path.parent = some cwd →
    ∀ importPath ∈ importPaths parser fs paths node.data,
      target parser fs paths sources cwd importPath = none →
        (importPath, node.path) ∈ s.unresolvedImports

/-- Later states keep the nodes and their indices. -/
structure Resolution.Grows (s s' : Resolution δ) : Prop where
  unresolved : ∃ extra, s'.unresolved = s.unresolved ++ extra
  nodes : s'.nodes = s.nodes
  edges : s'.edges = s.edges
  unresolvedImports : s.unresolvedImports ⊆ s'.unresolvedImports

theorem Resolution.Grows.refl : s.Grows s := ⟨⟨[], by simp⟩, rfl, rfl, subset_rfl⟩

theorem Resolution.Grows.trans {s₁ s₂ s₃ : Resolution δ} (g : s₁.Grows s₂) (h : s₂.Grows s₃) :
    s₁.Grows s₃ := by
  obtain ⟨⟨e, eq⟩, nodes, edges, sub⟩ := g
  obtain ⟨⟨e', eq'⟩, nodes', edges', sub'⟩ := h
  exact ⟨⟨e ++ e', by simp [eq, eq']⟩, nodes'.trans nodes, edges'.trans edges, sub.trans sub'⟩

theorem Resolution.Grows.all (g : s.Grows s') (mid : List (Node δ)) :
    ∃ extra, s'.all mid = s.all mid ++ extra := by
  obtain ⟨⟨e, eq⟩, nodes, -, -⟩ := g
  exact ⟨e.map Prod.snd, by simp [Resolution.all, eq, nodes]⟩

/-- Indices stay with their files. -/
theorem Resolution.Grows.getElem? (g : s.Grows s') {i : Nat} {p : PathBuf}
    (h : ((s.all mid).map Node.path)[i]? = some p) :
    ((s'.all mid).map Node.path)[i]? = some p := by
  obtain ⟨extra, eq⟩ := g.all mid
  rw [eq, List.map_append, List.getElem?_append_left (List.getElem?_eq_some_iff.mp h).1, h]

theorem map_getElem?_of_grows (g : s.Grows s') {row : List Nat} {files : List PathBuf}
    (h : row.map (fun j => ((s.all mid).map Node.path)[j]?) = files.map some) :
    row.map (fun j => ((s'.all mid).map Node.path)[j]?) = files.map some := by
  induction row generalizing files with
  | nil => simpa using h
  | cons j row ih =>
    cases files with
    | nil => simp at h
    | cons p files =>
      simp only [List.map_cons, List.cons.injEq] at h ⊢
      exact ⟨g.getElem? h.1, ih h.2⟩

/-- Changes outside of the tables. -/
theorem Resolution.Valid.congr (valid : s.Valid parser fs paths sources mid) (g : s.Grows s')
    (same : s'.unresolved = s.unresolved) (index : s'.index = s.index) :
    s'.Valid parser fs paths sources mid := by
  have all : s'.all mid = s.all mid := by simp [Resolution.all, same, g.nodes]
  constructor
  · rw [same]
    exact valid.named
  · rw [index, all]
    exact valid.index
  · rw [index, all]
    exact valid.size
  · rw [all]
    exact valid.genuine
  · rw [g.edges, g.nodes]
    exact valid.rows
  · rw [index]
    exact valid.inputs
  · rw [all, g.edges, g.nodes]
    exact valid.row
  · rw [g.nodes]
    exact fun node mem cwd parent importPath mem' none =>
      g.unresolvedImports (valid.unresolved node mem cwd parent importPath mem' none)

theorem readNode_eq_some {file : PathBuf} {node : Node δ}
    (eq : readNode parser fs file = some node) :
    node.path = file ∧ Source.read fs file = some node.source ∧
      parser.parse node.source.content file = some node.data ∧ parser.reads file = true := by
  simp only [readNode, parseNode, Option.ite_none_right_eq_some, Option.bind_eq_some_iff,
    Option.map_eq_some_iff] at eq
  obtain ⟨reads, source, read, data, parsed, rfl⟩ := eq
  exact ⟨rfl, read, parsed, reads⟩

theorem mem_files_of_readNode {file : PathBuf} {node : Node δ}
    (eq : readNode parser fs file = some node) : file ∈ fs.files :=
  Source.read_isSome.mp (Option.isSome_of_eq_some (readNode_eq_some eq).2.1)

/-- What `addNode` does: the target has the returned index. -/
theorem addNode_spec (valid : s.Valid parser fs paths sources mid) {file : PathBuf} {idx : Nat}
    (eq : addNode parser fs s file = some (s', idx)) :
    s'.Valid parser fs paths sources mid ∧ s.Grows s' ∧
      ((s'.all mid).map Node.path)[idx]? = some file := by
  unfold addNode at eq
  split at eq
  · next found =>
    obtain ⟨rfl, rfl⟩ := by simpa using eq
    exact ⟨valid, .refl, (valid.index _ _).mp found⟩
  · next fresh =>
    obtain ⟨node, read, same⟩ := Option.map_eq_some_iff.mp eq
    obtain ⟨rfl, rfl⟩ := by simpa using same
    obtain ⟨path, source, parsed, reads⟩ := readNode_eq_some read
    set s' : Resolution δ := { s with
      unresolved := s.unresolved ++ [(file, node)], index := s.index.insert file s.index.size }
    have grows : s.Grows s' := ⟨⟨[(file, node)], rfl⟩, rfl, rfl, subset_rfl⟩
    have all : s'.all mid = s.all mid ++ [node] := by simp [s', Resolution.all]
    have absent : file ∉ s.index := by simpa using fresh
    have notInput : sources[file]? = none := by
      simpa using fun mem => absent (valid.inputs file mem)
    have last : ((s'.all mid).map Node.path)[s.index.size]? = some file := by
      simp [all, valid.size, path]
    refine ⟨⟨?_, ?_, ?_, ?_, valid.rows, ?_, ?_, ?_⟩, grows, last⟩
    · simpa [s', or_imp, forall_and, path] using valid.named
    · intro p i
      simp only [s', Library.getElem?_insert_eq]
      split_ifs with same
      · subst same
        constructor
        · intro h
          cases h
          exact last
        · intro h
          rw [all, List.map_append] at h
          by_cases old : i < (s.all mid).length
          · rw [List.getElem?_append_left (by simpa using old)] at h
            exact absurd ((valid.index p i).mpr h) (by simp [fresh])
          · obtain ⟨bound, -⟩ := List.getElem?_eq_some_iff.mp h
            simp only [List.length_append, List.length_map, List.length_cons,
              List.length_nil] at bound
            rw [valid.size]
            congr 1
            omega
      · rw [valid.index p i, all, List.map_append]
        by_cases old : i < (s.all mid).length
        · rw [List.getElem?_append_left (by simpa using old)]
        · rw [List.getElem?_append_right (by simpa using old),
            List.getElem?_eq_none (by simpa using old)]
          constructor
          · simp
          · intro h
            obtain ⟨bound, eq⟩ := List.getElem?_eq_some_iff.mp h
            simp only [List.map_cons, List.map_nil, List.getElem_singleton, path] at eq
            exact absurd eq.symm same
    · rw [all]
      simp [s', ExtTreeMap.size_insert, absent, valid.size]
    · rw [all]
      simp only [List.mem_append, List.mem_singleton, or_imp, forall_and, forall_eq]
      refine ⟨valid.genuine, ?_, by rw [path]; exact parsed, ?_, fun _ => by rw [path]; exact reads⟩
      · simp [path, notInput, source]
      · rw [path]
        exact fs.parent_isSome (mem_files_of_readNode read)
    · intro p mem
      simp [s', valid.inputs p mem]
    · exact fun i node row getEq rowGet =>
        map_getElem?_of_grows grows (valid.row i node row getEq rowGet)
    · exact valid.unresolved

theorem Node.Genuine.known {node : Node δ} (genuine : Node.Genuine parser fs sources node) :
    known parser fs sources node.path = true := by
  rw [Graph.known, Bool.or_eq_true, decide_eq_true_eq]
  cases input : sources[node.path]? with
  | some _ => exact Or.inl (ExtTreeMap.mem_iff_isSome_getElem?.mpr (by simp [input]))
  | none =>
    have source := genuine.source
    simp only [input, Option.orElse_eq_orElse, Option.orElse_eq_or, Option.none_or] at source
    have reads := genuine.reads (by simp [ExtTreeMap.mem_iff_isSome_getElem?, input])
    exact Or.inr (by simp [readNode, parseNode, reads, source, genuine.parsed])

/-- `addNode` fails on the files that are not there. -/
theorem addNode_eq_none_iff (valid : s.Valid parser fs paths sources mid) {file : PathBuf} :
    addNode parser fs s file = none ↔ known parser fs sources file = false := by
  unfold addNode
  split
  · next idx found =>
    obtain ⟨bound, eq⟩ := List.getElem?_eq_some_iff.mp ((valid.index _ _).mp found)
    rw [List.getElem_map] at eq
    have genuine := valid.genuine _ (List.getElem_mem (by simpa using bound))
    have := genuine.known
    rw [eq] at this
    simp [this]
  · next fresh =>
    have absent : file ∉ sources := fun mem => by
      have := valid.inputs file mem
      simp [ExtTreeMap.mem_iff_isSome_getElem?, fresh] at this
    simp [known, absent]

/-- What resolving one import does to the row of its file. -/
theorem resolveImport_spec (valid : s.Valid parser fs paths sources mid) {cwd file : PathBuf}
    {row : List Nat} (importPath : PathBuf) {r : Resolution δ × List Nat}
    (eq : resolveImport parser fs paths cwd file (s, row) importPath = r) :
    r.1.Valid parser fs paths sources mid ∧ s.Grows r.1 ∧
      ((∃ t idx, target parser fs paths sources cwd importPath = some t ∧ r.2 = row ++ [idx] ∧
          ((r.1.all mid).map Node.path)[idx]? = some t) ∨
        (target parser fs paths sources cwd importPath = none ∧ r.2 = row ∧
          (importPath, file) ∈ r.1.unresolvedImports)) := by
  subst eq
  unfold resolveImport
  split
  · next t includePath resolved =>
    dsimp only
    set included : Resolution δ := { s with
      resolvedSolcIncludePaths := s.resolvedSolcIncludePaths ∪ includePath.toList.toFinset }
    have grows : s.Grows included := ⟨⟨[], by simp [included]⟩, rfl, rfl, subset_rfl⟩
    have valid' : included.Valid parser fs paths sources mid := valid.congr grows rfl rfl
    cases add : addNode parser fs included t with
    | some added =>
      obtain ⟨added, idx⟩ := added
      obtain ⟨valid'', grows', getEq⟩ := addNode_spec valid' add
      have there : known parser fs sources t = true := by
        rw [← Bool.not_eq_false, ← addNode_eq_none_iff valid', add]
        simp
      exact ⟨valid'', grows.trans grows',
        .inl ⟨t, idx, by simp [target, resolved, there], rfl, getEq⟩⟩
    | none =>
      have missing := (addNode_eq_none_iff valid').mp add
      have grows' : included.Grows { included with
          unresolvedImports := insert (importPath, file) included.unresolvedImports } :=
        ⟨⟨[], by simp⟩, rfl, rfl, Finset.subset_insert _ _⟩
      exact ⟨valid'.congr grows' rfl rfl, grows.trans grows',
        .inr ⟨by simp [target, resolved, missing], rfl, Finset.mem_insert_self _ _⟩⟩
  · next unresolved =>
    have grows : s.Grows { s with
        unresolvedImports := insert (importPath, file) s.unresolvedImports } :=
      ⟨⟨[], by simp⟩, rfl, rfl, Finset.subset_insert _ _⟩
    exact ⟨valid.congr grows rfl rfl, grows,
      .inr ⟨by simp [target, unresolved], rfl, Finset.mem_insert_self _ _⟩⟩

/-- Resolving the imports of a file makes its row. -/
theorem foldl_resolveImport (valid : s.Valid parser fs paths sources mid) {cwd file : PathBuf}
    {row : List Nat} (imports : List PathBuf) {r : Resolution δ × List Nat}
    (eq : imports.foldl (resolveImport parser fs paths cwd file) (s, row) = r) :
    r.1.Valid parser fs paths sources mid ∧ s.Grows r.1 ∧
      (∃ new, r.2 = row ++ new ∧ new.map (fun j => ((r.1.all mid).map Node.path)[j]?) =
        (imports.filterMap (target parser fs paths sources cwd)).map some) ∧
      ∀ importPath ∈ imports, target parser fs paths sources cwd importPath = none →
        (importPath, file) ∈ r.1.unresolvedImports := by
  induction imports generalizing s row with
  | nil =>
    subst eq
    exact ⟨valid, .refl, ⟨[], by simp, rfl⟩, by simp⟩
  | cons importPath imports ih =>
    obtain ⟨⟨s₁, row₁⟩, step⟩ :
        ∃ r₁, resolveImport parser fs paths cwd file (s, row) importPath = r₁ :=
      ⟨_, rfl⟩
    rw [List.foldl_cons, step] at eq
    obtain ⟨valid₁, grows₁, outcome⟩ := resolveImport_spec valid importPath step
    obtain ⟨valid', grows', ⟨new, newEq, same⟩, rest⟩ := ih valid₁ eq
    refine ⟨valid', grows₁.trans grows', ?_, ?_⟩
    · obtain ⟨t, idx, found, row_eq, getEq⟩ | ⟨missing, row_eq, -⟩ := outcome
      · refine ⟨idx :: new, by simp_all, ?_⟩
        rw [List.filterMap_cons_some found]
        simp only [List.map_cons, same, List.cons.injEq, and_true]
        exact grows'.getElem? getEq
      · exact ⟨new, by simp_all, by rw [List.filterMap_cons_none missing, same]⟩
    · simp only [List.mem_cons, forall_eq_or_imp]
      refine ⟨fun missing => ?_, rest⟩
      obtain ⟨t, idx, found, -, -⟩ | ⟨-, -, mem⟩ := outcome
      · simp [missing] at found
      · exact grows'.unresolvedImports mem

/-- Turning a queued file into a node fills one row. -/
theorem resolveNode_spec {path : PathBuf} {node : Node δ}
    (valid : s.Valid parser fs paths sources [node]) (same : node.path = path)
    (eq : resolveNode parser fs paths s path node = some s') :
    s'.Valid parser fs paths sources [] ∧ s'.nodes.length = s.nodes.length + 1 ∧
      s.all [node] <+: s'.all [] := by
  have genuine : Node.Genuine parser fs sources node :=
    valid.genuine node (by simp [Resolution.all])
  obtain ⟨cwd, parent⟩ := Option.isSome_iff_exists.mp genuine.parent
  rw [same] at parent
  simp only [resolveNode, parent] at eq
  obtain ⟨⟨imports, includePaths⟩, resolved, rfl⟩ := Option.map_eq_some_iff.mp eq
  set included : Resolution δ := { s with
    resolvedSolcIncludePaths := s.resolvedSolcIncludePaths ∪ includePaths.toFinset }
  have grows : s.Grows included := ⟨⟨[], by simp [included]⟩, rfl, rfl, subset_rfl⟩
  obtain ⟨⟨done, row⟩, fold⟩ : ∃ r, imports.foldl (resolveImport parser fs paths cwd node.path)
    (included, []) = r := ⟨_, rfl⟩
  obtain ⟨valid', grows', ⟨_, rfl, rowEq⟩, missing⟩ :=
    foldl_resolveImport (valid.congr grows rfl rfl) imports fold
  simp only [fold]
  have nodes : done.nodes = s.nodes := grows'.nodes
  have rows := valid'.rows
  have paths_eq : importPaths parser fs paths node.data = imports := by simp [importPaths, resolved]
  have all : Resolution.all
      { done with nodes := done.nodes ++ [node], edges := done.edges ++ [row] } [] =
      done.all [node] := by simp [Resolution.all]
  have grown : s.all [node] <+: done.all [node] := by
    obtain ⟨extra, eq⟩ := (grows.trans grows').all [node]
    exact ⟨extra, eq.symm⟩
  refine ⟨⟨valid'.named, ?_, ?_, ?_, by simpa using rows, valid'.inputs, ?_, ?_⟩, by simp [nodes],
    by rwa [all]⟩
  · rw [all]
    exact valid'.index
  · rw [all]
    exact valid'.size
  · rw [all]
    exact valid'.genuine
  · rw [all]
    intro i n r getEq getEq'
    simp only [List.getElem?_append, rows] at getEq getEq'
    split_ifs at getEq getEq' with old
    · exact valid'.row i n r getEq getEq'
    · obtain ⟨bound, rfl⟩ := List.getElem?_eq_some_iff.mp getEq
      obtain ⟨bound', rfl⟩ := List.getElem?_eq_some_iff.mp getEq'
      simp only [List.getElem_singleton]
      rw [rowEq, targets, same, parent]
      simp [paths_eq]
  · intro n mem c parent' importPath mem' none
    obtain mem | mem := List.mem_append.mp mem
    · exact valid'.unresolved n mem c parent' importPath mem' none
    · obtain rfl := List.mem_singleton.mp mem
      rw [same, parent, Option.some.injEq] at parent'
      subst parent'
      exact missing importPath (paths_eq ▸ mem') none

/-- There are no more nodes than inputs and files. -/
theorem Resolution.Valid.length_all_le (valid : s.Valid parser fs paths sources mid) :
    (s.all mid).length ≤ sources.size + fs.files.size := by
  have nodup : ((s.all mid).map Node.path).Nodup := by
    rw [List.nodup_iff_getElem?_ne_getElem?]
    intro i j lt bound eq
    have getEq : ((s.all mid).map Node.path)[i]? = some ((s.all mid).map Node.path)[i] :=
      List.getElem?_eq_getElem (lt.trans bound)
    have := (valid.index _ _).mpr getEq
    rw [(valid.index _ _).mpr (eq ▸ getEq), Option.some.injEq] at this
    omega
  have sub : (s.all mid).map Node.path ⊆ sources.keys ++ fs.files.keys := by
    intro p mem
    obtain ⟨node, mem', rfl⟩ := List.mem_map.mp mem
    have there := (valid.genuine node mem').known
    simp only [known, Bool.or_eq_true, decide_eq_true_eq] at there
    rw [List.mem_append, ExtTreeMap.mem_keys, ExtTreeMap.mem_keys]
    refine there.imp_right fun read => ?_
    obtain ⟨n, read⟩ := Option.isSome_iff_exists.mp read
    exact mem_files_of_readNode read
  have := (List.subperm_of_subset nodup sub).length_le
  simpa using this

/-- Taking a file off the queue keeps its index. -/
theorem Resolution.Valid.pop (valid : s.Valid parser fs paths sources []) {path : PathBuf}
    {node : Node δ} {rest : List (PathBuf × Node δ)} (queue : s.unresolved = (path, node) :: rest) :
    Resolution.Valid parser fs paths sources { s with unresolved := rest } [node] ∧
      Resolution.all { s with unresolved := rest } [node] = s.all [] ∧ node.path = path := by
  have all : Resolution.all { s with unresolved := rest } [node] = s.all [] := by
    simp [Resolution.all, queue]
  refine ⟨?_, all, valid.named (path, node) (by simp [queue])⟩
  refine ⟨fun entry mem => valid.named entry (by simp [queue, mem]), ?_, ?_, ?_, valid.rows,
    valid.inputs, ?_, valid.unresolved⟩ <;> rw [all]
  · exact valid.index
  · exact valid.size
  · exact valid.genuine
  · exact valid.row

/-- Without room for another node the queue is empty. -/
theorem Resolution.Valid.unresolved_eq_nil (valid : s.Valid parser fs paths sources [])
    (full : sources.size + fs.files.size ≤ s.nodes.length) : s.unresolved = [] := by
  have := valid.length_all_le
  simp only [Resolution.all, List.length_append, List.length_map, List.length_nil] at this
  exact List.length_eq_zero_iff.mp (by omega)

/-- The queue runs empty, and the nodes with an index stay where they are. -/
theorem resolveAll_spec {fuel : Nat} (valid : s.Valid parser fs paths sources [])
    (enough : sources.size + fs.files.size ≤ s.nodes.length + fuel)
    (eq : resolveAll parser fs paths fuel s = some s') :
    s'.Valid parser fs paths sources [] ∧ s'.unresolved = [] ∧ s.all [] <+: s'.all [] := by
  induction fuel generalizing s with
  | zero =>
    obtain rfl := by simpa [resolveAll] using eq
    exact ⟨valid, valid.unresolved_eq_nil enough, List.prefix_rfl⟩
  | succ fuel ih =>
    simp only [resolveAll] at eq
    split at eq
    · next empty =>
      obtain rfl := by simpa using eq
      exact ⟨valid, empty, List.prefix_rfl⟩
    · next path node rest queue =>
      obtain ⟨s₁, step, eq⟩ := Option.bind_eq_some_iff.mp eq
      obtain ⟨valid', all, same⟩ := valid.pop queue
      obtain ⟨valid₁, length, grown⟩ := resolveNode_spec valid' same step
      obtain ⟨valid₂, empty, grown'⟩ := ih valid₁ (by simp only [length]; omega) eq
      exact ⟨valid₂, empty, all ▸ grown.trans grown'⟩

/-- The loop ends on its own: more steps than there are files change nothing, whether it succeeds
or fails. -/
theorem resolveAll_add {fuel : Nat} (valid : s.Valid parser fs paths sources [])
    (enough : sources.size + fs.files.size ≤ s.nodes.length + fuel) (extra : Nat) :
    resolveAll parser fs paths (fuel + extra) s = resolveAll parser fs paths fuel s := by
  induction fuel generalizing s with
  | zero =>
    have empty := valid.unresolved_eq_nil enough
    cases extra with
    | zero => rfl
    | succ extra => simp [resolveAll, empty]
  | succ fuel ih =>
    rw [Nat.add_right_comm]
    simp only [resolveAll]
    split
    · rfl
    · next path node rest queue =>
      obtain ⟨valid', -, same⟩ := valid.pop queue
      refine Option.bind_congr fun s₁ step => ?_
      obtain ⟨valid₁, length, -⟩ := resolveNode_spec valid' same step
      exact ih valid₁ (by simp only [length]; omega)

theorem mem_mapM {α β : Type*} {f : α → Option β} {l : List α} {r : List β}
    (eq : l.mapM f = some r) : l.map f = r.map some := by
  induction l generalizing r with
  | nil =>
    obtain rfl := by simpa using eq
    rfl
  | cons a l ih =>
    simp only [List.mapM_cons, Option.pure_def, Option.bind_eq_bind, Option.bind_eq_some_iff,
      Option.some.injEq] at eq
    obtain ⟨b, head, bs, tail, rfl⟩ := eq
    simp [head, ih tail]

/-- The parsed sources are the given ones. -/
theorem parseSources_spec {input : List (PathBuf × Node δ)}
    (eq : parseSources parser sources = some input) :
    (input.map Prod.fst).Perm sources.keys ∧ ∀ entry ∈ input, entry.2.path = entry.1 ∧
      sources[entry.1]? = some entry.2.source ∧
      parser.parse entry.2.source.content entry.1 = some entry.2.data := by
  have images := mem_mapM eq
  have each : ∀ (file : PathBuf) (entry : PathBuf × Node δ),
      (sources[file]?.bind fun source =>
        (parseNode parser file source).map fun node => (file, node)) =
        some entry → entry.1 = file ∧ entry.2.path = entry.1 ∧
      sources[entry.1]? = some entry.2.source ∧
      parser.parse entry.2.source.content entry.1 = some entry.2.data := by
    intro file entry eq
    simp only [parseNode, Option.bind_eq_some_iff, Option.map_eq_some_iff] at eq
    obtain ⟨source, found, _, ⟨data, parsed, rfl⟩, rfl⟩ := eq
    exact ⟨rfl, rfl, found, parsed⟩
  have order : input.map Prod.fst = parser.parseOrder sources.keys := by
    refine List.ext_getElem? fun i => ?_
    have getEq := congrArg (·[i]?) images
    simp only [List.getElem?_map] at getEq ⊢
    cases inp : input[i]? with
    | none => cases ord : (parser.parseOrder sources.keys)[i]? <;> simp_all
    | some entry =>
      cases ord : (parser.parseOrder sources.keys)[i]? with
      | none => simp_all
      | some file =>
        simp only [inp, ord, Option.map_some, Option.some.injEq] at getEq ⊢
        exact (each file entry getEq).1
  refine ⟨order ▸ parser.parseOrder_perm _, fun entry mem => ?_⟩
  obtain ⟨file, -, eq⟩ := List.mem_map.mp (images ▸ List.mem_map_of_mem (f := some) mem)
  exact (each file entry eq).2

theorem initial_valid {input : List (PathBuf × Node δ)}
    (parents : ∀ p ∈ sources, p.parent.isSome)
    (eq : parseSources parser sources = some input) :
    (initial paths input).Valid parser fs paths sources [] := by
  obtain ⟨perm, spec⟩ := parseSources_spec eq
  have distinct : (input.map Prod.fst).Nodup := perm.nodup_iff.mpr ExtTreeMap.nodup_keys
  have entries : (input.zipIdx.map fun x => (x.1.1, x.2)).map Prod.fst = input.map Prod.fst := by
    have indexed := congrArg (List.map Prod.fst) (List.zipIdx_map_fst 0 input)
    rw [List.map_map] at indexed ⊢
    exact indexed
  have all : (initial paths input).all [] = input.map Prod.snd := by simp [Resolution.all, initial]
  have files : input.map (Node.path ∘ Prod.snd) = input.map Prod.fst :=
    List.map_congr_left fun entry mem => (spec entry mem).1
  refine ⟨fun entry mem => (spec entry mem).1, ?_, ?_, ?_, rfl, ?_, by simp [initial],
    by simp [initial]⟩
  · intro p i
    rw [all, List.map_map, files]
    simp only [initial]
    rw [Library.getElem?_ofList_eq_some (entries ▸ distinct)]
    simp only [List.mem_map, Prod.exists, List.mk_mem_zipIdx_iff_getElem?, Prod.mk.injEq,
      List.getElem?_map, Option.map_eq_some_iff]
    constructor
    · rintro ⟨q, node, j, getEq, rfl, rfl⟩
      exact ⟨q, node, getEq, rfl⟩
    · rintro ⟨q, node, getEq, rfl⟩
      exact ⟨q, node, i, getEq, rfl, rfl⟩
  · rw [all]
    simp only [initial]
    rw [ExtTreeMap.size_ofList (Library.pairwise_of_nodup (entries ▸ distinct))]
    simp
  · rw [all]
    intro node mem
    obtain ⟨entry, mem', rfl⟩ := List.mem_map.mp mem
    obtain ⟨path, source, parsed⟩ := spec entry mem'
    have listed : entry.1 ∈ sources :=
      ExtTreeMap.mem_iff_isSome_getElem?.mpr (Option.isSome_of_eq_some source)
    refine ⟨by simp [path, source], by rw [path]; exact parsed, ?_, fun out => ?_⟩
    · rw [path]
      exact parents _ listed
    · exact absurd (path ▸ listed) out
  · intro p mem
    simp only [initial, ExtTreeMap.mem_ofList, List.contains_iff_mem]
    rw [entries, perm.mem_iff]
    exact ExtTreeMap.mem_keys.mpr mem

end Spec

/-! ### The reverse table -/

/-- Each edge of a row puts the index of the row once into the row of its target. -/
theorem foldl_modify (row : List Nat) (idx : Nat) (rev : List (List Nat)) :
    let rev' := row.foldl (fun rev edge => rev.modify edge (· ++ [idx])) rev
    rev'.length = rev.length ∧ ∀ i j, (rev'[j]?.getD []).count i =
      (rev[j]?.getD []).count i + if i = idx ∧ j < rev.length then row.count j else 0 := by
  induction row generalizing rev with
  | nil => simp
  | cons edge row ih =>
    obtain ⟨length, count⟩ := ih (rev.modify edge (· ++ [idx]))
    refine ⟨by simpa using length, fun i j => ?_⟩
    rw [List.foldl_cons, count, List.length_modify, List.getElem?_modify]
    by_cases bound : j < rev.length
    · rw [List.getElem?_eq_getElem bound]
      by_cases same : edge = j <;> by_cases here : i = idx <;>
        simp [same, here, bound, List.count_cons] <;> grind
    · rw [List.getElem?_eq_none (by omega)]
      simp [bound]

theorem foldl_reverse (edges : List (List Nat)) (k : Nat) (rev : List (List Nat)) :
    let rev' := (edges.zipIdx k).foldl (fun rev (row, idx) => row.foldl (fun rev edge =>
      rev.modify edge (· ++ [idx])) rev) rev
    rev'.length = rev.length ∧ ∀ i j, (rev'[j]?.getD []).count i = (rev[j]?.getD []).count i +
      if k ≤ i ∧ j < rev.length then (edges[i - k]?.getD []).count j else 0 := by
  induction edges generalizing k rev with
  | nil => simp
  | cons row edges ih =>
    obtain ⟨length₁, count₁⟩ := foldl_modify row k rev
    obtain ⟨length, count⟩ :=
      ih (k + 1) (row.foldl (fun rev edge => rev.modify edge (· ++ [k])) rev)
    refine ⟨length.trans length₁, fun i j => ?_⟩
    rw [List.zipIdx_cons, List.foldl_cons, count, count₁, length₁, Nat.add_assoc]
    congr 1
    rcases Nat.lt_trichotomy i k with before | rfl | after
    · simp [show ¬ k + 1 ≤ i by omega, show ¬ k ≤ i by omega, show i ≠ k by omega]
    · simp
    · have : i - k = (i - (k + 1)) + 1 := by omega
      simp [show k + 1 ≤ i by omega, show k ≤ i by omega, show i ≠ k by omega, this]

theorem length_reverseEdges (edges : List (List Nat)) :
    (reverseEdges edges).length = edges.length :=
  (foldl_reverse edges 0 _).1.trans (by simp)

/-- The reverse table is the transpose of the table: an edge occurs in both as often. -/
theorem count_reverseEdges (edges : List (List Nat)) (i j : Nat) :
    ((reverseEdges edges)[j]?.getD []).count i =
      if j < edges.length then (edges[i]?.getD []).count j else 0 := by
  rw [reverseEdges, (foldl_reverse edges 0 _).2, List.getElem?_replicate]
  by_cases bound : j < edges.length <;> simp [bound]

theorem mem_reverseEdges (edges : List (List Nat)) (i j : Nat) :
    i ∈ (reverseEdges edges)[j]?.getD [] ↔ j ∈ edges[i]?.getD [] ∧ j < edges.length := by
  rw [← List.count_pos_iff, count_reverseEdges, ← List.count_pos_iff (a := j)]
  split_ifs with bound <;> simp [bound]

end Graph

/-! ## Files of the graph -/

namespace GraphEdges

open Relation

/-- The tables agree with the list of files in the order of their indices. -/
structure Aligned (g : GraphEdges δ) (files : List PathBuf) : Prop where
  indices : ∀ (p : PathBuf) (i : Nat), g.indices[p]? = some i ↔ files[i]? = some p
  revIndices : ∀ (p : PathBuf) (i : Nat), g.revIndices[i]? = some p ↔ files[i]? = some p
  rows : g.edges.length = files.length
  range : ∀ i, ∀ j ∈ g.importedNodes i, j < files.length
  transposed : ∀ i j, i ∈ g.revEdges[j]?.getD [] ↔ j ∈ g.importedNodes i

/-- The first file imports the second one directly. -/
def ImportsDirectly (g : GraphEdges δ) (p q : PathBuf) : Prop :=
  ∃ i j, g.indices[p]? = some i ∧ g.indices[q]? = some j ∧ j ∈ g.importedNodes i

variable {g : GraphEdges δ} {files : List PathBuf} {p q : PathBuf}

theorem ImportsDirectly.mem (h : g.ImportsDirectly p q) : p ∈ g.indices ∧ q ∈ g.indices := by
  obtain ⟨i, j, first, second, -⟩ := h
  simp [ExtTreeMap.mem_iff_isSome_getElem?, first, second]

theorem mem_files {nodes : List Nat} :
    p ∈ g.files nodes ↔ ∃ i ∈ nodes, g.revIndices[i]? = some p := by
  simp [GraphEdges.files]

theorem Aligned.revIndices_iff (a : g.Aligned files) {i : Nat} :
    g.revIndices[i]? = some p ↔ g.indices[p]? = some i := by
  rw [a.revIndices, a.indices]

theorem Aligned.mem_importers (a : g.Aligned files) :
    p ∈ g.importers q ↔ g.ImportsDirectly p q := by
  unfold importers
  cases getEq : g.indices[q]? with
  | none => simp [ImportsDirectly, getEq]
  | some j =>
    simp only [mem_files, a.revIndices_iff, a.transposed, ImportsDirectly, getEq, Option.some.injEq]
    constructor
    · rintro ⟨i, edge, getEq⟩
      exact ⟨i, j, getEq, rfl, edge⟩
    · rintro ⟨i, _, getEq, rfl, edge⟩
      exact ⟨i, edge, getEq⟩

/-- A path over indices is a path over files. -/
theorem Aligned.transGen_iff (a : g.Aligned files) {i : Nat} (getEq : g.indices[p]? = some i) :
    (∃ j, TransGen (fun m n => n ∈ g.importedNodes m) i j ∧ g.indices[q]? = some j) ↔
      TransGen g.ImportsDirectly p q := by
  constructor
  · rintro ⟨j, path, getEq'⟩
    induction path generalizing q with
    | single edge => exact .single ⟨_, _, getEq, getEq', edge⟩
    | @tail m n _ edge ih =>
      -- the node before the last one is a file, as it has a row
      have bound : m < files.length := by
        rw [← a.rows]
        refine lt_of_not_ge fun out => ?_
        simp [importedNodes, List.getElem?_eq_none out] at edge
      have file := (a.indices _ _).mpr (List.getElem?_eq_getElem bound)
      exact .tail (ih file) ⟨_, _, file, getEq', edge⟩
  · intro path
    induction path with
    | single edge =>
      obtain ⟨i', j, first, second, edge⟩ := edge
      obtain rfl : i = i' := by simpa [getEq] using first
      exact ⟨j, .single edge, second⟩
    | tail _ edge ih =>
      obtain ⟨i', j, first, second, edge⟩ := edge
      obtain ⟨m, path, getEq'⟩ := ih
      obtain rfl : m = i' := by simpa [getEq'] using first
      exact ⟨j, .tail path edge, second⟩

/-- All rows together have as many targets as there are edges. -/
theorem sum_importedNodes (g : GraphEdges δ) :
    ∑ x ∈ Finset.range g.edges.length, (g.importedNodes x).length =
      (g.edges.map List.length).sum := by
  rw [Finset.sum_range, ← Fin.sum_univ_fun_getElem]
  simp [importedNodes]

/-- Iterating from a node yields the node, and then what it imports, directly or not. -/
theorem nodesIter_eq (g : GraphEdges δ) (start : Nat) : ∃ rest, g.nodesIter start = start :: rest ∧
    ∀ j, j ∈ rest ↔ TransGen (fun m n => n ∈ g.importedNodes m) start j := by
  set targets := (Finset.range g.edges.length).biUnion fun x => (g.importedNodes x).toFinset
  refine Library.walk_start (U := insert start (Finset.range g.edges.length ∪ targets))
    (fun x _ y mem => ?_) (Finset.mem_insert_self _ _) ?_
  · have row : x < g.edges.length := by
      refine lt_of_not_ge fun out => ?_
      simp [importedNodes, List.getElem?_eq_none out] at mem
    exact Finset.mem_insert_of_mem (Finset.mem_union_right _ (Finset.mem_biUnion.mpr
      ⟨x, Finset.mem_range.mpr row, List.mem_toFinset.mpr mem⟩))
  · rw [← sum_importedNodes]
    refine Nat.add_le_add_left (Finset.sum_subset (fun x row => ?_) ?_).ge 1
    · exact Finset.mem_insert_of_mem (Finset.mem_union_left _ row)
    · intro x _ out
      rw [Finset.mem_range, Nat.not_lt] at out
      simp [importedNodes, List.getElem?_eq_none out]

theorem mem_nodesIter {start j : Nat} : j ∈ g.nodesIter start ↔
    ReflTransGen (fun m n => n ∈ g.importedNodes m) start j := by
  obtain ⟨rest, eq, mem⟩ := g.nodesIter_eq start
  rw [eq, List.mem_cons, mem, reflTransGen_iff_eq_or_transGen]

/-- `imports` lists what the file imports, directly or not. -/
theorem Aligned.mem_imports (a : g.Aligned files) :
    q ∈ g.imports p ↔ TransGen g.ImportsDirectly p q := by
  unfold imports
  cases getEq : g.indices[p]? with
  | none =>
    simp only [List.not_mem_nil, false_iff]
    intro path
    obtain ⟨_, edge, -⟩ := TransGen.head'_iff.mp path
    obtain ⟨i, j, first, -, -⟩ := edge
    simp [getEq] at first
  | some i =>
    obtain ⟨rest, eq, mem⟩ := g.nodesIter_eq i
    simp only [eq, List.drop_succ_cons, List.drop_zero, mem_files, mem, a.revIndices_iff]
    exact a.transGen_iff getEq

end GraphEdges

namespace Graph

variable {parser : SourceParser δ} {fs : FileSystem} {paths : ProjectPathsConfig}
  {sources : Sources} {g : Graph δ}

/-- The files that a file with the given content imports directly. -/
def contentTargets (parser : SourceParser δ) (fs : FileSystem) (paths : ProjectPathsConfig)
    (sources : Sources) (file : PathBuf) (content : String) : List PathBuf :=
  match parser.parse content file with
  | some data => targets parser fs paths sources file data
  | none => []

/-- What a resolved graph is: its nodes are the inputs and what can be reached from them, each
with the content it has, and its edges are the imports that lead to a file. -/
structure Resolved (parser : SourceParser δ) (fs : FileSystem) (paths : ProjectPathsConfig)
    (sources : Sources) (g : Graph δ) : Prop where
  aligned : g.edges.Aligned (g.nodes.map Node.path)
  inputs : ∀ p ∈ sources, p ∈ g.edges.indices
  source : ∀ node ∈ g.nodes, (sources[node.path]? <|> Source.read fs node.path) = some node.source
  imports : ∀ node ∈ g.nodes, ∀ q, g.edges.ImportsDirectly node.path q ↔
    q ∈ contentTargets parser fs paths sources node.path node.source.content
  unresolved : ∀ node ∈ g.nodes, ∀ cwd data, node.path.parent = some cwd →
    parser.parse node.source.content node.path = some data →
    ∀ importPath ∈ importPaths parser fs paths data,
      target parser fs paths sources cwd importPath = none →
        (importPath, node.path) ∈ g.edges.unresolvedImports

theorem getElem?_revIndices {index : ExtTreeMap PathBuf Nat} {files : List PathBuf}
    (spec : ∀ (p : PathBuf) (i : Nat), index[p]? = some i ↔ files[i]? = some p)
    (p : PathBuf) (i : Nat) :
    (ExtTreeMap.ofList (index.toList.map fun (path, idx) => (idx, path)))[i]? = some p ↔
      files[i]? = some p := by
  have distinct : ((index.toList.map fun (path, idx) => (idx, path)).map Prod.fst).Nodup := by
    rw [List.map_map]
    refine List.Nodup.map_on ?_ ?_
    · rintro ⟨q, j⟩ mem ⟨q', j'⟩ mem' (rfl : j = j')
      rw [ExtTreeMap.mem_toList_iff_getElem?_eq_some, spec] at mem mem'
      rw [mem, Option.some.injEq] at mem'
      rw [mem']
    · refine .of_map Prod.fst ?_
      rw [ExtTreeMap.map_fst_toList_eq_keys]
      exact ExtTreeMap.nodup_keys
  rw [Library.getElem?_ofList_eq_some distinct]
  simp [ExtTreeMap.mem_toList_iff_getElem?_eq_some, spec]

theorem map_path_of_files {nodes nodes' : List (Node δ)}
    (files : nodes'.map Node.file = nodes.map Node.file) :
    nodes'.map Node.path = nodes.map Node.path := by
  have := congrArg (List.map Prod.fst) files
  rwa [List.map_map, List.map_map] at this

theorem exists_of_files {nodes nodes' : List (Node δ)}
    (files : nodes'.map Node.file = nodes.map Node.file) {node : Node δ} (mem : node ∈ nodes') :
    ∃ (i : Nat) (original : Node δ), nodes[i]? = some original ∧
      original.path = node.path ∧ original.source = node.source := by
  obtain ⟨i, bound, rfl⟩ := List.mem_iff_getElem.mp mem
  have fileAt := congrArg (·[i]?) files
  simp only [List.getElem?_map, List.getElem?_eq_getElem bound, Option.map_some] at fileAt
  obtain ⟨original, getEq, eq⟩ := Option.map_eq_some_iff.mp fileAt.symm
  exact ⟨i, original, getEq, (Prod.mk.inj eq).1, (Prod.mk.inj eq).2⟩

/-- The row of a node holds the files its content imports. -/
theorem mem_importedNodes {s : Resolution δ} (valid : s.Valid parser fs paths sources [])
    (empty : s.unresolved = []) {i : Nat} {node : Node δ} (getEq : s.nodes[i]? = some node)
    (q : PathBuf) : (∃ j ∈ s.edges[i]?.getD [], (s.nodes.map Node.path)[j]? = some q) ↔
      q ∈ targets parser fs paths sources node.path node.data := by
  have all : s.all [] = s.nodes := by simp [Resolution.all, empty]
  obtain ⟨bound, -⟩ := List.getElem?_eq_some_iff.mp getEq
  have row_at : s.edges[i]? = some (s.edges.get ⟨i, valid.rows ▸ bound⟩) :=
    List.getElem?_eq_getElem _
  have row := valid.row i node _ getEq row_at
  rw [all] at row
  rw [row_at, Option.getD_some, ← List.mem_map_of_injective (f := some) (Option.some_injective _),
    ← row, List.mem_map]

/-- The rows hold indices of nodes. -/
theorem lt_of_mem_edges {s : Resolution δ} (valid : s.Valid parser fs paths sources [])
    (empty : s.unresolved = []) (i : Nat) : ∀ j ∈ s.edges[i]?.getD [], j < s.nodes.length := by
  intro j edge
  have all : s.all [] = s.nodes := by simp [Resolution.all, empty]
  cases getEq : s.nodes[i]? with
  | none =>
    have : s.edges[i]? = none := by
      rw [List.getElem?_eq_none_iff] at getEq ⊢
      exact valid.rows ▸ getEq
    simp [this] at edge
  | some node =>
    have rowAt : s.edges[i]? = some (s.edges[i]?.getD []) := by
      cases rowAt : s.edges[i]? with
      | none => simp [rowAt] at edge
      | some _ => rfl
    have images := valid.row i node _ getEq rowAt
    rw [all] at images
    obtain ⟨q, -, found⟩ := List.mem_map.mp (images ▸ List.mem_map_of_mem edge)
    simpa using (List.getElem?_eq_some_iff.mp found.symm).1

/-- The files of an aligned graph are distinct. -/
theorem nodup_of_aligned {edges : GraphEdges δ} {files : List PathBuf}
    (aligned : edges.Aligned files) :
    files.Nodup := by
  rw [List.nodup_iff_getElem?_ne_getElem?]
  intro i j lt bound eq
  have getEq := List.getElem?_eq_getElem (lt.trans bound)
  have := (aligned.indices _ _).mpr getEq
  rw [(aligned.indices _ _).mpr (eq ▸ getEq), Option.some.injEq] at this
  omega

theorem resolveSources_resolved (parents : ∀ p ∈ sources.makeAbsolute paths.root, p.parent.isSome)
    (eq : resolveSources parser fs paths sources = some g) :
    g.Resolved parser fs paths (sources.makeAbsolute paths.root) := by
  simp only [resolveSources, Option.bind_eq_bind, Option.bind_eq_some_iff, Option.some.injEq] at eq
  obtain ⟨input, parsed, done, resolved, nodes, finalized, rfl⟩ := eq
  set absolute := sources.makeAbsolute paths.root
  have perm := (parseSources_spec parsed).1
  have start : (initial paths input).Valid parser fs paths absolute [] :=
    initial_valid parents parsed
  obtain ⟨valid, empty, -⟩ := resolveAll_spec start (by
    have := perm.length_eq
    simp only [List.length_map, ExtTreeMap.length_keys] at this
    omega) resolved
  have files := parser.finalizeImports_files _ _ _ finalized
  have samePaths := map_path_of_files files
  have all : done.all [] = done.nodes := by simp [Resolution.all, empty]
  have index := valid.index
  rw [all] at index
  have row : ∀ (i : Nat) (node : Node δ), done.nodes[i]? = some node → ∀ q,
      (∃ j ∈ done.edges[i]?.getD [], done.index[q]? = some j) ↔
        q ∈ targets parser fs paths absolute node.path node.data := fun i node getEq q => by
    simp only [index]
    exact mem_importedNodes valid empty getEq q
  have range := lt_of_mem_edges valid empty
  refine ⟨⟨?_, ?_, ?_, ?_, ?_⟩, valid.inputs, ?_, ?_, ?_⟩
  · simpa only [samePaths] using index
  · simpa only [samePaths] using getElem?_revIndices index
  · simpa only [samePaths, List.length_map] using valid.rows
  · simp only [samePaths, List.length_map]
    exact range
  · intro i j
    rw [mem_reverseEdges, valid.rows]
    exact ⟨And.left, fun edge => ⟨edge, range i j edge⟩⟩
  all_goals
    intro node mem
    obtain ⟨i, original, getEq, path, source⟩ := exists_of_files files mem
    have genuine := valid.genuine original (all ▸ List.mem_of_getElem? getEq)
    have parsed := genuine.parsed
    rw [path, source] at parsed
  · rw [← path, ← source]
    exact genuine.source
  · intro q
    have first : done.index[node.path]? = some i := (index _ _).mpr (by simp [getEq, path])
    have same : contentTargets parser fs paths absolute node.path node.source.content =
        targets parser fs paths absolute original.path original.data := by
      rw [contentTargets, parsed, path]
    rw [same, ← row i original getEq q]
    constructor
    · rintro ⟨i', j, first', second, edge⟩
      obtain rfl : i = i' := by simpa [first] using first'
      exact ⟨j, edge, second⟩
    · rintro ⟨j, edge, second⟩
      exact ⟨i, j, first, second, edge⟩
  · intro cwd data' parent eq importPath mem' missing
    obtain rfl : original.data = data' := by simpa [parsed] using eq
    rw [← path] at parent ⊢
    exact valid.unresolved original (List.mem_of_getElem? getEq) cwd parent importPath mem' missing

/-- The sources of a resolved graph are the contents of its nodes. -/
theorem Resolved.getElem?_intoSources (r : g.Resolved parser fs paths sources) {p : PathBuf}
    {source : Source} :
    g.intoSources.1[p]? = some source ↔ ∃ node ∈ g.nodes, node.path = p ∧ node.source = source := by
  have distinct : (g.nodes.map Node.path).Nodup := nodup_of_aligned r.aligned
  have pairs : (g.nodes.map fun node => (node.path, node.source)).map Prod.fst =
      g.nodes.map Node.path := by simp
  rw [intoSources, Library.getElem?_ofList_eq_some (pairs ▸ distinct)]
  simp

/-- Moving the parsed data to the edges leaves the tables as they are. -/
theorem Resolved.aligned_intoSources (r : g.Resolved parser fs paths sources) :
    g.intoSources.2.Aligned (g.nodes.map Node.path) :=
  ⟨r.aligned.indices, r.aligned.revIndices, r.aligned.rows, r.aligned.range, r.aligned.transposed⟩

theorem Resolved.mem_indices (r : g.Resolved parser fs paths sources) {p : PathBuf} :
    p ∈ g.edges.indices ↔ ∃ node ∈ g.nodes, node.path = p := by
  simp only [ExtTreeMap.mem_iff_isSome_getElem?, Option.isSome_iff_exists, r.aligned.indices]
  rw [← List.mem_iff_getElem?, List.mem_map]

end Graph

end FoundryCore
