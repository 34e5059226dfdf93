import FoundryCore.Resolver.Alignment
import FoundryCore.Resolver.Multi

/-!
# The representation of the import graph

Resolving a set of sources ends, whatever imports what, and leaves tables that represent all
imports: the resolver hands out an index when it queues a file and appends the node when it
takes the file off the queue, and the two agree because the queue is worked off in order.
-/

open Std

namespace FoundryCore.Graph

variable {δ : Type*} {parser : SourceParser δ} {fs : FileSystem} {paths : ProjectPathsConfig}
  {sources : Sources}

/-- The tables of a graph represent it: each file has one node and one index, both edge tables have
one row for each node and are the transpose of each other, and the inputs come first. -/
structure WellFormed (inputs : Sources) (g : Graph δ) : Prop where
  distinct : (g.nodes.map Node.path).Nodup
  indices : ∀ (p : PathBuf) (i : Nat), g.edges.indices[p]? = some i ↔
    (g.nodes.map Node.path)[i]? = some p
  revIndices : ∀ (p : PathBuf) (i : Nat), g.edges.revIndices[i]? = some p ↔
    (g.nodes.map Node.path)[i]? = some p
  rows : g.edges.edges.length = g.nodes.length
  revRows : g.edges.revEdges.length = g.nodes.length
  range : ∀ row ∈ g.edges.edges, ∀ j ∈ row, j < g.nodes.length
  revRange : ∀ row ∈ g.edges.revEdges, ∀ i ∈ row, i < g.nodes.length
  transpose : ∀ i j : Nat,
    (g.edges.revEdges[j]?.getD []).count i = (g.edges.edges[i]?.getD []).count j
  inputCount : g.edges.numInputFiles = inputs.size
  inputFiles : ((g.nodes.map Node.path).take g.edges.numInputFiles).Perm inputs.keys

/-- There is fuel for every file that can be queued. -/
theorem initial_room (fs : FileSystem)
    (parents : ∀ p ∈ sources.makeAbsolute paths.root, p.parent.isSome)
    {input : List (PathBuf × Node δ)}
    (parsed : parseSources parser (sources.makeAbsolute paths.root) = some input) :
    (initial paths input).Valid parser fs paths (sources.makeAbsolute paths.root) [] ∧
      (sources.makeAbsolute paths.root).size + fs.files.size ≤
        (initial paths input).nodes.length + (input.length + fs.files.size) := by
  have size := (parseSources_spec parsed).1.length_eq
  simp only [List.length_map, ExtTreeMap.length_keys] at size
  exact ⟨initial_valid parents parsed, by omega⟩

/-- What `resolveSources` returns represents the import graph. -/
theorem wellFormed_of_resolveSources
    (parents : ∀ p ∈ sources.makeAbsolute paths.root, p.parent.isSome) {g : Graph δ}
    (eq : resolveSources parser fs paths sources = some g) :
    g.WellFormed (sources.makeAbsolute paths.root) := by
  have aligned := (resolveSources_resolved parents eq).aligned
  simp only [resolveSources, Option.bind_eq_bind, Option.bind_eq_some_iff,
    Option.some.injEq] at eq
  obtain ⟨input, parsed, done, resolved, nodes, finalized, rfl⟩ := eq
  obtain ⟨start, enough⟩ := initial_room fs parents parsed
  obtain ⟨valid, empty, rest, all⟩ := resolveAll_spec start enough resolved
  have samePaths := map_path_of_files (parser.finalizeImports_files _ _ _ finalized)
  have length : nodes.length = done.nodes.length := by simpa using congrArg List.length samePaths
  have range := lt_of_mem_edges valid empty
  have transpose : ∀ i j : Nat, ((reverseEdges done.edges)[j]?.getD []).count i =
      (done.edges[i]?.getD []).count j := by
    intro i j
    rw [count_reverseEdges, valid.rows]
    split_ifs with bound
    · rfl
    · exact (List.count_eq_zero.mpr fun mem => bound (range i j mem)).symm
  have nodesEq : done.nodes = input.map Prod.snd ++ rest := by
    have : done.all [] = done.nodes := by simp [Resolution.all, empty]
    rw [← this, ← all]
    simp [Resolution.all, initial]
  have inputFiles : (done.nodes.map Node.path).take input.length = input.map Prod.fst := by
    rw [nodesEq, List.map_append, List.take_left' (by simp), List.map_map]
    exact List.map_congr_left fun entry mem => ((parseSources_spec parsed).2 entry mem).1
  refine ⟨nodup_of_aligned aligned, aligned.indices, aligned.revIndices, ?_, ?_, ?_, ?_, transpose,
    ?_, ?_⟩
  · exact valid.rows.trans length.symm
  · exact (length_reverseEdges _).trans (valid.rows.trans length.symm)
  · intro row mem j edge
    obtain ⟨i, getEq⟩ := List.getElem?_of_mem mem
    exact length ▸ range i j (by rwa [getEq])
  · intro row mem i edge
    obtain ⟨j, getEq⟩ := List.getElem?_of_mem mem
    have out : j ∈ done.edges[i]?.getD [] := by
      rw [← List.count_pos_iff, ← transpose, List.count_pos_iff, getEq]
      exact edge
    refine lt_of_not_ge fun beyond => ?_
    rw [List.getElem?_eq_none (by rw [valid.rows, ← length]; exact beyond)] at out
    simp at out
  · have size := (parseSources_spec parsed).1.length_eq
    simpa only [List.length_map, ExtTreeMap.length_keys] using size
  · simp only [samePaths, inputFiles]
    exact (parseSources_spec parsed).1

/-- The loop of `resolveSources` ends with an empty queue or with an error, and what it leaves
represents the graph. -/
theorem resolveSources_wellFormed
    (parents : ∀ p ∈ sources.makeAbsolute paths.root, p.parent.isSome) :
    (∀ input, parseSources parser (sources.makeAbsolute paths.root) = some input →
      let result := resolveAll parser fs paths (input.length + fs.files.size) (initial paths input)
      (∀ extra, resolveAll parser fs paths (input.length + fs.files.size + extra)
        (initial paths input) = result) ∧
      ∀ done, result = some done → done.unresolved = []) ∧
    ∀ g, resolveSources parser fs paths sources = some g →
      g.WellFormed (sources.makeAbsolute paths.root) := by
  refine ⟨fun input parsed => ?_, fun g eq => wellFormed_of_resolveSources parents eq⟩
  obtain ⟨start, enough⟩ := initial_room fs parents parsed
  exact ⟨resolveAll_add start enough, fun done eq => (resolveAll_spec start enough eq).2.1⟩

/-! ### A file that imports one of another language, which imports itself -/

def mixedFiles : FileSystem :=
  .ofTexts [(["p", "src"], "a.sol", "/p/src/b.vy"), (["p", "lib"], "b.vy", ""),
    (["p", "src"], "b.vy", "/p/src/b.vy")]

def mixedSources : Sources :=
  ExtTreeMap.empty.insert (.rel ["src", "a.sol"]) { content := "/p/src/b.vy" }

theorem resolveSources_wellFormed_mixed :
    ∃ g, resolveSources (.multi .importLines .importLines) mixedFiles (.dapptools (.abs ["p"]) [])
        mixedSources = some g ∧
      g.edges.edges = [[1], [1]] ∧ g.WellFormed (mixedSources.makeAbsolute (.abs ["p"])) := by
  have rows : (resolveSources (.multi .importLines .importLines) mixedFiles
      (.dapptools (.abs ["p"]) []) mixedSources).map (·.edges.edges) = some [[1], [1]] := by
    decide +kernel
  obtain ⟨g, eq, rows⟩ := Option.map_eq_some_iff.mp rows
  refine ⟨g, eq, rows, (resolveSources_wellFormed fun p mem => ?_).2 g eq⟩
  obtain ⟨file, listed, rfl⟩ := Sources.mem_makeAbsolute mem
  simp only [mixedSources, ExtTreeMap.empty_eq_emptyc, ExtTreeMap.mem_insert,
    LawfulEqCmp.compare_eq_iff_eq, ExtTreeMap.not_mem_empty, or_false] at listed
  subst listed
  decide +kernel

end FoundryCore.Graph
