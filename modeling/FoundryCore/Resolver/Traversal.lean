import FoundryCore.Resolver.Alignment

/-!
# Iterating over imports

`NodesIter` takes nodes off a queue and puts what they import at its end. It hands out every node
that comes off the queue, also one that it has seen before, but only the first time puts the imports
of a node on the queue. So it ends on every graph, and behind the start there is what the start
imports, directly or not.
-/

open Std Relation

namespace FoundryCore

variable {δ : Type*}

/-- An iterator over a node and its dependencies. -/
structure NodesIter where
  stack : List Nat
  visited : Finset Nat

namespace NodesIter

def new (start : Nat) : NodesIter := ⟨[start], ∅⟩

/-- The next node with the iterator after it, if there is one. It is `none` for a node without a
row, where the code panics. -/
def next (g : GraphEdges δ) (iter : NodesIter) : Option (Option (Nat × NodesIter)) :=
  match iter.stack with
  | [] => some none
  | node :: stack =>
    -- push the node's direct dependencies if it was not visited already
    if node ∈ iter.visited then some (some (node, { iter with stack }))
    else g.edges[node]?.map fun row => some (node, ⟨stack ++ row, insert node iter.visited⟩)

/-- The iterator yields the nodes one after the other, and then it ends. -/
inductive Yields (g : GraphEdges δ) : NodesIter → List Nat → Prop
  | ended {iter : NodesIter} (eq : iter.next g = some none) : Yields g iter []
  | yielded {iter iter' : NodesIter} {node : Nat} {nodes : List Nat}
      (eq : iter.next g = some (some (node, iter'))) (later : Yields g iter' nodes) :
      Yields g iter (node :: nodes)

variable {g : GraphEdges δ} {iter : NodesIter} {nodes nodes' : List Nat}

theorem Yields.unique (yields : Yields g iter nodes) (yields' : Yields g iter nodes') :
    nodes = nodes' := by
  induction yields generalizing nodes' with
  | ended eq =>
    cases yields' with
    | ended => rfl
    | yielded eq' => simp [eq] at eq'
  | yielded eq _ ih =>
    cases yields' with
    | ended eq' => simp [eq] at eq'
    | yielded eq' later' =>
      obtain ⟨rfl, rfl⟩ := by simpa [eq] using eq'
      rw [ih later']

/-- From nodes of the graph on, the iterator yields what the walk with enough fuel lists. What the
queue can still yield goes down with each node. -/
theorem yields_walk (range : ∀ i, ∀ j ∈ g.importedNodes i, j < g.edges.length) {fuel : Nat}
    {queue visited : List Nat} (inside : ∀ node ∈ queue, node < g.edges.length)
    (enough : Library.ahead g.importedNodes (Finset.range g.edges.length) queue visited ≤ fuel) :
    Yields g ⟨queue, visited.toFinset⟩ (Library.walk g.importedNodes fuel queue visited) := by
  induction fuel generalizing queue visited with
  | zero =>
    obtain rfl : queue = [] :=
      List.length_eq_zero_iff.mp (by simp only [Library.ahead] at enough; omega)
    exact .ended rfl
  | succ fuel ih =>
    cases queue with
    | nil => exact .ended rfl
    | cons node queue =>
      rw [List.forall_mem_cons] at inside
      have row : g.edges[node]? = some (g.importedNodes node) := by
        rw [GraphEdges.importedNodes, List.getElem?_eq_getElem inside.1, Option.getD_some]
      rw [Library.walk]
      split_ifs with known
      · have later : next g ⟨node :: queue, visited.toFinset⟩ =
            some (some (node, ⟨queue, visited.toFinset⟩)) := by simp [next, known]
        refine .yielded later (ih inside.2 ?_)
        simp only [Library.ahead, List.length_cons] at enough ⊢
        omega
      · have expanded : next g ⟨node :: queue, visited.toFinset⟩ =
            some (some (node, ⟨queue ++ g.importedNodes node, (node :: visited).toFinset⟩)) := by
          simp [next, known, row]
        refine .yielded expanded (ih ?_ ?_)
        · intro later mem
          exact (List.mem_append.mp mem).elim (inside.2 later) (range node later)
        · have := Library.ahead_expand (r := g.importedNodes) (q := queue)
            (Finset.mem_range.mpr inside.1) known
          omega

end NodesIter

namespace GraphEdges

variable {g : GraphEdges δ} {files : List PathBuf}

/-- Whatever the edges of the graph are: the iterator ends, and yields the start and then what the
start imports, directly or not. So `imports` lists what a file imports, directly or not, and the
file itself if it is on a cycle of imports. -/
structure Traverses (g : GraphEdges δ) (files : List PathBuf) : Prop where
  ends : ∀ start < files.length, ∃ rest,
    (∀ nodes, (NodesIter.new start).Yields g nodes ↔ nodes = start :: rest) ∧
      ∀ node, node ∈ rest ↔ TransGen (fun m n => n ∈ g.importedNodes m) start node
  imports : ∀ p q, q ∈ g.imports p ↔ TransGen g.ImportsDirectly p q
  cycles : ∀ p, p ∈ g.imports p ↔
    ∃ q, g.ImportsDirectly p q ∧ ReflTransGen g.ImportsDirectly q p

/-- The iterator from a node of the graph yields what `nodesIter` lists. -/
theorem Aligned.yields_nodesIter (a : g.Aligned files) {start : Nat} (node : start < files.length) :
    (NodesIter.new start).Yields g (g.nodesIter start) := by
  have rows := a.rows
  have range : ∀ i, ∀ j ∈ g.importedNodes i, j < g.edges.length := by
    rw [rows]
    exact a.range
  have inside : ∀ i ∈ [start], i < g.edges.length := by simpa [rows] using node
  have enough : Library.ahead g.importedNodes (Finset.range g.edges.length) [start] [] ≤
      1 + (g.edges.map List.length).sum := by
    simp [Library.ahead, Library.unmarked, sum_importedNodes]
  exact NodesIter.yields_walk range inside enough

theorem nodesIter_traverses (a : g.Aligned files) : g.Traverses files := by
  refine ⟨fun start node => ?_, fun p q => a.mem_imports, fun p => ?_⟩
  · obtain ⟨rest, eq, reached⟩ := g.nodesIter_eq start
    have yields := a.yields_nodesIter node
    rw [eq] at yields
    exact ⟨rest, fun nodes => ⟨fun other => other.unique yields, fun same => same ▸ yields⟩,
      reached⟩
  · rw [a.mem_imports]
    exact TransGen.head'_iff

/-! ### A file that imports itself, and another file twice -/

def echoFiles : FileSystem :=
  .ofTexts [(["p", "src"], "a.sol", "/p/src/a.sol\n/p/src/b.sol\n/p/src/b.sol"),
    (["p", "src"], "b.sol", "/p/src/a.sol")]

def echoSources : Sources :=
  ExtTreeMap.empty.insert (.abs ["p", "src", "a.sol"])
    { content := "/p/src/a.sol\n/p/src/b.sol\n/p/src/b.sol" }

theorem aligned_echo :
    ∃ g, Graph.resolveSources .importLines echoFiles (.dapptools (.abs ["p"]) []) echoSources =
        some g ∧
      g.edges.edges = [[0, 1, 1], [0]] ∧ g.edges.Aligned (g.nodes.map Node.path) := by
  have rows : (Graph.resolveSources .importLines echoFiles (.dapptools (.abs ["p"]) [])
      echoSources).map (·.edges.edges) = some [[0, 1, 1], [0]] := by decide +kernel
  obtain ⟨g, eq, rows⟩ := Option.map_eq_some_iff.mp rows
  refine ⟨g, eq, rows, (Graph.resolveSources_resolved (fun p mem => ?_) eq).aligned⟩
  obtain ⟨file, listed, rfl⟩ := Sources.mem_makeAbsolute mem
  simp only [echoSources, ExtTreeMap.empty_eq_emptyc, ExtTreeMap.mem_insert,
    LawfulEqCmp.compare_eq_iff_eq, ExtTreeMap.not_mem_empty, or_false] at listed
  subst listed
  decide +kernel

theorem nodesIter_traverses_echo :
    ∃ g, Graph.resolveSources .importLines echoFiles (.dapptools (.abs ["p"]) []) echoSources =
        some g ∧
      g.edges.edges = [[0, 1, 1], [0]] ∧ g.edges.Traverses (g.nodes.map Node.path) := by
  obtain ⟨g, eq, rows, aligned⟩ := aligned_echo
  exact ⟨g, eq, rows, nodesIter_traverses aligned⟩

end GraphEdges

end FoundryCore
