import FoundryCore.Cache.Inner
import FoundryCore.Library.Except
import FoundryCore.Library.SortBy

/-!
# The order of the flattened files

The files that a target needs are written in ascending order of the number of files each of them
needs itself, with the target last. A file that is needed by another one, but not the other way
around, needs fewer files, so it is written first.
-/

open Std Relation

namespace FoundryCore.Flatten

inductive SolcError
  | msg (text : String)
  /-- An import that resolves to no file. -/
  | resolve (directory importPath : PathBuf)
  /-- A panic: no node has the index. -/
  | noNode (index : Nat)
  | outOfFuel
deriving DecidableEq, Repr

variable {δ : Type} (fs : FileSystem) (paths : ProjectPathsConfig)
  (solData : δ → Option (List PathBuf)) (graph : Graph δ)

/-- `Option::ok_or`. -/
def okOr {α : Type} (error : SolcError) : Option α → Except SolcError α
  | some x => .ok x
  | none => .error error

/-- `ProjectPathsConfig::resolve_import`. -/
def resolveImport (cwd importPath : PathBuf) : Except SolcError PathBuf :=
  okOr (.resolve cwd importPath)
    ((paths.resolveImportAndIncludePaths fs cwd importPath).map Prod.fst)

/-- Performs DFS to collect all dependencies of a target. `solData` gives the imports of a
Solidity file. -/
def collectDeps : Nat → PathBuf → List PathBuf → Except SolcError (List PathBuf)
  | 0, _, _ => .error .outOfFuel
  | fuel + 1, path, deps =>
    if path ∈ deps then .ok deps
    else do
      let deps := path :: deps
      let targetDir ← okOr (.msg
        ("failed to get parent directory for \"" ++ path.toString ++ "\"")) path.parent
      let nodeId ← okOr (.msg ("cannot resolve file at " ++ path.toString))
        graph.edges.indices[path]?
      let node ← okOr (.noNode nodeId) graph.nodes[nodeId]?
      ((solData node.data).getD []).foldlM (fun deps importPath => do
        let path ← resolveImport fs paths targetDir importPath
        collectDeps fuel path deps) deps

/-- How files with their numbers of dependencies are compared: by the numbers, by the file names
if both have one, by the paths. -/
def compareDeps (a b : Nat × PathBuf) : Ordering :=
  (compare a.1 b.1).then
    ((match a.2.fileName, b.2.fileName with
      | some name, some name' => compare name name'
      | _, _ => .eq).then (compare a.2 b.2))

/-- The files that the target needs, in the order in which they are written. -/
def collectOrderedDeps (order : HashOrder) (fuel : Nat) (path : PathBuf) :
    Except SolcError (List PathBuf) := do
  let deps ← collectDeps fs paths solData graph fuel path []
  -- the path is added to the end later
  let deps := order.arrange [] (deps.erase path)
  let pathsWithDepsCount ← deps.mapM fun path => do
    let pathDeps ← collectDeps fs paths solData graph fuel path []
    return (pathDeps.length, path)
  return (Library.sortBy compareDeps pathsWithDepsCount).map Prod.snd ++ [path]

/-! ## Imports -/

/-- The files that a file imports. -/
def importedFiles (path : PathBuf) : List PathBuf :=
  match path.parent, graph.edges.indices[path]?.bind (graph.nodes[·]?) with
  | some dir, some node => ((solData node.data).getD []).filterMap fun importPath =>
    (paths.resolveImportAndIncludePaths fs dir importPath).map Prod.fst
  | _, _ => []

/-- The file imports another one directly. -/
def Imports (file imported : PathBuf) : Prop :=
  imported ∈ importedFiles fs paths solData graph file

/-- Every file of the graph has a name and a node, and its imports are files of the graph. -/
structure Resolvable : Prop where
  named : ∀ file ∈ graph.edges.indices, file.fileName.isSome
  node : ∀ (file : PathBuf) (id : Nat), graph.edges.indices[file]? = some id →
    ∃ node, graph.nodes[id]? = some node ∧
      ∀ dir, file.parent = some dir → ∀ importPath ∈ (solData node.data).getD [],
        ∃ resolved includePath,
          paths.resolveImportAndIncludePaths fs dir importPath = some (resolved, includePath) ∧
            resolved ∈ graph.edges.indices

/-! ## What is collected -/

section Collect

variable {fs paths solData graph} {path : PathBuf} {deps : List PathBuf} {fuel : Nat}

/-- The files of the graph. -/
def Graph.fileSet (graph : Graph δ) : Finset PathBuf := graph.edges.indices.keys.toFinset

theorem mem_fileSet : path ∈ Graph.fileSet graph ↔ path ∈ graph.edges.indices := by
  simp [Graph.fileSet]

theorem card_fileSet_le (graph : Graph δ) :
    (Graph.fileSet graph).card ≤ graph.edges.indices.size := by
  rw [← ExtTreeMap.length_keys]
  exact List.toFinset_card_le _

/-- The files of the graph have what is needed to follow their imports. -/
theorem Resolvable.follow (resolvable : Resolvable fs paths solData graph)
    (mem : path ∈ graph.edges.indices) :
    ∃ dir id node, path.parent = some dir ∧ graph.edges.indices[path]? = some id ∧
      graph.nodes[id]? = some node ∧
      (∀ importPath ∈ (solData node.data).getD [], ∃ resolved ∈ graph.edges.indices,
        (paths.resolveImportAndIncludePaths fs dir importPath).map Prod.fst = some resolved) ∧
      importedFiles fs paths solData graph path = ((solData node.data).getD []).filterMap
        fun importPath =>
          (paths.resolveImportAndIncludePaths fs dir importPath).map Prod.fst := by
  obtain ⟨id, getEq⟩ := Option.isSome_iff_exists.mp (ExtTreeMap.mem_iff_isSome_getElem?.mp mem)
  obtain ⟨node, at_node, imports⟩ := resolvable.node path id getEq
  obtain ⟨dir, parent⟩ : ∃ dir, path.parent = some dir := by
    have named := resolvable.named path mem
    unfold PathBuf.fileName at named
    unfold PathBuf.parent
    split at named <;> simp_all
  refine ⟨dir, id, node, parent, getEq, at_node, fun importPath mem => ?_, ?_⟩
  · obtain ⟨resolved, _, eq, inside⟩ := imports dir parent importPath mem
    exact ⟨resolved, inside, by rw [eq]; rfl⟩
  · simp [importedFiles, parent, getEq, at_node]

theorem Resolvable.imports (resolvable : Resolvable fs paths solData graph) {file : PathBuf}
    (imports : Imports fs paths solData graph path file) : file ∈ Graph.fileSet graph := by
  rw [mem_fileSet]
  by_cases mem : path ∈ graph.edges.indices
  · obtain ⟨dir, id, node, -, -, -, follow, eq⟩ := resolvable.follow mem
    rw [Imports, eq] at imports
    obtain ⟨importPath, mem, eq⟩ := List.mem_filterMap.mp imports
    obtain ⟨resolved, inside, eq'⟩ := follow importPath mem
    rw [eq] at eq'
    cases eq'
    exact inside
  · rw [Imports, importedFiles, ExtTreeMap.getElem?_eq_none mem] at imports
    cases path.parent <;> simp at imports

/-- The search marks the files it finds. -/
theorem collectDeps_eq (resolvable : Resolvable fs paths solData graph)
    (mem : path ∈ graph.edges.indices)
    (enough : (Library.unmarked (Graph.fileSet graph) deps).card ≤ fuel) :
    collectDeps fs paths solData graph (fuel + 1) path deps =
      .ok (if path ∈ deps then deps
        else Library.mark (fun _ => importedFiles fs paths solData graph) fuel path
          (path :: deps)) := by
  induction fuel generalizing path deps with
  | zero =>
    have known : path ∈ deps := by
      by_contra fresh
      have left : path ∈ Library.unmarked (Graph.fileSet graph) deps := by
        simp [Library.unmarked, mem_fileSet, mem, fresh]
      exact absurd enough (Nat.not_le_of_lt (Finset.card_pos.mpr ⟨path, left⟩))
    rw [collectDeps, if_pos known, if_pos known]
  | succ fuel ih =>
    by_cases known : path ∈ deps
    · rw [collectDeps, if_pos known, if_pos known]
    · obtain ⟨dir, id, node, parent, getEq, at_node, follow, eq⟩ := resolvable.follow mem
      have fewer := Library.unmarked_cons (mem_fileSet.mpr mem) known
      rw [collectDeps, if_neg known, if_neg known, Library.mark, eq]
      simp only [parent, getEq, at_node, okOr, Library.ok_bind]
      -- the marks after some of the imports, the rest being still ahead
      have loop : ∀ (rest : List PathBuf) (acc : List PathBuf),
          (∀ importPath ∈ rest, ∃ resolved ∈ graph.edges.indices,
            (paths.resolveImportAndIncludePaths fs dir importPath).map Prod.fst =
              some resolved) →
          (∀ file ∈ path :: deps, file ∈ acc) →
          rest.foldlM (fun deps importPath => do
            let path ← resolveImport fs paths dir importPath
            collectDeps fs paths solData graph (fuel + 1) path deps) acc =
          .ok ((rest.filterMap fun importPath =>
            (paths.resolveImportAndIncludePaths fs dir importPath).map Prod.fst).foldl
              (fun seen file => if file ∈ seen then seen else
                Library.mark (fun _ => importedFiles fs paths solData graph) fuel file
                  (file :: seen)) acc) := by
        intro rest
        induction rest with
        | nil => exact fun _ _ _ => rfl
        | cons importPath rest ih' =>
          intro acc follow kept
          rw [List.forall_mem_cons] at follow
          obtain ⟨⟨resolved, inside, eq⟩, follow⟩ := follow
          have left : (Library.unmarked (Graph.fileSet graph) acc).card ≤ fuel := by
            have := Library.unmarked_subset (U := Graph.fileSet graph) kept
            omega
          have next := ih inside left
          rw [List.foldlM_cons, resolveImport, eq, okOr, Library.ok_bind, next, Library.ok_bind,
            List.filterMap_cons, eq, List.foldl_cons]
          refine ih' _ follow fun file mem => ?_
          split_ifs
          · exact kept file mem
          · exact Library.subset_mark (List.mem_cons_of_mem _ (kept file mem))
      exact loop _ _ follow fun _ mem => mem

theorem mem_mark (resolvable : Resolvable fs paths solData graph) {file : PathBuf}
    (enough : graph.edges.indices.size < fuel) :
    file ∈ Library.mark (fun _ => importedFiles fs paths solData graph) fuel path [path] ↔
      ReflTransGen (Imports fs paths solData graph) path file :=
  Library.mem_mark_singleton (R := Imports fs paths solData graph) (U := Graph.fileSet graph)
    (fun _ _ _ => Iff.rfl) (fun _ _ => resolvable.imports)
    (Nat.lt_of_le_of_lt (card_fileSet_le graph) enough) path file

/-- A file and the files it imports, directly or not, are collected once each. -/
theorem collectDeps_spec (resolvable : Resolvable fs paths solData graph)
    (mem : path ∈ graph.edges.indices) (enough : graph.edges.indices.size + 1 < fuel) :
    ∃ deps, collectDeps fs paths solData graph fuel path [] = .ok deps ∧ deps.Nodup ∧
      ∀ file, file ∈ deps ↔ ReflTransGen (Imports fs paths solData graph) path file := by
  have small := card_fileSet_le graph
  obtain ⟨fuel, rfl⟩ : ∃ n, fuel = n + 1 := ⟨fuel - 1, by omega⟩
  refine ⟨_, collectDeps_eq resolvable mem ?_, ?_, fun file => ?_⟩
  · have := Finset.card_filter_le (Graph.fileSet graph) (· ∉ ([] : List PathBuf))
    rw [Library.unmarked]
    omega
  · rw [if_neg (List.not_mem_nil)]
    exact Library.nodup_mark (by simp)
  · rw [if_neg (List.not_mem_nil)]
    exact mem_mark resolvable (by omega)

end Collect

/-! ## The order -/

/-- The comparison of files that have names, as a lawful one. -/
def compareNamed : Nat × PathBuf → Nat × PathBuf → Ordering :=
  compareLex (compareOn Prod.fst) (compareLex (compareOn fun dep => dep.2.fileName)
    (compareOn Prod.snd))

instance : TransCmp compareNamed :=
  inferInstanceAs (TransCmp (compareLex _ (compareLex _ _)))

instance : LawfulEqCmp compareNamed where
  eq_of_compare {a b} eq := by
    simp only [compareNamed, compareLex, compareOn, Ordering.then_eq_eq] at eq
    exact Prod.ext (LawfulEqOrd.eq_of_compare eq.1) (LawfulEqOrd.eq_of_compare eq.2.2)

theorem compareDeps_eq {a b : Nat × PathBuf} (named : a.2.fileName.isSome)
    (named' : b.2.fileName.isSome) : compareDeps a b = compareNamed a b := by
  obtain ⟨name, eq⟩ := Option.isSome_iff_exists.mp named
  obtain ⟨name', eq'⟩ := Option.isSome_iff_exists.mp named'
  simp only [compareDeps, compareNamed, compareLex, compareOn, eq, eq']
  rfl

section Order

variable {fs paths solData graph} {target : PathBuf} {fuel : Nat}

/-- How many files a file needs, itself included. -/
def depsCount (fs : FileSystem) (paths : ProjectPathsConfig)
    (solData : δ → Option (List PathBuf)) (graph : Graph δ) (path : PathBuf) : Nat :=
  (Library.mark (fun _ => importedFiles fs paths solData graph) (graph.edges.indices.size + 1)
    path [path]).length

/-- A search finds the number of files, however it goes. -/
theorem length_collectDeps (resolvable : Resolvable fs paths solData graph) {path : PathBuf}
    (mem : path ∈ graph.edges.indices) (enough : graph.edges.indices.size + 1 < fuel)
    {deps : List PathBuf} (eq : collectDeps fs paths solData graph fuel path [] = .ok deps) :
    deps.length = depsCount fs paths solData graph path := by
  obtain ⟨deps, eq', distinct, spec⟩ := collectDeps_spec resolvable mem enough
  cases eq.symm.trans eq'
  refine ((List.perm_ext_iff_of_nodup distinct (Library.nodup_mark (by simp))).mpr
    fun file => ?_).length_eq
  rw [spec, mem_mark resolvable (by omega)]

/-- A file that needs another one needs more files, unless the other one needs it too. -/
theorem depsCount_lt (resolvable : Resolvable fs paths solData graph) {a b : PathBuf}
    (needs : TransGen (Imports fs paths solData graph) a b)
    (cycle : ¬ ReflTransGen (Imports fs paths solData graph) b a) :
    depsCount fs paths solData graph b < depsCount fs paths solData graph a := by
  have mem : ∀ path file, file ∈ Library.mark (fun _ => importedFiles fs paths solData graph)
      (graph.edges.indices.size + 1) path [path] ↔
        ReflTransGen (Imports fs paths solData graph) path file := fun path file =>
    mem_mark resolvable (Nat.lt_succ_self _)
  have distinct : ∀ path, (Library.mark (fun _ => importedFiles fs paths solData graph)
      (graph.edges.indices.size + 1) path [path]).Nodup := fun path =>
    Library.nodup_mark (by simp)
  rw [depsCount, depsCount, ← List.toFinset_card_of_nodup (distinct a),
    ← List.toFinset_card_of_nodup (distinct b)]
  refine Finset.card_lt_card ⟨fun file inside => ?_, fun sub => cycle ?_⟩
  · rw [List.mem_toFinset, mem] at inside ⊢
    exact needs.to_reflTransGen.trans inside
  · have self := sub (List.mem_toFinset.mpr ((mem a a).mpr .refl))
    rwa [List.mem_toFinset, mem] at self

/-- The files of a graph that the target needs, sorted by what they need. -/
theorem collectOrderedDeps_eq (resolvable : Resolvable fs paths solData graph) (order : HashOrder)
    (mem : target ∈ graph.edges.indices) (enough : graph.edges.indices.size + 1 < fuel) :
    ∃ deps : List PathBuf, deps.Nodup ∧
      (∀ file, file ∈ deps ↔ file ≠ target ∧
        ReflTransGen (Imports fs paths solData graph) target file) ∧
      collectOrderedDeps fs paths solData graph order fuel target =
        .ok ((Library.sortBy compareNamed (deps.map fun path =>
          (depsCount fs paths solData graph path, path))).map Prod.snd ++ [target]) := by
  obtain ⟨deps, eq, distinct, spec⟩ := collectDeps_spec resolvable mem enough
  have perm := order.perm [] (deps.erase target)
  have member : ∀ file, file ∈ order.arrange [] (deps.erase target) ↔ file ≠ target ∧
      ReflTransGen (Imports fs paths solData graph) target file := by
    intro file
    rw [perm.mem_iff, distinct.mem_erase_iff, spec]
  have inside : ∀ file ∈ order.arrange [] (deps.erase target), file ∈ graph.edges.indices := by
    intro file needed
    rcases ((member file).mp needed).2.cases_tail with rfl | ⟨_, -, edge⟩
    · exact mem
    · exact mem_fileSet.mp (resolvable.imports edge)
  refine ⟨order.arrange [] (deps.erase target), perm.nodup_iff.mpr (distinct.erase target),
    member, ?_⟩
  have counted : ∀ rest : List PathBuf, (∀ file ∈ rest, file ∈ graph.edges.indices) →
      rest.mapM (fun path => do
        let pathDeps ← collectDeps fs paths solData graph fuel path []
        return (pathDeps.length, path)) =
      Except.ok (rest.map fun path => (depsCount fs paths solData graph path, path)) := by
    intro rest inside
    induction rest with
    | nil => rfl
    | cons path rest ih =>
      rw [List.forall_mem_cons] at inside
      obtain ⟨pathDeps, eq, -, -⟩ := collectDeps_spec resolvable inside.1 enough
      rw [List.mapM_cons, eq, Library.ok_bind, ih inside.2,
        length_collectDeps resolvable inside.1 enough eq]
      rfl
  have same : Library.sortBy compareDeps ((order.arrange [] (deps.erase target)).map fun path =>
        (depsCount fs paths solData graph path, path)) =
      Library.sortBy compareNamed ((order.arrange [] (deps.erase target)).map fun path =>
        (depsCount fs paths solData graph path, path)) := by
    refine Library.sortBy_congr fun a listed b listed' => ?_
    obtain ⟨file, needed, rfl⟩ := List.mem_map.mp listed
    obtain ⟨file', needed', rfl⟩ := List.mem_map.mp listed'
    exact compareDeps_eq (resolvable.named _ (inside file needed))
      (resolvable.named _ (inside file' needed'))
  rw [← same, collectOrderedDeps, eq, Library.ok_bind]
  dsimp only
  rw [counted _ inside, Library.ok_bind]
  rfl

theorem sorted_perm (files : List PathBuf) (count : PathBuf → Nat) :
    ((Library.sortBy compareNamed (files.map fun path => (count path, path))).map
      Prod.snd).Perm files := by
  have perm : (Library.sortBy compareNamed (files.map fun path => (count path, path))).Perm
      (files.map fun path => (count path, path)) := Library.sortBy_perm
  simpa [Function.comp_def] using perm.map Prod.snd

/-- Of two files in the order, the one that needs fewer files comes first. -/
theorem idxOf_lt {files : List PathBuf} (count : PathBuf → Nat) {a b : PathBuf}
    (mem : a ∈ files) (mem' : b ∈ files) (fewer : count b < count a) :
    let sorted := (Library.sortBy compareNamed (files.map fun path => (count path, path))).map
      Prod.snd
    sorted.idxOf b < sorted.idxOf a := by
  intro sorted
  have perm : sorted.Perm files := sorted_perm files count
  have at_a : sorted.idxOf a < sorted.length := List.idxOf_lt_length_iff.mpr (perm.mem_iff.mpr mem)
  have at_b : sorted.idxOf b < sorted.length := List.idxOf_lt_length_iff.mpr (perm.mem_iff.mpr mem')
  have ordered : sorted.Pairwise fun file file' => count file ≤ count file' := by
    refine List.pairwise_map.mpr (Library.pairwise_sortBy.imp_of_mem fun {x y} mem mem' le => ?_)
    obtain ⟨file, -, rfl⟩ := List.mem_map.mp (Library.sortBy_perm.mem_iff.mp mem)
    obtain ⟨file', -, rfl⟩ := List.mem_map.mp (Library.sortBy_perm.mem_iff.mp mem')
    have first := (Ordering.isLE_then_iff_and.mp le).1
    exact Nat.isLE_compare.mp first
  by_contra behind
  rcases Nat.lt_or_eq_of_le (Nat.le_of_not_lt behind) with before | same
  · have le := List.pairwise_iff_getElem.mp ordered _ _ at_a at_b before
    rw [List.getElem_idxOf, List.getElem_idxOf] at le
    omega
  · have eq : a = b := by
      rw [← List.getElem_idxOf at_a, ← List.getElem_idxOf at_b]
      simp only [same]
    rw [eq] at fewer
    exact Nat.lt_irrefl _ fewer

/-- The files that the target needs are each returned once, with the target last, and those that
another file needs before it, unless they need it too. No order of the hash sets shows in this. -/
theorem collectOrderedDeps_spec (resolvable : Resolvable fs paths solData graph)
    (mem : target ∈ graph.edges.indices) :
    ∃ deps : List PathBuf,
      (∀ order fuel, graph.edges.indices.size + 1 < fuel →
        collectOrderedDeps fs paths solData graph order fuel target = .ok deps) ∧
      deps.Nodup ∧
      (∀ file, file ∈ deps ↔ ReflTransGen (Imports fs paths solData graph) target file) ∧
      deps.getLast? = some target ∧
      ∀ a ∈ deps, ∀ b, a ≠ target → b ≠ target →
        TransGen (Imports fs paths solData graph) a b →
        ¬ TransGen (Imports fs paths solData graph) b a → deps.idxOf b < deps.idxOf a := by
  obtain ⟨files, distinct, spec, eq⟩ := collectOrderedDeps_eq resolvable .asListed mem
    (Nat.lt_succ_self (graph.edges.indices.size + 1))
  set count := depsCount fs paths solData graph
  set sorted := (Library.sortBy compareNamed (files.map fun path => (count path, path))).map
    Prod.snd
  have perm : sorted.Perm files := sorted_perm files count
  refine ⟨sorted ++ [target], fun order fuel enough => ?_, ?_, fun file => ?_, by simp,
    fun a in_a b other other' needs cycle => ?_⟩
  · obtain ⟨files', distinct', spec', eq'⟩ := collectOrderedDeps_eq resolvable order mem enough
    have same : files'.Perm files := (List.perm_ext_iff_of_nodup distinct' distinct).mpr
      fun file => by rw [spec, spec']
    rw [eq', Library.sortBy_eq_of_perm (same.map _)]
  · rw [List.nodup_append]
    refine ⟨perm.nodup_iff.mpr distinct, by simp, ?_⟩
    rintro file listed _ last rfl
    exact ((spec file).mp (perm.mem_iff.mp listed)).1 (List.mem_singleton.mp last)
  · rw [List.mem_append, perm.mem_iff, spec, List.mem_singleton]
    by_cases last : file = target
    · simp [last, ReflTransGen.refl]
    · simp [last]
  · have in_a : a ∈ files := by
      rcases List.mem_append.mp in_a with listed | last
      · exact perm.mem_iff.mp listed
      · exact absurd (List.mem_singleton.mp last) other
    have in_b : b ∈ files := (spec b).mpr
      ⟨other', ((spec a).mp in_a).2.trans needs.to_reflTransGen⟩
    have less := idxOf_lt count in_a in_b (depsCount_lt resolvable needs fun back => by
      rcases reflTransGen_iff_eq_or_transGen.mp back with rfl | back
      · exact cycle needs
      · exact cycle back)
    rw [List.idxOf_append_of_mem (perm.mem_iff.mpr in_a),
      List.idxOf_append_of_mem (perm.mem_iff.mpr in_b)]
    exact less

end Order

/-! ## Files that import each other -/

def cycleFiles : FileSystem :=
  .ofTexts [(["p"], "A.sol", ""), (["p"], "B.sol", ""), (["p"], "C.sol", "")]

def cyclePaths : ProjectPathsConfig := .dapptools (.abs ["p"]) []

/-- `A.sol` and `B.sol` import each other, and `B.sol` imports `C.sol`. -/
def cycleGraph : Graph (List PathBuf) where
  nodes := [⟨.abs ["p", "A.sol"], { content := "" }, [.ofString "./B.sol"]⟩,
    ⟨.abs ["p", "B.sol"], { content := "" }, [.ofString "./A.sol", .ofString "./C.sol"]⟩,
    ⟨.abs ["p", "C.sol"], { content := "" }, []⟩]
  edges := {
    edges := [[1], [0, 2], []]
    revEdges := [[1], [0], [1]]
    indices := ExtTreeMap.ofList
      [(PathBuf.abs ["p", "A.sol"], 0), (.abs ["p", "B.sol"], 1), (.abs ["p", "C.sol"], 2)]
    revIndices := ExtTreeMap.ofList
      [(0, PathBuf.abs ["p", "A.sol"]), (1, .abs ["p", "B.sol"]), (2, .abs ["p", "C.sol"])]
    versions := ∅
    data := []
    numInputFiles := 1
    unresolvedImports := ∅
    resolvedSolcIncludePaths := ∅ }
  root := .abs ["p"]

theorem follow_cycleGraph {file : PathBuf} {imports : List PathBuf}
    (all : file.parent.all fun dir => imports.all fun importPath =>
      (cyclePaths.resolveImportAndIncludePaths cycleFiles dir importPath).any fun resolved =>
        resolved.1 ∈ cycleGraph.edges.indices) (dir : PathBuf) (parent : file.parent = some dir) :
    ∀ importPath ∈ imports, ∃ resolved includePath,
      cyclePaths.resolveImportAndIncludePaths cycleFiles dir importPath =
        some (resolved, includePath) ∧ resolved ∈ cycleGraph.edges.indices := by
  rw [parent, Option.all_some, List.all_eq_true] at all
  intro importPath mem
  have someEq := all importPath mem
  cases eq : cyclePaths.resolveImportAndIncludePaths cycleFiles dir importPath with
  | none => simp [eq] at someEq
  | some resolved => exact ⟨resolved.1, resolved.2, rfl, by simpa [eq] using someEq⟩

theorem resolvable_cycleGraph : Resolvable cycleFiles cyclePaths some cycleGraph where
  named file mem := by
    obtain ⟨id, getEq⟩ := Option.isSome_iff_exists.mp (ExtTreeMap.mem_iff_isSome_getElem?.mp mem)
    have listed := Library.mem_of_getElem?_ofList getEq
    simp only [List.mem_cons, Prod.mk.injEq, List.not_mem_nil, or_false] at listed
    rcases listed with ⟨rfl, -⟩ | ⟨rfl, -⟩ | ⟨rfl, -⟩ <;> rfl
  node file id getEq := by
    have listed := Library.mem_of_getElem?_ofList getEq
    simp only [List.mem_cons, Prod.mk.injEq, List.not_mem_nil, or_false] at listed
    rcases listed with ⟨rfl, rfl⟩ | ⟨rfl, rfl⟩ | ⟨rfl, rfl⟩ <;>
      exact ⟨_, rfl, follow_cycleGraph (by decide +kernel)⟩

theorem collectOrderedDeps_spec_cycleGraph :
    ∃ deps : List PathBuf,
      (∀ order fuel, cycleGraph.edges.indices.size + 1 < fuel →
        collectOrderedDeps cycleFiles cyclePaths some cycleGraph order fuel
          (.abs ["p", "A.sol"]) = .ok deps) ∧
      deps.Nodup ∧
      (∀ file, file ∈ deps ↔ ReflTransGen (Imports cycleFiles cyclePaths some cycleGraph)
        (.abs ["p", "A.sol"]) file) ∧
      deps.getLast? = some (.abs ["p", "A.sol"]) ∧
      ∀ a ∈ deps, ∀ b, a ≠ .abs ["p", "A.sol"] → b ≠ .abs ["p", "A.sol"] →
        TransGen (Imports cycleFiles cyclePaths some cycleGraph) a b →
        ¬ TransGen (Imports cycleFiles cyclePaths some cycleGraph) b a →
          deps.idxOf b < deps.idxOf a :=
  collectOrderedDeps_spec resolvable_cycleGraph (by decide +kernel)

example : collectOrderedDeps cycleFiles cyclePaths some cycleGraph .asListed 5
    (.abs ["p", "A.sol"]) =
      .ok [.abs ["p", "C.sol"], .abs ["p", "B.sol"], .abs ["p", "A.sol"]] := by decide +kernel

end FoundryCore.Flatten
