import FoundryCore.Cache.Basic
import FoundryCore.Library.Firsts
import FoundryCore.Library.Unordered
import FoundryCore.Paths.Rebase
import FoundryCore.Remappings.Text
import FoundryCore.Resolver.WellFormed

/-!
# Standard JSON input

The input that a contract is verified with: its file and everything that is imported from there,
under paths relative to the root of the project. The files are told apart by their paths in the
graph of imports, where a file may have more than one; what is relative to the root is written in
one way only.
-/

open Std Relation

namespace FoundryCore

/-! ## The input -/

/-- A compiler input that keeps the order of its sources. -/
structure StandardJsonCompilerInput where
  language : SolcLanguage := .solidity
  sources : List (PathBuf × Source)
  settings : Settings

/-- The text of a path, without the root if it lies below. -/
def textBelow (root : PathBuf) (path : String) : String :=
  match (PathBuf.ofString path).stripPrefix root with
  | some below => below.toString
  | none => path

/-- `into_relative` and `to_relative_remapping`: strips the root from the remapping. -/
def Remapping.relativeTo (root : PathBuf) (r : Remapping) : Remapping where
  context := r.context.map (textBelow root)
  name := withTrailingSlash r.name
  path := withTrailingSlash (textBelow root r.path)

namespace Project

variable {S γ α δ : Type}

/-- The standard JSON input to compile the target contract. `sources` are the input files. -/
def standardJsonInput (project : Project S γ α) (fs : FileSystem) (parser : SourceParser δ)
    (toSolcSettings : S → SolcSettings) (sources : Sources) (target : PathBuf) :
    Option StandardJsonCompilerInput := do
  let graph ← Graph.resolveSources parser fs project.paths sources
  let targetIndex ← graph.edges.indices[target]?
  let node ← graph.nodes[targetIndex]?
  let imported ← ((graph.edges.nodesIter targetIndex).drop 1).mapM (graph.nodes[·]?)
  let nodes := node :: Library.firsts Node.path [node.path] imported
  let settings := (toSolcSettings project.settings).settings
  return {
    sources := nodes.map fun node => (rebasePath project.root node.path, node.source)
    settings := { settings with
      remappings := project.paths.remappings.map (·.relativeTo project.root) } }

end Project

/-! ## What the input is for -/

section Faithful

variable {δ : Type}

/-- The sources are those of the files: the target and what is imported from there, once each, under
distinct paths that lead to the files from the root of the project. -/
structure StandardJsonCompilerInput.Lists (input : StandardJsonCompilerInput) (fs : FileSystem)
    (g : Graph δ) (root target : PathBuf) (files : List PathBuf) : Prop where
  first : files.head? = some target
  reachable : ∀ file, file ∈ files ↔ ReflTransGen g.edges.ImportsDirectly target file
  resolves : List.Forall₂ (fun entry file =>
    cleanSolidityPath (root.join entry.1) = cleanSolidityPath file ∧
      Source.read fs file = some entry.2) input.sources files
  once : (files.map cleanSolidityPath).Nodup
  distinct : (input.sources.map Prod.fst).Nodup

/-- No file is reached under two different paths. -/
def OneSpelling (g : Graph δ) (target : PathBuf) : Prop :=
  ∀ p q, ReflTransGen g.edges.ImportsDirectly target p →
    ReflTransGen g.edges.ImportsDirectly target q →
      cleanSolidityPath p = cleanSolidityPath q → p = q

end Faithful

/-! ## What is listed -/

section Listed

variable {S γ α δ : Type} {project : Project S γ α} {fs : FileSystem} {parser : SourceParser δ}
  {sources : Sources} {g : Graph δ} {target : PathBuf}

/-- The sources are read from absolute paths. -/
structure Sources.ReadFrom (sources : Sources) (fs : FileSystem) : Prop where
  rooted : ∀ file ∈ sources, file.Rooted
  read : ∀ (file : PathBuf) (source : Source), sources[file]? = some source →
    Source.read fs file = some source

theorem Sources.getElem?_makeAbsolute {root p : PathBuf} {source : Source}
    (eq : (sources.makeAbsolute root)[p]? = some source) :
    ∃ file, sources[file]? = some source ∧ p = root.join file := by
  refine List.foldlRecOn sources.toList _ (motive := fun absolute : Sources =>
    absolute[p]? = some source → ∃ file, sources[file]? = some source ∧ p = root.join file)
    (by simp) (fun absolute known entry mem eq => ?_) eq
  rw [ExtTreeMap.getElem?_insert] at eq
  split_ifs at eq with here
  · cases eq
    exact ⟨entry.1, ExtTreeMap.mem_toList_iff_getElem?_eq_some.mp mem,
      (LawfulEqCmp.eq_of_compare here).symm⟩
  · exact known eq

theorem Sources.ReadFrom.makeAbsolute (readFrom : sources.ReadFrom fs) (root : PathBuf) :
    (sources.makeAbsolute root).ReadFrom fs := by
  have same : ∀ file ∈ sources, root.join file = file := fun file mem =>
    PathBuf.join_of_isAbsolute (readFrom.rooted file mem).isAbsolute
  constructor
  · intro p mem
    obtain ⟨file, listed, rfl⟩ := Sources.mem_makeAbsolute mem
    rw [same file listed]
    exact readFrom.rooted file listed
  · intro p source eq
    obtain ⟨file, listed, rfl⟩ := Sources.getElem?_makeAbsolute eq
    rw [same file (ExtTreeMap.mem_iff_isSome_getElem?.mpr (Option.isSome_of_eq_some listed))]
    exact readFrom.read file source listed

theorem mem_files_of_read {file : PathBuf} {source : Source}
    (read : Source.read fs file = some source) : file ∈ fs.files := by
  rw [← Source.read_isSome, read]
  rfl

theorem resolved_of_readFrom (readFrom : sources.ReadFrom fs)
    (eq : Graph.resolveSources parser fs project.paths sources = some g) :
    g.Resolved parser fs project.paths (sources.makeAbsolute project.paths.root) := by
  refine Graph.resolveSources_resolved (fun p mem => ?_) eq
  obtain ⟨source, found⟩ := Option.isSome_iff_exists.mp
    (ExtTreeMap.mem_iff_isSome_getElem?.mp mem)
  exact fs.parent_isSome (mem_files_of_read ((readFrom.makeAbsolute _).read p source found))

/-- A node has what its file has. -/
theorem read_of_mem_nodes (readFrom : sources.ReadFrom fs)
    (eq : Graph.resolveSources parser fs project.paths sources = some g) {node : Node δ}
    (mem : node ∈ g.nodes) : Source.read fs node.path = some node.source := by
  have source := (resolved_of_readFrom readFrom eq).source node mem
  cases input : (sources.makeAbsolute project.paths.root)[node.path]? with
  | none => simpa [input] using source
  | some source' =>
    rw [input] at source
    cases source
    exact (readFrom.makeAbsolute _).read _ _ input

/-- The input lists the target and the files that it imports, by their paths in the graph. -/
theorem standardJsonInput_eq (toSolcSettings : S → SolcSettings) (readFrom : sources.ReadFrom fs)
    (eq : Graph.resolveSources parser fs project.paths sources = some g)
    (mem : target ∈ g.edges.indices) : ∃ input, ∃ nodes : List (Node δ),
      project.standardJsonInput fs parser toSolcSettings sources target = some input ∧
      input.sources = nodes.map (fun node => (rebasePath project.root node.path, node.source)) ∧
      (∀ node ∈ nodes, node ∈ g.nodes) ∧ (nodes.map Node.path).head? = some target ∧
      (nodes.map Node.path).Nodup ∧
      ∀ file, file ∈ nodes.map Node.path ↔ ReflTransGen g.edges.ImportsDirectly target file := by
  have aligned := (resolved_of_readFrom readFrom eq).aligned
  obtain ⟨index, getEq⟩ := Option.isSome_iff_exists.mp (ExtTreeMap.mem_iff_isSome_getElem?.mp mem)
  have path := (aligned.indices target index).mp getEq
  rw [List.getElem?_map] at path
  obtain ⟨node, nodeAt, rfl⟩ := Option.map_eq_some_iff.mp path
  obtain ⟨rest, iter, reaches⟩ := g.edges.nodesIter_eq index
  have inside : ∀ i ∈ rest, i < g.nodes.length := by
    intro i reached
    obtain ⟨j, -, edge⟩ := TransGen.tail'_iff.mp ((reaches i).mp reached)
    simpa using aligned.range j i edge
  have found : rest.mapM (g.nodes[·]?) = some (rest.filterMap (g.nodes[·]?)) := by
    rw [Library.mapM_eq_ite, if_pos]
    intro i reached
    simpa using inside i reached
  have imported : ∀ q, q ∈ (rest.filterMap (g.nodes[·]?)).map Node.path ↔
      TransGen g.edges.ImportsDirectly node.path q := by
    intro q
    rw [← aligned.transGen_iff getEq]
    simp only [← reaches, aligned.indices, List.getElem?_map, Option.map_eq_some_iff,
      List.mem_map, List.mem_filterMap]
    grind
  have runs : ∃ settings, project.standardJsonInput fs parser toSolcSettings sources node.path =
      some { sources := (node :: Library.firsts Node.path [node.path]
        (rest.filterMap (g.nodes[·]?))).map fun node =>
          (rebasePath project.root node.path, node.source), settings } :=
    ⟨_, by simp [Project.standardJsonInput, eq, getEq, nodeAt, iter, found]; rfl⟩
  obtain ⟨settings, runs⟩ := runs
  refine ⟨_, node :: Library.firsts Node.path [node.path] (rest.filterMap (g.nodes[·]?)), runs, rfl,
    ?_, rfl, ?_, fun file => ?_⟩
  · refine List.forall_mem_cons.mpr ⟨List.mem_of_getElem? nodeAt, fun node' mem' => ?_⟩
    obtain ⟨i, -, getEq'⟩ := List.mem_filterMap.mp (Library.mem_of_mem_firsts mem')
    exact List.mem_of_getElem? getEq'
  · rw [List.map_cons, List.nodup_cons, Library.mem_keys_firsts]
    exact ⟨by simp, Library.nodup_keys_firsts⟩
  · rw [List.map_cons, List.mem_cons, Library.mem_keys_firsts, imported,
      reflTransGen_iff_eq_or_transGen]
    grind

/-- The input can be taken for the files of the graph if no file has two paths there. -/
theorem lists_iff (toSolcSettings : S → SolcSettings) {names : List String}
    (canonical : project.paths.Canonical) (root : project.root = .abs names)
    (parses : parser.ParsesPaths) (readFrom : sources.ReadFrom fs)
    (directory : ∀ file ∈ fs.files, ¬file.components <+: project.root.components)
    (eq : Graph.resolveSources parser fs project.paths sources = some g)
    (mem : target ∈ g.edges.indices) : ∃ input,
      project.standardJsonInput fs parser toSolcSettings sources target = some input ∧
      ((∃ files, input.Lists fs g project.root target files) ↔ OneSpelling g target) := by
  obtain ⟨input, nodes, runs, listed, known, first, distinct, reachable⟩ :=
    standardJsonInput_eq toSolcSettings readFrom eq mem
  have resolves : ∀ node ∈ nodes,
      cleanSolidityPath (project.root.join (rebasePath project.root node.path)) =
        cleanSolidityPath node.path := by
    intro node inside
    have rooted := Graph.rooted_nodes canonical parses
      (fun file mem => (readFrom.rooted file mem).wellFormed) eq node (known node inside)
    rw [root]
    refine cleanSolidityPath_join_rebasePath names rooted fun above => ?_
    exact absurd (root ▸ above)
      (directory _ (mem_files_of_read (read_of_mem_nodes readFrom eq (known node inside))))
  refine ⟨input, runs, fun ⟨files, lists⟩ p q reached reached' same => ?_, fun one => ?_⟩
  · exact List.inj_on_of_nodup_map lists.once ((lists.reachable p).mpr reached)
      ((lists.reachable q).mpr reached') same
  · have injective : ∀ p ∈ nodes.map Node.path, ∀ q ∈ nodes.map Node.path,
        cleanSolidityPath p = cleanSolidityPath q → p = q := fun p mem q mem' =>
      one p q ((reachable p).mp mem) ((reachable q).mp mem')
    refine ⟨nodes.map Node.path, first, reachable, ?_, distinct.map_on injective, ?_⟩
    · rw [listed, List.forall₂_map_left_iff, List.forall₂_map_right_iff, List.forall₂_same]
      exact fun node inside =>
        ⟨resolves node inside, read_of_mem_nodes readFrom eq (known node inside)⟩
    · rw [listed, List.map_map]
      refine (List.Nodup.of_map _ distinct).map_on fun node inside node' inside' same => ?_
      have places : cleanSolidityPath node.path = cleanSolidityPath node'.path := by
        rw [← resolves node inside, ← resolves node' inside']
        exact congrArg (fun path => cleanSolidityPath (project.root.join path)) same
      exact List.inj_on_of_nodup_map distinct inside inside'
        (injective _ (List.mem_map_of_mem inside) _ (List.mem_map_of_mem inside') places)

end Listed

/-! ## A file that is reached in two ways -/

/-- A parser of files with an import on each line. -/
def SourceParser.lines : SourceParser (List String) where
  parse content _ := some (((content.toList.splitOn '\n').filter (· ≠ [])).map String.ofList)
  reads _ := true
  parseOrder files := files
  versionReq _ := none
  resolveImports _ _ imports := some (imports.map .ofString, [])
  finalizeImports nodes _ := some nodes
  compilationDependencies _ _ := []
  parseOrder_perm _ := .refl _
  finalizeImports_files _ _ _ eq := by
    cases eq
    rfl

theorem parsesPaths_lines : SourceParser.lines.ParsesPaths := by
  intro fs paths data importPath mem
  obtain ⟨text, -, rfl⟩ := List.mem_map.mp mem
  exact PathBuf.wellFormed_ofString text

/-- The remapped directory is next to the project. -/
def verifProject : Project SolcSettings Unit Unit where
  paths := .dapptools (.abs ["verif"]) [{ name := "@remapped/", path := "../remapped/" }]
  settings := {}
  artifacts := ⟨fun _ _ _ _ => (), fun _ _ => none, fun _ => false⟩

def verifTexts : List (PathBuf × String) := [
  (.ofString "/verif/src/Counter.sol", "@remapped/Parent.sol\n@remapped/Child.sol"),
  (.ofString "/verif/../remapped/Parent.sol", "./Child.sol"),
  (.ofString "/verif/../remapped/Child.sol", ""),
  (.ofString "/remapped/Child.sol", "")]

theorem mem_verifTexts {file : PathBuf}
    (mem : file ∈ (ExtTreeMap.ofList verifTexts : ExtTreeMap PathBuf String)) :
    file ∈ verifTexts.map Prod.fst := by
  simpa using mem

def verifFiles : FileSystem where
  files := .ofList verifTexts
  directories := []
  others := []
  named file mem := by
    have named : ∀ file ∈ verifTexts.map Prod.fst, file.fileName.isSome := by decide +kernel
    exact named file (mem_verifTexts mem)

def verifSources : Sources := ExtTreeMap.ofList [(PathBuf.ofString "/verif/src/Counter.sol",
  Source.mk "@remapped/Parent.sol\n@remapped/Child.sol" .complete)]

theorem readFrom_verifSources : verifSources.ReadFrom verifFiles where
  rooted file mem := by
    have listed : .ofString "/verif/src/Counter.sol" = file := by simpa [verifSources] using mem
    rw [← listed]
    exact ⟨by decide +kernel, PathBuf.wellFormed_ofString _⟩
  read file source eq := by
    have mem := ExtTreeMap.mem_iff_isSome_getElem?.mpr (Option.isSome_of_eq_some eq)
    have listed : .ofString "/verif/src/Counter.sol" = file := by simpa [verifSources] using mem
    have same : verifSources[PathBuf.ofString "/verif/src/Counter.sol"]? =
        Source.read verifFiles (.ofString "/verif/src/Counter.sol") := by decide +kernel
    rw [← eq, ← listed, same]

/-- The remapped file is listed under one path twice. -/
theorem verif_sources : ∃ g input, Graph.resolveSources .lines verifFiles verifProject.paths
      verifSources = some g ∧ .ofString "/verif/src/Counter.sol" ∈ g.edges.indices ∧
    verifProject.standardJsonInput verifFiles .lines id verifSources
      (.ofString "/verif/src/Counter.sol") = some input ∧
    input.sources.map Prod.fst = [.ofString "src/Counter.sol", .ofString "../remapped/Parent.sol",
      .ofString "../remapped/Child.sol", .ofString "../remapped/Child.sol"] := by
  have resolved : (Graph.resolveSources .lines verifFiles verifProject.paths verifSources).any
      fun g => .ofString "/verif/src/Counter.sol" ∈ g.edges.indices := by decide +kernel
  have listed : (verifProject.standardJsonInput verifFiles .lines id verifSources
      (.ofString "/verif/src/Counter.sol")).any fun input =>
        input.sources.map Prod.fst = [.ofString "src/Counter.sol",
          .ofString "../remapped/Parent.sol", .ofString "../remapped/Child.sol",
          .ofString "../remapped/Child.sol"] := by decide +kernel
  obtain ⟨g, graph, mem⟩ := (Option.any_eq_true _ _).mp resolved
  obtain ⟨input, runs, paths⟩ := (Option.any_eq_true _ _).mp listed
  exact ⟨g, input, graph, of_decide_eq_true mem, runs, of_decide_eq_true paths⟩

theorem canonical_verifProject : verifProject.paths.Canonical := by
  refine ⟨PathBuf.rooted_abs ["verif"], PathBuf.rooted_abs ["verif", "out"],
    PathBuf.rooted_abs ["verif", "src"], PathBuf.rooted_abs ["verif", "test"],
    PathBuf.rooted_abs ["verif", "script"], fun lib mem => ?_⟩
  rw [List.mem_singleton.mp mem]
  exact PathBuf.rooted_abs ["verif", "lib"]

theorem lists_iff_verif : ∃ g, ∃ input : StandardJsonCompilerInput,
    verifProject.standardJsonInput verifFiles .lines id verifSources
      (.ofString "/verif/src/Counter.sol") = some input ∧
    ((∃ files, input.Lists verifFiles g verifProject.root (.ofString "/verif/src/Counter.sol")
      files) ↔ OneSpelling (δ := List String) g (.ofString "/verif/src/Counter.sol")) := by
  obtain ⟨g, -, resolved, mem, -⟩ := verif_sources
  have directory : ∀ file ∈ verifTexts.map Prod.fst,
      ¬file.components <+: verifProject.root.components := by decide +kernel
  exact ⟨g, lists_iff id canonical_verifProject rfl parsesPaths_lines readFrom_verifSources
    (fun file mem => directory file (mem_verifTexts mem)) resolved mem⟩

theorem not_lists_verif : ∃ g, ∃ input : StandardJsonCompilerInput,
    Graph.resolveSources .lines verifFiles verifProject.paths verifSources = some g ∧
    verifProject.standardJsonInput verifFiles .lines id verifSources
      (.ofString "/verif/src/Counter.sol") = some input ∧
    ¬∃ files, input.Lists verifFiles g verifProject.root (.ofString "/verif/src/Counter.sol")
      files := by
  obtain ⟨g, input, resolved, -, runs, paths⟩ := verif_sources
  refine ⟨g, input, resolved, runs, fun ⟨files, lists⟩ => ?_⟩
  have distinct := lists.distinct
  rw [paths] at distinct
  exact absurd distinct (by decide +kernel)

end FoundryCore
