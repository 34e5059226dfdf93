import FoundryCore.Library.Except
import FoundryCore.Resolver.Traversal

/-!
# Printing the dependency tree

`print` writes one line for each node it comes across, and below it the imports of the node. A node
that is on the write stack is in a cycle and is not entered again, and with de-duplication neither
is a node that was printed before. In both cases the node has been printed when it is passed over,
so the first line of a node always has the lines of its imports below it.
-/

open Std Relation

namespace FoundryCore

variable {δ : Type*} {ε : Type}

inductive Charset
  | utf8 | ascii
deriving DecidableEq, Repr

/-- Options to configure formatting. -/
structure TreeOptions where
  /-- The style of characters to use. -/
  charset : Charset := .utf8
  /-- If `true`, duplicate imports will be repeated. If `false`, duplicates are suffixed with
  `(*)`, and their imports won't be shown. -/
  noDedupe : Bool := false

structure Symbols where
  down : String
  tee : String
  ell : String
  right : String

def UTF8_SYMBOLS : Symbols := { down := "│", tee := "├", ell := "└", right := "─" }

def ASCII_SYMBOLS : Symbols := { down := "|", tee := "|", ell := "`", right := "-" }

def Charset.symbols : Charset → Symbols
  | .utf8 => UTF8_SYMBOLS
  | .ascii => ASCII_SYMBOLS

/-- What stands before a node: whether a line continues at each level, and the branch to the
node. -/
def Symbols.indent (symbols : Symbols) (levelsContinue : List Bool) : List String :=
  match levelsContinue.getLast? with
  | none => []
  | some lastContinues =>
    levelsContinue.dropLast.map (fun continues =>
      (if continues then symbols.down else " ") ++ "   ") ++
    [(if lastContinues then symbols.tee else symbols.ell) ++ symbols.right ++ symbols.right ++ " "]

/-- The path of the node below the root, and its version requirement. -/
def Node.display (parser : SourceParser δ) (root : PathBuf) (node : Node δ) : String :=
  (node.path.stripPrefixOrSelf root).toString ++
    match parser.versionReq node.data with
    | some v => " " ++ v.toString
    | none => ""

namespace Graph

/-- The nodes that represent input files. -/
def inputNodes (g : Graph δ) : List (Node δ) := g.nodes.take g.edges.numInputFiles

/-- Whether the node has any outgoing edges; `none` for a node without a row, where the code
panics, as below. -/
def hasOutgoingEdges (g : Graph δ) (index : Nat) : Option Bool :=
  g.edges.edges[index]?.map (!·.isEmpty)

def displayNode (parser : SourceParser δ) (g : Graph δ) (index : Nat) : Option String :=
  g.nodes[index]?.map (Node.display parser g.root)

end Graph

namespace Tree

/-- A writer, by the error with which it refuses the next text after what it was given so far. -/
abbrev Writer (ε : Type) := String → String → Option ε

/-- Why printing stops early. The recursion of the code has no fuel to run out of. -/
inductive PrintError (ε : Type)
  | io (err : ε)
  | panicked
  | outOfFuel
deriving DecidableEq

/-- What the functions below change. -/
structure Printer where
  /-- Used to determine whether to display `(*)`. -/
  visitedImports : Finset Nat := ∅
  /-- Where a vertical line has to appear. -/
  levelsContinue : List Bool := []
  /-- A node for each level. -/
  writeStack : List Nat := []
  out : String

def orPanic {α : Type} : Option α → Except (PrintError ε) α
  | some x => .ok x
  | none => .error .panicked

namespace Printer

def write (refuses : Writer ε) (p : Printer) (text : String) : Except (PrintError ε) Printer :=
  match refuses p.out text with
  | some err => .error (.io err)
  | none => .ok { p with out := p.out ++ text }

/-- Whether the node is new, and the printer that has visited it. -/
def visit (noDedupe : Bool) (nodeIndex : Nat) (p : Printer) : Bool × Printer :=
  if noDedupe then (true, p)
  else (nodeIndex ∉ p.visitedImports,
    { p with visitedImports := insert nodeIndex p.visitedImports })

end Printer

/-- The elements of a list, each with whether another one comes after it. -/
def peeked : List Nat → List (Nat × Bool)
  | [] => []
  | x :: rest => (x, !rest.isEmpty) :: peeked rest

variable (parser : SourceParser δ) (g : Graph δ) (symbols : Symbols) (noDedupe : Bool)
  (refuses : Writer ε)

/-- Prints an import one level down. -/
def printImport (printNode : Nat → Printer → Except (PrintError ε) Printer) (p : Printer)
    (next : Nat × Bool) : Except (PrintError ε) Printer := do
  let done ← printNode next.1 { p with levelsContinue := p.levelsContinue ++ [next.2] }
  return { done with levelsContinue := done.levelsContinue.dropLast }

/-- Prints all the imports of a node. -/
def printImports (printNode : Nat → Printer → Except (PrintError ε) Printer) (nodeIndex : Nat)
    (p : Printer) : Except (PrintError ε) Printer :=
  (peeked (g.edges.importedNodes nodeIndex)).foldlM (printImport printNode) p

def printNode : Nat → Nat → Printer → Except (PrintError ε) Printer
  | 0, _, _ => .error .outOfFuel
  | fuel + 1, nodeIndex, p => do
    let (newNode, visited) := p.visit noDedupe nodeIndex
    let indented ← (symbols.indent p.levelsContinue).foldlM (Printer.write refuses) visited
    let inCycle := decide (nodeIndex ∈ p.writeStack)
    let hasDeps ← orPanic (g.hasOutgoingEdges nodeIndex)
    let star := if (newNode && !inCycle) || !hasDeps then "" else " (*)"
    let node ← orPanic (g.displayNode parser nodeIndex)
    let written ← indented.write refuses (node ++ star ++ "\n")
    if !newNode || inCycle then return written
    else
      let done ← printImports g (printNode fuel) nodeIndex
        { written with writeStack := written.writeStack ++ [nodeIndex] }
      return { done with writeStack := done.writeStack.dropLast }

/-- Prints the trees of the input files behind what the writer was given before. The recursion is
not deeper than there are nodes. -/
def print (opts : TreeOptions) (out : String) : Except (PrintError ε) String := do
  let done ← (List.range g.inputNodes.length).foldlM (fun p nodeIndex =>
    printNode parser g opts.charset.symbols opts.noDedupe refuses (g.nodes.length + 1) nodeIndex p)
    { out }
  return done.out

/-! ## Lines -/

/-- A line that the printer has written. -/
structure Line where
  levels : List Bool
  node : Nat
  star : Bool

def Line.text (line : Line) : String :=
  String.join (symbols.indent line.levels) ++ (g.displayNode parser line.node).getD "" ++
    (if line.star then " (*)" else "") ++ "\n"

/-- The nodes of the lines. -/
def nodes (lines : List Line) : Finset Nat := (lines.map Line.node).toFinset

@[simp] theorem nodes_nil : nodes [] = ∅ := rfl

@[simp] theorem nodes_cons (line : Line) (lines : List Line) :
    nodes (line :: lines) = insert line.node (nodes lines) := by
  simp [nodes]

@[simp] theorem nodes_append (lines lines' : List Line) :
    nodes (lines ++ lines') = nodes lines ∪ nodes lines' := by
  simp [nodes]

/-- From the first printer to the second one the lines were written, where `seen` is what was
printed before: both stacks are as they were, and the imports of each node that was not printed
before have been printed. -/
structure Prints (seen : Finset Nat) (p p' : Printer) (lines : List Line) : Prop where
  levels : p'.levelsContinue = p.levelsContinue
  stack : p'.writeStack = p.writeStack
  visited : p'.visitedImports ⊆ p.visitedImports ∪ nodes lines
  out : p'.out = p.out ++ String.join (lines.map (·.text parser g symbols))
  closed : ∀ i ∈ nodes lines, i ∉ seen → ∀ j ∈ g.edges.importedNodes i, j ∈ seen ∪ nodes lines

/-- Everything on the write stack and everything visited was printed before. -/
structure Within (p : Printer) (seen : Finset Nat) : Prop where
  stack : ∀ i ∈ p.writeStack, i ∈ seen
  visited : p.visitedImports ⊆ seen

variable {parser g symbols noDedupe refuses} {seen : Finset Nat} {p p' p'' : Printer}
  {lines lines' : List Line} {nodeIndex fuel : Nat}

namespace Prints

theorem refl : Prints parser g symbols seen p p [] := by
  constructor <;> simp

theorem within (prints : Prints parser g symbols seen p p' lines) (within : Within p seen) :
    Within p' (seen ∪ nodes lines) where
  stack := by
    rw [prints.stack]
    exact fun i mem => Finset.mem_union_left _ (within.stack i mem)
  visited := prints.visited.trans (Finset.union_subset_union_left within.visited)

theorem trans (first : Prints parser g symbols seen p p' lines)
    (second : Prints parser g symbols (seen ∪ nodes lines) p' p'' lines') :
    Prints parser g symbols seen p p'' (lines ++ lines') where
  levels := second.levels.trans first.levels
  stack := second.stack.trans first.stack
  visited := by
    refine second.visited.trans ?_
    rw [nodes_append, ← Finset.union_assoc]
    exact Finset.union_subset_union_left first.visited
  out := by rw [second.out, first.out, List.map_append, String.join_append, String.append_assoc]
  closed i mem fresh j edge := by
    rw [nodes_append, ← Finset.union_assoc]
    by_cases before : i ∈ nodes lines
    · exact Finset.mem_union_left _ (first.closed i before fresh j edge)
    · have late : i ∈ nodes lines' := by simpa [before] using mem
      exact second.closed i late (by simp [fresh, before]) j edge

/-- The imports that are printed one level down. -/
theorem pushed {continues : Bool}
    (prints : Prints parser g symbols seen
      { p with levelsContinue := p.levelsContinue ++ [continues] } p' lines) :
    Prints parser g symbols seen p { p' with levelsContinue := p'.levelsContinue.dropLast }
      lines where
  levels := by simp [prints.levels]
  stack := prints.stack
  visited := prints.visited
  out := prints.out
  closed := prints.closed

end Prints

/-- A loop whose steps print nodes prints all of them. -/
theorem foldlM_prints {ι : Type} (node : ι → Nat) {l : List ι}
    {step : Printer → ι → Except (PrintError ε) Printer}
    (each : ∀ x ∈ l, ∀ seen p p', Within p seen → step p x = .ok p' →
      ∃ lines, Prints parser g symbols seen p p' lines ∧ node x ∈ nodes lines)
    (within : Within p seen) (eq : l.foldlM step p = .ok p') :
    ∃ lines, Prints parser g symbols seen p p' lines ∧ ∀ x ∈ l, node x ∈ nodes lines := by
  induction l generalizing seen p with
  | nil =>
    cases eq
    exact ⟨[], .refl, by simp⟩
  | cons x l ih =>
    rw [List.forall_mem_cons] at each
    rw [List.foldlM_cons] at eq
    cases first : step p x with
    | error err => simp [first] at eq
    | ok p₁ =>
      rw [first, Library.ok_bind] at eq
      obtain ⟨lines, prints, mem⟩ := each.1 seen p p₁ within first
      obtain ⟨lines', prints', all⟩ := ih each.2 (prints.within within) eq
      refine ⟨lines ++ lines', prints.trans prints', ?_⟩
      rw [List.forall_mem_cons, nodes_append]
      exact ⟨Finset.mem_union_left _ mem, fun y later => Finset.mem_union_right _ (all y later)⟩

theorem map_fst_peeked (l : List Nat) : (peeked l).map Prod.fst = l := by
  induction l with
  | nil => rfl
  | cons x rest ih => rw [peeked, List.map_cons, ih]

section

variable {inner : Nat → Printer → Except (PrintError ε) Printer} {next : Nat × Bool}

theorem printImport_ok (eq : printImport inner p next = .ok p') :
    ∃ done, inner next.1 { p with levelsContinue := p.levelsContinue ++ [next.2] } =
      .ok done ∧ { done with levelsContinue := done.levelsContinue.dropLast } = p' := by
  unfold printImport at eq
  cases done : inner next.1 { p with levelsContinue := p.levelsContinue ++ [next.2] } with
  | error err => simp [done] at eq
  | ok q => exact ⟨q, rfl, by simpa [done, pure, Except.pure] using eq⟩

theorem printImport_error {err : PrintError ε} (eq : printImport inner p next = .error err) :
    inner next.1 { p with levelsContinue := p.levelsContinue ++ [next.2] } = .error err := by
  unfold printImport at eq
  cases done : inner next.1 { p with levelsContinue := p.levelsContinue ++ [next.2] } with
  | error err => simpa [done] using eq
  | ok q => simp [done, pure, Except.pure] at eq

theorem printImports_prints
    (each : ∀ i seen p p', Within p seen → inner i p = .ok p' →
      ∃ lines, Prints parser g symbols seen p p' lines ∧ i ∈ nodes lines)
    (within : Within p seen) (eq : printImports g inner nodeIndex p = .ok p') :
    ∃ lines, Prints parser g symbols seen p p' lines ∧
      ∀ i ∈ g.edges.importedNodes nodeIndex, i ∈ nodes lines := by
  have loop : ∃ lines, Prints parser g symbols seen p p' lines ∧
      ∀ x ∈ peeked (g.edges.importedNodes nodeIndex), x.1 ∈ nodes lines := by
    refine foldlM_prints Prod.fst (fun next _ seen p p' within eq => ?_) within eq
    obtain ⟨done, printed, rfl⟩ := printImport_ok eq
    have pushed : Within { p with levelsContinue := p.levelsContinue ++ [next.2] } seen :=
      ⟨within.stack, within.visited⟩
    obtain ⟨lines, prints, mem⟩ := each next.1 seen _ done pushed printed
    exact ⟨lines, prints.pushed, mem⟩
  obtain ⟨lines, prints, all⟩ := loop
  refine ⟨lines, prints, fun i mem => ?_⟩
  rw [← map_fst_peeked (g.edges.importedNodes nodeIndex)] at mem
  obtain ⟨x, listed, rfl⟩ := List.mem_map.mp mem
  exact all x listed

end

/-! ## What printing a node does -/

/-- The writer has refused a text. -/
def Refused (refuses : Writer ε) (err : PrintError ε) : Prop :=
  ∃ cause done text, err = .io cause ∧ refuses done text = some cause

theorem write_cases (refuses : Writer ε) (p : Printer) (text : String) :
    p.write refuses text = .ok { p with out := p.out ++ text } ∨
      ∃ err, p.write refuses text = .error err ∧ Refused refuses err := by
  unfold Printer.write
  split
  · next cause refused => exact .inr ⟨_, rfl, cause, p.out, text, rfl, refused⟩
  · exact .inl rfl

theorem writeAll_cases (refuses : Writer ε) (p : Printer) (texts : List String) :
    texts.foldlM (Printer.write refuses) p = .ok { p with out := p.out ++ String.join texts } ∨
      ∃ err, texts.foldlM (Printer.write refuses) p = .error err ∧ Refused refuses err := by
  induction texts generalizing p with
  | nil => exact .inl (by simp [pure, Except.pure])
  | cons text texts ih =>
    rw [List.foldlM_cons]
    obtain written | ⟨err, eq, refused⟩ := write_cases refuses p text
    · rw [written, Library.ok_bind]
      simpa [String.append_assoc] using ih { p with out := p.out ++ text }
    · exact .inr ⟨err, by rw [eq, Library.error_bind], refused⟩

/-- The node is not passed over: it is not in a cycle, and it is new or may be repeated. -/
def Enters (noDedupe : Bool) (nodeIndex : Nat) (p : Printer) : Prop :=
  nodeIndex ∉ p.writeStack ∧ (noDedupe = false → nodeIndex ∉ p.visitedImports)

/-- The printer with the line of the node written. -/
def Printer.line (parser : SourceParser δ) (g : Graph δ) (symbols : Symbols) (noDedupe : Bool)
    (p : Printer) (line : Line) : Printer where
  visitedImports := (p.visit noDedupe line.node).2.visitedImports
  levelsContinue := p.levelsContinue
  writeStack := p.writeStack
  out := p.out ++ line.text parser g symbols

theorem visit_spec (noDedupe : Bool) (nodeIndex : Nat) (p : Printer) :
    ∃ newNode V, p.visit noDedupe nodeIndex = (newNode, { p with visitedImports := V }) ∧
      (newNode = true ↔ (noDedupe = false → nodeIndex ∉ p.visitedImports)) ∧
      V ⊆ insert nodeIndex p.visitedImports := by
  cases noDedupe
  · exact ⟨_, _, rfl, by simp, subset_rfl⟩
  · exact ⟨_, _, rfl, by simp, Finset.subset_insert _ _⟩

/-- Unless the writer refuses, the line of a node of the graph is written, and its imports behind
it, one level down the write stack, if the node is entered. -/
theorem printNode_cases (node : nodeIndex < g.edges.edges.length)
    (node' : nodeIndex < g.nodes.length) (fuel : Nat) (p : Printer) :
    (∃ err, printNode parser g symbols noDedupe refuses (fuel + 1) nodeIndex p = .error err ∧
      Refused refuses err) ∨
    ∃ star, let written := p.line parser g symbols noDedupe ⟨p.levelsContinue, nodeIndex, star⟩
      (¬ Enters noDedupe nodeIndex p ∧
        printNode parser g symbols noDedupe refuses (fuel + 1) nodeIndex p = .ok written) ∨
      (Enters noDedupe nodeIndex p ∧
        printNode parser g symbols noDedupe refuses (fuel + 1) nodeIndex p =
          (printImports g (printNode parser g symbols noDedupe refuses fuel) nodeIndex
            { written with writeStack := p.writeStack ++ [nodeIndex] }).map fun done =>
              { done with writeStack := done.writeStack.dropLast }) := by
  have deps : g.hasOutgoingEdges nodeIndex = some !(g.edges.importedNodes nodeIndex).isEmpty := by
    simp [Graph.hasOutgoingEdges, GraphEdges.importedNodes, node]
  obtain ⟨display, shown⟩ : ∃ display, g.displayNode parser nodeIndex = some display :=
    Option.isSome_iff_exists.mp (by simp [Graph.displayNode, node'])
  obtain ⟨newNode, V, visit, new, -⟩ := visit_spec noDedupe nodeIndex p
  have enters : Enters noDedupe nodeIndex p ↔
      ¬ (!newNode || decide (nodeIndex ∈ p.writeStack)) = true := by
    simp [Enters, ← new, and_comm]
  set starless := newNode && !decide (nodeIndex ∈ p.writeStack) ||
    !!(g.edges.importedNodes nodeIndex).isEmpty with starless_eq
  have line : p.line parser g symbols noDedupe ⟨p.levelsContinue, nodeIndex, !starless⟩ =
      { p with
        visitedImports := V
        out := p.out ++ String.join (symbols.indent p.levelsContinue) ++
          (display ++ (if starless then "" else " (*)") ++ "\n") } := by
    cases starless <;> simp [Printer.line, Line.text, visit, shown, String.append_assoc]
  rw [printNode]
  simp only [visit, deps, shown, orPanic, Library.ok_bind, ← starless_eq]
  obtain indented | ⟨err, eq, refused⟩ :=
    writeAll_cases refuses { p with visitedImports := V } (symbols.indent p.levelsContinue)
  · rw [indented, Library.ok_bind]
    obtain written | ⟨err, eq, refused⟩ := write_cases refuses
      { p with visitedImports := V, out := p.out ++ String.join (symbols.indent p.levelsContinue) }
      (display ++ (if starless then "" else " (*)") ++ "\n")
    · right
      rw [written, Library.ok_bind]
      refine ⟨!starless, ?_⟩
      rw [line]
      by_cases enter : Enters noDedupe nodeIndex p
      · refine .inr ⟨enter, ?_⟩
        rw [if_neg (enters.mp enter)]
        cases printImports g (printNode parser g symbols noDedupe refuses fuel) nodeIndex _ <;> rfl
      · refine .inl ⟨enter, ?_⟩
        rw [if_pos (not_not.mp (mt enters.mpr enter))]
        rfl
    · exact .inl ⟨err, by rw [eq, Library.error_bind], refused⟩
  · exact .inl ⟨err, by rw [eq, Library.error_bind], refused⟩

theorem visitedImports_subset (noDedupe : Bool) (nodeIndex : Nat) (p : Printer) :
    (p.visit noDedupe nodeIndex).2.visitedImports ⊆ insert nodeIndex p.visitedImports := by
  obtain ⟨newNode, V, visit, -, subset⟩ := visit_spec noDedupe nodeIndex p
  rw [visit]
  exact subset

/-- A node that is passed over was printed before. -/
theorem Prints.passed {star : Bool} (within : Within p seen)
    (passed : ¬ Enters noDedupe nodeIndex p) :
    Prints parser g symbols seen p
      (p.line parser g symbols noDedupe ⟨p.levelsContinue, nodeIndex, star⟩)
      [⟨p.levelsContinue, nodeIndex, star⟩] where
  levels := rfl
  stack := rfl
  visited := by
    rw [nodes_cons, nodes_nil, Finset.union_insert, Finset.union_empty]
    exact visitedImports_subset noDedupe nodeIndex p
  out := by simp [Printer.line]
  closed i mem fresh := by
    obtain rfl : i = nodeIndex := by simpa using mem
    have stack : i ∉ p.writeStack := fun mem => fresh (within.stack i mem)
    have visited : i ∉ p.visitedImports := fun mem => fresh (within.visited mem)
    exact absurd ⟨stack, fun _ => visited⟩ passed

/-- A node that is entered is printed with its imports below it. -/
theorem Prints.entered {star : Bool}
    (below : Prints parser g symbols (insert nodeIndex seen)
      { p.line parser g symbols noDedupe ⟨p.levelsContinue, nodeIndex, star⟩ with
        writeStack := p.writeStack ++ [nodeIndex] } p' lines)
    (imports : ∀ i ∈ g.edges.importedNodes nodeIndex, i ∈ nodes lines) :
    Prints parser g symbols seen p { p' with writeStack := p'.writeStack.dropLast }
      (⟨p.levelsContinue, nodeIndex, star⟩ :: lines) where
  levels := below.levels
  stack := by simp [below.stack]
  visited := by
    refine below.visited.trans ?_
    rw [nodes_cons, Finset.union_insert, ← Finset.insert_union]
    exact Finset.union_subset_union_left (visitedImports_subset noDedupe nodeIndex p)
  out := by simp [below.out, Printer.line, String.append_assoc]
  closed i mem fresh j edge := by
    rw [nodes_cons] at mem ⊢
    by_cases same : i = nodeIndex
    · subst same
      exact Finset.mem_union_right _ (Finset.mem_insert_of_mem (imports j edge))
    · have late : i ∈ nodes lines := by simpa [same] using mem
      have := below.closed i late (by simp [same, fresh]) j edge
      simpa [or_left_comm, or_assoc] using this

/-- Only nodes of the graph are printed. -/
theorem lt_of_printNode
    (eq : printNode parser g symbols noDedupe refuses (fuel + 1) nodeIndex p = .ok p') :
    nodeIndex < g.edges.edges.length ∧ nodeIndex < g.nodes.length := by
  cases deps : g.hasOutgoingEdges nodeIndex with
  | none =>
    cases indented : (symbols.indent p.levelsContinue).foldlM (Printer.write refuses)
      (p.visit noDedupe nodeIndex).2 <;> simp [printNode, indented, deps, orPanic] at eq
  | some hasDeps =>
    refine ⟨by simpa [Graph.hasOutgoingEdges] using congrArg Option.isSome deps, ?_⟩
    cases display : g.displayNode parser nodeIndex with
    | none =>
      cases indented : (symbols.indent p.levelsContinue).foldlM (Printer.write refuses)
        (p.visit noDedupe nodeIndex).2 <;> simp [printNode, indented, deps, display, orPanic] at eq
    | some text => simpa [Graph.displayNode] using congrArg Option.isSome display

theorem printNode_prints (within : Within p seen)
    (eq : printNode parser g symbols noDedupe refuses fuel nodeIndex p = .ok p') :
    ∃ lines, Prints parser g symbols seen p p' lines ∧ nodeIndex ∈ nodes lines := by
  induction fuel generalizing nodeIndex seen p p' with
  | zero => cases eq
  | succ fuel ih =>
    obtain ⟨row, node⟩ := lt_of_printNode eq
    obtain ⟨err, failed, -⟩ | ⟨star, ⟨passed, done⟩ | ⟨-, done⟩⟩ :=
      printNode_cases row node fuel p
    · cases failed.symm.trans eq
    · obtain rfl := Except.ok.inj (done.symm.trans eq)
      exact ⟨_, .passed within passed, by simp⟩
    · rw [done] at eq
      cases below : printImports g (printNode parser g symbols noDedupe refuses fuel) nodeIndex
          { p.line parser g symbols noDedupe ⟨p.levelsContinue, nodeIndex, star⟩ with
            writeStack := p.writeStack ++ [nodeIndex] } with
      | error err => simp [below, Except.map] at eq
      | ok q =>
        obtain rfl : { q with writeStack := q.writeStack.dropLast } = p' := by
          simpa [below, Except.map] using eq
        have pushed : Within { p.line parser g symbols noDedupe
            ⟨p.levelsContinue, nodeIndex, star⟩ with
              writeStack := p.writeStack ++ [nodeIndex] } (insert nodeIndex seen) := by
          refine ⟨fun i mem => ?_, (visitedImports_subset noDedupe nodeIndex p).trans
            (Finset.insert_subset_insert _ within.visited)⟩
          obtain old | rfl : i ∈ p.writeStack ∨ i = nodeIndex := by simpa using mem
          · exact Finset.mem_insert_of_mem (within.stack i old)
          · exact Finset.mem_insert_self _ _
        obtain ⟨lines, prints, imports⟩ := printImports_prints
          (fun i seen p p' within eq => ih within eq) pushed below
        exact ⟨_, prints.entered imports, by simp⟩

theorem printNode_balanced
    (eq : printNode parser g symbols noDedupe refuses fuel nodeIndex p = .ok p') :
    p'.levelsContinue = p.levelsContinue ∧ p'.writeStack = p.writeStack := by
  have within : Within p (p.writeStack.toFinset ∪ p.visitedImports) :=
    ⟨fun i mem => Finset.mem_union_left _ (List.mem_toFinset.mpr mem), Finset.subset_union_right⟩
  obtain ⟨lines, prints, -⟩ := printNode_prints within eq
  exact ⟨prints.levels, prints.stack⟩

/-- The nodes off the write stack become fewer with each node that is entered, so printing a node
of the graph ends, and only the writer can stop it. -/
theorem printNode_error (rows : g.edges.edges.length = g.nodes.length)
    (range : ∀ i, ∀ j ∈ g.edges.importedNodes i, j < g.nodes.length)
    (node : nodeIndex < g.nodes.length)
    (enough : (Library.unmarked (Finset.range g.nodes.length) p.writeStack).card < fuel)
    {err : PrintError ε}
    (eq : printNode parser g symbols noDedupe refuses fuel nodeIndex p = .error err) :
    Refused refuses err := by
  induction fuel generalizing nodeIndex p err with
  | zero => exact absurd enough (Nat.not_lt_zero _)
  | succ fuel ih =>
    obtain ⟨err', failed, refused⟩ | ⟨star, ⟨-, done⟩ | ⟨⟨fresh, -⟩, done⟩⟩ :=
      printNode_cases (rows ▸ node) node fuel p
    · obtain rfl := Except.error.inj (failed.symm.trans eq)
      exact refused
    · cases done.symm.trans eq
    · rw [done] at eq
      cases below : printImports g (printNode parser g symbols noDedupe refuses fuel) nodeIndex
          { p.line parser g symbols noDedupe ⟨p.levelsContinue, nodeIndex, star⟩ with
            writeStack := p.writeStack ++ [nodeIndex] } with
      | ok q => simp [below, Except.map] at eq
      | error err' =>
        obtain rfl : err' = err := by simpa [below, Except.map] using eq
        obtain ⟨next, listed, q, stack, failed⟩ := Library.error_of_foldlM
          (P := fun q => q.writeStack = p.writeStack ++ [nodeIndex]) below rfl
          fun next _ q q' stack step => by
            obtain ⟨done, printed, rfl⟩ := printImport_ok step
            exact (printNode_balanced printed).2.trans stack
        have imported : next.1 ∈ g.edges.importedNodes nodeIndex := by
          rw [← map_fst_peeked (g.edges.importedNodes nodeIndex)]
          exact List.mem_map_of_mem listed
        have fewer := Library.unmarked_cons (Finset.mem_range.mpr node) fresh
        have same : (Library.unmarked (Finset.range g.nodes.length) q.writeStack).card ≤ _ :=
          Library.unmarked_subset (fun i mem => by
            rw [stack, List.mem_append, List.mem_singleton]
            exact (List.mem_cons.mp mem).symm)
        refine ih (range nodeIndex next.1 imported) ?_ (printImport_error failed)
        exact same.trans_lt (by omega)

/-! ## The whole tree -/

/-- What printing the tree guarantees, with these options and this writer: it ends, and stops early
only if the writer refuses a text; each node leaves both stacks as they were; and what has been
written is lines, one of them at least for each node that an input file reaches. -/
structure PrintsTree (parser : SourceParser δ) (g : Graph δ) (opts : TreeOptions)
    (refuses : Writer ε) : Prop where
  ends : ∀ out err, print parser g refuses opts out = .error err → Refused refuses err
  balanced : ∀ fuel nodeIndex p p',
    printNode parser g opts.charset.symbols opts.noDedupe refuses fuel nodeIndex p = .ok p' →
    p'.levelsContinue = p.levelsContinue ∧ p'.writeStack = p.writeStack
  covers : ∀ out out', print parser g refuses opts out = .ok out' →
    ∃ lines : List Line,
      out' = out ++ String.join (lines.map (·.text parser g opts.charset.symbols)) ∧
      ∀ start < g.inputNodes.length, ∀ node,
        ReflTransGen (fun m n => n ∈ g.edges.importedNodes m) start node →
        ∃ line ∈ lines, line.node = node

theorem print_ends {files : List PathBuf} (a : g.edges.Aligned files)
    (nodes : files.length = g.nodes.length) {opts : TreeOptions} {out : String}
    {err : PrintError ε} (eq : print parser g refuses opts out = .error err) :
    Refused refuses err := by
  have rows : g.edges.edges.length = g.nodes.length := a.rows.trans nodes
  have range : ∀ i, ∀ j ∈ g.edges.importedNodes i, j < g.nodes.length := nodes ▸ a.range
  unfold print at eq
  cases printed : (List.range g.inputNodes.length).foldlM (fun p nodeIndex => printNode parser g
      opts.charset.symbols opts.noDedupe refuses (g.nodes.length + 1) nodeIndex p) { out } with
  | ok done => simp [printed, pure, Except.pure] at eq
  | error err' =>
    obtain rfl : err' = err := by simpa [printed] using eq
    obtain ⟨nodeIndex, listed, p, stack, failed⟩ := Library.error_of_foldlM
      (P := fun p => p.writeStack = []) printed rfl
      fun nodeIndex _ p p' stack step => (printNode_balanced step).2.trans stack
    have node : nodeIndex < g.nodes.length := by
      have := List.mem_range.mp listed
      simp only [Graph.inputNodes, List.length_take] at this
      omega
    refine printNode_error rows range node ?_ failed
    simp [stack, Library.unmarked]

theorem print_covers {opts : TreeOptions} {out out' : String}
    (eq : print parser g refuses opts out = .ok out') :
    ∃ lines : List Line,
      out' = out ++ String.join (lines.map (·.text parser g opts.charset.symbols)) ∧
      ∀ start < g.inputNodes.length, ∀ node,
        ReflTransGen (fun m n => n ∈ g.edges.importedNodes m) start node →
        ∃ line ∈ lines, line.node = node := by
  unfold print at eq
  cases printed : (List.range g.inputNodes.length).foldlM (fun p nodeIndex => printNode parser g
      opts.charset.symbols opts.noDedupe refuses (g.nodes.length + 1) nodeIndex p) { out } with
  | error err => simp [printed] at eq
  | ok done =>
    obtain rfl : done.out = out' := by simpa [printed, pure, Except.pure] using eq
    have within : Within { out } ∅ := ⟨by simp, subset_rfl⟩
    obtain ⟨lines, prints, inputs⟩ := foldlM_prints id
      (fun _ _ _ _ _ within eq => printNode_prints within eq) within printed
    refine ⟨lines, prints.out, fun start input node path => ?_⟩
    have covered : node ∈ nodes lines := by
      induction path with
      | refl => exact inputs start (List.mem_range.mpr input)
      | tail _ edge ih => simpa using prints.closed _ ih (Finset.notMem_empty _) _ edge
    obtain ⟨line, listed, same⟩ := List.mem_map.mp (List.mem_toFinset.mp covered)
    exact ⟨line, listed, same⟩

theorem print_printsTree (parser : SourceParser δ)
    (a : g.edges.Aligned (g.nodes.map Node.path)) (opts : TreeOptions) (refuses : Writer ε) :
    PrintsTree parser g opts refuses where
  ends _ _ eq := print_ends a (List.length_map _) eq
  balanced _ _ _ _ eq := printNode_balanced eq
  covers _ _ eq := print_covers eq

/-- Two files that import each other, printed with repetitions. -/
theorem print_printsTree_echo :
    ∃ g, Graph.resolveSources .importLines GraphEdges.echoFiles (.dapptools (.abs ["p"]) [])
        GraphEdges.echoSources = some g ∧
      g.edges.edges = [[0, 1, 1], [0]] ∧
      PrintsTree .importLines g { noDedupe := true } fun _ _ => (none : Option String) := by
  obtain ⟨g, eq, rows, aligned⟩ := GraphEdges.aligned_echo
  exact ⟨g, eq, rows, print_printsTree _ aligned _ _⟩

end Tree

end FoundryCore
