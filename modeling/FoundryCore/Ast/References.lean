import FoundryCore.Ast.Visitor

/-!
# Collecting references

The visitor that collects the places where declarations are referred to, and what it misses: the
walk does not enter the override specifier of a variable declaration, and the visitor has no
method for type names, so those without a path node are not seen.
-/

open Relation

namespace FoundryCore.Ast

/-! ## The collector -/

/-- Alternative of `SourceLocation` which includes the path of the file. -/
structure ItemLocation where
  path : PathBuf
  start : BitVec 64
  stop : BitVec 64
deriving DecidableEq

/-- A reference: the declaration and the place. -/
abbrev Reference := Id × ItemLocation

def ItemLocation.tryFromSourceLoc (src : SourceLocation) (path : PathBuf) :
    Option ItemLocation := do
  let start ← src.start
  let length ← src.length
  some ⟨path, start, start + length⟩

/-- A call of a visitor's method, of those that the collector has. -/
inductive Call
  | visitIdentifier (identifier : Identifier)
  | visitIdentifierPath (path : IdentifierPath)
  | visitMemberAccess (src : SourceLocation) (memberName : String)
    (referencedDeclaration : Option Id)
  | visitExternalAssemblyReference (reference : ExternalInlineAssemblyReference)

/-- The methods that a walk calls for a node itself. -/
def Node.calls : Node → List Call
  | .identifier ident => [.visitIdentifier ident]
  | .identifierPath path => [.visitIdentifierPath path]
  | .expression (.memberAccess src _ memberName referencedDeclaration) =>
    [.visitMemberAccess src memberName referencedDeclaration]
  | .externalInlineAssemblyReference reference => [.visitExternalAssemblyReference reference]
  | _ => []

/-- The methods that a walk calls, in order. -/
def Node.walk : Node → List Call :=
  Library.preorder (sizeOfWFRel : WellFoundedRelation Node).wf Node.sizeOf_lt_of_mem_walked
    Node.calls

structure ReferencesCollector where
  path : PathBuf
  /-- The places of each declaration. -/
  references : List Reference

namespace ReferencesCollector

variable (collector : ReferencesCollector)

def processReferencedDeclaration (id : Id) (src : SourceLocation) : ReferencesCollector :=
  match ItemLocation.tryFromSourceLoc src collector.path with
  | some loc => { collector with references := collector.references.insert (id, loc) }
  | none => collector

def visit : Call → ReferencesCollector
  | .visitIdentifier identifier =>
    match identifier.referencedDeclaration with
    | some id => collector.processReferencedDeclaration id identifier.src
    | none => collector
  | .visitIdentifierPath path =>
    collector.processReferencedDeclaration path.referencedDeclaration path.src
  | .visitMemberAccess src memberName referencedDeclaration =>
    match referencedDeclaration, src.start, src.length with
    | some referencedDeclaration, some srcStart, some srcLength =>
      let nameLength := BitVec.ofNat 64 memberName.utf8ByteSize
      -- Accessed member name is in the last name.len() symbols of the expression.
      let start := srcStart + srcLength - nameLength
      let stop := start + nameLength
      { collector with
        references := collector.references.insert
          (referencedDeclaration, ⟨collector.path, start, stop⟩) }
    | _, _, _ => collector
  | .visitExternalAssemblyReference reference =>
    -- The suffix and its dot are part of the location, but not of the referenced name.
    let src := match reference.suffix with
      | some suffix => { reference.src with
          length := reference.src.length.map
            (· - BitVec.ofNat 64 (suffix.toString.utf8ByteSize + 1)) }
      | none => reference.src
    collector.processReferencedDeclaration reference.declaration src

end ReferencesCollector

/-- What the collector gathers from a source unit. -/
def gathered (path : PathBuf) (unit : SourceUnit) : List Reference :=
  ((Node.sourceUnit unit).walk.foldl ReferencesCollector.visit ⟨path, []⟩).references

/-! ## References of a tree -/

/-- The place of a name at the end of a node. -/
def ItemLocation.atEnd (src : SourceLocation) (path : PathBuf) (size : Nat) :
    Option ItemLocation :=
  (tryFromSourceLoc src path).map fun loc => { loc with start := loc.stop - BitVec.ofNat 64 size }

/-- The place of an external reference, without the suffix. -/
def ExternalInlineAssemblyReference.location (reference : ExternalInlineAssemblyReference)
    (path : PathBuf) : Option ItemLocation :=
  (ItemLocation.tryFromSourceLoc reference.src path).map fun loc =>
    match reference.suffix with
    | some suffix =>
      { loc with stop := loc.stop - BitVec.ofNat 64 (suffix.toString.utf8ByteSize + 1) }
    | none => loc

/-- The reference that a node makes. -/
def Node.reference (path : PathBuf) : Node → Option Reference
  | .identifier ident => ident.referencedDeclaration.bind fun id =>
    (ItemLocation.tryFromSourceLoc ident.src path).map (id, ·)
  | .identifierPath name =>
    (ItemLocation.tryFromSourceLoc name.src path).map (name.referencedDeclaration, ·)
  | .expression (.memberAccess src _ memberName referencedDeclaration) =>
    referencedDeclaration.bind fun id =>
      (ItemLocation.atEnd src path memberName.utf8ByteSize).map (id, ·)
  | .externalInlineAssemblyReference reference =>
    (reference.location path).map (reference.declaration, ·)
  | .userDefinedTypeName ⟨src, none, referencedDeclaration⟩ =>
    (ItemLocation.tryFromSourceLoc src path).map (referencedDeclaration, ·)
  | _ => none

/-- A type name without a path node. -/
inductive Node.IsLegacy : Node → Prop
  | mk {src : SourceLocation} {id : Id} : IsLegacy (.userDefinedTypeName ⟨src, none, id⟩)

/-- A node below another, outside the symbol aliases of imports. -/
def Node.Below : Node → Node → Prop := ReflTransGen fun a c => c ∈ a.children

/-- A child other than the override specifier of a variable declaration. -/
def Node.OpenChild (a c : Node) : Prop := c ∈ a.children ∧ ¬ IsVariableOverride a c

/-- The source unit makes the reference anywhere in its tree. -/
def Occurs (path : PathBuf) (unit : SourceUnit) (ref : Reference) : Prop :=
  ∃ n, (Node.sourceUnit unit).Below n ∧ n.reference path = some ref

/-- The source unit makes the reference in a legacy type name, or below the override specifier of
a variable declaration. -/
def OccursHidden (path : PathBuf) (unit : SourceUnit) (ref : Reference) : Prop :=
  ∃ n, (Node.sourceUnit unit).Below n ∧ n.reference path = some ref ∧
    (n.IsLegacy ∨
      ∃ a o, (Node.sourceUnit unit).Below a ∧ Node.IsVariableOverride a o ∧ Node.Below o n)

/-- The source unit makes the reference in another place. -/
def OccursOpenly (path : PathBuf) (unit : SourceUnit) (ref : Reference) : Prop :=
  ∃ n, ReflTransGen Node.OpenChild (.sourceUnit unit) n ∧ n.reference path = some ref ∧ ¬ n.IsLegacy

theorem occurs_iff {path : PathBuf} {unit : SourceUnit} {ref : Reference} :
    Occurs path unit ref ↔ OccursOpenly path unit ref ∨ OccursHidden path unit ref := by
  have split : ∀ {root n : Node}, root.Below n → ReflTransGen Node.OpenChild root n ∨
      ∃ a o, root.Below a ∧ Node.IsVariableOverride a o ∧ Node.Below o n := by
    intro root n below
    induction below with
    | refl => exact .inl .refl
    | @tail b c path child ih =>
      rcases ih with openly | ⟨a, o, above, override, under⟩
      · by_cases override : Node.IsVariableOverride b c
        · exact .inr ⟨b, c, path, override, .refl⟩
        · exact .inl (openly.tail ⟨child, override⟩)
      · exact .inr ⟨a, o, above, override, under.tail child⟩
  constructor
  · rintro ⟨n, below, refers⟩
    by_cases legacy : n.IsLegacy
    · exact .inr ⟨n, below, refers, .inl legacy⟩
    · rcases split below with openly | hidden
      · exact .inl ⟨n, openly, refers, legacy⟩
      · exact .inr ⟨n, below, refers, .inr hidden⟩
  · rintro (⟨n, openly, refers, -⟩ | ⟨n, below, refers, -⟩)
    · exact ⟨n, ReflTransGen.mono (fun _ _ edge => edge.1) _ _ openly, refers⟩
    · exact ⟨n, below, refers⟩

/-! ## What is gathered -/

/-- The reference that a call of the visitor adds. -/
def Call.reference (path : PathBuf) : Call → Option Reference
  | .visitIdentifier ident => (Node.identifier ident).reference path
  | .visitIdentifierPath name => (Node.identifierPath name).reference path
  | .visitMemberAccess src memberName referencedDeclaration =>
    (Node.expression (.memberAccess src .literal memberName referencedDeclaration)).reference path
  | .visitExternalAssemblyReference reference =>
    (Node.externalInlineAssemblyReference reference).reference path

namespace ReferencesCollector

variable (collector : ReferencesCollector)

theorem processReferencedDeclaration_eq (id : Id) (src : SourceLocation) :
    collector.processReferencedDeclaration id src =
      { collector with references :=
          match ItemLocation.tryFromSourceLoc src collector.path with
          | some loc => collector.references.insert (id, loc)
          | none => collector.references } := by
  rw [processReferencedDeclaration]
  cases ItemLocation.tryFromSourceLoc src collector.path <;> rfl

/-- A call adds its reference. -/
theorem visit_eq (call : Call) : collector.visit call =
    { collector with references :=
        match call.reference collector.path with
        | some ref => collector.references.insert ref
        | none => collector.references } := by
  cases call with
  | visitIdentifier ident =>
    obtain ⟨src, referenced⟩ := ident
    cases referenced with
    | none => rfl
    | some id =>
      simp only [visit, processReferencedDeclaration_eq, Call.reference, Node.reference]
      cases ItemLocation.tryFromSourceLoc src collector.path <;> rfl
  | visitIdentifierPath name =>
    simp only [visit, processReferencedDeclaration_eq, Call.reference, Node.reference]
    cases ItemLocation.tryFromSourceLoc name.src collector.path <;> rfl
  | visitMemberAccess src memberName referenced =>
    obtain ⟨start, length⟩ := src
    match referenced, start, length with
    | none, _, _ | some _, none, _ | some _, some _, none => rfl
    | some _, some _, some _ =>
      simp only [visit, Call.reference, Node.reference, ItemLocation.atEnd,
        ItemLocation.tryFromSourceLoc, BitVec.sub_add_cancel]
      rfl
  | visitExternalAssemblyReference reference =>
    obtain ⟨⟨start, length⟩, declaration, suffix⟩ := reference
    simp only [visit, processReferencedDeclaration_eq, Call.reference, Node.reference]
    match suffix, start, length with
    | none, none, _ | none, some _, none | none, some _, some _ => rfl
    | some _, none, _ | some _, some _, none => rfl
    | some _, some _, some _ =>
      simp [ExternalInlineAssemblyReference.location, ItemLocation.tryFromSourceLoc,
        BitVec.sub_eq_add_neg, BitVec.add_assoc]

theorem mem_references_foldl (calls : List Call) {ref : Reference} :
    ref ∈ (calls.foldl visit collector).references ↔
      ref ∈ collector.references ∨ ∃ call ∈ calls, call.reference collector.path = some ref := by
  induction calls generalizing collector with
  | nil => simp
  | cons call calls ih =>
    rw [List.foldl_cons, ih, visit_eq]
    cases adds : call.reference collector.path with
    | none => simp [adds]
    | some added => simp [adds, or_assoc, or_left_comm, eq_comm]

end ReferencesCollector

/-- The calls for a node add its reference, unless it is a legacy type name. -/
theorem Node.exists_mem_calls {path : PathBuf} {n : Node} {ref : Reference} :
    (∃ call ∈ n.calls, call.reference path = some ref) ↔
      n.reference path = some ref ∧ ¬ n.IsLegacy := by
  cases n with
  | userDefinedTypeName name =>
    obtain ⟨src, pathNode, id⟩ := name
    cases pathNode with
    | none => simpa [calls] using fun _ => IsLegacy.mk
    | some => simp [calls, reference]
  | expression e =>
    have modern : ¬ (expression e).IsLegacy := nofun
    cases e <;> simp [modern, calls, Call.reference, reference]
  | identifier ident =>
    have modern : ¬ (identifier ident).IsLegacy := nofun
    simp [modern, calls, Call.reference]
  | identifierPath name =>
    have modern : ¬ (identifierPath name).IsLegacy := nofun
    simp [modern, calls, Call.reference]
  | externalInlineAssemblyReference name =>
    have modern : ¬ (externalInlineAssemblyReference name).IsLegacy := nofun
    simp [modern, calls, Call.reference]
  | _ => simp [calls, reference]

/-- The collector gathers the references that occur openly. -/
theorem mem_gathered {path : PathBuf} {unit : SourceUnit} {ref : Reference} :
    ref ∈ gathered path unit ↔ OccursOpenly path unit ref := by
  rw [gathered, ReferencesCollector.mem_references_foldl]
  simp only [List.not_mem_nil, false_or, Node.walk, Library.mem_preorder, Node.mem_walked]
  constructor
  · rintro ⟨call, ⟨n, openly, called⟩, adds⟩
    exact ⟨n, openly, Node.exists_mem_calls.mp ⟨call, called, adds⟩⟩
  · rintro ⟨n, openly, refers⟩
    obtain ⟨call, called, adds⟩ := Node.exists_mem_calls.mpr refers
    exact ⟨call, ⟨n, openly, called⟩, adds⟩

/-- The collector gathers every reference exactly if those that it does not see occur elsewhere
too. -/
theorem gathered_complete_iff (path : PathBuf) (unit : SourceUnit) :
    (∀ ref, ref ∈ gathered path unit ↔ Occurs path unit ref) ↔
      ∀ ref, OccursHidden path unit ref → OccursOpenly path unit ref := by
  simp only [mem_gathered, occurs_iff]
  constructor
  · intro complete ref hidden
    exact (complete ref).mpr (.inr hidden)
  · intro elsewhere ref
    exact ⟨.inl, fun occurs => occurs.elim id (elsewhere ref)⟩

/-- A contract with a public variable that overrides a function of a base contract. -/
def overridingVariable : SourceUnit :=
  ⟨[.contractDefinition ⟨[], [.variableDeclaration (.mk
    (some ⟨[.identifierPath ⟨⟨some 50, some 1⟩, 3⟩]⟩) (some .elementaryTypeName) none)]⟩]⟩

/-- The name of the base contract in the override specifier is missed. -/
theorem override_not_gathered :
    ¬ ∀ ref, ref ∈ gathered (.abs ["A.sol"]) overridingVariable ↔
      Occurs (.abs ["A.sol"]) overridingVariable ref := by
  intro complete
  have occurs : Occurs (.abs ["A.sol"]) overridingVariable (3, ⟨.abs ["A.sol"], 50, 51⟩) := by
    refine ⟨.identifierPath ⟨⟨some 50, some 1⟩, 3⟩, ?_, rfl⟩
    iterate 7 refine .head (List.mem_cons_self ..) ?_
    exact .refl
  have none : gathered (.abs ["A.sol"]) overridingVariable = [] := by
    simp [gathered, overridingVariable, Node.walk, Library.preorder_eq, Node.calls, Node.walked,
      Node.walkSourceUnitPart, Node.walkContractDefinitionPart, Node.walkTypeName]
  have found := (complete _).mpr occurs
  rw [none] at found
  cases found

end FoundryCore.Ast
