import FoundryCore.Ast.References
import FoundryCore.Flatten.Updates
import FoundryCore.Library.Find
import FoundryCore.Sources

/-!
# The flattener

The files that a target needs, with their syntax trees, and the updates that are collected for
them. Beside the parts that are walked, the nodes have what is read of them: the identifiers,
names and places of definitions.
-/

open Std

namespace FoundryCore.Flatten

open Ast

/-! ## Typed syntax trees -/

/-- What file-level definitions have in common. -/
structure Named where
  id : Id
  src : SourceLocation
  name : String
  nameLocation : Option SourceLocation
deriving DecidableEq

inductive Documentation
  | structured (src : SourceLocation)
  | raw (text : String)

inductive Member
  | enumDefinition (id : Id) (name : String)
  | errorDefinition (id : Id) (name : String) (documentation : Option Documentation)
    (definition : ErrorDefinition)
  | eventDefinition (id : Id) (name : String) (documentation : Option Documentation)
    (definition : EventDefinition)
  | functionDefinition (id : Id) (name : String) (documentation : Option Documentation)
    (definition : FunctionDefinition)
  | modifierDefinition (definition : ModifierDefinition)
  | structDefinition (id : Id) (name : String) (definition : StructDefinition)
  | userDefinedValueTypeDefinition (id : Id) (name : String)
    (definition : UserDefinedValueTypeDefinition)
  | usingForDirective (directive : UsingForDirective)
  | variableDeclaration (id : Id) (name : String) (documentation : Option Documentation)
    (declaration : VariableDeclaration)

/-- The part of a contract that is walked. -/
def Member.part : Member → ContractDefinitionPart
  | enumDefinition _ _ => .enumDefinition
  | errorDefinition _ _ _ definition => .errorDefinition definition
  | eventDefinition _ _ _ definition => .eventDefinition definition
  | functionDefinition _ _ _ definition => .functionDefinition definition
  | modifierDefinition definition => .modifierDefinition definition
  | structDefinition _ _ definition => .structDefinition definition
  | userDefinedValueTypeDefinition _ _ definition => .userDefinedValueTypeDefinition definition
  | usingForDirective directive => .usingForDirective directive
  | variableDeclaration _ _ _ declaration => .variableDeclaration declaration

inductive FileNode
  | pragmaDirective (src : SourceLocation)
  | importDirective (id : Id) (src : SourceLocation) (directive : ImportDirective)
  | usingForDirective (directive : UsingForDirective)
  | variableDeclaration (named : Named) (declaration : VariableDeclaration)
  | enumDefinition (named : Named)
  | errorDefinition (named : Named) (definition : ErrorDefinition)
  | eventDefinition (named : Named) (definition : EventDefinition)
  | functionDefinition (named : Named) (definition : FunctionDefinition)
  | structDefinition (named : Named) (definition : StructDefinition)
  | userDefinedValueTypeDefinition (named : Named) (definition : UserDefinedValueTypeDefinition)
  | contractDefinition (named : Named) (baseContracts : List InheritanceSpecifier)
    (nodes : List Member)

/-- The part of a file that is walked. -/
def FileNode.part : FileNode → SourceUnitPart
  | pragmaDirective _ => .pragmaDirective
  | importDirective _ _ directive => .importDirective directive
  | usingForDirective directive => .usingForDirective directive
  | variableDeclaration _ declaration => .variableDeclaration declaration
  | enumDefinition _ => .enumDefinition
  | errorDefinition _ definition => .errorDefinition definition
  | eventDefinition _ definition => .eventDefinition definition
  | functionDefinition _ definition => .functionDefinition definition
  | structDefinition _ definition => .structDefinition definition
  | userDefinedValueTypeDefinition _ definition => .userDefinedValueTypeDefinition definition
  | contractDefinition _ baseContracts nodes =>
    .contractDefinition ⟨baseContracts, nodes.map Member.part⟩

/-- The root node of a typed syntax tree. -/
structure TypedAst where
  exportedSymbols : ExtTreeMap String (List Id)
  nodes : List FileNode

def TypedAst.sourceUnit (ast : TypedAst) : SourceUnit := ⟨ast.nodes.map FileNode.part⟩

/-! ## The flattener -/

/-- Context for flattening. -/
structure Flattener where
  /-- Target file to flatten. -/
  target : PathBuf
  /-- The target and its dependencies. -/
  sources : Sources
  asts : List (PathBuf × TypedAst)
  /-- Sources in the order they are written. -/
  orderedSources : List PathBuf
  projectRoot : PathBuf

/-- The updates of all files, as a set of places with their new texts. -/
abbrev Updates := List (ItemLocation × String)

/-- The order in which a hash map or a hash set gives its elements. It may be another one at each
place of the program and for each collection. -/
structure IterationOrder where
  arrange : ∀ {α : Type}, Nat → List α → List α
  perm : ∀ {α : Type} (place : Nat) (l : List α), (arrange place l).Perm l

/-- The order in which the elements are listed. -/
def IterationOrder.asListed : IterationOrder := ⟨fun _ l => l, fun _ _ => .refl _⟩

/-- The bytes of a text in a range, if it is in bounds and on character boundaries. -/
def textIn (text : String) (start stop : Nat) : Option String :=
  (Library.part Char.utf8Size start stop text.toList).map String.ofList

namespace Flattener

variable (flattener : Flattener)

/-- Reads value from the given location of a source file. -/
def readLocation (loc : ItemLocation) : Option String := do
  let source ← flattener.sources[loc.path]?
  textIn source.content loc.start.toNat loc.stop.toNat

/-- Collects all references to any declaration. -/
def collectReferences : List Reference :=
  (flattener.asts.flatMap fun (path, ast) => gathered path ast.sourceUnit).dedup

end Flattener

end FoundryCore.Flatten
