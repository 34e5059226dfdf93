import FoundryCore.Path

/-!
# Solidity syntax trees

The typed syntax tree, with the parts of its nodes that are nodes themselves and what tells where
a node refers to a declaration. Where a variant only wraps a struct of its own, the fields of the
struct stand in the variant.
-/

namespace FoundryCore.Ast

/-- The identifier of a declaration: an `isize`. -/
abbrev Id := BitVec 64

/-- The source location of a node; -1 is none. -/
structure SourceLocation where
  start : Option (BitVec 64)
  length : Option (BitVec 64)
deriving DecidableEq

/-! ## Names -/

structure Identifier where
  src : SourceLocation
  referencedDeclaration : Option Id

structure IdentifierPath where
  src : SourceLocation
  referencedDeclaration : Id

/-- A user defined type name; old compilers give it no path node. -/
structure UserDefinedTypeName where
  src : SourceLocation
  pathNode : Option IdentifierPath
  referencedDeclaration : Id

inductive UserDefinedTypeNameOrIdentifierPath
  | userDefinedTypeName (typeName : UserDefinedTypeName)
  | identifierPath (path : IdentifierPath)

inductive IdentifierOrIdentifierPath
  | identifier (identifier : Identifier)
  | identifierPath (path : IdentifierPath)

structure OverrideSpecifier where
  overrides : List UserDefinedTypeNameOrIdentifierPath

/-! ## Expressions and types -/

mutual

inductive Expression
  | assignment (lhs rhs : Expression)
  | binaryOperation (lhs rhs : Expression)
  | conditional (condition falseExpression trueExpression : Expression)
  | elementaryTypeNameExpression
  | functionCall (call : FunctionCall)
  | functionCallOptions (expression : Expression) (options : List Expression)
  | identifier (identifier : Identifier)
  | indexAccess (baseExpression : Expression) (indexExpression : Option Expression)
  | indexRangeAccess (baseExpression : Expression)
    (startExpression endExpression : Option Expression)
  | literal
  | memberAccess (src : SourceLocation) (expression : Expression) (memberName : String)
    (referencedDeclaration : Option Id)
  | newExpression (typeName : TypeName)
  | tupleExpression (components : List (Option Expression))
  | unaryOperation (subExpression : Expression)

inductive FunctionCall
  | mk (arguments : List Expression) (expression : Expression)

inductive TypeName
  | arrayTypeName (baseType : TypeName) (length : Option Expression)
  | elementaryTypeName
  | functionTypeName (parameterTypes returnParameterTypes : ParameterList)
  | mapping (keyType valueType : TypeName)
  | userDefinedTypeName (typeName : UserDefinedTypeName)

inductive ParameterList
  | mk (parameters : List VariableDeclaration)

inductive VariableDeclaration
  | mk (overrides : Option OverrideSpecifier) (typeName : Option TypeName)
    (value : Option Expression)

end

/-! ## Statements -/

structure ExpressionStatement where
  expression : Expression

structure VariableDeclarationStatement where
  declarations : List (Option VariableDeclaration)
  initialValue : Option Expression

inductive ExpressionOrVariableDeclarationStatement
  | expressionStatement (statement : ExpressionStatement)
  | variableDeclarationStatement (statement : VariableDeclarationStatement)

inductive AssemblyReferenceSuffix
  | slot | offset | length

def AssemblyReferenceSuffix.toString : AssemblyReferenceSuffix → String
  | slot => "slot"
  | offset => "offset"
  | length => "length"

/-- A reference to an external variable or slot in an inline assembly block. -/
structure ExternalInlineAssemblyReference where
  src : SourceLocation
  declaration : BitVec 64
  suffix : Option AssemblyReferenceSuffix

structure InlineAssembly where
  externalReferences : List ExternalInlineAssemblyReference

mutual

inductive Statement
  | block (block : Block)
  | «break»
  | «continue»
  | doWhileStatement (body : Block) (condition : Expression)
  | emitStatement (eventCall : FunctionCall)
  | expressionStatement (statement : ExpressionStatement)
  | forStatement (body : BlockOrStatement) (condition : Option Expression)
    (initializationExpression : Option ExpressionOrVariableDeclarationStatement)
    (loopExpression : Option ExpressionStatement)
  | ifStatement (condition : Expression) (falseBody : Option BlockOrStatement)
    (trueBody : BlockOrStatement)
  | inlineAssembly (assembly : InlineAssembly)
  | placeholderStatement
  | «return» (expression : Option Expression)
  | revertStatement (errorCall : FunctionCall)
  | tryStatement (clauses : List TryCatchClause) (externalCall : FunctionCall)
  | uncheckedBlock (statements : List Statement)
  | variableDeclarationStatement (statement : VariableDeclarationStatement)
  | whileStatement (body : BlockOrStatement) (condition : Expression)

inductive Block
  | mk (statements : List Statement)

inductive BlockOrStatement
  | statement (statement : Statement)
  | block (block : Block)

inductive TryCatchClause
  | mk (block : Block) (parameters : Option ParameterList)

end

def TryCatchClause.block : TryCatchClause → Block
  | mk block _ => block

def TryCatchClause.parameters : TryCatchClause → Option ParameterList
  | mk _ parameters => parameters

/-! ## Definitions -/

structure ErrorDefinition where
  parameters : ParameterList

structure EventDefinition where
  parameters : ParameterList

structure StructDefinition where
  members : List VariableDeclaration

structure UserDefinedValueTypeDefinition where
  underlyingType : TypeName

/-- A modifier or base constructor invocation. -/
structure ModifierInvocation where
  arguments : List Expression
  modifierName : IdentifierOrIdentifierPath

structure FunctionDefinition where
  body : Option Block
  modifiers : List ModifierInvocation
  overrides : Option OverrideSpecifier
  parameters : ParameterList
  returnParameters : ParameterList

structure ModifierDefinition where
  body : Option Block
  overrides : Option OverrideSpecifier
  parameters : ParameterList

inductive UsingForFunctionItem
  | function (function : IdentifierPath)
  | overloadedOperator (definition : IdentifierPath)

structure UsingForDirective where
  functionList : List UsingForFunctionItem
  libraryName : Option UserDefinedTypeNameOrIdentifierPath
  typeName : Option TypeName

inductive ContractDefinitionPart
  | enumDefinition
  | errorDefinition (definition : ErrorDefinition)
  | eventDefinition (definition : EventDefinition)
  | functionDefinition (definition : FunctionDefinition)
  | modifierDefinition (definition : ModifierDefinition)
  | structDefinition (definition : StructDefinition)
  | userDefinedValueTypeDefinition (definition : UserDefinedValueTypeDefinition)
  | usingForDirective (directive : UsingForDirective)
  | variableDeclaration (declaration : VariableDeclaration)

structure InheritanceSpecifier where
  arguments : List Expression
  baseName : UserDefinedTypeNameOrIdentifierPath

structure ContractDefinition where
  baseContracts : List InheritanceSpecifier
  nodes : List ContractDefinitionPart

/-- An import directive, with the identifiers of its symbol aliases. -/
structure ImportDirective where
  symbolAliases : List Identifier

inductive SourceUnitPart
  | pragmaDirective
  | importDirective (directive : ImportDirective)
  | usingForDirective (directive : UsingForDirective)
  | variableDeclaration (declaration : VariableDeclaration)
  | enumDefinition
  | errorDefinition (definition : ErrorDefinition)
  | eventDefinition (definition : EventDefinition)
  | functionDefinition (definition : FunctionDefinition)
  | structDefinition (definition : StructDefinition)
  | userDefinedValueTypeDefinition (definition : UserDefinedValueTypeDefinition)
  | contractDefinition (definition : ContractDefinition)

/-- The root node of a syntax tree. -/
structure SourceUnit where
  nodes : List SourceUnitPart

end FoundryCore.Ast
