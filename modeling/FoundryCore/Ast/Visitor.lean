import FoundryCore.Ast.Basic
import FoundryCore.Library.Preorder

/-!
# Walking a syntax tree

Every kind of node has its own `Walk` implementation: it calls the visitor's method for the node
and walks some of the node's fields. What a walk walks is compared with all the fields of a node.
-/

namespace FoundryCore.Ast

/-- A node of a syntax tree, of any kind. -/
inductive Node
  | sourceUnit (unit : SourceUnit)
  | sourceUnitPart (part : SourceUnitPart)
  | contractDefinition (contract : ContractDefinition)
  | contractDefinitionPart (part : ContractDefinitionPart)
  | inheritanceSpecifier (specifier : InheritanceSpecifier)
  | importDirective (directive : ImportDirective)
  | usingForDirective (directive : UsingForDirective)
  | usingForFunctionItem (item : UsingForFunctionItem)
  | errorDefinition (definition : ErrorDefinition)
  | eventDefinition (definition : EventDefinition)
  | structDefinition (definition : StructDefinition)
  | userDefinedValueTypeDefinition (definition : UserDefinedValueTypeDefinition)
  | functionDefinition (function : FunctionDefinition)
  | modifierDefinition (modifier : ModifierDefinition)
  | modifierInvocation (invocation : ModifierInvocation)
  | overrideSpecifier (specifier : OverrideSpecifier)
  | parameterList (list : ParameterList)
  | variableDeclaration (declaration : VariableDeclaration)
  | typeName (typeName : TypeName)
  | userDefinedTypeName (typeName : UserDefinedTypeName)
  | userDefinedTypeNameOrIdentifierPath (name : UserDefinedTypeNameOrIdentifierPath)
  | identifierOrIdentifierPath (name : IdentifierOrIdentifierPath)
  | identifierPath (path : IdentifierPath)
  | identifier (identifier : Identifier)
  | expression (expression : Expression)
  | functionCall (call : FunctionCall)
  | statement (statement : Statement)
  | block (block : Block)
  | blockOrStatement (body : BlockOrStatement)
  | expressionStatement (statement : ExpressionStatement)
  | expressionOrVariableDeclarationStatement
    (statement : ExpressionOrVariableDeclarationStatement)
  | variableDeclarationStatement (statement : VariableDeclarationStatement)
  | inlineAssembly (assembly : InlineAssembly)
  | externalInlineAssemblyReference (reference : ExternalInlineAssemblyReference)

namespace Node

/-! ## Walk implementations -/

def walkSourceUnitPart : SourceUnitPart → List Node
  | .contractDefinition contract => [contractDefinition contract]
  | .usingForDirective directive => [usingForDirective directive]
  | .errorDefinition error => [errorDefinition error]
  | .eventDefinition event => [eventDefinition event]
  | .structDefinition struct => [structDefinition struct]
  | .variableDeclaration declaration => [variableDeclaration declaration]
  | .functionDefinition function => [functionDefinition function]
  | .userDefinedValueTypeDefinition valueType => [userDefinedValueTypeDefinition valueType]
  | .importDirective directive => [importDirective directive]
  | .enumDefinition | .pragmaDirective => []

def walkContractDefinitionPart : ContractDefinitionPart → List Node
  | .functionDefinition function => [functionDefinition function]
  | .errorDefinition error => [errorDefinition error]
  | .eventDefinition event => [eventDefinition event]
  | .structDefinition struct => [structDefinition struct]
  | .variableDeclaration declaration => [variableDeclaration declaration]
  | .modifierDefinition modifier => [modifierDefinition modifier]
  | .userDefinedValueTypeDefinition definition => [userDefinedValueTypeDefinition definition]
  | .usingForDirective directive => [usingForDirective directive]
  | .enumDefinition => []

def walkExpression : Expression → List Node
  | .functionCall call => [functionCall call]
  | .memberAccess _ inner _ _ => [expression inner]
  | .indexAccess base index => expression base :: index.toList.map expression
  | .unaryOperation sub => [expression sub]
  | .binaryOperation lhs rhs => [expression lhs, expression rhs]
  | .conditional condition falseExpression trueExpression =>
    [expression condition, expression trueExpression, expression falseExpression]
  | .tupleExpression components => (components.filterMap id).map expression
  | .newExpression name => [typeName name]
  | .assignment lhs rhs => [expression lhs, expression rhs]
  | .identifier name => [identifier name]
  | .functionCallOptions inner options => expression inner :: options.map expression
  | .indexRangeAccess base start stop =>
    expression base :: start.toList.map expression ++ stop.toList.map expression
  | .literal | .elementaryTypeNameExpression => []

def walkStatement : Statement → List Node
  | .block inner => [block inner]
  | .whileStatement body condition => [expression condition, blockOrStatement body]
  | .forStatement body condition initialization loop =>
    blockOrStatement body :: condition.toList.map expression ++
      loop.toList.map expressionStatement ++
      initialization.toList.map expressionOrVariableDeclarationStatement
  | .ifStatement condition falseBody trueBody =>
    expression condition :: blockOrStatement trueBody :: falseBody.toList.map blockOrStatement
  | .doWhileStatement body condition => [block body, expression condition]
  | .emitStatement eventCall => [functionCall eventCall]
  | .variableDeclarationStatement inner => [variableDeclarationStatement inner]
  | .expressionStatement inner => [expressionStatement inner]
  | .uncheckedBlock statements => statements.map statement
  | .tryStatement clauses externalCall =>
    (clauses.flatMap fun clause =>
      block clause.block :: clause.parameters.toList.map parameterList) ++
      [functionCall externalCall]
  | .revertStatement errorCall => [functionCall errorCall]
  | .return inner => inner.toList.map expression
  | .inlineAssembly assembly => [inlineAssembly assembly]
  | .break | .continue | .placeholderStatement => []

def walkTypeName : TypeName → List Node
  | .elementaryTypeName => []
  | .userDefinedTypeName name => [userDefinedTypeName name]
  | .mapping keyType valueType => [typeName keyType, typeName valueType]
  | .arrayTypeName baseType length => typeName baseType :: length.toList.map expression
  | .functionTypeName parameterTypes returnParameterTypes =>
    [parameterList parameterTypes, parameterList returnParameterTypes]

/-- The nodes that a node walks, in order. -/
def walked : Node → List Node
  | sourceUnit unit => unit.nodes.map sourceUnitPart
  | sourceUnitPart part => walkSourceUnitPart part
  | contractDefinition contract =>
    contract.baseContracts.map inheritanceSpecifier ++ contract.nodes.map contractDefinitionPart
  | contractDefinitionPart part => walkContractDefinitionPart part
  | inheritanceSpecifier specifier =>
    userDefinedTypeNameOrIdentifierPath specifier.baseName :: specifier.arguments.map expression
  | importDirective _ => []
  | usingForDirective directive =>
    directive.typeName.toList.map typeName ++
      directive.libraryName.toList.map userDefinedTypeNameOrIdentifierPath ++
      directive.functionList.map usingForFunctionItem
  | usingForFunctionItem item =>
    match item with
    | .function path => [identifierPath path]
    | .overloadedOperator definition => [identifierPath definition]
  | errorDefinition error => [parameterList error.parameters]
  | eventDefinition event => [parameterList event.parameters]
  | structDefinition struct => struct.members.map variableDeclaration
  | userDefinedValueTypeDefinition valueType => [typeName valueType.underlyingType]
  | functionDefinition function =>
    parameterList function.parameters :: parameterList function.returnParameters ::
      function.overrides.toList.map overrideSpecifier ++ function.body.toList.map block ++
      function.modifiers.map modifierInvocation
  | modifierDefinition modifier =>
    modifier.body.toList.map block ++ modifier.overrides.toList.map overrideSpecifier ++
      [parameterList modifier.parameters]
  | modifierInvocation invocation =>
    invocation.arguments.map expression ++ [identifierOrIdentifierPath invocation.modifierName]
  | overrideSpecifier specifier => specifier.overrides.map userDefinedTypeNameOrIdentifierPath
  | parameterList (.mk parameters) => parameters.map variableDeclaration
  | variableDeclaration (.mk _ type value) =>
    value.toList.map expression ++ type.toList.map typeName
  | typeName name => walkTypeName name
  | userDefinedTypeName name => name.pathNode.toList.map identifierPath
  | userDefinedTypeNameOrIdentifierPath name =>
    match name with
    | .userDefinedTypeName name => [userDefinedTypeName name]
    | .identifierPath path => [identifierPath path]
  | identifierOrIdentifierPath name =>
    match name with
    | .identifier ident => [identifier ident]
    | .identifierPath path => [identifierPath path]
  | identifierPath _ => []
  | identifier _ => []
  | expression inner => walkExpression inner
  | functionCall (.mk arguments inner) => expression inner :: arguments.map expression
  | statement inner => walkStatement inner
  | block (.mk statements) => statements.map statement
  | blockOrStatement body =>
    match body with
    | .block inner => [block inner]
    | .statement inner => [statement inner]
  | expressionStatement inner => [expression inner.expression]
  | expressionOrVariableDeclarationStatement inner =>
    match inner with
    | .expressionStatement inner => [expressionStatement inner]
    | .variableDeclarationStatement inner => [variableDeclarationStatement inner]
  | variableDeclarationStatement inner =>
    (inner.declarations.filterMap id).map variableDeclaration ++
      inner.initialValue.toList.map expression
  | inlineAssembly assembly => assembly.externalReferences.map externalInlineAssemblyReference
  | externalInlineAssemblyReference _ => []

/-! ## Fields -/

def fieldsSourceUnitPart : SourceUnitPart → List Node
  | .pragmaDirective => []
  | .importDirective directive => [importDirective directive]
  | .usingForDirective directive => [usingForDirective directive]
  | .variableDeclaration declaration => [variableDeclaration declaration]
  | .enumDefinition => []
  | .errorDefinition definition => [errorDefinition definition]
  | .eventDefinition definition => [eventDefinition definition]
  | .functionDefinition definition => [functionDefinition definition]
  | .structDefinition definition => [structDefinition definition]
  | .userDefinedValueTypeDefinition definition => [userDefinedValueTypeDefinition definition]
  | .contractDefinition definition => [contractDefinition definition]

def fieldsContractDefinitionPart : ContractDefinitionPart → List Node
  | .enumDefinition => []
  | .errorDefinition definition => [errorDefinition definition]
  | .eventDefinition definition => [eventDefinition definition]
  | .functionDefinition definition => [functionDefinition definition]
  | .modifierDefinition definition => [modifierDefinition definition]
  | .structDefinition definition => [structDefinition definition]
  | .userDefinedValueTypeDefinition definition => [userDefinedValueTypeDefinition definition]
  | .usingForDirective directive => [usingForDirective directive]
  | .variableDeclaration declaration => [variableDeclaration declaration]

def fieldsExpression : Expression → List Node
  | .assignment lhs rhs => [expression lhs, expression rhs]
  | .binaryOperation lhs rhs => [expression lhs, expression rhs]
  | .conditional condition falseExpression trueExpression =>
    [expression condition, expression falseExpression, expression trueExpression]
  | .elementaryTypeNameExpression => []
  | .functionCall call => [functionCall call]
  | .functionCallOptions inner options => expression inner :: options.map expression
  | .identifier name => [identifier name]
  | .indexAccess base index => expression base :: index.toList.map expression
  | .indexRangeAccess base start stop =>
    expression base :: start.toList.map expression ++ stop.toList.map expression
  | .literal => []
  | .memberAccess _ inner _ _ => [expression inner]
  | .newExpression name => [typeName name]
  | .tupleExpression components => (components.filterMap id).map expression
  | .unaryOperation sub => [expression sub]

def fieldsStatement : Statement → List Node
  | .block inner => [block inner]
  | .break | .continue => []
  | .doWhileStatement body condition => [block body, expression condition]
  | .emitStatement eventCall => [functionCall eventCall]
  | .expressionStatement inner => [expressionStatement inner]
  | .forStatement body condition initialization loop =>
    blockOrStatement body :: condition.toList.map expression ++
      initialization.toList.map expressionOrVariableDeclarationStatement ++
      loop.toList.map expressionStatement
  | .ifStatement condition falseBody trueBody =>
    expression condition :: falseBody.toList.map blockOrStatement ++ [blockOrStatement trueBody]
  | .inlineAssembly assembly => [inlineAssembly assembly]
  | .placeholderStatement => []
  | .return inner => inner.toList.map expression
  | .revertStatement errorCall => [functionCall errorCall]
  | .tryStatement clauses externalCall =>
    (clauses.flatMap fun clause =>
      block clause.block :: clause.parameters.toList.map parameterList) ++
      [functionCall externalCall]
  | .uncheckedBlock statements => statements.map statement
  | .variableDeclarationStatement inner => [variableDeclarationStatement inner]
  | .whileStatement body condition => [blockOrStatement body, expression condition]

def fieldsTypeName : TypeName → List Node
  | .arrayTypeName baseType length => typeName baseType :: length.toList.map expression
  | .elementaryTypeName => []
  | .functionTypeName parameterTypes returnParameterTypes =>
    [parameterList parameterTypes, parameterList returnParameterTypes]
  | .mapping keyType valueType => [typeName keyType, typeName valueType]
  | .userDefinedTypeName name => [userDefinedTypeName name]

/-- All fields of a node that are nodes, in the order of their declaration. -/
def fields : Node → List Node
  | sourceUnit unit => unit.nodes.map sourceUnitPart
  | sourceUnitPart part => fieldsSourceUnitPart part
  | contractDefinition contract =>
    contract.baseContracts.map inheritanceSpecifier ++ contract.nodes.map contractDefinitionPart
  | contractDefinitionPart part => fieldsContractDefinitionPart part
  | inheritanceSpecifier specifier =>
    specifier.arguments.map expression ++ [userDefinedTypeNameOrIdentifierPath specifier.baseName]
  | importDirective directive => directive.symbolAliases.map identifier
  | usingForDirective directive =>
    directive.functionList.map usingForFunctionItem ++
      directive.libraryName.toList.map userDefinedTypeNameOrIdentifierPath ++
      directive.typeName.toList.map typeName
  | usingForFunctionItem (.function path) => [identifierPath path]
  | usingForFunctionItem (.overloadedOperator definition) => [identifierPath definition]
  | errorDefinition error => [parameterList error.parameters]
  | eventDefinition event => [parameterList event.parameters]
  | structDefinition struct => struct.members.map variableDeclaration
  | userDefinedValueTypeDefinition valueType => [typeName valueType.underlyingType]
  | functionDefinition function =>
    function.body.toList.map block ++ function.modifiers.map modifierInvocation ++
      function.overrides.toList.map overrideSpecifier ++
      [parameterList function.parameters, parameterList function.returnParameters]
  | modifierDefinition modifier =>
    modifier.body.toList.map block ++ modifier.overrides.toList.map overrideSpecifier ++
      [parameterList modifier.parameters]
  | modifierInvocation invocation =>
    invocation.arguments.map expression ++ [identifierOrIdentifierPath invocation.modifierName]
  | overrideSpecifier specifier => specifier.overrides.map userDefinedTypeNameOrIdentifierPath
  | parameterList (.mk parameters) => parameters.map variableDeclaration
  | variableDeclaration (.mk overrides type value) =>
    overrides.toList.map overrideSpecifier ++ type.toList.map typeName ++
      value.toList.map expression
  | typeName name => fieldsTypeName name
  | userDefinedTypeName name => name.pathNode.toList.map identifierPath
  | userDefinedTypeNameOrIdentifierPath (.userDefinedTypeName name) => [userDefinedTypeName name]
  | userDefinedTypeNameOrIdentifierPath (.identifierPath path) => [identifierPath path]
  | identifierOrIdentifierPath (.identifier ident) => [identifier ident]
  | identifierOrIdentifierPath (.identifierPath path) => [identifierPath path]
  | identifierPath _ => []
  | identifier _ => []
  | expression inner => fieldsExpression inner
  | functionCall (.mk arguments inner) => arguments.map expression ++ [expression inner]
  | statement inner => fieldsStatement inner
  | block (.mk statements) => statements.map statement
  | blockOrStatement (.statement inner) => [statement inner]
  | blockOrStatement (.block inner) => [block inner]
  | expressionStatement inner => [expression inner.expression]
  | expressionOrVariableDeclarationStatement (.expressionStatement inner) =>
    [expressionStatement inner]
  | expressionOrVariableDeclarationStatement (.variableDeclarationStatement inner) =>
    [variableDeclarationStatement inner]
  | variableDeclarationStatement inner =>
    (inner.declarations.filterMap id).map variableDeclaration ++
      inner.initialValue.toList.map expression
  | inlineAssembly assembly => assembly.externalReferences.map externalInlineAssemblyReference
  | externalInlineAssemblyReference _ => []

/-- The fields of a node, without the symbol aliases of imports. -/
def children : Node → List Node
  | importDirective _ => []
  | n => n.fields

/-- An override specifier as the field of a variable declaration. -/
inductive IsVariableOverride : Node → Node → Prop
  | mk {specifier : OverrideSpecifier} {type : Option TypeName} {value : Option Expression} :
    IsVariableOverride (variableDeclaration (.mk (some specifier) type value))
      (overrideSpecifier specifier)

theorem mem_walkExpression {e : Expression} {c : Node} :
    c ∈ walkExpression e ↔ c ∈ fieldsExpression e := by
  cases e <;> simp [walkExpression, fieldsExpression, or_comm]

theorem mem_walkStatement {s : Statement} {c : Node} :
    c ∈ walkStatement s ↔ c ∈ fieldsStatement s := by
  cases s <;> simp [walkStatement, fieldsStatement, or_comm, or_left_comm]

/-- A node other than a variable declaration walks its children. -/
theorem mem_walked_of_ne {n c : Node} (other : ∀ d, n ≠ variableDeclaration d) :
    c ∈ n.walked ↔ c ∈ n.children := by
  cases n with
  | variableDeclaration d => exact absurd rfl (other d)
  | sourceUnitPart part => cases part <;> rfl
  | contractDefinitionPart part => cases part <;> rfl
  | inheritanceSpecifier | usingForDirective | functionDefinition =>
    simp [walked, children, fields, or_assoc, or_comm, or_left_comm]
  | functionCall call =>
    cases call
    simp [walked, children, fields, or_comm]
  | usingForFunctionItem item => cases item <;> rfl
  | typeName name => cases name <;> rfl
  | userDefinedTypeNameOrIdentifierPath name => cases name <;> rfl
  | identifierOrIdentifierPath name => cases name <;> rfl
  | expression e => exact mem_walkExpression
  | statement s => exact mem_walkStatement
  | blockOrStatement body => cases body <;> rfl
  | expressionOrVariableDeclarationStatement s => cases s <;> rfl
  | parameterList list => cases list; rfl
  | block inner => cases inner; rfl
  | _ => rfl

/-- A node walks its children, and a variable declaration leaves its override specifier out. -/
theorem mem_walked {n c : Node} :
    c ∈ n.walked ↔ c ∈ n.children ∧ ¬ IsVariableOverride n c := by
  by_cases declaration : ∃ d, n = variableDeclaration d
  · obtain ⟨⟨overrides, type, value⟩, rfl⟩ := declaration
    have override : IsVariableOverride (variableDeclaration (.mk overrides type value)) c ↔
        ∃ specifier, overrides = some specifier ∧ c = overrideSpecifier specifier := by
      constructor
      · rintro ⟨⟩
        exact ⟨_, rfl, rfl⟩
      · rintro ⟨specifier, rfl, rfl⟩
        exact .mk
    rw [override]
    cases c <;> cases overrides <;> simp [walked, children, fields, eq_comm]
  · have none : ¬ IsVariableOverride n c := by
      rintro ⟨⟩
      exact declaration ⟨_, rfl⟩
    rw [mem_walked_of_ne fun d eq => declaration ⟨d, eq⟩]
    simp [none]

/-! ## Sizes -/

theorem sizeOf_lt_of_mem_fieldsExpression {e : Expression} :
    ∀ c ∈ fieldsExpression e, sizeOf c < 1 + sizeOf e := by
  intro c mem
  cases e
  all_goals
    simp only [fieldsExpression] at mem
    grind [→ List.sizeOf_lt_of_mem, Option.some.sizeOf_spec]

theorem sizeOf_lt_of_mem_fieldsStatement {s : Statement} :
    ∀ c ∈ fieldsStatement s, sizeOf c < 1 + sizeOf s := by
  intro c mem
  cases s with
  | tryStatement clauses externalCall =>
    rw [fieldsStatement, List.mem_append, List.mem_flatMap] at mem
    rcases mem with ⟨⟨inner, parameters⟩, clause, mem⟩ | mem
    · have := List.sizeOf_lt_of_mem clause
      simp only [TryCatchClause.mk.sizeOf_spec] at this
      rcases List.mem_cons.mp mem with rfl | mem
      · simp only [TryCatchClause.block, Statement.tryStatement.sizeOf_spec,
          Node.block.sizeOf_spec]
        omega
      · obtain ⟨list, some, rfl⟩ := by simpa using mem
        obtain rfl : parameters = _ := some
        simp at this ⊢
        omega
    · obtain rfl := List.mem_singleton.mp mem
      simp only [Node.functionCall.sizeOf_spec, Statement.tryStatement.sizeOf_spec]
      omega
  | _ =>
    simp only [fieldsStatement] at mem
    grind [→ List.sizeOf_lt_of_mem, Option.some.sizeOf_spec]

theorem sizeOf_lt_of_mem_fields {n : Node} : ∀ c ∈ n.fields, sizeOf c < sizeOf n := by
  intro c mem
  cases n with
  | expression e => exact sizeOf_lt_of_mem_fieldsExpression c mem
  | statement s => exact sizeOf_lt_of_mem_fieldsStatement c mem
  | _ inner =>
    cases inner
    all_goals
      simp only [fields, fieldsSourceUnitPart, fieldsContractDefinitionPart, fieldsTypeName] at mem
      grind [→ List.sizeOf_lt_of_mem, Option.some.sizeOf_spec]

theorem sizeOf_lt_of_mem_walked (n : Node) : ∀ c ∈ n.walked, sizeOf c < sizeOf n := by
  intro c mem
  have child := (mem_walked.mp mem).1
  cases n with
  | importDirective => cases child
  | _ => exact sizeOf_lt_of_mem_fields c child

end Node

end FoundryCore.Ast
