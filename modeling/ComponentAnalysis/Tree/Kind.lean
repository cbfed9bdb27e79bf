/-! The kinds of nodes in the syntax tree of a script. Each kind names the children its nodes have,
in the order in which walks visit them. A trailing question mark marks a child that may be missing
and dots mark a list. -/
namespace ComponentAnalysis

/-- How a function with its own receiver is written. -/
inductive FunctionForm where
  /-- A declaration; its name is visible around it. -/
  | declaration
  /-- An expression, a method or an accessor; its name, if any, is visible inside it only. -/
  | expression
  deriving DecidableEq, Repr

/-- The keyword of a variable statement. -/
inductive VariableKind where
  | var
  | lexical
  | const
  | resource
  | asyncResource
  deriving DecidableEq, Repr

/-- The kind of a syntax node, with the names and values written at the node itself. -/
inductive Kind where
  /-- A name read or written as an expression. -/
  | reference (name : String)
  /-- A name where it is declared. -/
  | binding (name : String)
  /-- A property name, a label or the name of an imported or exported item. -/
  | name (text : String)
  /-- A private name, without its `#`. -/
  | privateName (text : String)
  | string (value : String)
  | number (text : String)
  | boolean (value : Bool)
  | null
  | bigint (text : String)
  | regex (text : String)
  /-- All texts, then all interpolated expressions. -/
  | template
  /-- The text between two interpolations, with escapes resolved; no value if one is malformed. -/
  | templateText (value : Option String)
  /-- Tag, type arguments?, template. -/
  | taggedTemplate
  | this
  | super
  /-- Elements... -/
  | array
  | elision
  /-- Properties... -/
  | object
  /-- Key, value. A shorthand property has its name in both places. -/
  | property
  | spread
  /-- Name?, type parameters?, parameters, return ascription?, body? -/
  | function (form : FunctionForm)
  /-- Type parameters?, parameters, return ascription?, body. -/
  | arrow
  /-- Decorators..., name?, type parameters?, super class?, type arguments?, heritage..., body. -/
  | classDefinition
  /-- A class as an expression, with the same children; its name, if any, is visible inside it
  only. -/
  | classExpression
  | unary
  | update
  | binary
  | logical
  | assignment
  | conditional
  | sequence
  /-- Callee, type arguments?, arguments... -/
  | call
  /-- Callee, type arguments?, arguments... -/
  | construct
  /-- Object, name. -/
  | member
  /-- Object, index. -/
  | computedMember
  /-- Object, private name. -/
  | privateMember
  /-- One operand, which holds an optional access or call. -/
  | chain
  | parenthesized
  | await
  | yield
  | importCall
  | metaProperty
  | privateIn
  /-- Expression, type. -/
  | asType
  /-- Expression, type. -/
  | satisfiesType
  | nonNull
  /-- Type, expression. -/
  | typeAssertion
  /-- Expression, type arguments. -/
  | instantiation
  | decorator
  /-- Receiver parameter?, parameters..., rest parameter? -/
  | parameters
  /-- Decorators..., pattern, ascription?, default value? -/
  | parameter
  | thisParameter
  | restParameter
  /-- Directives..., statements... -/
  | functionBody
  | directive
  /-- Binding properties..., rest? -/
  | objectPattern
  /-- Key, pattern. -/
  | bindingProperty
  /-- Patterns..., rest? -/
  | arrayPattern
  /-- Pattern, default value. -/
  | defaultPattern
  | restPattern
  | classBody
  /-- Decorators..., key, function. -/
  | method
  /-- Decorators..., key, ascription?, value? -/
  | field
  | staticBlock
  /-- Name or expression, type arguments?, in an `implements` or an interface's `extends`. -/
  | heritage
  /-- Specifiers..., module name. -/
  | importDeclaration (typeOnly : Bool)
  | importDefault
  | importNamespace
  /-- Imported name, local name. -/
  | importNamed (typeOnly : Bool)
  | attribute
  /-- A declaration, or specifiers..., module name? -/
  | exportNamed
  | exportDefault
  | exportAll
  | exportSpecifier
  | importEquals
  | exportAssignment
  | namespaceExport
  /-- Declarators... -/
  | variableStatement (kind : VariableKind)
  /-- Pattern, ascription?, initializer? -/
  | declarator (kind : VariableKind)
  /-- Name, body. -/
  | enumDeclaration
  | enumBody
  | enumMember
  /-- Name, type parameters?, type. -/
  | typeAlias
  /-- Name, type parameters?, heritage..., body. -/
  | interface
  | interfaceBody
  /-- Name, body. -/
  | namespaceDeclaration
  | namespaceBody
  | block
  | emptyStatement
  | expressionStatement
  | ifStatement
  | whileStatement
  | doStatement
  | forStatement
  | forInStatement
  | forOfStatement
  | returnStatement
  | breakStatement
  | continueStatement
  | throwStatement
  | tryStatement
  /-- Parameter?, block. -/
  | catchClause
  | catchParameter
  /-- Discriminant, cases... -/
  | switchStatement
  | switchCase
  | labeledStatement
  | withStatement
  | debuggerStatement
  /-- One type. -/
  | typeAscription
  | typeArguments
  | typeParameters
  | typeParameter
  | booleanType
  /-- Signatures... -/
  | typeLiteral
  | otherType
  /-- Key, ascription? -/
  | propertySignature (isOptional : Bool)
  /-- Key, type parameters?, parameters, return ascription? -/
  | methodSignature
  | callSignature
  | constructSignature
  | indexSignature
  deriving DecidableEq, Repr

namespace Kind

/-- Whether nodes of this kind are types. Types are erased and hold no value references. -/
def isType : Kind → Bool
  | booleanType | typeLiteral | otherType => true
  | _ => false

end Kind

end ComponentAnalysis
