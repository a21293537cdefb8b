import ConfigSyntax.Kind

/-! Categories of nodes: one for each kind, and those that join several. -/

namespace ConfigSyntax

inductive Category where
  | node
  | file | object | property | constructorReference | referenceExpression
  | contextualPropertyReference | invocationExpression | invocationElement | contextBlock
  | contextualStatement | contextName | variableDeclaration | stringLiteral | numberLiteral
  | booleanLiteral | nullLiteral | error
  | objectElement | contextualElement | propertyName | constructorTarget | value | literal
  deriving DecidableEq, Repr

namespace Category

def all : List Category :=
  [node, file, object, property, constructorReference, referenceExpression,
    contextualPropertyReference, invocationExpression, invocationElement, contextBlock,
    contextualStatement, contextName, variableDeclaration, stringLiteral, numberLiteral,
    booleanLiteral, nullLiteral, error, objectElement, contextualElement, propertyName,
    constructorTarget, value, literal]

def kinds : Category → List Kind
  | node => Kind.all.filter Kind.isNode
  | file => [.file]
  | object => [.object]
  | property => [.property]
  | constructorReference => [.constructorReference]
  | referenceExpression => [.referenceExpression]
  | contextualPropertyReference => [.contextualPropertyReference]
  | invocationExpression => [.invocationExpression]
  | invocationElement => [.invocationElement]
  | contextBlock => [.contextBlock]
  | contextualStatement => [.contextualStatement]
  | contextName => [.contextName]
  | variableDeclaration => [.variableDeclaration]
  | stringLiteral => [.stringLiteral]
  | numberLiteral => [.numberLiteral]
  | booleanLiteral => [.booleanLiteral]
  | nullLiteral => [.nullLiteral]
  | error => [.error]
  | objectElement => Kind.objectElements
  | contextualElement => [.contextBlock, .contextualStatement]
  | propertyName => .referenceExpression :: Kind.literals
  | constructorTarget => [.invocationExpression, .referenceExpression, .stringLiteral]
  | value => Kind.values
  | literal => Kind.literals

def has (c : Category) (k : Kind) : Bool := c.kinds.contains k

def wider? : Category → Option Category
  | node | propertyName | constructorTarget => none
  | stringLiteral | numberLiteral | booleanLiteral | nullLiteral => some literal
  | literal | object | invocationExpression | referenceExpression
  | contextualPropertyReference => some value
  | contextBlock | contextualStatement => some contextualElement
  | contextualElement | property | invocationElement | variableDeclaration => some objectElement
  | value | objectElement | file | contextName | constructorReference | error => some node

def ofKind? : Kind → Option Category
  | .file => some file
  | .object => some object
  | .property => some property
  | .constructorReference => some constructorReference
  | .referenceExpression => some referenceExpression
  | .contextualPropertyReference => some contextualPropertyReference
  | .invocationExpression => some invocationExpression
  | .invocationElement => some invocationElement
  | .contextBlock => some contextBlock
  | .contextualStatement => some contextualStatement
  | .contextName => some contextName
  | .variableDeclaration => some variableDeclaration
  | .stringLiteral => some stringLiteral
  | .numberLiteral => some numberLiteral
  | .booleanLiteral => some booleanLiteral
  | .nullLiteral => some nullLiteral
  | .error => some error
  | _ => none

end Category

end ConfigSyntax
