import ConfigSyntax.Category
import ConfigSyntax.Node

/-! Nodes known to be in a category, and nodes by their kinds. -/

namespace ConfigSyntax

structure Typed (c : Category) extends Node where
  has_kind : c.has kind = true

namespace Node

def as? (n : Node) (c : Category) : Option (Typed c) :=
  if h : c.has n.kind = true then some ⟨n, h⟩ else none

def childrenAs (n : Node) (c : Category) : List (Typed c) := n.children.filterMap (·.as? c)

def firstChild? (n : Node) (c : Category) : Option (Typed c) := (n.childrenAs c).head?

@[simp]
theorem toNode_childrenAs (n : Node) (c : Category) :
    (n.childrenAs c).map (·.toNode) = n.children.filter (c.has ·.kind) := by
  simp only [childrenAs, List.map_filterMap, ← List.filterMap_eq_filter]
  congr 1
  funext m
  by_cases h : c.has m.kind = true <;> simp [as?, h, Option.guard]

end Node

abbrev File := Typed .file
abbrev Object := Typed .object
abbrev Property := Typed .property
abbrev ConstructorReference := Typed .constructorReference
abbrev ReferenceExpression := Typed .referenceExpression
abbrev ContextualPropertyReference := Typed .contextualPropertyReference
abbrev InvocationExpression := Typed .invocationExpression
abbrev InvocationElement := Typed .invocationElement
abbrev ContextBlock := Typed .contextBlock
abbrev ContextualStatement := Typed .contextualStatement
abbrev ContextName := Typed .contextName
abbrev VariableDeclaration := Typed .variableDeclaration
abbrev StringLiteral := Typed .stringLiteral
abbrev NumberLiteral := Typed .numberLiteral
abbrev BooleanLiteral := Typed .booleanLiteral
abbrev NullLiteral := Typed .nullLiteral
abbrev ErrorNode := Typed .error
abbrev ObjectElement := Typed .objectElement
abbrev ContextualElement := Typed .contextualElement
abbrev PropertyName := Typed .propertyName
abbrev ConstructorTarget := Typed .constructorTarget
abbrev Value := Typed .value
abbrev Literal := Typed .literal

inductive Phrase where
  | file (n : File)
  | object (n : Object)
  | property (n : Property)
  | constructorReference (n : ConstructorReference)
  | referenceExpression (n : ReferenceExpression)
  | contextualPropertyReference (n : ContextualPropertyReference)
  | invocationExpression (n : InvocationExpression)
  | invocationElement (n : InvocationElement)
  | contextBlock (n : ContextBlock)
  | contextualStatement (n : ContextualStatement)
  | contextName (n : ContextName)
  | variableDeclaration (n : VariableDeclaration)
  | stringLiteral (n : StringLiteral)
  | numberLiteral (n : NumberLiteral)
  | booleanLiteral (n : BooleanLiteral)
  | nullLiteral (n : NullLiteral)
  | error (n : ErrorNode)

/-- Nodes of a token kind, or of none, are no phrases. -/
def Node.phrase? (n : Node) : Option Phrase :=
  match n.kind with
  | .file => (n.as? .file).map .file
  | .object => (n.as? .object).map .object
  | .property => (n.as? .property).map .property
  | .constructorReference => (n.as? .constructorReference).map .constructorReference
  | .referenceExpression => (n.as? .referenceExpression).map .referenceExpression
  | .contextualPropertyReference =>
    (n.as? .contextualPropertyReference).map .contextualPropertyReference
  | .invocationExpression => (n.as? .invocationExpression).map .invocationExpression
  | .invocationElement => (n.as? .invocationElement).map .invocationElement
  | .contextBlock => (n.as? .contextBlock).map .contextBlock
  | .contextualStatement => (n.as? .contextualStatement).map .contextualStatement
  | .contextName => (n.as? .contextName).map .contextName
  | .variableDeclaration => (n.as? .variableDeclaration).map .variableDeclaration
  | .stringLiteral => (n.as? .stringLiteral).map .stringLiteral
  | .numberLiteral => (n.as? .numberLiteral).map .numberLiteral
  | .booleanLiteral => (n.as? .booleanLiteral).map .booleanLiteral
  | .nullLiteral => (n.as? .nullLiteral).map .nullLiteral
  | .error => (n.as? .error).map .error
  | _ => none

end ConfigSyntax
