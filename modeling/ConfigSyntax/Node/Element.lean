import ConfigSyntax.Node.Scalar

/-! What files, objects and their elements hold. -/

namespace ConfigSyntax

namespace Property

def name? (p : Property) : Option PropertyName := p.children.head?.bind (·.as? .propertyName)

def nameText? (p : Property) : Option String := p.name?.map PropertyName.text

def hasAssignment (p : Property) : Bool := p.hasToken .equals

def value? (p : Property) : Option Value :=
  (p.childrenAfter .equals).findSome? (·.as? .value)

/-- The object of a property without `=`. -/
def nestedObject? (p : Property) : Option Object :=
  if p.hasAssignment then none else (p.children.drop 1).findSome? (·.as? .object)

def hasErrorValue (p : Property) : Bool :=
  p.hasAssignment && (p.children.drop 1).any (·.kind = .error)

/-- A name alone, as in a list of names. -/
def isItem (p : Property) : Bool := !p.hasAssignment && p.nestedObject?.isNone

end Property

namespace Value

def literal? (v : Value) : Option Literal := v.as? .literal

def object? (v : Value) : Option Object := v.as? .object

end Value

namespace VariableDeclaration

def name? (v : VariableDeclaration) : Option String := (v.token? .identifier).map (·.text)

def value? (v : VariableDeclaration) : Option Value :=
  (v.childrenAfter .equals).findSome? (·.as? .value)

end VariableDeclaration

namespace InvocationExpression

def callee? (i : InvocationExpression) : Option ReferenceExpression :=
  i.firstChild? .referenceExpression

def arguments (i : InvocationExpression) : List Value :=
  (i.childrenAfter .openParen).filterMap (·.as? .value)

def isClosed (i : InvocationExpression) : Bool := i.hasToken .closeParen

end InvocationExpression

def InvocationElement.expression? (i : InvocationElement) : Option InvocationExpression :=
  i.firstChild? .invocationExpression

def ConstructorReference.target? (c : ConstructorReference) : Option ConstructorTarget :=
  c.firstChild? .constructorTarget

def ContextualPropertyReference.reference? (c : ContextualPropertyReference) :
    Option ReferenceExpression :=
  c.firstChild? .referenceExpression

namespace ContextName

def isNegated (c : ContextName) : Bool := c.hasToken .bangAt

def name? (c : ContextName) : Option String := (c.token? .identifier).map (·.text)

end ContextName

def Node.contextNames (n : Node) : List ContextName := n.childrenAs .contextName

def ContextualElement.contexts (c : ContextualElement) : List String :=
  c.contextNames.filterMap ContextName.name?

def ContextualStatement.statement? (c : ContextualStatement) : Option ObjectElement :=
  c.firstChild? .objectElement

namespace Node

def elements (n : Node) : List ObjectElement := n.childrenAs .objectElement

/-- The element that `m` brings into a list without contexts: itself, or the one it is about. A
context block brings none; those in it count instead. -/
def flattened? (m : Node) : Option ObjectElement :=
  match m.phrase? with
  | some (.contextBlock _) => none
  | some (.contextualStatement c) => ContextualStatement.statement? c
  | _ => m.as? .objectElement

def allElements (n : Node) : List ObjectElement :=
  (n.below (·.kind = .contextBlock)).filterMap flattened?

def allProperties (n : Node) : List Property := n.allElements.filterMap (·.as? .property)

def findProperty? (n : Node) (name : String) : Option Property :=
  n.allProperties.find? (Property.nameText? · = some name)

end Node

namespace Object

def constructor? (o : Object) : Option ConstructorReference := o.firstChild? .constructorReference

def properties (o : Object) : List Property := o.childrenAs .property

def items (o : Object) : List String :=
  (o.allProperties.filter Property.isItem).filterMap Property.nameText?

def isClosed (o : Object) : Bool := o.hasToken .closeBrace

end Object
end ConfigSyntax
