import ConfigSyntax.Context

/-! What the grammar makes of a text: a tree over the kinds of its significant tokens, with every
missing piece and every skipped run in its place. -/

namespace ConfigSyntax

inductive Construct where
  | element | value
  deriving DecidableEq, Repr

def Construct.first : Construct → List Kind
  | element => Kind.objectElementFirst
  | value => Kind.valueFirst

inductive Group where
  | object | contextBlock | arguments
  deriving DecidableEq, Repr

namespace Group

def opener : Group → Kind
  | object | contextBlock => .openBrace
  | arguments => .openParen

def closer : Group → Kind
  | object | contextBlock => .closeBrace
  | arguments => .closeParen

def holds : Group → Construct
  | object | contextBlock => .element
  | arguments => .value

def context : Group → Context
  | object => .objectBody
  | contextBlock => .contextBlockBody
  | arguments => .argumentList

/-- The tokens that end the group. A brace also ends arguments, whose own closer is missing then. -/
def ends : Group → List Kind
  | object | contextBlock => [.closeBrace]
  | arguments => [.closeParen, .closeBrace]

def name : Group → String
  | object => "object"
  | contextBlock => "context block"
  | arguments => "argument list"

end Group

inductive Gap where
  | closer (group : Group)
  | variableName
  | assignment
  | statement
  | contextName
  deriving DecidableEq, Repr

inductive Skip where
  | unexpected (context : Context)
  | noValue (context : Context)
  | tooDeep
  deriving DecidableEq, Repr

inductive Outline where
  | token (kind : Kind)
  | gap (gap : Gap)
  | skipped (why : Skip) (kinds : List Kind)
  | node (kind : Kind) (parts : List Outline)
  deriving Repr

end ConfigSyntax
