import ConfigSyntax.Kind

/-! Where in a file the reader stands: what it says there, and where it goes on after an error. -/

namespace ConfigSyntax

inductive Context where
  | topLevel | objectBody | contextBlockBody | argumentList | propertyValue
  | variableDeclaration | contextNames
  deriving DecidableEq, Repr

namespace Context

instance : Inhabited Context := ⟨topLevel⟩

def all : List Context :=
  [topLevel, objectBody, contextBlockBody, argumentList, propertyValue, variableDeclaration,
    contextNames]

def description : Context → String
  | topLevel => "at top level"
  | objectBody => "in object body"
  | contextBlockBody => "in context block"
  | argumentList => "in argument list"
  | propertyValue => "in property value"
  | variableDeclaration => "in variable declaration"
  | contextNames => "after context names"

def expected : Context → String
  | topLevel => "a property, invocation, variable declaration or context"
  | objectBody | contextBlockBody =>
    "a property, invocation, variable declaration, context or '\x7d'"
  | argumentList => "an argument value or ')'"
  | propertyValue | variableDeclaration => "a value (object, literal, invocation or reference)"
  | contextNames => "'\x7b', an invocation, a variable declaration or a property"

def recovery : Context → List Kind
  | topLevel =>
    [.identifier, .singleQuoted, .doubleQuoted, .number, .trueWord, .falseWord, .nullWord,
      .valWord, .atSign, .bangAt, .hash]
  | objectBody | contextBlockBody | contextNames =>
    [.closeBrace, .comma, .identifier, .singleQuoted, .doubleQuoted, .number, .trueWord,
      .falseWord, .nullWord, .valWord, .atSign, .bangAt, .hash]
  | argumentList =>
    [.closeParen, .closeBrace, .comma, .openBrace, .dot, .identifier, .singleQuoted,
      .doubleQuoted, .number, .trueWord, .falseWord, .nullWord]
  | propertyValue | variableDeclaration =>
    [.closeBrace, .closeParen, .comma, .openBrace, .identifier, .singleQuoted, .doubleQuoted,
      .number, .trueWord, .falseWord, .nullWord, .valWord, .atSign, .bangAt, .hash]

def stopsAt (c : Context) (k : Kind) : Bool := c.recovery.contains k

end Context
end ConfigSyntax
