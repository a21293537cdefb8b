import ConfigSyntax.Node.Typed
import ConfigSyntax.Text.Number
import ConfigSyntax.Text.Quoted

/-! Names and literals: nodes that stand for a text. -/

namespace ConfigSyntax

def Node.literalToken? (n : Node) : Option Token := n.tokens.find? (!·.isTrivia)

def Node.literalText (n : Node) : String := (n.literalToken?.map (·.text)).getD ""

namespace StringLiteral

def isSingleQuoted (s : StringLiteral) : Bool := s.literalToken?.any (·.kind = .singleQuoted)

def isTerminated (s : StringLiteral) : Bool :=
  Text.isClosed (if s.isSingleQuoted then '\'' else '"') s.literalText.toList

def contents (s : StringLiteral) : List Char :=
  let cs := Text.afterQuote s.literalText.toList
  if s.isTerminated then cs.dropLast else cs

def value (s : StringLiteral) : String := .ofList (Text.unescape s.contents)

end StringLiteral

namespace NumberLiteral

def int? (n : NumberLiteral) : Option Int := Text.int64? n.literalText.toList

def double? (n : NumberLiteral) : Option UInt64 := Text.double? n.literalText.toList

end NumberLiteral

namespace BooleanLiteral

def value (b : BooleanLiteral) : Bool := b.hasToken .trueWord

def text (b : BooleanLiteral) : String := if b.value then "true" else "false"

end BooleanLiteral

namespace ReferenceExpression

def segments (r : ReferenceExpression) : List Token := r.tokens.filter (·.kind = .identifier)

def dotted (r : ReferenceExpression) : String := ".".intercalate (r.segments.map (·.text))

def name? (r : ReferenceExpression) : Option String := r.segments.getLast?.map (·.text)

end ReferenceExpression

def Node.scalar? (n : Node) : Option String :=
  match n.phrase? with
  | some (.referenceExpression r) => some (ReferenceExpression.dotted r)
  | some (.stringLiteral s) => some (StringLiteral.value s)
  | some (.numberLiteral n) => some n.literalText
  | some (.booleanLiteral b) => some (BooleanLiteral.text b)
  | some (.nullLiteral _) => some "null"
  | _ => none

def PropertyName.text (p : PropertyName) : String := p.scalar?.getD ""

def Literal.text (l : Literal) : String := l.scalar?.getD ""

end ConfigSyntax
