/-! The codes diagnostics are filed under. -/

namespace ConfigSyntax

inductive Code where
  | invalidCharacter | unterminatedString | unterminatedComment
  | unclosedBrace | unclosedParen | unexpectedCloser | tooDeep
  | missingName | missingAssignment | missingStatement | missingContextName
  | missingValue | invalidArgument
  | unexpectedToken | expectedToken | internal
  deriving DecidableEq, Repr

/-- The group a code belongs to, which is the third character of its name. -/
inductive Code.Family where
  | lexical | structural | declaration | value | general
  deriving DecidableEq, Repr

namespace Code

def all : List Code :=
  [invalidCharacter, unterminatedString, unterminatedComment, unclosedBrace, unclosedParen,
    unexpectedCloser, tooDeep, missingName, missingAssignment, missingStatement,
    missingContextName, missingValue, invalidArgument, unexpectedToken, expectedToken, internal]

def name : Code → String
  | invalidCharacter => "E0101"
  | unterminatedString => "E0102"
  | unterminatedComment => "E0103"
  | unclosedBrace => "E0201"
  | unclosedParen => "E0202"
  | unexpectedCloser => "E0203"
  | tooDeep => "E0204"
  | missingName => "E0301"
  | missingAssignment => "E0302"
  | missingStatement => "E0303"
  | missingContextName => "E0304"
  | missingValue => "E0401"
  | invalidArgument => "E0402"
  | unexpectedToken => "E0901"
  | expectedToken => "E0902"
  | internal => "E0999"

instance : ToString Code := ⟨name⟩

def ofName? (s : String) : Option Code := all.find? (·.name = s)

def family : Code → Family
  | invalidCharacter | unterminatedString | unterminatedComment => .lexical
  | unclosedBrace | unclosedParen | unexpectedCloser | tooDeep => .structural
  | missingName | missingAssignment | missingStatement | missingContextName => .declaration
  | missingValue | invalidArgument => .value
  | unexpectedToken | expectedToken | internal => .general

def Family.description : Family → String
  | lexical => "lexical error"
  | structural => "structural error"
  | declaration => "declaration error"
  | value => "value error"
  | general => "syntax error"

def defaultMessage : Code → String
  | invalidCharacter => "invalid character"
  | unterminatedString => "unterminated string literal"
  | unterminatedComment => "unterminated block comment"
  | unclosedBrace => "unclosed brace"
  | unclosedParen => "unclosed parenthesis"
  | unexpectedCloser => "unexpected closing delimiter"
  | tooDeep => "nesting too deep"
  | missingName => "missing identifier"
  | missingAssignment => "missing '='"
  | missingStatement => "missing statement after context names"
  | missingContextName => "missing context name"
  | missingValue => "expected value"
  | invalidArgument => "invalid argument"
  | unexpectedToken => "unexpected token"
  | expectedToken => "expected token"
  | internal => "internal parser error"

def isLexical (c : Code) : Bool := c.family = .lexical

def isStructural (c : Code) : Bool := c.family = .structural

def isRecoverable (c : Code) : Bool := c ≠ .internal

end Code
end ConfigSyntax
