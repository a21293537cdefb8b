/-! The kinds of tokens and nodes, and the classes of kinds the grammar asks about. -/

namespace ConfigSyntax

/-- Tokens come first, from `whitespace` to `eof`, then nodes, from `file` to `error`. An `error`
may be either: a character that starts no token, or a node around what the grammar skipped.
`tombstone` is neither. -/
inductive Kind where
  | whitespace | lineComment | blockComment
  | identifier | number | singleQuoted | doubleQuoted
  | trueWord | falseWord | nullWord | valWord
  | openBrace | closeBrace | openParen | closeParen | openBracket | closeBracket
  | comma | dot | colon | equals | atSign | bangAt | hash
  | eof
  | file | object | property | constructorReference | referenceExpression
  | contextualPropertyReference | invocationExpression | invocationElement
  | contextBlock | contextualStatement | contextName | variableDeclaration
  | stringLiteral | numberLiteral | booleanLiteral | nullLiteral
  | error | tombstone
  deriving DecidableEq, Repr

namespace Kind

def all : List Kind :=
  [whitespace, lineComment, blockComment, identifier, number, singleQuoted, doubleQuoted,
    trueWord, falseWord, nullWord, valWord, openBrace, closeBrace, openParen, closeParen,
    openBracket, closeBracket, comma, dot, colon, equals, atSign, bangAt, hash, eof, file, object,
    property, constructorReference, referenceExpression, contextualPropertyReference,
    invocationExpression, invocationElement, contextBlock, contextualStatement, contextName,
    variableDeclaration, stringLiteral, numberLiteral, booleanLiteral, nullLiteral, error,
    tombstone]

def toNat (k : Kind) : Nat := k.ctorIdx

def ofNat? (n : Nat) : Option Kind := all[n]?

@[simp]
theorem ofNat?_toNat (k : Kind) : ofNat? k.toNat = some k := by cases k <;> rfl

def name : Kind → String
  | whitespace => "WHITESPACE"
  | lineComment => "LINE_COMMENT"
  | blockComment => "BLOCK_COMMENT"
  | identifier => "IDENTIFIER"
  | number => "NUMBER"
  | singleQuoted => "SINGLE_QUOTED_STRING"
  | doubleQuoted => "DOUBLE_QUOTED_STRING"
  | trueWord => "TRUE_KW"
  | falseWord => "FALSE_KW"
  | nullWord => "NULL_KW"
  | valWord => "VAL_KW"
  | openBrace => "L_CURLY"
  | closeBrace => "R_CURLY"
  | openParen => "L_PAREN"
  | closeParen => "R_PAREN"
  | openBracket => "L_BRACKET"
  | closeBracket => "R_BRACKET"
  | comma => "COMMA"
  | dot => "DOT"
  | colon => "COLON"
  | equals => "EQ"
  | atSign => "AT"
  | bangAt => "NEGAT"
  | hash => "SHARP"
  | eof => "EOF"
  | file => "FILE"
  | object => "OBJECT"
  | property => "PROPERTY"
  | constructorReference => "CONSTRUCTOR_REFERENCE"
  | referenceExpression => "REFERENCE_EXPRESSION"
  | contextualPropertyReference => "CONTEXTUAL_PROPERTY_REFERENCE"
  | invocationExpression => "INVOCATION_EXPRESSION"
  | invocationElement => "INVOCATION_ELEMENT"
  | contextBlock => "CONTEXT_BLOCK"
  | contextualStatement => "CONTEXTUAL_STATEMENT"
  | contextName => "CONTEXT_NAME"
  | variableDeclaration => "VARIABLE_DECLARATION"
  | stringLiteral => "STRING_LITERAL"
  | numberLiteral => "NUMBER_LITERAL"
  | booleanLiteral => "BOOLEAN_LITERAL"
  | nullLiteral => "NULL_LITERAL"
  | error => "ERROR"
  | tombstone => "TOMBSTONE"

def ofName? (s : String) : Option Kind := all.find? (·.name = s)

def description : Kind → String
  | whitespace => "whitespace"
  | lineComment | blockComment => "comment"
  | identifier => "identifier"
  | number => "number"
  | singleQuoted | doubleQuoted => "string"
  | trueWord => "'true'"
  | falseWord => "'false'"
  | nullWord => "'null'"
  | valWord => "'val'"
  | openBrace => "'\x7b'"
  | closeBrace => "'\x7d'"
  | openParen => "'('"
  | closeParen => "')'"
  | openBracket => "'['"
  | closeBracket => "']'"
  | comma => "','"
  | dot => "'.'"
  | colon => "':'"
  | equals => "'='"
  | atSign => "'@'"
  | bangAt => "'!@'"
  | hash => "'#'"
  | eof => "end of file"
  | error => "invalid character"
  | _ => "syntax node"

def isTrivia : Kind → Bool
  | whitespace | lineComment | blockComment => true
  | _ => false

def isKeyword : Kind → Bool
  | trueWord | falseWord | nullWord | valWord => true
  | _ => false

def isPunctuation : Kind → Bool
  | openBrace | closeBrace | openParen | closeParen | openBracket | closeBracket
  | comma | dot | colon | equals | atSign | bangAt | hash => true
  | _ => false

def isString : Kind → Bool
  | singleQuoted | doubleQuoted => true
  | _ => false

def isToken (k : Kind) : Bool := k.toNat ≤ eof.toNat

def isNode (k : Kind) : Bool := file.toNat ≤ k.toNat && k.toNat ≤ error.toNat

def objectElements : List Kind :=
  [contextBlock, contextualStatement, invocationElement, variableDeclaration, property]

def values : List Kind :=
  [object, stringLiteral, numberLiteral, booleanLiteral, nullLiteral, invocationExpression,
    contextualPropertyReference, referenceExpression]

def literals : List Kind := [stringLiteral, numberLiteral, booleanLiteral, nullLiteral]

def isObjectElement (k : Kind) : Bool := objectElements.contains k

def isValue (k : Kind) : Bool := values.contains k

def isLiteral (k : Kind) : Bool := literals.contains k

def propertyNameFirst : List Kind :=
  [identifier, singleQuoted, doubleQuoted, number, trueWord, falseWord, nullWord]

def valueFirst : List Kind :=
  [openBrace, identifier, dot, singleQuoted, doubleQuoted, number, trueWord, falseWord, nullWord]

def contextMarkers : List Kind := [atSign, bangAt]

def objectElementFirst : List Kind :=
  [atSign, bangAt, valWord, identifier, singleQuoted, doubleQuoted, number, trueWord, falseWord,
    nullWord]

def groupOpeners : List Kind := [openBrace, openParen]

def closingDelimiters : List Kind := [closeBrace, closeParen, closeBracket]

def isOpener (k : Kind) : Bool := groupOpeners.contains k

/-- What closes a group; a bracket neither opens nor closes one. -/
def isCloser : Kind → Bool
  | closeBrace | closeParen => true
  | _ => false

end Kind
end ConfigSyntax
