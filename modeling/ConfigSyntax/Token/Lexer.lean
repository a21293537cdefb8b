import ConfigSyntax.Token

/-! Cutting a text into tokens. Nothing is refused: a character that starts no token is an `error`
token of its own. -/

namespace ConfigSyntax.Lexer

def isBlank (c : Char) : Bool := c = ' ' || c = '\t' || c = '\r' || c = '\n' || c = '\x0c'

def isNameStart (c : Char) : Bool := c.isAlpha || c = '_' || c = '$'

def isNamePart (c : Char) : Bool := isNameStart c || c.isDigit

def run (p : Char → Bool) (cs : List Char) : Nat := (cs.takeWhile p).length

/-- The length up to the end of a block comment, `*/` included; all of the text if there is none. -/
def commentRest : List Char → Nat
  | [] => 0
  | '*' :: '/' :: _ => 2
  | _ :: cs => commentRest cs + 1

/-- The length of a string after its opening quote. It ends with the closing quote, or in front of
the end of the line. A backslash takes the next character of the line along. -/
def stringRest (quote : Char) : List Char → Nat
  | [] => 0
  | '\\' :: c :: cs => if c = '\n' then 1 else stringRest quote cs + 2
  | c :: cs => if c = quote then 1 else if c = '\n' then 0 else stringRest quote cs + 1

def fraction : List Char → Nat
  | '.' :: cs => if run Char.isDigit cs = 0 then 0 else run Char.isDigit cs + 1
  | _ => 0

def sign : List Char → Nat
  | '+' :: _ | '-' :: _ => 1
  | _ => 0

def exponent : List Char → Nat
  | [] => 0
  | c :: cs =>
    let digits := run Char.isDigit (cs.drop (sign cs))
    if (c = 'e' || c = 'E') && digits ≠ 0 then 1 + sign cs + digits else 0

/-- The length of a number after its first digit. A point or an exponent belongs to it only with a
digit behind. -/
def numberRest (cs : List Char) : Nat :=
  let whole := run Char.isDigit cs
  let point := fraction (cs.drop whole)
  whole + point + exponent (cs.drop (whole + point))

def word (cs : List Char) : Kind :=
  match String.ofList cs with
  | "true" => .trueWord
  | "false" => .falseWord
  | "null" => .nullWord
  | "val" => .valWord
  | _ => .identifier

def punctuation? : Char → Option Kind
  | '{' => some .openBrace
  | '}' => some .closeBrace
  | '(' => some .openParen
  | ')' => some .closeParen
  | '[' => some .openBracket
  | ']' => some .closeBracket
  | ',' => some .comma
  | '.' => some .dot
  | ':' => some .colon
  | '=' => some .equals
  | '@' => some .atSign
  | '#' => some .hash
  | _ => none

/-- The kind of the token that starts with `c`, and how many characters of `cs` belong to it. -/
def next (c : Char) (cs : List Char) : Kind × Nat :=
  if isBlank c then (.whitespace, run isBlank cs)
  else if isNameStart c then
    (word (c :: cs.takeWhile isNamePart), run isNamePart cs)
  else if c.isDigit then (.number, numberRest cs)
  else
    match c, cs with
    | '-', d :: ds => if d.isDigit then (.number, 1 + numberRest ds) else (.error, 0)
    | '/', '/' :: ds => (.lineComment, 1 + run (· ≠ '\n') ds)
    | '/', '*' :: ds => (.blockComment, 1 + commentRest ds)
    | '!', '@' :: _ => (.bangAt, 1)
    | '\'', _ => (.singleQuoted, stringRest '\'' cs)
    | '"', _ => (.doubleQuoted, stringRest '"' cs)
    | _, _ => ((punctuation? c).getD .error, 0)

/-- The tokens of `cs`, the first one at `offset`. Each takes a character at least, so the length of
`cs` is fuel enough. -/
def cut : Nat → Nat → List Char → List Token
  | 0, _, _ | _, _, [] => []
  | fuel + 1, offset, c :: cs =>
    let token := next c cs
    let text := String.ofList (c :: cs.take token.2)
    ⟨token.1, text, offset⟩ :: cut fuel (offset + text.utf8ByteSize) (cs.drop token.2)

end Lexer

def lex (text : String) : List Token := Lexer.cut text.length 0 text.toList

def tokenize (text : String) : List Token := lex text ++ [.endAt text.utf8ByteSize]

end ConfigSyntax
