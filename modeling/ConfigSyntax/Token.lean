import ConfigSyntax.Kind
import ConfigSyntax.Range
import ConfigSyntax.Text.Quoted

/-! Tokens: a kind, the text it was read from, and where that text starts. -/

namespace ConfigSyntax

structure Token where
  kind : Kind
  text : String
  offset : Nat
  deriving DecidableEq, Repr

namespace Token

def range (t : Token) : Range := .ofWidth t.offset t.text.utf8ByteSize

def isTrivia (t : Token) : Bool := t.kind.isTrivia

def isUnterminated (t : Token) : Bool :=
  match t.kind with
  | .singleQuoted => !Text.isClosed '\'' t.text.toList
  | .doubleQuoted => !Text.isClosed '"' t.text.toList
  | .blockComment => t.text.utf8ByteSize < 4 || !(['*', '/'].isSuffixOf t.text.toList)
  | _ => false

def found (t : Token) : String :=
  match t.kind with
  | .identifier => s!"identifier '{t.text}'"
  | k => k.description

def endAt (offset : Nat) : Token := ⟨.eof, "", offset⟩

end Token
end ConfigSyntax
