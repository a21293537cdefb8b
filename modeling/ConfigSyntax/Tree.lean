import ConfigSyntax.Token

/-! Trees that keep every token of a text. -/

namespace ConfigSyntax

inductive Tree where
  | token (kind : Kind) (text : String)
  | node (kind : Kind) (parts : List Tree)
  deriving Repr

def Token.leaf (t : Token) : Tree := .token t.kind t.text

namespace Tree

def kind : Tree → Kind
  | .token k _ | .node k _ => k

def isNode : Tree → Bool
  | .token .. => false
  | .node .. => true

mutual

def text : Tree → String
  | .token _ s => s
  | .node _ ts => textOfAll ts

def textOfAll : List Tree → String
  | [] => ""
  | t :: ts => text t ++ textOfAll ts

end

mutual

def width : Tree → Nat
  | .token _ s => s.utf8ByteSize
  | .node _ ts => widthOfAll ts

def widthOfAll : List Tree → Nat
  | [] => 0
  | t :: ts => width t + widthOfAll ts

end

end Tree
end ConfigSyntax
