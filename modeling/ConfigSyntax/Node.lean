import ConfigSyntax.Tree

/-! Nodes of a tree with their place in it. -/

namespace ConfigSyntax

/-- One level of a tree: a node without what is above it. Its siblings in front, nodes and tokens,
are listed with the nearest first. -/
structure Frame where
  kind : Kind
  trees : List Tree
  start : Nat
  before : List Tree

structure Node extends Frame where
  above : List Frame

inductive Part where
  | token (token : Token)
  | node (node : Node)

namespace Part

def token? : Part → Option Token
  | .token t => some t
  | .node _ => none

def node? : Part → Option Node
  | .token _ => none
  | .node n => some n

def isToken (k : Kind) : Part → Bool
  | .token t => t.kind = k
  | .node _ => false

/-- The parts that `trees` are, below `above` and behind `before`. -/
def ofTrees (above : List Frame) (start : Nat) (before : List Tree) : List Tree → List Part
  | [] => []
  | t :: ts =>
    (match t with
      | .token k s => .token ⟨k, s, start⟩
      | .node k us => .node ⟨⟨k, us, start, before⟩, above⟩) ::
    ofTrees above (start + t.width) (t :: before) ts

end Part

namespace Node

def ofTree? : Tree → Option Node
  | .token .. => none
  | .node k ts => some ⟨⟨k, ts, 0, []⟩, []⟩

def range (n : Node) : Range := .ofWidth n.start (Tree.widthOfAll n.trees)

def text (n : Node) : String := Tree.textOfAll n.trees

def parent? (n : Node) : Option Node :=
  match n.above with
  | [] => none
  | f :: above => some ⟨f, above⟩

def root (n : Node) : Node := (n.above.getLast?.map (⟨·, []⟩)).getD n

def parts (n : Node) : List Part := Part.ofTrees (n.toFrame :: n.above) n.start [] n.trees

def children (n : Node) : List Node := n.parts.filterMap (·.node?)

def tokens (n : Node) : List Token := n.parts.filterMap (·.token?)

def token? (n : Node) (k : Kind) : Option Token := n.tokens.find? (·.kind = k)

def hasToken (n : Node) (k : Kind) : Bool := n.tokens.any (·.kind = k)

def childrenAfter (n : Node) (k : Kind) : List Node :=
  (n.parts.dropWhile (!·.isToken k)).filterMap (·.node?)

mutual

/-- The nodes of a tree, each in front of those below it. Only nodes that `enters` holds of are
looked into. -/
def preorderOf (enters : Node → Bool) (above : List Frame) (start : Nat) (before : List Tree) :
    Tree → List Node
  | .token .. => []
  | .node k ts =>
    let n : Node := ⟨⟨k, ts, start, before⟩, above⟩
    n :: if enters n then preorderOfAll enters (n.toFrame :: above) start [] ts else []

def preorderOfAll (enters : Node → Bool) (above : List Frame) (start : Nat) (before : List Tree) :
    List Tree → List Node
  | [] => []
  | t :: ts =>
    preorderOf enters above start before t ++
      preorderOfAll enters above (start + t.width) (t :: before) ts

end

def below (enters : Node → Bool) (n : Node) : List Node :=
  preorderOfAll enters (n.toFrame :: n.above) n.start [] n.trees

def preorder (enters : Node → Bool) (n : Node) : List Node :=
  n :: if enters n then n.below enters else []

def descendants (n : Node) : List Node := n.preorder fun _ => true

end Node
end ConfigSyntax
