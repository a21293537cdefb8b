import ConfigSyntax.Node.Typed

/-! Visitors: a method for each category, and where a visit goes on below a node. -/

namespace ConfigSyntax

namespace Category

def height : Category → Nat
  | node | propertyName | constructorTarget => 0
  | value | objectElement | file | contextName | constructorReference | error => 1
  | literal | object | invocationExpression | referenceExpression | contextualPropertyReference
  | contextualElement | property | invocationElement | variableDeclaration => 2
  | stringLiteral | numberLiteral | booleanLiteral | nullLiteral
  | contextBlock | contextualStatement => 3

theorem height_of_wider? {c d : Category} (wider : c.wider? = some d) : d.height < c.height := by
  revert d
  cases c <;> simp [wider?, height]

theorem kinds_of_wider? {c d : Category} (wider : c.wider? = some d) :
    ∀ k ∈ c.kinds, k ∈ d.kinds := by
  revert d
  cases c <;> simp only [wider?, Option.some.injEq, forall_eq', reduceCtorEq, false_imp_iff,
    implies_true] <;> decide

theorem has_of_ofKind? {k : Kind} {c : Category} (own : ofKind? k = some c) : c.has k = true := by
  revert c
  cases k <;> simp [ofKind?] <;> decide

end Category

def Typed.widen {c d : Category} (n : Typed c) (wider : c.wider? = some d) : Typed d where
  toNode := n.toNode
  has_kind := by
    have member := Category.kinds_of_wider? wider n.kind (List.contains_iff_mem.mp n.has_kind)
    exact List.contains_iff_mem.mpr member

/-- The methods that a visitor overrides, and whether they go on to the nodes below. -/
structure Visitor (State : Type) where
  handle? : Category → Option (Node → State → State)
  enters : Category → Bool

namespace Visitor

variable {State : Type} (v : Visitor State)

/-- The method of a category; `walk` visits the nodes below. A method that is not overridden
forwards to the one of the next wider category, and the one that all end in walks. -/
def call (walk : State → State) {c : Category} (n : Typed c) (state : State) : State :=
  match v.handle? c with
  | some handle =>
    let state := handle n.toNode state
    if v.enters c then walk state else state
  | none =>
    match wider : c.wider? with
    | none => walk state
    | some _ => call walk (n.widen wider) state
termination_by c.height
decreasing_by exact Category.height_of_wider? wider

section

variable (walk : State → State) {c : Category} (n : Typed c) (state : State)

theorem call_of_handled {handle : Node → State → State} (handled : v.handle? c = some handle) :
    v.call walk n state =
      if v.enters c then walk (handle n.toNode state) else handle n.toNode state := by
  rw [call, handled]

theorem call_of_wider {d : Category} (free : v.handle? c = none) (wider : c.wider? = some d) :
    v.call walk n state = v.call walk (n.widen wider) state := by
  rw [call, free]
  dsimp only
  split
  next last => cases wider.symm.trans last
  next e other =>
    obtain rfl : d = e := Option.some.inj (wider.symm.trans other)
    rfl

theorem call_of_last (free : v.handle? c = none) (last : c.wider? = none) :
    v.call walk n state = walk state := by
  rw [call, free]
  dsimp only
  split
  next => rfl
  next d wider => cases last.symm.trans wider

end

/-- Calls the method of the node's own kind. A node of a kind without one is passed through; no
tree that is parsed has such nodes. -/
def accept (walk : State → State) (n : Node) (state : State) : State :=
  match own : Category.ofKind? n.kind with
  | none => walk state
  | some _ => v.call walk ⟨n, Category.has_of_ofKind? own⟩ state

theorem accept_of_own (walk : State → State) {n : Node} (state : State) {c : Category}
    (own : Category.ofKind? n.kind = some c) :
    v.accept walk n state = v.call walk ⟨n, Category.has_of_ofKind? own⟩ state := by
  unfold accept
  split
  next missing => cases own.symm.trans missing
  next d other =>
    obtain rfl : c = d := Option.some.inj (own.symm.trans other)
    rfl

theorem accept_of_none (walk : State → State) {n : Node} (state : State)
    (missing : Category.ofKind? n.kind = none) : v.accept walk n state = walk state := by
  unfold accept
  split
  next => rfl
  next c own => cases missing.symm.trans own

mutual

def visitTree (above : List Frame) (start : Nat) (before : List Tree) : Tree → State → State
  | .token .., state => state
  | .node k ts, state =>
    let n : Node := ⟨⟨k, ts, start, before⟩, above⟩
    v.accept (fun state => visitTrees (n.toFrame :: above) start [] ts state) n state

def visitTrees (above : List Frame) (start : Nat) (before : List Tree) :
    List Tree → State → State
  | [], state => state
  | t :: ts, state =>
    visitTrees above (start + t.width) (t :: before) ts (visitTree above start before t state)

end

def walk (n : Node) (state : State) : State :=
  v.visitTrees (n.toFrame :: n.above) n.start [] n.trees state

def visit (n : Node) (state : State) : State := v.accept (v.walk n) n state

end Visitor
end ConfigSyntax
