import ConfigSyntax.Node.Element
import ConfigSyntax.Node.Scalar
import ConfigSyntax.Proofs.Blanks
import ConfigSyntax.Proofs.Descendants
import ConfigSyntax.Proofs.Patterns.Slices
import ConfigSyntax.Proofs.Visits

/-! What the accessors of a node give: each child once, in the order of the children. Main
statement: `parse_accounts`. -/

namespace ConfigSyntax

open Token (significant leaves)

namespace Symbol

def nodeKind? : Symbol → Option Kind
  | .node k _ => some k
  | _ => none

def Among (ks : List Kind) (s : Symbol) : Prop := ∀ k ∈ s.nodeKind?, k ∈ ks

theorem among_token (ks : List Kind) (k : Kind) : Among ks (.token k) := nofun

theorem among_node {ks : List Kind} {k : Kind} (known : k ∈ ks) (c : Bool) : Among ks (.node k c) :=
  fun _ same => Option.some.inj same ▸ known

end Symbol

namespace Schema

open scoped Computability

theorem among_construct (c : Construct) : Over (Symbol.Among c.kinds) (construct c) := by
  intro w word
  exact over_nodeOf (fun _ known => Symbol.among_node known) w (nodeOf_of_construct word)

theorem among_group (g : Group) :
    Over (Symbol.Among g.holds.kinds) (group (fun _ => 1) g) := by
  have token (k : Kind) : Over (Symbol.Among g.holds.kinds) (token k) :=
    over_token (Symbol.among_token _ k)
  have items := over_star (over_mul (among_construct g.holds) (over_add over_one (token .comma)))
  exact over_mul (over_mul (token _) items) (over_add (token _) over_one)

theorem cons_of_group {g : Group} {w : List Symbol} (word : w ∈ group (fun _ => 1) g) :
    ∃ rest, w = .token g.opener :: rest ∧ ∀ s ∈ rest, s.Among g.holds.kinds := by
  have among := among_group g w word
  obtain ⟨_, ⟨_, rfl, items, -, rfl⟩, close, -, rfl⟩ := word
  exact ⟨items ++ close, rfl, fun s member => among s (List.mem_cons_of_mem _ member)⟩

end Schema

theorem Part.kinds_nodes (ps : List Part) :
    (ps.filterMap (·.node?)).map (·.kind) = (ps.map Part.symbol).filterMap (·.nodeKind?) := by
  rw [List.map_filterMap, List.filterMap_map]
  congr 1
  funext p
  cases p <;> rfl

namespace Node

theorem kinds_children (n : Node) :
    n.children.map (·.kind) = n.symbols.filterMap (·.nodeKind?) := by
  rw [children_visible, ← symbols_visible, Part.kinds_nodes]

theorem children_of_append {n : Node} {front back : List Symbol}
    (split : n.symbols = front ++ back) :
    ∃ ms ms', n.children = ms ++ ms' ∧ ms.map (·.kind) = front.filterMap (·.nodeKind?) ∧
      ms'.map (·.kind) = back.filterMap (·.nodeKind?) := by
  have kinds := n.kinds_children
  rw [split, List.filterMap_append] at kinds
  exact List.map_eq_append_iff.mp kinds

theorem kind_of_among {ms : List Node} {w : List Symbol} {ks : List Kind}
    (kinds : ms.map (·.kind) = w.filterMap (·.nodeKind?)) (among : ∀ s ∈ w, s.Among ks) :
    ∀ m ∈ ms, m.kind ∈ ks := by
  intro m member
  have present : m.kind ∈ w.filterMap (·.nodeKind?) := by
    rw [← kinds]
    exact List.mem_map_of_mem member
  obtain ⟨s, inside, kind⟩ := List.mem_filterMap.mp present
  exact among s inside _ kind

theorem filter_kinds {ms : List Node} {ks : List Kind} {p q : Kind → Bool}
    (inside : ∀ m ∈ ms, m.kind ∈ ks) (same : ∀ k ∈ ks, p k = q k) :
    ms.filter (p ·.kind) = ms.filter (q ·.kind) :=
  List.filter_congr fun m member => same _ (inside m member)

theorem filter_none {ms : List Node} {ks : List Kind} {p : Kind → Bool}
    (inside : ∀ m ∈ ms, m.kind ∈ ks) (none : ∀ k ∈ ks, p k = false) :
    ms.filter (p ·.kind) = [] :=
  List.filter_eq_nil_iff.mpr fun m member => by simp [none _ (inside m member)]

theorem filter_all {ms : List Node} {ks : List Kind} {p : Kind → Bool}
    (inside : ∀ m ∈ ms, m.kind ∈ ks) (all : ∀ k ∈ ks, p k = true) :
    ms.filter (p ·.kind) = ms :=
  List.filter_eq_self.mpr fun m member => all _ (inside m member)

theorem map_firstChild? (n : Node) (c : Category) :
    (n.firstChild? c).map (·.toNode) = (n.children.filter (c.has ·.kind)).head? := by
  rw [firstChild?, ← List.head?_map, toNode_childrenAs]

theorem exists_firstChild {n m : Node} {c : Category}
    (first : (n.children.filter (c.has ·.kind)).head? = some m) :
    ∃ x, n.firstChild? c = some x ∧ x.toNode = m := by
  rw [← map_firstChild?] at first
  exact Option.map_eq_some_iff.mp first

theorem exists_single {n : Node} {c : Category} {k : Kind}
    (only : n.symbols.filterMap (·.nodeKind?) = [k]) (has : c.has k = true) :
    ∃ x, n.firstChild? c = some x ∧ n.children = [x.toNode] := by
  rw [← kinds_children] at only
  obtain ⟨m, children, rfl⟩ := List.map_eq_singleton_iff.mp only
  obtain ⟨x, first, rfl⟩ := exists_firstChild (n := n) (m := m) (c := c) (by simp [children, has])
  exact ⟨x, first, children⟩

theorem children_eq_nil {n : Node} (among : ∀ s ∈ n.symbols, s.Among []) : n.children = [] :=
  List.eq_nil_iff_forall_not_mem.mpr fun m member =>
    nomatch kind_of_among n.kinds_children among m member

theorem symbols_of_childless {n : Node} (childless : n.children = []) :
    n.symbols = (significant n.tokens).map fun t => .token t.kind := by
  rw [children_visible] at childless
  rw [tokens_visible, ← symbols_visible]
  revert childless
  generalize n.visible = ps
  induction ps with
  | nil => exact fun _ => rfl
  | cons p ps ih =>
      intro childless
      cases p with
      | node m => cases childless
      | token t => exact congrArg (Symbol.token t.kind :: ·) (ih childless)

def given (n : Node) : List Node := n.children.filter (·.kind ≠ .error)

end Node

def Typed.nodes {c : Category} (ns : List (Typed c)) : List Node := ns.map (·.toNode)

/-- The name comes first. Behind a sign of assignment there is one child, the value or a skipped
run; without the sign there is the nested object at most. -/
def Property.Accounted (p : Property) : Prop :=
  ∃ name, p.name? = some name ∧
    if p.hasAssignment then
      ∃ m, p.children = [name.toNode, m] ∧ (p.hasErrorValue = true ↔ m.kind = .error) ∧
        p.value?.map (·.toNode) = (if p.hasErrorValue then none else some m) ∧
          p.nestedObject? = none
    else
      p.children = name.toNode :: Typed.nodes p.nestedObject?.toList ∧ p.value? = none

/-- The accessors for a node of its kind give all its children but for skipped runs, and those that
have to give a node do. -/
def Node.Accounted (n : Node) : Prop :=
  match n.phrase? with
  | some (.file f) => f.given = Typed.nodes f.elements
  | some (.object o) =>
    o.given = Typed.nodes (Object.constructor? o).toList ++ Typed.nodes o.elements
  | some (.property p) => Property.Accounted p
  | some (.variableDeclaration v) =>
    v.given = Typed.nodes (VariableDeclaration.value? v).toList
  | some (.invocationExpression i) =>
    ∃ callee, InvocationExpression.callee? i = some callee ∧
      i.given = callee.toNode :: Typed.nodes (InvocationExpression.arguments i)
  | some (.contextBlock b) =>
    b.contextNames ≠ [] ∧ b.given = Typed.nodes b.contextNames ++ Typed.nodes b.elements
  | some (.contextualStatement s) =>
    s.contextNames ≠ [] ∧ s.children =
      Typed.nodes s.contextNames ++ Typed.nodes (ContextualStatement.statement? s).toList
  | some (.constructorReference c) =>
    ∃ target, ConstructorReference.target? c = some target ∧ c.children = [target.toNode]
  | some (.contextualPropertyReference c) =>
    ∃ reference, ContextualPropertyReference.reference? c = some reference ∧
      c.children = [reference.toNode]
  | some (.invocationElement i) =>
    ∃ expression, InvocationElement.expression? i = some expression ∧
      i.children = [expression.toNode]
  | some (.referenceExpression r) =>
    r.children = [] ∧ ReferenceExpression.segments r ≠ [] ∧
      ReferenceExpression.dotted r = Tree.textOfAll (Tree.bareAll r.trees)
  | some _ => n.children = []
  | none => False

namespace Node

theorem nodes_filterMap (ms : List Node) (c : Category) :
    Typed.nodes (ms.filterMap (·.as? c)) = ms.filter (c.has ·.kind) := by
  rw [Typed.nodes, List.map_filterMap, ← List.filterMap_eq_filter]
  congr 1
  funext m
  by_cases has : c.has m.kind = true <;> simp [as?, has, Option.guard]

theorem nodes_childrenAs (n : Node) (c : Category) :
    Typed.nodes (n.childrenAs c) = n.children.filter (c.has ·.kind) := nodes_filterMap _ _

theorem nodes_toList {c : Category} (x? : Option (Typed c)) :
    Typed.nodes x?.toList = (x?.map (·.toNode)).toList := by
  cases x? <;> rfl

theorem nodes_firstChild? (n : Node) (c : Category) :
    Typed.nodes (n.firstChild? c).toList = (n.children.filter (c.has ·.kind)).head?.toList := by
  rw [nodes_toList, map_firstChild?]

theorem has_element : ∀ k ∈ Construct.element.kinds,
    decide (k ≠ .error) = Category.objectElement.has k := by decide

theorem has_value : ∀ k ∈ Construct.value.kinds,
    decide (k ≠ .error) = Category.value.has k := by decide

theorem value_of_construct {m : Node} (known : m.kind ∈ Construct.value.kinds) :
    ([m].findSome? (·.as? .value)).map (·.toNode) = if m.kind = .error then none else some m := by
  have has := has_value m.kind known
  by_cases failed : m.kind = .error
  · have other : Category.value.has .error = false := rfl
    simp [as?, failed, other]
  · simp [as?, ← has, failed]

end Node

open Schema (production)

theorem file_accounted {n : Node} (word : n.symbols ∈ Schema.parts .file) :
    n.given = Typed.nodes n.elements := by
  have among := Node.kind_of_among n.kinds_children
    (Schema.over_star (Schema.among_construct .element) _ word)
  rw [Node.elements, Node.nodes_childrenAs]
  exact Node.filter_kinds among Node.has_element

theorem object_accounted {o : Object} (word : o.symbols ∈ Schema.parts .object) :
    o.given = Typed.nodes (Object.constructor? o).toList ++ Typed.nodes o.elements := by
  obtain ⟨a, first, b, body, split⟩ := word
  obtain ⟨ms, ms', children, front, back⟩ := Node.children_of_append split.symm
  have among := Node.kind_of_among back (Schema.among_group .object b body)
  have elements := Node.filter_kinds among Node.has_element
  have others : ms'.filter (Category.constructorReference.has ·.kind) = [] :=
    Node.filter_none among (by decide)
  rw [Node.given, Node.elements, Object.constructor?, Node.nodes_childrenAs,
    Node.nodes_firstChild?, children, List.filter_append, List.filter_append, List.filter_append,
    others, elements, List.append_nil]
  rcases first with none | ⟨k, known, c, rfl⟩
  · rw [(Language.mem_one a).mp none] at front
    obtain rfl := List.map_eq_nil_iff.mp front
    rfl
  · obtain ⟨m, rfl, kind⟩ := List.map_eq_singleton_iff.mp front
    rw [List.mem_singleton.mp known] at kind
    simp [kind, Category.has, Category.kinds, Kind.objectElements]

section

variable {p : Property} {m m' : Node} (named : Category.propertyName.has m.kind = true)

include named

theorem Property.accounted_assigned {t : Token} (sign : t.kind = .equals)
    (list : p.visible = [.node m, .token t, .node m']) (known : m'.kind ∈ Construct.value.kinds) :
    p.Accounted := by
  have children : p.children = [m, m'] := by
    rw [Node.children_visible, list]
    rfl
  have behind : p.childrenAfter .equals = [m'] := by
    rw [Node.childrenAfter_visible _ rfl, list]
    simp [Part.isToken, sign, Part.node?]
  have assigned : p.hasAssignment = true := by
    rw [hasAssignment, Node.hasToken_visible _ rfl, list]
    simp [Part.isToken, sign]
  have failed : p.hasErrorValue = decide (m'.kind = .error) := by
    simp [hasErrorValue, assigned, children]
  refine ⟨⟨m, named⟩, by simp [name?, children, Node.as?, named], ?_⟩
  rw [if_pos assigned]
  refine ⟨m', children, by simp [failed], ?_, by simp [nestedObject?, assigned]⟩
  rw [value?, behind, Node.value_of_construct known, failed]
  simp

theorem Property.accounted_plain (ms : List Node) (list : p.visible = .node m :: ms.map .node)
    (object : ms = [] ∨ ∃ o, ms = [o] ∧ o.kind = .object) : p.Accounted := by
  have children : p.children = m :: ms := by
    rw [Node.children_visible, list]
    simp [Part.node?, List.filterMap_map]
  have behind : p.childrenAfter .equals = [] := by
    have signless : p.visible.dropWhile (!·.isToken .equals) = [] := by
      rw [list, List.dropWhile_eq_nil_iff]
      simp [Part.isToken]
    rw [Node.childrenAfter_visible _ rfl, signless, List.filterMap_nil]
  have plain : p.hasAssignment = false := by
    rw [hasAssignment, Node.hasToken_visible _ rfl, list]
    simp [Part.isToken]
  refine ⟨⟨m, named⟩, by simp [name?, children, Node.as?, named], ?_⟩
  rw [if_neg (by simp [plain])]
  refine ⟨?_, by simp [value?, behind]⟩
  rw [children, nestedObject?, plain, children]
  rcases object with rfl | ⟨o, rfl, kind⟩
  · rfl
  · simp [Node.as?, kind, Category.has, Category.kinds, Typed.nodes]

end

theorem property_accounted {p : Property} (word : p.symbols ∈ Schema.parts .property) :
    p.Accounted := by
  obtain ⟨_, ⟨k, known, c, rfl⟩, b, content, split⟩ := word
  have named : Category.propertyName.has k = true := List.contains_iff_mem.mpr known
  rw [← Node.symbols_visible] at split
  obtain ⟨x, xs, list, first, rest⟩ := List.map_eq_cons_iff.mp split.symm
  obtain ⟨m, rfl, rfl⟩ := Part.eq_node first
  rcases content with (none | ⟨_, rfl, _, value, rfl⟩) | rfl
  · obtain rfl := (Language.mem_one b).mp none
    obtain rfl := List.map_eq_nil_iff.mp rest
    exact Property.accounted_plain named [] list (Or.inl rfl)
  · obtain ⟨k', known', c', rfl⟩ := Schema.nodeOf_of_construct value
    obtain ⟨y, _, rfl, second, rest⟩ := List.map_eq_cons_iff.mp rest
    obtain ⟨z, rfl, third⟩ := List.map_eq_singleton_iff.mp rest
    obtain ⟨t, rfl, sign⟩ := Part.eq_token second
    obtain ⟨m', rfl, rfl⟩ := Part.eq_node third
    exact Property.accounted_assigned named sign list known'
  · obtain ⟨y, rfl, second⟩ := List.map_eq_singleton_iff.mp rest
    obtain ⟨o, rfl, kind⟩ := Part.eq_node second
    exact Property.accounted_plain named [o] list (Or.inr ⟨o, rfl, kind⟩)

theorem declaration_accounted {v : VariableDeclaration}
    (word : v.symbols ∈ Schema.parts .variableDeclaration) :
    v.given = Typed.nodes (VariableDeclaration.value? v).toList := by
  obtain ⟨_, rfl, b, content, split⟩ := word
  rw [← Node.symbols_visible] at split
  rw [Node.given, VariableDeclaration.value?, Node.children_visible,
    Node.childrenAfter_visible _ rfl, Node.nodes_toList]
  obtain ⟨x, xs, list, first, behind⟩ := List.map_eq_cons_iff.mp split.symm
  obtain ⟨t, rfl, val⟩ := Part.eq_token first
  rcases content with none | ⟨_, rfl, b', content, rfl⟩
  · obtain rfl := (Language.mem_one b).mp none
    obtain rfl := List.map_eq_nil_iff.mp behind
    simp [list, Part.isToken, Part.node?, val]
  · obtain ⟨y, ys, rfl, second, tail⟩ := List.map_eq_cons_iff.mp behind
    obtain ⟨u, rfl, identifier⟩ := Part.eq_token second
    rcases content with none | ⟨_, rfl, _, value, rfl⟩
    · obtain rfl := (Language.mem_one b').mp none
      obtain rfl := List.map_eq_nil_iff.mp tail
      simp [list, Part.isToken, Part.node?, val, identifier]
    · obtain ⟨k, known, c, rfl⟩ := Schema.nodeOf_of_construct value
      obtain ⟨z, _, rfl, third, last⟩ := List.map_eq_cons_iff.mp tail
      obtain ⟨e, rfl, sign⟩ := Part.eq_token third
      obtain ⟨z, rfl, fourth⟩ := List.map_eq_singleton_iff.mp last
      obtain ⟨m, rfl, rfl⟩ := Part.eq_node fourth
      have behind : List.filterMap (·.node?) (v.visible.dropWhile (!·.isToken .equals)) = [m] := by
        simp [list, Part.isToken, Part.node?, val, identifier, sign]
      rw [behind, Node.value_of_construct known, list]
      by_cases failed : m.kind = .error <;> simp [Part.node?, failed]

theorem invocation_accounted {i : InvocationExpression}
    (word : i.symbols ∈ Schema.parts .invocationExpression) :
    ∃ callee, InvocationExpression.callee? i = some callee ∧
      i.given = callee.toNode :: Typed.nodes (InvocationExpression.arguments i) := by
  obtain ⟨_, ⟨k, known, c, rfl⟩, b, body, split⟩ := word
  obtain ⟨rest, rfl, among⟩ := Schema.cons_of_group body
  rw [← Node.symbols_visible] at split
  obtain ⟨x, xs, list, first, behind⟩ := List.map_eq_cons_iff.mp split.symm
  obtain ⟨callee, rfl, kind⟩ := Part.eq_node first
  obtain ⟨y, ys, rfl, second, rfl⟩ := List.map_eq_cons_iff.mp behind
  obtain ⟨t, rfl, opener⟩ := Part.eq_token second
  rw [List.mem_singleton.mp known] at kind
  have children : i.children = callee :: ys.filterMap (·.node?) := by
    rw [Node.children_visible, list]
    rfl
  have listed : i.childrenAfter .openParen = ys.filterMap (·.node?) := by
    have found : t.kind = .openParen := opener
    rw [Node.childrenAfter_visible _ rfl, list]
    simp [Part.isToken, Part.node?, found]
  have inside := Node.kind_of_among (Part.kinds_nodes ys) among
  have head : (i.children.filter (Category.referenceExpression.has ·.kind)).head? =
      some callee := by
    rw [children, List.filter_cons_of_pos (by rw [kind]; rfl), List.head?_cons]
  obtain ⟨callee, found, rfl⟩ := Node.exists_firstChild head
  refine ⟨callee, found, ?_⟩
  have arguments : Typed.nodes (InvocationExpression.arguments i) =
      (ys.filterMap (·.node?)).filter (Category.value.has ·.kind) := by
    rw [InvocationExpression.arguments, listed]
    exact Node.nodes_filterMap _ _
  rw [arguments, Node.given, children, List.filter_cons_of_pos (by simp [kind]),
    ← Node.filter_kinds inside Node.has_value]

theorem names_of_contextNames {w : List Symbol} (word : w ∈ Schema.contextNames) :
    w.filterMap (·.nodeKind?) ≠ [] ∧ ∀ s ∈ w, s.Among [.contextName] := by
  refine ⟨?_, Schema.over_contextNames (Symbol.among_node List.mem_cons_self)
    (Symbol.among_token _ _) w word⟩
  obtain ⟨_, ⟨_, ⟨k, -, c, rfl⟩, _, -, rfl⟩, _, -, rfl⟩ := word
  simp [Symbol.nodeKind?]

theorem children_of_contextNames {n : Node} {front back : List Symbol} {ks : List Kind}
    (names : front ∈ Schema.contextNames) (split : n.symbols = front ++ back)
    (others : ∀ s ∈ back, s.Among ks) (apart : ∀ k ∈ ks, Category.contextName.has k = false) :
    n.contextNames ≠ [] ∧ (∀ m ∈ Typed.nodes n.contextNames, m.kind ∈ [Kind.contextName]) ∧
      ∃ ms, n.children = Typed.nodes n.contextNames ++ ms ∧
        ms.map (·.kind) = back.filterMap (·.nodeKind?) := by
  obtain ⟨ms, ms', children, kinds, kinds'⟩ := Node.children_of_append split
  obtain ⟨some, named⟩ := names_of_contextNames names
  have among := Node.kind_of_among kinds named
  have given : Typed.nodes n.contextNames = ms := by
    rw [Node.contextNames, Node.nodes_childrenAs, children, List.filter_append,
      Node.filter_all among (by decide), Node.filter_none (Node.kind_of_among kinds' others) apart,
      List.append_nil]
  rw [given]
  refine ⟨fun none => ?_, among, ms', children, kinds'⟩
  rw [none] at given
  rw [← kinds, ← given] at some
  exact some rfl

theorem block_accounted {b : ContextBlock} (word : b.symbols ∈ Schema.parts .contextBlock) :
    b.contextNames ≠ [] ∧ b.given = Typed.nodes b.contextNames ++ Typed.nodes b.elements := by
  obtain ⟨_, names, _, body, split⟩ := word
  have others := Schema.among_group .contextBlock _ body
  obtain ⟨some, named, ms, children, kinds⟩ :=
    children_of_contextNames names split.symm others (by decide)
  have elements : Typed.nodes b.elements = ms.filter (·.kind ≠ .error) := by
    rw [Node.elements, Node.nodes_childrenAs, children, List.filter_append,
      Node.filter_none named (by decide), List.nil_append]
    exact (Node.filter_kinds (Node.kind_of_among kinds others) Node.has_element).symm
  refine ⟨some, ?_⟩
  rw [elements, Node.given, children, List.filter_append]
  congr 1
  exact Node.filter_all (p := fun k => k ≠ .error) named (by decide)

theorem statement_accounted {s : ContextualStatement}
    (word : s.symbols ∈ Schema.parts .contextualStatement) :
    s.contextNames ≠ [] ∧ s.children =
      Typed.nodes s.contextNames ++ Typed.nodes (ContextualStatement.statement? s).toList := by
  obtain ⟨_, names, body, stated, split⟩ := word
  have others : ∀ x ∈ body, x.Among Kind.statements :=
    Schema.over_add (Schema.over_nodeOf fun _ known => Symbol.among_node known) Schema.over_one
      body stated
  obtain ⟨some, named, ms, children, kinds⟩ :=
    children_of_contextNames names split.symm others (by decide)
  have single : ms.head?.toList = ms := by
    rcases stated with ⟨k, -, c, rfl⟩ | none
    · obtain ⟨m, rfl, -⟩ := List.map_eq_singleton_iff.mp kinds
      rfl
    · rw [(Language.mem_one _).mp none] at kinds
      rw [List.map_eq_nil_iff.mp kinds]
      rfl
  have statement : Typed.nodes (ContextualStatement.statement? s).toList = ms := by
    rw [ContextualStatement.statement?, Node.nodes_firstChild?, children, List.filter_append,
      Node.filter_none named (by decide), List.nil_append,
      Node.filter_all (Node.kind_of_among kinds others) (by decide), single]
  exact ⟨some, by rw [statement, children]⟩

theorem text_of_dot {text : String} {t : Token} (member : t ∈ lex text) (dot : t.kind = .dot) :
    t.text = "." := by
  obtain ⟨front, back, split⟩ := List.append_of_mem member
  have munched := (munch_lex text).munched
  rw [split] at munched
  rcases munched.suffix.1 with longest | ⟨error, -⟩
  · have fits := longest.fits
    rw [dot] at fits
    have word : some "." = some (String.ofList t.text.toList) := fits
    rw [Option.some.inj word, String.ofList_toList]
  · rw [dot] at error
    cases error

/-- The identifiers with dots between them are the text of the tokens. -/
theorem dotted_of_words {t : Token} {ts : List Token} {words : List (List Symbol)}
    (rest : ts.map (fun t => Symbol.token t.kind) = words.flatten)
    (each : ∀ w ∈ words, w = [.token .dot, .token .identifier])
    (first : t.kind = .identifier) (dots : ∀ t ∈ ts, t.kind = .dot → t.text = ".") :
    ".".intercalate (((t :: ts).filter (·.kind = .identifier)).map (·.text)) =
      Tree.textOfAll (leaves (t :: ts)) := by
  induction words generalizing t ts with
  | nil =>
      obtain rfl := List.map_eq_nil_iff.mp rest
      simp [first, leaves, Tree.textOfAll, Token.leaf, Tree.text]
  | cons w words ih =>
      rw [List.flatten_cons, each w List.mem_cons_self] at rest
      obtain ⟨d, ds, rfl, dot, tail⟩ := List.map_eq_cons_iff.mp rest
      obtain ⟨u, us, rfl, name, tail⟩ := List.map_eq_cons_iff.mp tail
      have name := Symbol.token.inj name
      have dot := Symbol.token.inj dot
      have more := ih tail (fun w member => each w (List.mem_cons_of_mem _ member)) name
        fun t member => dots t (List.mem_cons_of_mem _ (List.mem_cons_of_mem _ member))
      have point := dots d List.mem_cons_self dot
      rw [List.filter_cons_of_pos (by simp [name]), List.map_cons] at more
      rw [List.filter_cons_of_pos (by simp [first]), List.filter_cons_of_neg (by simp [dot]),
        List.filter_cons_of_pos (by simp [name]), List.map_cons, List.map_cons,
        String.intercalate_cons_cons, more]
      change _ = t.text ++ (d.text ++ Tree.textOfAll (leaves (u :: us)))
      rw [point, String.append_assoc]

theorem text_bareAll (above : List Frame) (start : Nat) (before ts : List Tree)
    (flat : (Part.ofTrees above start before ts).filterMap (·.node?) = []) :
    Tree.textOfAll (Tree.bareAll ts) = Tree.textOfAll
      (leaves (significant ((Part.ofTrees above start before ts).filterMap (·.token?)))) := by
  induction ts generalizing start before with
  | nil => rfl
  | cons t ts ih =>
      cases t with
      | node k us => cases flat
      | token k s =>
          have more := ih (start + s.utf8ByteSize) (.token k s :: before) flat
          have tokens : (Part.ofTrees above start before (.token k s :: ts)).filterMap (·.token?) =
              ⟨k, s, start⟩ :: (Part.ofTrees above (start + s.utf8ByteSize)
                (.token k s :: before) ts).filterMap (·.token?) := rfl
          rw [tokens, significant]
          by_cases blank : k.isTrivia = true
          · rw [Tree.bareAll, if_pos (by exact blank), more,
              List.filter_cons_of_neg (by simp [Token.isTrivia, blank]), significant]
          · rw [Tree.bareAll, if_neg (by exact blank), Tree.textOfAll, more,
              List.filter_cons_of_pos (by simp [Token.isTrivia, blank])]
            rfl

theorem reference_accounted {r : ReferenceExpression}
    (word : r.symbols ∈ Schema.parts .referenceExpression)
    (dots : ∀ t ∈ r.tokens, t.kind = .dot → t.text = ".") :
    r.children = [] ∧ ReferenceExpression.segments r ≠ [] ∧
      ReferenceExpression.dotted r = Tree.textOfAll (Tree.bareAll r.trees) := by
  have childless : r.children = [] := by
    apply Node.children_eq_nil
    refine Schema.over_mul (Schema.over_token (Symbol.among_token _ _))
      (Schema.over_star (Schema.over_mul ?_ ?_)) _ word
    · exact Schema.over_token (Symbol.among_token _ _)
    · exact Schema.over_token (Symbol.among_token _ _)
  have symbols := Node.symbols_of_childless childless
  obtain ⟨_, rfl, _, ⟨words, rfl, pairs⟩, split⟩ := word
  have each : ∀ w ∈ words, w = [.token .dot, .token .identifier] := by
    intro w member
    obtain ⟨_, rfl, _, rfl, rfl⟩ := pairs w member
    rfl
  rw [← split] at symbols
  obtain ⟨t, ts, list, first, rest⟩ := List.map_eq_cons_iff.mp symbols.symm
  have segments : ReferenceExpression.segments r = (t :: ts).filter (·.kind = .identifier) := by
    rw [← list, significant, List.filter_filter]
    refine List.filter_congr fun u _ => ?_
    by_cases name : u.kind = .identifier
    · simp [name, Token.isTrivia, Kind.isTrivia]
    · simp [name]
  have text : Tree.textOfAll (Tree.bareAll r.trees) = Tree.textOfAll (leaves (t :: ts)) := by
    rw [← list]
    exact text_bareAll _ _ _ _ childless
  have first : t.kind = .identifier := Symbol.token.inj first
  refine ⟨childless, ?_, ?_⟩
  · rw [segments, List.filter_cons_of_pos (by simp [first])]
    exact List.cons_ne_nil _ _
  · rw [ReferenceExpression.dotted, segments, text]
    refine dotted_of_words rest each first fun u member => dots u ?_
    have inside : u ∈ significant r.tokens := by
      rw [list]
      exact List.mem_cons_of_mem _ member
    exact List.mem_of_mem_filter inside

theorem accounted_of_symbols {n : Node} (word : n.symbols ∈ Schema.parts n.kind)
    (dots : ∀ t ∈ n.tokens, t.kind = .dot → t.text = ".") : n.Accounted := by
  have token (k : Kind) : Schema.Over (Symbol.Among []) (Schema.token k) :=
    Schema.over_token (Symbol.among_token _ k)
  have tokenOf (ks : List Kind) : Schema.Over (Symbol.Among []) (Schema.tokenOf ks) :=
    Schema.over_tokenOf fun k _ => Symbol.among_token _ k
  obtain ⟨⟨kind, trees, start, before⟩, above⟩ := n
  cases kind with
  | file => exact file_accounted word
  | object => exact object_accounted word
  | property => exact property_accounted word
  | variableDeclaration => exact declaration_accounted word
  | invocationExpression => exact invocation_accounted word
  | contextBlock => exact block_accounted word
  | contextualStatement => exact statement_accounted word
  | referenceExpression => exact reference_accounted word dots
  | constructorReference =>
      obtain ⟨k, known, c, only⟩ := word
      exact Node.exists_single (by rw [only]; rfl) (List.contains_iff_mem.mpr known)
  | invocationElement =>
      obtain ⟨k, known, c, only⟩ := word
      exact Node.exists_single (by rw [only]; rfl) (List.contains_iff_mem.mpr known)
  | contextualPropertyReference =>
      obtain ⟨_, rfl, _, ⟨k, known, c, rfl⟩, only⟩ := word
      exact Node.exists_single (by rw [← only]; rfl) (List.contains_iff_mem.mpr known)
  | contextName =>
      exact Node.children_eq_nil (Schema.over_mul (tokenOf _)
        (Schema.over_add (token _) Schema.over_one) _ word)
  | stringLiteral => exact Node.children_eq_nil (tokenOf _ _ word)
  | numberLiteral => exact Node.children_eq_nil (token _ _ word)
  | booleanLiteral => exact Node.children_eq_nil (tokenOf _ _ word)
  | nullLiteral => exact Node.children_eq_nil (token _ _ word)
  | error =>
      refine Node.children_eq_nil fun s present => ?_
      obtain ⟨k, rfl⟩ := word s present
      exact Symbol.among_token _ k
  | _ => exact absurd word (Language.notMem_zero _)

theorem preorderOfAll_shallow (above : List Frame) (start : Nat) (before ts : List Tree) :
    Node.preorderOfAll (fun _ => false) above start before ts =
      (Part.ofTrees above start before ts).filterMap (·.node?) := by
  induction ts generalizing start before with
  | nil => rfl
  | cons t ts ih =>
      rw [Node.preorderOfAll, ih]
      cases t <;> rfl

theorem nodup_children (n : Node) : n.children.Nodup := by
  rw [Node.children, Node.parts, ← preorderOfAll_shallow]
  exact Node.nodup_preorderOfAll _ _ _ _ _

/-- Whatever the text and the limit, the accessors give each child of a node once, but for skipped
runs, and in the order of the children. -/
theorem parse_accounts (limits : Limits) (text : String) :
    ∃ root, Node.ofTree? (parse limits text).tree = some root ∧
      ∀ n ∈ root.descendants, n.children.Nodup ∧ n.Accounted := by
  refine ⟨fileNode limits text, ofTree?_parse limits text, fun n member => ?_⟩
  exact ⟨nodup_children n, accounted_of_symbols (symbols_of_descendant member)
    fun t inside => text_of_dot (mem_lex member inside)⟩

/-- The blanks in a reference are not in its text. -/
theorem spaced_reference :
    ∃ root, Node.ofTree? (parse {} "k = a . b").tree = some root ∧
      ∃ r : ReferenceExpression, r.toNode ∈ root.descendants ∧
        ReferenceExpression.dotted r = "a.b" ∧ r.text = "a . b" := by
  refine ⟨fileNode {} "k = a . b", ofTree?_parse {} _, ?_⟩
  have texts : ((fileNode {} "k = a . b").descendants.filterMap fun n =>
      (n.as? .referenceExpression).map fun r => (ReferenceExpression.dotted r, r.text)) =
        [("k", "k"), ("a.b", "a . b")] := by
    decide +kernel
  have member : (("a.b", "a . b") : String × String) ∈ [("k", "k"), ("a.b", "a . b")] :=
    .tail _ (.head _)
  rw [← texts] at member
  obtain ⟨n, inside, found⟩ := List.mem_filterMap.mp member
  obtain ⟨r, typed, same⟩ := Option.map_eq_some_iff.mp found
  have node : r.toNode = n := by
    unfold Node.as? at typed
    split at typed
    · rw [← Option.some.inj typed]
    · cases typed
  exact ⟨r, node ▸ inside, (Prod.mk.inj same).1, (Prod.mk.inj same).2⟩

end ConfigSyntax
