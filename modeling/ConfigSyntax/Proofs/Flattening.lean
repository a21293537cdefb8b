import ConfigSyntax.Proofs.Accessors
import ConfigSyntax.Proofs.Preorder

/-! Elements with the contexts around them taken away. Main statement: `parse_flattens`. -/

namespace ConfigSyntax

theorem Typed.toNode_injective {c : Category} : Function.Injective fun x : Typed c => x.toNode := by
  rintro ⟨_, _⟩ ⟨_, _⟩ rfl
  rfl

namespace Node

def isContext (n : Node) : Bool := n.kind = .contextBlock ∨ n.kind = .contextualStatement

def isStatement (n : Node) : Bool := n.kind ∈ Kind.statements

def Collects (n m : Node) : Prop := n ∈ m.ancestors ∧ ∀ a ∈ m.ancestors, n ∈ a.ancestors → a.isContext

def Offers (n : Node) (name : String) (m : Node) : Prop :=
  n.Collects m ∧ ∃ p : Property, p.toNode = m ∧ p.nameText? = some name

theorem flattened?_of_block {n : Node} (block : n.kind = .contextBlock) : n.flattened? = none := by
  obtain ⟨⟨_, _, _, _⟩, _⟩ := n
  obtain rfl : _ = Kind.contextBlock := block
  rfl

theorem flattened?_of_statement {n : Node} (statement : n.kind = .contextualStatement) :
    ∃ s : ContextualStatement, s.toNode = n ∧ n.flattened? = ContextualStatement.statement? s := by
  obtain ⟨⟨_, _, _, _⟩, _⟩ := n
  obtain rfl : _ = Kind.contextualStatement := statement
  exact ⟨⟨_, rfl⟩, rfl, rfl⟩

theorem flattened?_of_other {n : Node} (other : n.isContext = false) :
    n.flattened? = n.as? .objectElement := by
  obtain ⟨⟨k, _, _, _⟩, _⟩ := n
  cases k <;> first | rfl | cases other

theorem nodes_as? (n : Node) (c : Category) :
    Typed.nodes (n.as? c).toList = if c.has n.kind then [n] else [] := by
  by_cases has : c.has n.kind = true <;> simp [as?, has, Typed.nodes]

theorem isStatement_of_other {n : Node} (other : n.isContext = false) :
    n.isStatement = Category.objectElement.has n.kind := by
  obtain ⟨⟨k, _, _, _⟩, _⟩ := n
  cases k <;> first | rfl | cases other

theorem kind_of_nodes {c : Category} (xs : List (Typed c)) :
    ∀ m ∈ Typed.nodes xs, m.kind ∈ c.kinds := by
  intro m member
  obtain ⟨x, -, rfl⟩ := List.mem_map.mp member
  exact List.contains_iff_mem.mp x.has_kind

theorem among_contextualStatement :
    Schema.Over (Symbol.Among (.contextName :: Kind.statements))
      (Schema.parts .contextualStatement) :=
  Schema.over_mul
    (Schema.over_contextNames (Symbol.among_node List.mem_cons_self) (Symbol.among_token _ _))
    (Schema.over_add
      (Schema.over_nodeOf fun _ known => Symbol.among_node (List.mem_cons_of_mem _ known))
      Schema.over_one)

theorem isContext_of_known {n : Node} (known : n.kind ∈ Kind.contextName :: Kind.statements) :
    n.isContext = false := by
  have apart : ∀ k ∈ Kind.contextName :: Kind.statements,
      ¬ (k = .contextBlock ∨ k = .contextualStatement) := by decide
  exact decide_eq_false (apart _ known)

/-- What is in a contextual statement is no context, and not all of it is an element. -/
theorem below_of_statement {s : ContextualStatement}
    (word : s.symbols ∈ Schema.parts .contextualStatement) :
    (s.below isContext).filter isStatement =
      Typed.nodes (ContextualStatement.statement? s).toList := by
  have known := kind_of_among s.kinds_children (among_contextualStatement _ word)
  have shallow : s.below isContext = s.children := by
    rw [children, parts, ← preorderOfAll_shallow]
    symm
    refine preorderOfAll_congr _ _ _ _ fun m member => ?_
    rw [preorderOfAll_shallow] at member
    exact (isContext_of_known (known m member)).symm
  have elements : s.children.filter isStatement =
      s.children.filter (Category.objectElement.has ·.kind) :=
    filter_kinds (p := fun k => k ∈ Kind.statements) known (by decide)
  have names : (Typed.nodes s.contextNames).filter (Category.objectElement.has ·.kind) = [] :=
    filter_none (kind_of_nodes s.contextNames) (by decide)
  have stated : (Typed.nodes (ContextualStatement.statement? s).toList).filter
      (Category.objectElement.has ·.kind) = _ :=
    filter_all (kind_of_nodes _) (by decide)
  rw [shallow, elements, (statement_accounted word).2, List.filter_append, names, stated]
  rfl

def flattened (ms : List Node) : List Node := Typed.nodes (ms.filterMap flattened?)

theorem flattened_cons (m : Node) (ms : List Node) :
    flattened (m :: ms) = Typed.nodes m.flattened?.toList ++ flattened ms := by
  cases found : m.flattened? <;> simp [flattened, found, Typed.nodes]

theorem flattened_append (front back : List Node) :
    flattened (front ++ back) = flattened front ++ flattened back := by
  simp [flattened, Typed.nodes]

theorem flattened_preorder {n : Node} (word : n.symbols ∈ Schema.parts n.kind)
    (inside : flattened (n.below (·.kind = .contextBlock)) =
      (n.below isContext).filter isStatement) :
    flattened (n.preorder (·.kind = .contextBlock)) =
      (n.preorder isContext).filter isStatement := by
  rw [preorder, preorder, flattened_cons]
  by_cases block : n.kind = .contextBlock
  · have context : n.isContext = true := by rw [isContext, block]; rfl
    have other : n.isStatement = false := by rw [isStatement, block]; rfl
    simp [flattened?_of_block block, Typed.nodes, block, context, other, inside]
  · by_cases statement : n.kind = .contextualStatement
    · obtain ⟨s, rfl, flat⟩ := flattened?_of_statement statement
      have context : s.isContext = true := by rw [isContext, statement]; rfl
      have other : s.isStatement = false := by rw [isStatement, statement]; rfl
      rw [statement] at word
      simp [flat, block, context, other, below_of_statement word, flattened, Typed.nodes]
    · have other : n.isContext = false := by
        simp [isContext, block, statement]
      have own : Typed.nodes n.flattened?.toList = [n].filter isStatement := by
        rw [flattened?_of_other other, nodes_as?, ← isStatement_of_other other,
          List.filter_singleton, Bool.cond_eq_ite]
      rw [own]
      simp [block, other, flattened, Typed.nodes]

mutual

theorem flattened_preorderOf : ∀ (t : Tree) (above : List Frame) (start : Nat)
    (before : List Tree),
    (∀ m ∈ preorderOf (fun _ => true) above start before t, m.symbols ∈ Schema.parts m.kind) →
      flattened (preorderOf (·.kind = .contextBlock) above start before t) =
        (preorderOf isContext above start before t).filter isStatement
  | .token _ _, _, _, _, _ => rfl
  | .node k ts, above, start, before, words => by
      rw [preorderOf, if_pos rfl] at words
      have word := words _ List.mem_cons_self
      have below := flattened_preorderOfAll ts _ _ _ fun m member =>
        words m (List.mem_cons_of_mem _ member)
      exact flattened_preorder word below

/-- Going through all contexts finds the elements that going through blocks of them gives. -/
theorem flattened_preorderOfAll : ∀ (ts : List Tree) (above : List Frame) (start : Nat)
    (before : List Tree),
    (∀ m ∈ preorderOfAll (fun _ => true) above start before ts, m.symbols ∈ Schema.parts m.kind) →
      flattened (preorderOfAll (·.kind = .contextBlock) above start before ts) =
        (preorderOfAll isContext above start before ts).filter isStatement
  | [], _, _, _, _ => rfl
  | t :: ts, above, start, before, words => by
      rw [preorderOfAll] at words
      rw [preorderOfAll, preorderOfAll, flattened_append, List.filter_append,
        flattened_preorderOf t _ _ _ fun m member => words m (List.mem_append_left _ member),
        flattened_preorderOfAll ts _ _ _ fun m member => words m (List.mem_append_right _ member)]

end

section

variable {n : Node} (words : ∀ m ∈ n.descendants, m.symbols ∈ Schema.parts m.kind)

open scoped Classical in
include words in
/-- The elements are those descendants that `n` collects. -/
theorem nodes_allElements :
    Typed.nodes n.allElements = n.descendants.filter fun m => m.isStatement ∧ n.Collects m := by
  have flat : Typed.nodes n.allElements = (n.below isContext).filter isStatement :=
    flattened_preorderOfAll n.trees _ _ _ fun m member => words m (List.mem_cons_of_mem _ member)
  have own : ¬ n.Collects n := fun collects => path_irrefl collects.1 List.suffix_rfl
  rw [flat, below_eq_filter, List.filter_filter, descendants, preorder, if_pos rfl,
    List.filter_cons_of_neg (by simp [own])]
  refine List.filter_congr fun m member => ?_
  simp [Collects, mem_ancestors_of_below member]

theorem nodes_allProperties :
    Typed.nodes n.allProperties = (Typed.nodes n.allElements).filter (·.kind = .property) := by
  have all : n.allProperties = (Typed.nodes n.allElements).filterMap (·.as? .property) := by
    rw [allProperties, Typed.nodes, List.filterMap_map]
    rfl
  rw [all, nodes_filterMap]
  exact List.filter_congr fun m _ => by simp [Category.has, Category.kinds]

include words in
theorem sublist_allElements : (Typed.nodes n.allElements).Sublist n.descendants := by
  classical
  rw [nodes_allElements words]
  exact List.filter_sublist

include words in
theorem mem_allElements (m : Node) :
    m ∈ Typed.nodes n.allElements ↔ m ∈ n.descendants ∧ m.kind ∈ Kind.statements ∧ n.Collects m := by
  classical
  rw [nodes_allElements words, List.mem_filter]
  simp [isStatement]

include words in
theorem apart_allElements :
    (Typed.nodes n.allElements).Pairwise (·.range.stop ≤ ·.range.start) := by
  have apart := apart_preorderOf (fun _ => true) (.node n.kind n.trees) n.above n.start n.before
  refine (apart.sublist (sublist_allElements words)).imp_of_mem fun {a b} first second => ?_
  obtain ⟨-, known, collects⟩ := (mem_allElements words a).mp first
  obtain ⟨-, -, -, contexts⟩ := (mem_allElements words b).mp second
  rintro (above | apart)
  · have context := contexts a above collects.1
    rw [isContext_of_known (List.mem_cons_of_mem _ known)] at context
    cases context
  · exact apart

open scoped Classical in
include words in
theorem toNode_findProperty? (name : String) :
    (n.findProperty? name).map (·.toNode) = n.descendants.find? fun m => n.Offers name m := by
  let named : Node → Bool := fun m => ∃ p : Property, p.toNode = m ∧ p.nameText? = some name
  have same (p : Property) : decide (p.nameText? = some name) = named p.toNode := by
    refine decide_eq_decide.mpr ⟨fun own => ⟨p, rfl, own⟩, ?_⟩
    rintro ⟨q, node, own⟩
    rwa [← Typed.toNode_injective node]
  have found : (n.findProperty? name).map (·.toNode) =
      (Typed.nodes n.allProperties).find? named := by
    rw [Typed.nodes, List.find?_map, findProperty?]
    congr 2
    exact funext same
  rw [found, nodes_allProperties, nodes_allElements words, List.filter_filter, List.find?_filter]
  congr 1
  funext m
  rw [Bool.eq_iff_iff]
  simp only [Bool.and_eq_true, decide_eq_true_iff, named]
  constructor
  · rintro ⟨⟨-, -, collects⟩, own⟩
    exact ⟨collects, own⟩
  · rintro ⟨collects, p, rfl, own⟩
    have kind : p.kind = .property := by simpa [Category.has, Category.kinds] using p.has_kind
    exact ⟨⟨kind, by rw [isStatement, kind]; rfl, collects⟩, p, rfl, own⟩

include words in
theorem findProperty?_eq_some_iff (name : String) (p : Property) :
    n.findProperty? name = some p ↔ ∃ front back, n.descendants = front ++ p.toNode :: back ∧
      n.Offers name p.toNode ∧ ∀ m ∈ front, ¬ n.Offers name m := by
  classical
  rw [← (Option.map_injective Typed.toNode_injective).eq_iff, toNode_findProperty? words,
    Option.map_some, List.find?_eq_some_iff_append]
  simp only [decide_eq_true_iff, Bool.not_eq_true', decide_eq_false_iff_not]
  exact ⟨fun ⟨own, front, back, split, others⟩ => ⟨front, back, split, own, others⟩,
    fun ⟨front, back, split, own, others⟩ => ⟨own, front, back, split, others⟩⟩

include words in
theorem findProperty?_eq_none_iff (name : String) :
    n.findProperty? name = none ↔ ∀ m ∈ n.descendants, ¬ n.Offers name m := by
  classical
  rw [← Option.map_eq_none_iff, toNode_findProperty? words, List.find?_eq_none]
  simp

end

end Node

theorem Property.isItem_eq {p : Property} (word : p.symbols ∈ Schema.parts .property) :
    p.nameText?.isSome ∧
      p.isItem = (!p.hasToken .equals && p.children.all (·.kind ≠ .object)) := by
  obtain ⟨name, named, rest⟩ := property_accounted word
  refine ⟨by simp [nameText?, named], ?_⟩
  rw [isItem, hasAssignment] at *
  by_cases assigned : p.hasToken .equals = true
  · simp [assigned]
  · rw [if_neg assigned] at rest
    have other : name.kind ≠ .object := by
      intro same
      have has := name.has_kind
      rw [same] at has
      cases has
    rw [rest.1]
    cases nested : p.nestedObject? with
    | none => simp [other, Typed.nodes]
    | some o =>
        have kind : o.kind = .object := by simpa [Category.has, Category.kinds] using o.has_kind
        simp [kind, Typed.nodes]

theorem Object.items_eq {o : Object}
    (words : ∀ m ∈ o.descendants, m.symbols ∈ Schema.parts m.kind) :
    o.items.map some = (o.allProperties.filter fun p =>
      !p.hasToken .equals && p.children.all (·.kind ≠ .object)).map Property.nameText? := by
  have known : ∀ p ∈ o.allProperties, p.nameText?.isSome ∧
      p.isItem = (!p.hasToken .equals && p.children.all (·.kind ≠ .object)) := by
    intro p member
    classical
    have inside : p.toNode ∈ Typed.nodes o.allProperties := List.mem_map_of_mem member
    rw [Node.nodes_allProperties, Node.nodes_allElements words] at inside
    obtain ⟨kept, kind⟩ := List.mem_filter.mp inside
    have word := words _ (List.mem_of_mem_filter kept)
    rw [of_decide_eq_true kind] at word
    exact Property.isItem_eq word
  rw [items, List.filter_congr fun p member => (known p member).2]
  generalize kept : List.filter _ o.allProperties = ps
  have named : ∀ p ∈ ps, p.nameText? = some (p.nameText?.getD "") := by
    intro p member
    rw [← kept] at member
    obtain ⟨text, same⟩ := Option.isSome_iff_exists.mp (known p (List.mem_of_mem_filter member)).1
    rw [same]
    rfl
  rw [List.filterMap_eq_map_iff_forall_eq_some.mpr named, List.map_map]
  exact List.map_congr_left fun p member => (named p member).symm

/-- Whatever the text and the limit, the elements of a node without the contexts around them are
those of its descendants that have nothing but contexts between, once each and in the order of the
text. -/
theorem parse_flattens (limits : Limits) (text : String) :
    ∃ root, Node.ofTree? (parse limits text).tree = some root ∧
      ∀ n ∈ root.descendants,
        (Typed.nodes n.allElements).Nodup ∧
        (Typed.nodes n.allElements).Sublist n.descendants ∧
        (Typed.nodes n.allElements).Pairwise (·.range.stop ≤ ·.range.start) ∧
        (∀ m, m ∈ Typed.nodes n.allElements ↔
          m ∈ n.descendants ∧ m.kind ∈ Kind.statements ∧ n.Collects m) ∧
        Typed.nodes n.allProperties = (Typed.nodes n.allElements).filter (·.kind = .property) ∧
        (∀ name p, n.findProperty? name = some p ↔
          ∃ front back, n.descendants = front ++ p.toNode :: back ∧ n.Offers name p.toNode ∧
            ∀ m ∈ front, ¬ n.Offers name m) ∧
        (∀ name, n.findProperty? name = none ↔ ∀ m ∈ n.descendants, ¬ n.Offers name m) ∧
        ∀ o : Object, o.toNode = n → o.items.map some =
          (o.allProperties.filter fun p =>
            !p.hasToken .equals && p.children.all (·.kind ≠ .object)).map Property.nameText? := by
  refine ⟨fileNode limits text, ofTree?_parse limits text, fun n member => ?_⟩
  have words : ∀ m ∈ n.descendants, m.symbols ∈ Schema.parts m.kind := fun m below =>
    symbols_of_descendant (Node.descendants_subset member below)
  refine ⟨(Node.sublist_allElements words).nodup n.nodup_descendants,
    Node.sublist_allElements words, Node.apart_allElements words, Node.mem_allElements words,
    Node.nodes_allProperties, Node.findProperty?_eq_some_iff words,
    Node.findProperty?_eq_none_iff words, ?_⟩
  rintro o rfl
  exact Object.items_eq words

example : ((fileNode {} "o \x7b @a \x7b b, @c d \x7d e = 1 \x7d").descendants.filterMap
    (·.as? .object)).map Object.items = [["b", "d"]] := by
  decide +kernel

end ConfigSyntax
