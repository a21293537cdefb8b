import ConfigSyntax.Proofs.Conformance
import ConfigSyntax.Proofs.Depth
import ConfigSyntax.Visitor

/-! What a visitor is shown: every node once, in pre-order, but for those below a node where it
stops. Main statements: `Visitor.visit_eq`, `visit_recorded`. -/

namespace ConfigSyntax

/-- The categories whose methods may handle a node, the narrowest first. -/
def Kind.fallbacks : Kind → List Category
  | .stringLiteral => [.stringLiteral, .literal, .value, .node]
  | .numberLiteral => [.numberLiteral, .literal, .value, .node]
  | .booleanLiteral => [.booleanLiteral, .literal, .value, .node]
  | .nullLiteral => [.nullLiteral, .literal, .value, .node]
  | .object => [.object, .value, .node]
  | .invocationExpression => [.invocationExpression, .value, .node]
  | .referenceExpression => [.referenceExpression, .value, .node]
  | .contextualPropertyReference => [.contextualPropertyReference, .value, .node]
  | .contextBlock => [.contextBlock, .contextualElement, .objectElement, .node]
  | .contextualStatement => [.contextualStatement, .contextualElement, .objectElement, .node]
  | .property => [.property, .objectElement, .node]
  | .invocationElement => [.invocationElement, .objectElement, .node]
  | .variableDeclaration => [.variableDeclaration, .objectElement, .node]
  | .file => [.file, .node]
  | .contextName => [.contextName, .node]
  | .constructorReference => [.constructorReference, .node]
  | .error => [.error, .node]
  | _ => []

namespace Category

def Falls (cs : List Category) : Prop :=
  cs.IsChain (fun c d => c.wider? = some d) ∧ ∀ c ∈ cs.getLast?, c.wider? = none

theorem falls_fallbacks (k : Kind) : Falls k.fallbacks := by
  cases k <;> simp [Falls, Kind.fallbacks, wider?]

theorem head?_fallbacks (k : Kind) : k.fallbacks.head? = ofKind? k := by cases k <;> rfl

theorem Falls.tail {c d : Category} {cs : List Category} (falls : Falls (c :: d :: cs)) :
    c.wider? = some d ∧ Falls (d :: cs) := by
  obtain ⟨linked, ends⟩ := falls
  rw [List.isChain_cons_cons] at linked
  exact ⟨linked.1, linked.2, by simpa using ends⟩

end Category

namespace Visitor

variable {State : Type} (v : Visitor State)

def first? (cs : List Category) : Option Category := cs.find? fun c => (v.handle? c).isSome

def handler? (n : Node) : Option Category := v.first? n.kind.fallbacks

def apply (found : Option Category) (n : Node) (state : State) : State :=
  match found.bind v.handle? with
  | none => state
  | some handle => handle n state

def step (state : State) (n : Node) : State := v.apply (v.handler? n) n state

def goesBelow (n : Node) : Bool := (v.handler? n).all v.enters

variable (walk : State → State)

theorem call_eq {c : Category} {cs : List Category} (falls : Category.Falls (c :: cs))
    (n : Typed c) (state : State) :
    v.call walk n state =
      if (v.first? (c :: cs)).all v.enters then walk (v.apply (v.first? (c :: cs)) n.toNode state)
      else v.apply (v.first? (c :: cs)) n.toNode state := by
  induction cs generalizing c with
  | nil =>
      have last : c.wider? = none := falls.2 c rfl
      cases free : v.handle? c with
      | some handle => simp [v.call_of_handled walk n state free, first?, apply, free]
      | none => simp [v.call_of_last walk n state free last, first?, apply, free]
  | cons d cs ih =>
      obtain ⟨wider, rest⟩ := falls.tail
      cases free : v.handle? c with
      | some handle => simp [v.call_of_handled walk n state free, first?, apply, free]
      | none =>
          have skip : v.first? (c :: d :: cs) = v.first? (d :: cs) := by
            rw [first?, List.find?_cons_of_neg (by simp [free])]
            rfl
          rw [v.call_of_wider walk n state free wider, ih rest (n.widen wider), skip]
          rfl

theorem accept_eq (n : Node) (state : State) :
    v.accept walk n state =
      if v.goesBelow n then walk (v.step state n) else v.step state n := by
  have own := Category.head?_fallbacks n.kind
  cases chain : n.kind.fallbacks with
  | nil =>
      rw [chain] at own
      simp [v.accept_of_none walk state own.symm, goesBelow, step, handler?, chain, first?, apply]
  | cons c cs =>
      have falls := Category.falls_fallbacks n.kind
      rw [chain] at own falls
      rw [v.accept_of_own walk state own.symm, v.call_eq walk falls, goesBelow, step, handler?,
        chain]

mutual

theorem visitTree_eq : ∀ (t : Tree) (above : List Frame) (start : Nat) (before : List Tree)
    (state : State), v.visitTree above start before t state =
      (Node.preorderOf v.goesBelow above start before t).foldl v.step state
  | .token _ _, _, _, _, _ => by
      rw [visitTree]
      rfl
  | .node k ts, above, start, before, state => by
      rw [visitTree, accept_eq, Node.preorderOf]
      split
      · exact visitTrees_eq ts _ _ _ _
      · rfl

theorem visitTrees_eq : ∀ (ts : List Tree) (above : List Frame) (start : Nat)
    (before : List Tree) (state : State), v.visitTrees above start before ts state =
      (Node.preorderOfAll v.goesBelow above start before ts).foldl v.step state
  | [], _, _, _, _ => by
      rw [visitTrees]
      rfl
  | t :: ts, above, start, before, state => by
      rw [visitTrees, visitTree_eq t, visitTrees_eq ts, Node.preorderOfAll, List.foldl_append]

end

theorem visit_eq (n : Node) (state : State) :
    v.visit n state = (n.preorder v.goesBelow).foldl v.step state := by
  rw [visit, accept_eq, Node.preorder]
  split
  · exact v.visitTrees_eq n.trees _ _ _ _
  · rfl

end Visitor

namespace Node

def ancestorsOf : List Frame → List Node
  | [] => []
  | f :: above => ⟨f, above⟩ :: ancestorsOf above

def ancestors (n : Node) : List Node := ancestorsOf n.above

section

variable (enters : Node → Bool)

mutual

theorem filter_preorderOf : ∀ (t : Tree) (above : List Frame) (start : Nat)
    (before : List Tree),
    (preorderOf (fun _ => true) above start before t).filter (·.ancestors.all enters) =
      if (ancestorsOf above).all enters then preorderOf enters above start before t else []
  | .token _ _, above, start, before => by
      rw [preorderOf, preorderOf, ite_self]
      rfl
  | .node k ts, above, start, before => by
      have below := filter_preorderOfAll ts (⟨k, ts, start, before⟩ :: above) start []
      rw [ancestorsOf, List.all_cons] at below
      rw [preorderOf, preorderOf, List.filter_cons, if_pos rfl, below, ancestors]
      by_cases reached : (ancestorsOf above).all enters = true <;> simp [reached]

/-- The nodes that are come to without entering a node that is not to be entered. -/
theorem filter_preorderOfAll : ∀ (ts : List Tree) (above : List Frame) (start : Nat)
    (before : List Tree),
    (preorderOfAll (fun _ => true) above start before ts).filter (·.ancestors.all enters) =
      if (ancestorsOf above).all enters then preorderOfAll enters above start before ts else []
  | [], above, start, before => by
      rw [preorderOfAll, preorderOfAll, ite_self]
      rfl
  | t :: ts, above, start, before => by
      rw [preorderOfAll, preorderOfAll, List.filter_append, filter_preorderOf t,
        filter_preorderOfAll ts]
      split <;> rfl

end

end

section

variable {enters : Node → Bool}

mutual

theorem path_preorderOf : ∀ (t : Tree) (above : List Frame) (start : Nat) (before : List Tree),
    ∀ n ∈ preorderOf enters above start before t,
      ∃ f : Frame, f.before = before ∧ f :: above <:+ n.path
  | .token _ _, above, start, before => nofun
  | .node k ts, above, start, before => by
      intro n member
      rw [preorderOf] at member
      rcases List.mem_cons.mp member with rfl | below
      · exact ⟨_, rfl, List.suffix_rfl⟩
      · split at below
        · obtain ⟨f, -, through⟩ := path_preorderOfAll ts _ _ _ n below
          exact ⟨_, rfl, (List.suffix_cons _ _).trans through⟩
        · cases below

theorem path_preorderOfAll : ∀ (ts : List Tree) (above : List Frame) (start : Nat)
    (before : List Tree), ∀ n ∈ preorderOfAll enters above start before ts,
      ∃ f : Frame, before.length ≤ f.before.length ∧ f :: above <:+ n.path
  | [], above, start, before => nofun
  | t :: ts, above, start, before => by
      intro n member
      rw [preorderOfAll] at member
      rcases List.mem_append.mp member with member | member
      · obtain ⟨f, place, through⟩ := path_preorderOf t _ _ _ n member
        exact ⟨f, by rw [place], through⟩
      · obtain ⟨f, place, through⟩ := path_preorderOfAll ts _ _ _ n member
        rw [List.length_cons] at place
        exact ⟨f, by omega, through⟩

end

variable (enters)

mutual

theorem nodup_preorderOf : ∀ (t : Tree) (above : List Frame) (start : Nat) (before : List Tree),
    (preorderOf enters above start before t).Nodup
  | .token _ _, above, start, before => List.nodup_nil
  | .node k ts, above, start, before => by
      rw [preorderOf]
      split
      · refine List.nodup_cons.mpr ⟨fun below => ?_, nodup_preorderOfAll ts _ _ _⟩
        -- the path of a node below is longer
        obtain ⟨f, -, through⟩ := path_preorderOfAll ts _ _ _ _ below
        have longer := through.length_le
        simp only [path, List.length_cons] at longer
        omega
      · exact List.nodup_singleton _

theorem nodup_preorderOfAll : ∀ (ts : List Tree) (above : List Frame) (start : Nat)
    (before : List Tree), (preorderOfAll enters above start before ts).Nodup
  | [], above, start, before => List.nodup_nil
  | t :: ts, above, start, before => by
      rw [preorderOfAll]
      refine (nodup_preorderOf t _ _ _).append (nodup_preorderOfAll ts _ _ _) ?_
      intro n first later
      obtain ⟨f, place, through⟩ := path_preorderOf t _ _ _ n first
      obtain ⟨g, behind, through'⟩ := path_preorderOfAll ts _ _ _ n later
      have same : f :: above = g :: above := by
        have inside := List.suffix_of_suffix_length_le through through' (by simp)
        exact inside.eq_of_length (by simp)
      obtain rfl : f = g := (List.cons.inj same).1
      rw [place, List.length_cons] at behind
      omega

end

end

theorem nodup_descendants (n : Node) : n.descendants.Nodup :=
  nodup_preorderOf (fun _ => true) (.node n.kind n.trees) n.above n.start n.before

/-- From the top of a tree, `enters` leaves out the nodes below one that it does not hold of. -/
theorem preorder_root (enters : Node → Bool) {root : Node} (top : root.above = []) :
    root.preorder enters = root.descendants.filter (·.ancestors.all enters) := by
  have all := filter_preorderOf enters (.node root.kind root.trees) root.above root.start
    root.before
  rw [top] at all
  obtain ⟨frame, above⟩ := root
  obtain rfl : above = [] := top
  exact all.symm

end Node

def recorder (methods stops : List Category) : Visitor (List (Category × Node)) where
  handle? c := if c ∈ methods then some fun n log => log ++ [(c, n)] else none
  enters c := c ∉ stops

section

variable (methods stops : List Category)

/-- The method that handles a node, if one of those in its chain is overridden. -/
def Node.handledBy (n : Node) : Option Category := n.kind.fallbacks.find? (· ∈ methods)

theorem handler?_recorder (n : Node) :
    (recorder methods stops).handler? n = n.handledBy methods := by
  rw [Visitor.handler?, Visitor.first?, Node.handledBy]
  congr 1
  funext c
  by_cases known : c ∈ methods <;> simp [recorder, known]

theorem step_recorder (log : List (Category × Node)) (n : Node) :
    (recorder methods stops).step log n = log ++ ((n.handledBy methods).map (·, n)).toList := by
  rw [Visitor.step, Visitor.apply, handler?_recorder]
  cases found : n.handledBy methods with
  | none => simp
  | some c =>
      have known : c ∈ methods := by simpa using List.find?_some found
      simp [recorder, known]

theorem foldl_recorder (nodes : List Node) (log : List (Category × Node)) :
    nodes.foldl (recorder methods stops).step log =
      log ++ nodes.filterMap fun n => (n.handledBy methods).map (·, n) := by
  induction nodes generalizing log with
  | nil => simp
  | cons n nodes ih =>
      rw [List.foldl_cons, ih, step_recorder, List.append_assoc]
      cases found : n.handledBy methods <;> simp [found]

end

theorem fallbacks_of_production {k : Kind} {w : List Symbol}
    (word : w ∈ Schema.production Schema.gap k) : .node ∈ k.fallbacks := by
  cases k <;> first | decide | exact absurd word (Language.notMem_zero w)

/-- Whatever methods are overridden and whichever of them stop, a visit calls them for each node
once, in pre-order, but for the nodes strictly below one that stops: the first overridden method
of its chain handles a node. -/
theorem visit_recorded (limits : Limits) (text : String) (methods stops : List Category) :
    ∃ root, Node.ofTree? (parse limits text).tree = some root ∧
      root.descendants.Nodup ∧ (∀ n ∈ root.descendants, .node ∈ n.kind.fallbacks) ∧
      (recorder methods stops).visit root [] =
        (root.descendants.filter fun n =>
          n.ancestors.all fun a => (a.handledBy methods).all (· ∉ stops)).filterMap fun n =>
            (n.handledBy methods).map (·, n) := by
  refine ⟨fileNode limits text, ofTree?_parse limits text, Node.nodup_descendants _, ?_, ?_⟩
  · intro n member
    obtain ⟨nodes, list, stems⟩ := descendants_fileNode limits text
    rw [list] at member
    rcases List.mem_cons.mp member with rfl | member
    · change .node ∈ Kind.fallbacks .file
      decide
    · obtain ⟨origin, present, stem⟩ := Outline.exists_origin stems member
      rw [stem.kind]
      exact fallbacks_of_production (sound_outline limits text origin present).symbols
  · have entered : (recorder methods stops).goesBelow = fun a =>
        (a.handledBy methods).all (· ∉ stops) := by
      funext a
      rw [Visitor.goesBelow, handler?_recorder]
      rfl
    rw [Visitor.visit_eq, foldl_recorder, List.nil_append, Node.preorder_root _ rfl, entered]

/-- The property in the object is not shown, as objects stop the visit. -/
example : ((recorder [.property, .object] [.object]).visit
    (fileNode {} "a = \x7b b = 1 \x7d c") []).map (fun call => (call.1, call.2.kind)) =
      [(.property, .property), (.object, .object), (.property, .property)] := by
  decide +kernel

end ConfigSyntax
