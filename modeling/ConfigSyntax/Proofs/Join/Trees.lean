import ConfigSyntax.Proofs.Alike
import ConfigSyntax.Proofs.Limited.Rules

/-! The trees of two outlines, one behind the other: those of the first stay as they are, those of
the second move. Main statements: `growAll_front`, `joined_of_trees`. -/

namespace ConfigSyntax

open Event (triviaLength)
open Token (leaves significant)

namespace Outline

inductive Filled : Outline → Prop
  | token (k : Kind) : Filled (.token k)
  | node (k : Kind) {parts : List Outline} (kinds : kindsOfAll parts ≠ [])
    (within : ∀ p ∈ parts, Filled p) : Filled (.node k parts)

end Outline

theorem Grammar.Builds.filled {c : Context} {ks rest : List Kind} {parts : List Outline}
    (builds : Builds c ks parts rest) (shaped : ∀ p ∈ parts, p.Shaped)
    (clean : ∀ p ∈ parts, p.Clean) : ∀ p ∈ parts, p.Filled := by
  have skipped (why : Skip) (n : Nat) (ks : List Kind)
      (clean : ∀ p ∈ [(skip why n ks).1], p.Clean) :
      ∀ p ∈ [(skip why n ks).1], p.Filled :=
    absurd (clean _ (List.mem_singleton_self _)) (Outline.not_clean_skipped why _)
  induction builds with
  | nil => nofun
  | @token c k ks plain => simpa using Outline.Filled.token k
  | gap => exact absurd (clean _ (List.mem_singleton_self _)) (Outline.not_clean_gap _)
  | append _ _ front back =>
      intro p member
      rcases List.mem_append.mp member with first | second
      · exact front (fun p member => shaped p (List.mem_append_left _ member))
          (fun p member => clean p (List.mem_append_left _ member)) p first
      · exact back (fun p member => shaped p (List.mem_append_right _ member))
          (fun p member => clean p (List.mem_append_right _ member)) p second
  | @node c k ks rest parts other _ inside =>
      intro p member
      have shape := shaped p member
      rw [List.mem_singleton.mp member] at shape ⊢
      have kinds := shape.kinds_ne_nil other
      cases shape with
      | node k parts symbols within =>
          exact .node k kinds (inside within
            (Outline.clean_node.mp (clean _ (List.mem_singleton_self _))))
  | @group c ks mid items g _ _ within =>
      obtain ⟨rest, rfl⟩ := Grammar.closed_of_clean fun p member =>
        clean p (List.mem_append_right _ member)
      rw [Grammar.closing, if_pos rfl] at shaped clean ⊢
      intro p member
      rcases List.mem_append.mp member with first | last
      · rcases List.mem_cons.mp first with rfl | inner
        · exact .token g.opener
        · exact within
            (fun p member => shaped p (List.mem_append_left _ (List.mem_cons_of_mem _ member)))
            (fun p member => clean p (List.mem_append_left _ (List.mem_cons_of_mem _ member)))
            p inner
      · rw [List.mem_singleton.mp last]
        exact .token g.closer
  | recover => exact skipped _ _ _ clean
  | slot => exact skipped _ _ _ clean
  | tooDeep => exact skipped _ _ _ clean

namespace Outline

theorem triviaLength_append {front : List Token} (filled : significant front ≠ [])
    (back : List Token) :
    triviaLength (front ++ back) = triviaLength front ∧ triviaLength front < front.length := by
  induction front with
  | nil => exact absurd rfl filled
  | cons t ts ih =>
      by_cases blank : t.isTrivia = true
      · have inner : significant ts ≠ [] := by simpa [significant, blank] using filled
        obtain ⟨same, less⟩ := ih inner
        simp only [triviaLength, List.cons_append, List.takeWhile_cons, blank, if_true,
          List.length_cons] at same less ⊢
        omega
      · simp [triviaLength, blank]

theorem filled_of_length {ts : List Token} {ks : List Kind} (kinds : ks ≠ [])
    (enough : ks.length ≤ (significant ts).length) : significant ts ≠ [] := by
  have positive := List.length_pos_iff.mpr kinds
  exact List.length_pos_iff.mp (Nat.lt_of_lt_of_le positive enough)

mutual

theorem grow_front : ∀ (o : Outline) {front : List Token} (back : List Token) (_ : o.Filled)
    (_ : o.kinds.length ≤ (significant front).length),
    o.grow (front ++ back) = ((o.grow front).1, (o.grow front).2 ++ back)
  | .token k, front, back, _, enough => by
      have there : significant front ≠ [] := filled_of_length (List.cons_ne_nil k []) enough
      obtain ⟨same, less⟩ := triviaLength_append there back
      have one (ts : List Token) : reach 1 ts = triviaLength ts + 1 := rfl
      rw [grow, grow, one, one, same, List.take_append_of_le_length less,
        List.drop_append_of_le_length less]
  | .gap _, front, back, filled, _ => nomatch filled
  | .skipped _ _, front, back, filled, _ => nomatch filled
  | .node k parts, front, back, filled, enough => by
      obtain ⟨kinds, within⟩ : kindsOfAll parts ≠ [] ∧ ∀ p ∈ parts, p.Filled := by
        cases filled with
        | node _ kinds within => exact ⟨kinds, within⟩
      obtain ⟨same, less⟩ := triviaLength_append (filled_of_length kinds enough) back
      have enough' : (kindsOfAll parts).length ≤
          (significant (front.drop (triviaLength front))).length := by
        rwa [Token.significant_behind]
      have inner := growAll_front parts back within enough'
      simp only [grow, same, List.take_append_of_le_length (Nat.le_of_lt less),
        List.drop_append_of_le_length (Nat.le_of_lt less), inner]

/-- Where there are tokens enough, nothing behind them is taken. -/
theorem growAll_front : ∀ (ps : List Outline) {front : List Token} (back : List Token)
    (_ : ∀ p ∈ ps, p.Filled) (_ : (kindsOfAll ps).length ≤ (significant front).length),
    growAll ps (front ++ back) = ((growAll ps front).1, (growAll ps front).2 ++ back)
  | [], front, back, _, _ => rfl
  | p :: ps, front, back, filled, enough => by
      rw [kindsOfAll, List.length_append] at enough
      have first : p.grow (front ++ back) = ((p.grow front).1, (p.grow front).2 ++ back) :=
        grow_front p back (filled p List.mem_cons_self) (by omega)
      have enough' : (kindsOfAll ps).length ≤ (significant (p.grow front).2).length := by
        rw [significant_grow, List.length_drop]
        omega
      have more := growAll_front ps back (fun q member => filled q (List.mem_cons_of_mem _ member))
        enough'
      simp only [growAll, first, more]

end

theorem growAll_append (front back : List Outline) (ts : List Token) :
    growAll (front ++ back) ts =
      ((growAll front ts).1 ++ (growAll back (growAll front ts).2).1,
        (growAll back (growAll front ts).2).2) := by
  induction front generalizing ts with
  | nil => rfl
  | cons p ps ih => simp only [List.cons_append, growAll, ih, List.append_assoc]

def filed (ps : List Outline) (ts : List Token) : List Tree :=
  (growAll ps ts).1 ++ leaves (growAll ps ts).2

theorem filed_append (front back : List Outline) (ts : List Token) :
    filed (front ++ back) ts = (growAll front ts).1 ++ filed back (growAll front ts).2 := by
  rw [filed, growAll_append, List.append_assoc]
  rfl

theorem filed_front (ps : List Outline) {front : List Token} (back : List Token)
    (filled : ∀ p ∈ ps, p.Filled) (enough : (kindsOfAll ps).length ≤ (significant front).length) :
    filed ps (front ++ back) = (growAll ps front).1 ++ leaves ((growAll ps front).2 ++ back) := by
  rw [filed, growAll_front ps back filled enough]

theorem filed_alike {place : Range → Range → Prop} (ps : List Outline) {ts ts' : List Token}
    (alike : List.Forall₂ (Token.Alike place) ts ts') : filed ps ts = filed ps ts' := by
  obtain ⟨trees, rest⟩ := growAll_alike ps alike
  rw [filed, filed, trees, Token.leaves_alike rest]

theorem filed_lead {ps : List Outline} (nodes : ∀ p ∈ ps, ∃ k c, p.symbol = .node k c)
    {lead : List Token} (none : significant lead = []) (ts : List Token) :
    filed ps (lead ++ ts) = leaves lead ++ filed ps ts := by
  have blank : ∀ t ∈ lead, t.isTrivia = true := by
    simpa [significant, List.filter_eq_nil_iff] using none
  have length : triviaLength (lead ++ ts) = lead.length + triviaLength ts := by
    rw [triviaLength, List.takeWhile_append_of_pos blank, List.length_append]
    rfl
  cases ps with
  | nil => exact Token.leaves_append lead ts
  | cons p ps =>
      have first : p.grow (lead ++ ts) = (leaves lead ++ (p.grow ts).1, (p.grow ts).2) := by
        cases p with
        | token k =>
            obtain ⟨k', c, symbol⟩ := nodes _ List.mem_cons_self
            cases symbol
        | gap g =>
            obtain ⟨k', c, symbol⟩ := nodes _ List.mem_cons_self
            cases symbol
        | skipped why ks => simp [grow, length, List.take_length_add_append]
        | node k parts => simp [grow, length, List.take_length_add_append]
      simp only [filed, growAll, first, List.append_assoc]

end Outline

namespace Node

/-- The same node with all that is in it, `d` bytes further on. -/
structure Moved (d : Nat) (n m : Node) : Prop where
  kind : m.kind = n.kind
  trees : m.trees = n.trees
  start : m.start = n.start + d

def Joined (d : Nat) (first second root : Node) : Prop :=
  ∃ front back : List Node, root.children = front ++ back ∧
    List.Forall₂ (Moved 0) first.children front ∧ List.Forall₂ (Moved d) second.children back

def childrenOf (above : List Frame) (start : Nat) (before trees : List Tree) : List Node :=
  (Part.ofTrees above start before trees).filterMap (·.node?)

theorem children_eq {n : Node} {trees : List Tree} (same : n.trees = trees) :
    n.children = childrenOf (n.toFrame :: n.above) n.start [] trees := by
  rw [← same]
  rfl

theorem childrenOf_append (above : List Frame) (start : Nat) (before front back : List Tree) :
    childrenOf above start before (front ++ back) = childrenOf above start before front ++
      childrenOf above (start + Tree.widthOfAll front) (front.reverse ++ before) back := by
  rw [childrenOf, Part.ofTrees_append, List.filterMap_append]
  rfl

theorem childrenOf_leaves (above : List Frame) (start : Nat) (before : List Tree)
    (ts : List Token) : childrenOf above start before (leaves ts) = [] := by
  induction ts generalizing start before with
  | nil => rfl
  | cons t ts ih => exact ih _ _

theorem childrenOf_moved (d : Nat) (above above' : List Frame) (start : Nat)
    (before before' trees : List Tree) :
    List.Forall₂ (Moved d) (childrenOf above start before trees)
      (childrenOf above' (start + d) before' trees) := by
  induction trees generalizing start before before' with
  | nil => exact .nil
  | cons t ts ih =>
      have more := ih (start + t.width) (t :: before) (t :: before')
      rw [Nat.add_right_comm] at more
      cases t with
      | token k s => exact more
      | node k us => exact .cons ⟨rfl, rfl, rfl⟩ more

theorem joined_of_trees {d : Nat} {n m root : Node} {front back : List Tree}
    {trail gap lead : List Token} (first : n.trees = front ++ leaves trail)
    (second : m.trees = leaves lead ++ back) (whole : root.trees = front ++ leaves gap ++ back)
    (start : root.start = n.start)
    (behind : root.start + Tree.widthOfAll (front ++ leaves gap) =
      m.start + Tree.widthOfAll (leaves lead) + d) : Joined d n m root := by
  have children := children_eq whole
  rw [childrenOf_append, childrenOf_append, childrenOf_leaves, List.append_nil] at children
  refine ⟨_, _, children, ?_, ?_⟩
  · rw [children_eq first, childrenOf_append, childrenOf_leaves, List.append_nil, start]
    exact childrenOf_moved 0 _ _ _ _ _ _
  · rw [children_eq second, childrenOf_append, childrenOf_leaves, List.nil_append, behind]
    exact childrenOf_moved d _ _ _ _ _ _

end Node

end ConfigSyntax
