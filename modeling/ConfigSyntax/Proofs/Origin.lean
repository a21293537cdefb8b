import ConfigSyntax.Node
import ConfigSyntax.Proofs.Growth
import ConfigSyntax.Proofs.Reading

/-! Where the nodes of a tree come from: each stems from a node of the outline, or from a run it
skipped, and from the tokens that were left when it was opened. -/

namespace ConfigSyntax

open Event (triviaLength)

namespace Token

def significant (ts : List Token) : List Token := ts.filter (!·.isTrivia)

@[simp] theorem significant_append (front back : List Token) :
    significant (front ++ back) = significant front ++ significant back := List.filter_append ..

theorem significant_lead (ts : List Token) : significant (ts.take (triviaLength ts)) = [] := by
  induction ts with
  | nil => rfl
  | cons t ts ih =>
      by_cases blank : t.isTrivia = true
      · simpa [triviaLength, blank, significant] using ih
      · simp [triviaLength, blank, significant]

theorem significant_behind (ts : List Token) :
    significant (ts.drop (triviaLength ts)) = significant ts := by
  calc
    _ = significant (ts.take (triviaLength ts)) ++ significant (ts.drop (triviaLength ts)) := by
      rw [significant_lead, List.nil_append]
    _ = significant ts := by rw [← significant_append, List.take_append_drop]

theorem significant_take_one (ts : List Token) :
    significant (ts.take (Outline.reach 1 ts)) = (significant ts).take 1 := by
  induction ts with
  | nil => rfl
  | cons t ts ih =>
      by_cases blank : t.isTrivia = true
      · simpa [Outline.reach, triviaLength, blank, significant] using ih
      · simp [Outline.reach, triviaLength, blank, significant]

theorem significant_drop_one (ts : List Token) :
    significant (ts.drop (Outline.reach 1 ts)) = (significant ts).drop 1 := by
  induction ts with
  | nil => rfl
  | cons t ts ih =>
      by_cases blank : t.isTrivia = true
      · simpa [Outline.reach, triviaLength, blank, significant] using ih
      · simp [Outline.reach, triviaLength, blank, significant]

theorem significant_drop_reach (n : Nat) (ts : List Token) :
    significant (ts.drop (Outline.reach n ts)) = (significant ts).drop n := by
  induction n generalizing ts with
  | zero => rfl
  | succ n ih =>
      rw [Outline.reach_succ n, ← List.drop_drop, ih, significant_drop_one, List.drop_drop,
        Nat.add_comm]

end Token

namespace Outline

open Token (Tiled significant leaves)

mutual

/-- An outline takes as many significant tokens as it has kinds. -/
theorem significant_grow : ∀ (o : Outline) (ts : List Token),
    significant (o.grow ts).2 = (significant ts).drop o.kinds.length
  | .token _, ts => Token.significant_drop_one ts
  | .gap _, ts => rfl
  | .skipped _ ks, ts => by
      rw [grow, Token.significant_drop_reach, Token.significant_behind]
      rfl
  | .node _ parts, ts => by
      rw [grow, significant_growAll parts, Token.significant_behind]
      rfl

theorem significant_growAll : ∀ (ps : List Outline) (ts : List Token),
    significant (growAll ps ts).2 = (significant ts).drop (kindsOfAll ps).length
  | [], ts => rfl
  | p :: ps, ts => by
      rw [growAll, significant_growAll ps, significant_grow p, List.drop_drop, kindsOfAll,
        List.length_append]

end

theorem prefix_drop {α : Type} {front back l : List α} (fits : front ++ back <+: l) :
    back <+: l.drop front.length := by
  obtain ⟨more, rfl⟩ := fits
  rw [List.append_assoc, List.drop_left]
  exact List.prefix_append back more

theorem fits_head {p : Outline} {ps : List Outline} {ts : List Token}
    (fits : kindsOfAll (p :: ps) <+: ts.map (·.kind)) : p.kinds <+: ts.map (·.kind) :=
  (List.prefix_append _ _).trans fits

theorem fits_tail {p : Outline} {ps : List Outline} {ts : List Token}
    (fits : kindsOfAll (p :: ps) <+: ts.map (·.kind)) :
    kindsOfAll ps <+: (ts.drop p.kinds.length).map (·.kind) := by
  rw [List.map_drop]
  exact prefix_drop fits

theorem tiled_drop {start stop : Nat} {ts : List Token} (tiled : Tiled start stop ts) (n : Nat) :
    Tiled (start + Tree.widthOfAll (leaves (ts.take n))) stop (ts.drop n) := by
  rw [← List.take_append_drop n ts] at tiled
  exact tiled.suffix

mutual

theorem tiled_grow : ∀ (o : Outline) {ts : List Token} {start stop : Nat},
    Tiled start stop ts → Tiled (start + Tree.widthOfAll (o.grow ts).1) stop (o.grow ts).2
  | .token _, ts, start, stop, tiled => tiled_drop tiled _
  | .gap _, ts, start, stop, tiled => tiled
  | .skipped _ ks, ts, start, stop, tiled => by
      have inner := tiled_drop (tiled_drop tiled (triviaLength ts))
        (reach ks.length (ts.drop (triviaLength ts)))
      rw [Nat.add_assoc] at inner
      rw [grow, Tree.widthOfAll_append]
      exact inner
  | .node k parts, ts, start, stop, tiled => by
      have inner := tiled_growAll parts (tiled_drop tiled (triviaLength ts))
      rw [Nat.add_assoc] at inner
      rw [grow, Tree.widthOfAll_append]
      exact inner

theorem tiled_growAll : ∀ (ps : List Outline) {ts : List Token} {start stop : Nat},
    Tiled start stop ts → Tiled (start + Tree.widthOfAll (growAll ps ts).1) stop (growAll ps ts).2
  | [], ts, start, stop, tiled => tiled
  | p :: ps, ts, start, stop, tiled => by
      have rest := tiled_growAll ps (tiled_grow p tiled)
      rw [Nat.add_assoc, ← Tree.widthOfAll_append] at rest
      exact rest

end

structure Origin where
  kind : Kind
  parts : List Outline
  tokens : List Token

mutual

/-- The origins of the nodes that an outline makes, each in front of those below it. -/
def origins : Outline → List Token → List Origin
  | .token _, _ => []
  | .gap _, _ => []
  | .skipped _ ks, ts => [⟨.error, ks.map .token, ts.drop (triviaLength ts)⟩]
  | .node k parts, ts =>
    ⟨k, parts, ts.drop (triviaLength ts)⟩ :: originsOfAll parts (ts.drop (triviaLength ts))

def originsOfAll : List Outline → List Token → List Origin
  | [], _ => []
  | p :: ps, ts => origins p ts ++ originsOfAll ps (p.grow ts).2

end

/-- The node stands where its origin starts, and the tokens go on to `stop`. -/
structure Stems (stop : Nat) (n : Node) (o : Origin) : Prop where
  kind : n.kind = o.kind
  trees : n.trees = (growAll o.parts o.tokens).1
  tiled : Tiled n.start stop o.tokens

theorem exists_origin {stop : Nat} {nodes : List Node} {origins : List Origin}
    (stems : List.Forall₂ (Stems stop) nodes origins) {n : Node} (member : n ∈ nodes) :
    ∃ o ∈ origins, Stems stop n o := by
  induction stems with
  | nil => cases member
  | cons stem _ ih =>
      rcases List.mem_cons.mp member with rfl | member
      · exact ⟨_, List.mem_cons_self, stem⟩
      · obtain ⟨o, present, stem⟩ := ih member
        exact ⟨o, List.mem_cons_of_mem _ present, stem⟩

end Outline

namespace Node

open Token (leaves)

theorem preorderOfAll_append (enters : Node → Bool) (above : List Frame) (start : Nat)
    (before front back : List Tree) :
    preorderOfAll enters above start before (front ++ back) =
      preorderOfAll enters above start before front ++
        preorderOfAll enters above (start + Tree.widthOfAll front) (front.reverse ++ before)
          back := by
  induction front generalizing start before with
  | nil => rfl
  | cons t ts ih =>
      simp only [List.cons_append, preorderOfAll, ih, List.append_assoc, Tree.widthOfAll,
        Nat.add_assoc, List.reverse_cons, List.nil_append]

theorem preorderOfAll_leaves (enters : Node → Bool) (above : List Frame) (start : Nat)
    (before : List Tree) (ts : List Token) :
    preorderOfAll enters above start before (leaves ts) = [] := by
  induction ts generalizing start before with
  | nil => rfl
  | cons t ts ih =>
      rw [Token.leaves_cons, preorderOfAll, ih]
      rfl

end Node

namespace Outline

open Token (Tiled leaves)

theorem preorder_wrapped (k : Kind) (inner : List Tree) (lead : List Token) (above : List Frame)
    (start : Nat) (before : List Tree) :
    ∃ n : Node, n.kind = k ∧ n.trees = inner ∧ n.start = start + Tree.widthOfAll (leaves lead) ∧
      n.above = above ∧
      Node.preorderOfAll (fun _ => true) above start before (leaves lead ++ [.node k inner]) =
        n :: Node.preorderOfAll (fun _ => true) (n.toFrame :: above) n.start [] inner := by
  refine ⟨⟨⟨k, inner, start + Tree.widthOfAll (leaves lead), (leaves lead).reverse ++ before⟩,
    above⟩, rfl, rfl, rfl, rfl, ?_⟩
  rw [Node.preorderOfAll_append, Node.preorderOfAll_leaves]
  simp only [Node.preorderOfAll, Node.preorderOf, List.nil_append, List.append_nil, if_true]

mutual

theorem stems_grow : ∀ (o : Outline) {ts : List Token} {start stop : Nat}
    (_ : Tiled start stop ts) (above : List Frame) (before : List Tree),
    List.Forall₂ (Stems stop)
      (Node.preorderOfAll (fun _ => true) above start before (o.grow ts).1) (o.origins ts)
  | .token _, ts, start, stop, tiled, above, before => by
      rw [grow, Node.preorderOfAll_leaves]
      exact .nil
  | .gap _, ts, start, stop, tiled, above, before => .nil
  | .skipped _ ks, ts, start, stop, tiled, above, before => by
      rw [grow]
      obtain ⟨n, kind, trees, place, -, nodes⟩ := preorder_wrapped .error
        (leaves ((ts.drop (triviaLength ts)).take (reach ks.length (ts.drop (triviaLength ts)))))
        (ts.take (triviaLength ts)) above start before
      rw [nodes, Node.preorderOfAll_leaves]
      refine .cons ⟨kind, ?_, ?_⟩ .nil
      · rw [trees, growAll_tokens]
      · rw [place]
        exact tiled_drop tiled _
  | .node k parts, ts, start, stop, tiled, above, before => by
      rw [grow]
      have inside := tiled_drop tiled (triviaLength ts)
      obtain ⟨n, kind, trees, place, -, nodes⟩ := preorder_wrapped k
        (growAll parts (ts.drop (triviaLength ts))).1 (ts.take (triviaLength ts)) above start before
      rw [nodes]
      rw [← place] at inside
      exact .cons ⟨kind, trees, inside⟩ (stems_growAll parts inside _ _)

theorem stems_growAll : ∀ (ps : List Outline) {ts : List Token} {start stop : Nat}
    (_ : Tiled start stop ts) (above : List Frame) (before : List Tree),
    List.Forall₂ (Stems stop)
      (Node.preorderOfAll (fun _ => true) above start before (growAll ps ts).1)
      (originsOfAll ps ts)
  | [], ts, start, stop, tiled, above, before => .nil
  | p :: ps, ts, start, stop, tiled, above, before => by
      rw [growAll, Node.preorderOfAll_append]
      exact List.rel_append (stems_grow p tiled above before)
        (stems_growAll ps (tiled_grow p tiled) above _)

end

end Outline
end ConfigSyntax
