import ConfigSyntax.Proofs.Conformance
import ConfigSyntax.Proofs.Nesting

/-! How deep trees are: as deep as their outlines, and so no deeper than the limit allows. Main
statement: `parse_bounded`. -/

namespace ConfigSyntax

open Event (triviaLength)

namespace Tree

mutual

def height : Tree → Nat
  | .token _ _ => 0
  | .node _ parts => heightOfAll parts + 1

def heightOfAll : List Tree → Nat
  | [] => 0
  | t :: ts => max (height t) (heightOfAll ts)

end

theorem heightOfAll_append (front back : List Tree) :
    heightOfAll (front ++ back) = max (heightOfAll front) (heightOfAll back) := by
  induction front with
  | nil => simp [heightOfAll]
  | cons head tail ih => simp [heightOfAll, ih, Nat.max_assoc]

@[simp] theorem heightOfAll_leaves (ts : List Token) : heightOfAll (Token.leaves ts) = 0 := by
  induction ts with
  | nil => rfl
  | cons t ts ih => simpa [heightOfAll, height, Token.leaf] using ih

end Tree

namespace Outline

theorem height_wrapped (k : Kind) (inner : List Tree) (lead : List Token) :
    Tree.heightOfAll (Token.leaves lead ++ [.node k inner]) = Tree.heightOfAll inner + 1 := by
  simp [Tree.heightOfAll_append, Tree.heightOfAll, Tree.height]

mutual

theorem height_grow : ∀ (o : Outline) (ts : List Token),
    Tree.heightOfAll (o.grow ts).1 = o.height
  | .token _, ts => Tree.heightOfAll_leaves _
  | .gap _, ts => rfl
  | .skipped _ ks, ts => by
      rw [grow, height_wrapped, Tree.heightOfAll_leaves]
      rfl
  | .node k parts, ts => by
      rw [grow, height_wrapped, height_growAll parts]
      rfl

theorem height_growAll : ∀ (ps : List Outline) (ts : List Token),
    Tree.heightOfAll (growAll ps ts).1 = heightOfAll ps
  | [], ts => rfl
  | p :: ps, ts => by
      rw [growAll, Tree.heightOfAll_append, height_grow p, height_growAll ps]
      rfl

end

end Outline

namespace Node

/-- A node and all nodes it is in, the root last. -/
def path (n : Node) : List Frame := n.toFrame :: n.above

mutual

theorem length_path_preorderOf (enters : Node → Bool) : ∀ (t : Tree) (above : List Frame)
    (start : Nat) (before : List Tree), ∀ n ∈ preorderOf enters above start before t,
      n.path.length ≤ above.length + t.height
  | .token _ _, above, start, before => nofun
  | .node k ts, above, start, before => by
      intro n member
      simp only [preorderOf, List.mem_cons] at member
      rcases member with rfl | below
      · simp only [path, List.length_cons, Tree.height]
        omega
      · split at below
        · have bound := length_path_preorderOfAll enters ts _ _ _ n below
          simp only [List.length_cons] at bound
          simp only [Tree.height]
          omega
        · cases below

/-- A path has at most the nodes above the trees and as many as the trees are high. -/
theorem length_path_preorderOfAll (enters : Node → Bool) : ∀ (ts : List Tree)
    (above : List Frame) (start : Nat) (before : List Tree),
    ∀ n ∈ preorderOfAll enters above start before ts,
      n.path.length ≤ above.length + Tree.heightOfAll ts
  | [], above, start, before => nofun
  | t :: ts, above, start, before => by
      intro n member
      have head := length_path_preorderOf enters t above start before n
      have tail := length_path_preorderOfAll enters ts above (start + t.width) (t :: before) n
      rw [Tree.heightOfAll]
      rcases List.mem_append.mp member with member | member
      · have := head member
        omega
      · have := tail member
        omega

end

theorem length_path_descendants {t : Tree} {root : Node} (top : ofTree? t = some root) :
    ∀ n ∈ root.descendants, n.path.length ≤ t.height := by
  cases t with
  | token k s => cases top
  | node k ts =>
      intro n member
      rw [← Option.some.inj top] at member
      have bound := length_path_preorderOf (fun _ => true) (.node k ts) [] 0 [] n
      rw [List.length_nil, Nat.zero_add] at bound
      exact bound member

end Node

theorem height_parse (limits : Limits) (text : String) :
    (parse limits text).tree.height ≤ 3 * limits.maxDepth + 2 := by
  have outer := Grammar.height_file limits.maxDepth (Outline.kindsBefore (lex text))
  rw [parse_tree, Tree.ofParts_eq, Tree.height, Tree.heightOfAll_append, Outline.height_growAll,
    Tree.heightOfAll_leaves, Nat.max_zero]
  exact Nat.succ_le_succ outer

/-- No path from the root down has more nodes than the limit allows, nor is the tree higher, which
is how deep those go down who walk it. -/
theorem parse_bounded (limits : Limits) (text : String) :
    (parse limits text).tree.height ≤ 3 * limits.maxDepth + 2 ∧
      ∃ root, Node.ofTree? (parse limits text).tree = some root ∧
        ∀ n ∈ root.descendants, n.path.length ≤ 3 * limits.maxDepth + 2 := by
  have high := height_parse limits text
  have top := ofTree?_parse limits text
  refine ⟨high, fileNode limits text, top, fun n member => ?_⟩
  exact Nat.le_trans (Node.length_path_descendants top n member) high

example : (parse ⟨1⟩ "@x f(1)").tree.height = 5 := by
  simp only [parse_tree, Tree.ofParts_eq]
  decide +kernel

end ConfigSyntax
