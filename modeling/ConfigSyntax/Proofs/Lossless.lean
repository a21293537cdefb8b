import ConfigSyntax.Proofs.Growth

/-! Reading a text loses none of it: the leaves of the tree are its tokens. -/

namespace ConfigSyntax

namespace Tree

mutual

def leaves : Tree → List (Kind × String)
  | .token k s => [(k, s)]
  | .node _ parts => leavesOfAll parts

def leavesOfAll : List Tree → List (Kind × String)
  | [] => []
  | t :: ts => leaves t ++ leavesOfAll ts

end

theorem leavesOfAll_append (front back : List Tree) :
    leavesOfAll (front ++ back) = leavesOfAll front ++ leavesOfAll back := by
  induction front with
  | nil => rfl
  | cons head tail ih => simp [leavesOfAll, ih]

theorem leavesOfAll_leaves (ts : List Token) :
    leavesOfAll (Token.leaves ts) = ts.map fun t => (t.kind, t.text) := by
  induction ts with
  | nil => rfl
  | cons t ts ih =>
      rw [Token.leaves_cons, leavesOfAll, ih]
      rfl

def joined : List (Kind × String) → String
  | [] => ""
  | leaf :: rest => leaf.2 ++ joined rest

theorem joined_append (front back : List (Kind × String)) :
    joined (front ++ back) = joined front ++ joined back := by
  induction front with
  | nil => simp [joined]
  | cons head tail ih => simp [joined, ih, String.append_assoc]

mutual

theorem joined_leaves : ∀ t : Tree, joined t.leaves = t.text
  | .token _ s => by simp [leaves, joined, text]
  | .node _ parts => joined_leavesOfAll parts

theorem joined_leavesOfAll : ∀ ts : List Tree, joined (leavesOfAll ts) = textOfAll ts
  | [] => rfl
  | t :: ts => by
      rw [leavesOfAll, joined_append, joined_leaves t, joined_leavesOfAll ts, textOfAll]

end

end Tree

namespace Outline

open Event (triviaLength)

/-- A node keeps the blanks in front of it and what its parts keep. -/
theorem leavesOfAll_wrapped (k : Kind) (inner : List Tree) (ts rest : List Token) (lead : Nat)
    (kept : Tree.leavesOfAll inner ++ Tree.leavesOfAll (Token.leaves rest) =
      Tree.leavesOfAll (Token.leaves (ts.drop lead))) :
    Tree.leavesOfAll (Token.leaves (ts.take lead) ++ [.node k inner]) ++
        Tree.leavesOfAll (Token.leaves rest) =
      Tree.leavesOfAll (Token.leaves ts) := by
  have single : Tree.leavesOfAll [.node k inner] = Tree.leavesOfAll inner := by
    simp [Tree.leavesOfAll, Tree.leaves]
  rw [Tree.leavesOfAll_append, single, List.append_assoc, kept, ← Tree.leavesOfAll_append,
    ← Token.leaves_append, List.take_append_drop]

mutual

/-- What an outline adds and what it leaves are the tokens it started at. -/
theorem leaves_grow : ∀ (o : Outline) (ts : List Token),
    Tree.leavesOfAll (o.grow ts).1 ++ Tree.leavesOfAll (Token.leaves (o.grow ts).2) =
      Tree.leavesOfAll (Token.leaves ts)
  | .token _, ts => by
      rw [grow, ← Tree.leavesOfAll_append, ← Token.leaves_append, List.take_append_drop]
  | .gap _, ts => rfl
  | .skipped _ ks, ts => by
      rw [grow]
      apply leavesOfAll_wrapped
      rw [← Tree.leavesOfAll_append, ← Token.leaves_append, List.take_append_drop]
  | .node k parts, ts => by
      rw [grow]
      apply leavesOfAll_wrapped
      exact leaves_growAll parts _

theorem leaves_growAll : ∀ (ps : List Outline) (ts : List Token),
    Tree.leavesOfAll (growAll ps ts).1 ++ Tree.leavesOfAll (Token.leaves (growAll ps ts).2) =
      Tree.leavesOfAll (Token.leaves ts)
  | [], ts => rfl
  | p :: ps, ts => by
      rw [growAll, Tree.leavesOfAll_append, List.append_assoc, leaves_growAll ps, leaves_grow p]

end

end Outline

theorem Tree.leaves_ofParts (k : Kind) (parts : List Outline) (ts : List Token) :
    (Tree.ofParts k parts ts).leaves = ts.map fun t => (t.kind, t.text) := by
  rw [Tree.ofParts_eq, Tree.leaves, Tree.leavesOfAll_append, Outline.leaves_growAll,
    Tree.leavesOfAll_leaves]

/-- The leaves of the tree are the tokens of the text but for the one that ends it, whatever the
limit; so the tree has the text that was read. -/
theorem parse_lossless (limits : Limits) (text : String) :
    (parse limits text).tree.leaves =
        (tokenize text).dropLast.map (fun t => (t.kind, t.text)) ∧
      (parse limits text).tree.text = text := by
  have leaves : (parse limits text).tree.leaves =
      (lex text).map (fun t => (t.kind, t.text)) := by
    rw [parse_tree, Tree.leaves_ofParts]
  constructor
  · rw [leaves, tokenize, List.dropLast_concat]
  · calc
      (parse limits text).tree.text = Tree.joined (parse limits text).tree.leaves :=
        (Tree.joined_leaves _).symm
      _ = Tree.joined (Tree.leavesOfAll (Token.leaves (lex text))) := by
        rw [leaves, Tree.leavesOfAll_leaves]
      _ = text := by rw [Tree.joined_leavesOfAll, lex_text]

end ConfigSyntax
