import ConfigSyntax.Proofs.Comments.Siblings
import ConfigSyntax.Proofs.Comments.Texts

/-! What the comment of an element is. Main statement: `parse_documents`, by which it is what the
run of blanks in front of the element documents, but behind an empty error, which takes the run. -/

namespace ConfigSyntax

theorem said_of_last {trees : List Tree} (last : ∀ u ∈ trees.getLast?, u.isTrivia = false) :
    Comment.said trees.reverse = [] := by
  cases trees using List.reverseRecOn with
  | nil => rfl
  | append_singleton trees u =>
      have visible : u.isTrivia = false := last u List.getLast?_concat
      rw [List.reverse_append]
      change Comment.said (u :: trees.reverse) = []
      cases u with
      | node k us => rfl
      | token k s =>
          rw [Tree.isTrivia] at visible
          cases k <;> first | rfl | cases visible

theorem comment?_of_bare {n : Node} {u : Tree} (found : n.before.head? = some u)
    (bare : u.EndsBare) : n.comment? = none := by
  obtain ⟨trees, before⟩ := List.head?_eq_some_iff.mp found
  rw [Node.comment?, before]
  cases bare <;> rfl

/-- Where the tokens in front do not end with a blank, the run of blanks is what follows them. -/
theorem run_of_ends {front lead : List Token} (blank : ∀ t ∈ lead, t.isTrivia = true)
    (ends : ∀ t ∈ front.getLast?, t.isTrivia = false) :
    (front ++ lead).rtakeWhile (·.isTrivia) = lead := by
  induction lead using List.reverseRecOn with
  | nil =>
      rw [List.append_nil, List.rtakeWhile_eq_nil_iff]
      intro some
      simp [ends _ (List.getLast?_eq_getLast_of_ne_nil some)]
  | append_singleton lead t ih =>
      rw [← List.append_assoc, List.rtakeWhile_concat_pos _ _ _ (blank t (by simp)),
        ih fun u member => blank u (List.mem_append_left _ member)]

/-- Whatever the text and the limit, the comment of an element is what the run of blanks in front of
its first token documents, if the sibling directly in front does not end with an empty error.
Behind one that does there is none: the run is in that sibling, in front of the error. -/
theorem parse_documents (limits : Limits) (text : String) :
    ∃ root, Node.ofTree? (parse limits text).tree = some root ∧
      ∀ n ∈ root.descendants, n.kind ∈ Kind.objectElements →
        ∃ before t behind, lex text = before ++ t :: behind ∧ t.isTrivia = false ∧
          t.offset = n.start ∧ (Tree.leavesOfAll n.trees).head? = some (t.kind, t.text) ∧
          ((∀ u ∈ n.before.head?, ¬ u.EndsBare) →
            n.comment? = Comment.documented (before.rtakeWhile (·.isTrivia))) ∧
          ((∃ u ∈ n.before.head?, u.EndsBare) → n.comment? = none) := by
  refine ⟨fileNode limits text, ofTree?_parse limits text, fun n member element => ?_⟩
  obtain ⟨front, lead, t, behind, trees, split, blank, visible, offset, leaf, place, ends, last⟩ :=
    exists_before member element
  refine ⟨front ++ lead, t, behind, by rw [split, List.append_assoc], visible, offset, leaf, ?_, ?_⟩
  · intro filled
    have marked : ∀ u ∈ lead, Comment.Marked u := by
      intro u inside
      obtain ⟨first, second, rfl⟩ := List.append_of_mem inside
      have whole : lex text = (front ++ first) ++ u :: (second ++ t :: behind) := by
        rw [split]
        simp
      exact marked_of_split whole (by simp)
    have comment := Node.comment?_of_run place blank marked (said_of_last last)
    cases ends with
    | seen u found seen =>
        rw [comment, run_of_ends blank fun v last => ?_]
        rw [found] at last
        rw [← Option.some.inj last]
        exact seen
    | nothing none empty =>
        rw [comment, run_of_ends blank fun v last => ?_]
        rw [none] at last
        cases last
    | bare led u found bare =>
        -- The error took the run, so nothing stands between it and the element.
        cases lead with
        | nil =>
            have head : n.before.head? = some u := by
              rw [place, Token.leaves_nil, List.reverse_nil, List.nil_append, List.head?_reverse,
                found]
            exact absurd bare (filled u head)
        | cons v lead =>
            have seen := led v rfl
            rw [blank v List.mem_cons_self] at seen
            cases seen
  · rintro ⟨u, found, bare⟩
    exact comment?_of_bare found bare

/-- The comment is in the property, in front of the value that is not there. -/
theorem comment_in_slot :
    ∃ root, Node.ofTree? (parse {} "a =\n// c\nval x = 1").tree = some root ∧
      ∃ n ∈ root.descendants, n.kind = .variableDeclaration ∧
        ∃ before t behind, lex "a =\n// c\nval x = 1" = before ++ t :: behind ∧
          t.offset = n.start ∧
          Comment.documented (before.rtakeWhile (·.isTrivia)) = some "c" ∧ n.comment? = none := by
  refine ⟨fileNode {} "a =\n// c\nval x = 1", ofTree?_parse {} _, ?_⟩
  have comments : ((fileNode {} "a =\n// c\nval x = 1").descendants.filter
      (·.kind = .variableDeclaration)).map (fun n => (n.start, n.comment?)) = [(9, none)] := by
    decide +kernel
  have tokens : lex "a =\n// c\nval x = 1" =
      [⟨.identifier, "a", 0⟩, ⟨.whitespace, " ", 1⟩, ⟨.equals, "=", 2⟩, ⟨.whitespace, "\n", 3⟩,
        ⟨.lineComment, "// c", 4⟩, ⟨.whitespace, "\n", 8⟩] ++ ⟨.valWord, "val", 9⟩ ::
      [⟨.whitespace, " ", 12⟩, ⟨.identifier, "x", 13⟩, ⟨.whitespace, " ", 14⟩, ⟨.equals, "=", 15⟩,
        ⟨.whitespace, " ", 16⟩, ⟨.number, "1", 17⟩] := by
    decide +kernel
  obtain ⟨n, kept, same⟩ := List.mem_map.mp (comments ▸ List.mem_singleton_self _)
  obtain ⟨member, kind⟩ := List.mem_filter.mp kept
  obtain ⟨start, comment⟩ := Prod.mk.inj same
  exact ⟨n, member, of_decide_eq_true kind, _, _, _, tokens, start.symm, by decide +kernel, comment⟩

end ConfigSyntax
