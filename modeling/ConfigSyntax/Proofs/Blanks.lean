import ConfigSyntax.Proofs.Alike
import ConfigSyntax.Proofs.Conformance

/-! Blanks and comments do not count: two texts with the same significant tokens have the same tree
but for them, and the same diagnostics at the same tokens. Main statement: `parse_significant`. -/

namespace ConfigSyntax

open Event (triviaLength)
open Token (leaves significant)

namespace Tree

mutual

def bare : Tree → Tree
  | .token k s => .token k s
  | .node k ts => .node k (bareAll ts)

def bareAll : List Tree → List Tree
  | [] => []
  | t :: ts => if t.isTrivia then bareAll ts else bare t :: bareAll ts

end

theorem bareAll_append (front back : List Tree) :
    bareAll (front ++ back) = bareAll front ++ bareAll back := by
  induction front with
  | nil => rfl
  | cons t ts ih =>
      rw [List.cons_append, bareAll, bareAll, ih]
      split <;> rfl

theorem bareAll_leaves (ts : List Token) :
    bareAll (Token.leaves ts) = Token.leaves (significant ts) := by
  induction ts with
  | nil => rfl
  | cons t ts ih =>
      have same : t.leaf.isTrivia = t.isTrivia := rfl
      rw [Token.leaves_cons, bareAll, ih, same]
      by_cases blank : t.isTrivia = true
      · simp [significant, blank]
      · simp [significant, blank, Token.leaf, bare]

end Tree

namespace Token

theorem triviaLength_significant (ts : List Token) : triviaLength (significant ts) = 0 := by
  induction ts with
  | nil => rfl
  | cons t ts ih =>
      by_cases blank : t.isTrivia = true
      · simpa [significant, blank] using ih
      · simp [significant, blank, triviaLength]

theorem significant_take_reach (n : Nat) (ts : List Token) :
    significant (ts.take (Outline.reach n ts)) = (significant ts).take n := by
  induction n generalizing ts with
  | zero => rfl
  | succ n ih =>
      rw [Outline.reach_succ n, List.take_add, significant_append, ih, significant_take_one,
        significant_drop_one, Nat.add_comm, List.take_add]

end Token

namespace Outline

theorem reach_significant (n : Nat) (ts : List Token) : reach n (significant ts) = n := by
  induction n generalizing ts with
  | zero => rfl
  | succ n ih =>
      have rest := ih (ts.drop (reach 1 ts))
      rw [Token.significant_drop_one] at rest
      rw [reach, Token.triviaLength_significant, Nat.zero_add, rest, Nat.add_comm]

theorem bare_wrapped (k : Kind) (inner : List Tree) (ts : List Token) :
    Tree.bareAll (leaves (ts.take (triviaLength ts)) ++ [.node k inner]) =
      [.node k (Tree.bareAll inner)] := by
  rw [Tree.bareAll_append, Tree.bareAll_leaves, Token.significant_lead]
  rfl

mutual

/-- What grows, blanks apart, is what grows of the significant tokens. -/
theorem bare_grow : ∀ (o : Outline) (ts : List Token),
    Tree.bareAll (o.grow ts).1 = (o.grow (significant ts)).1 ∧
      significant (o.grow ts).2 = (o.grow (significant ts)).2
  | .token _, ts => by
      rw [grow, grow, Tree.bareAll_leaves, Token.significant_take_reach,
        Token.significant_drop_reach, reach_significant]
      exact ⟨rfl, rfl⟩
  | .gap _, ts => ⟨rfl, rfl⟩
  | .skipped _ ks, ts => by
      simp only [grow, Token.triviaLength_significant, List.drop_zero, reach_significant]
      rw [bare_wrapped, Tree.bareAll_leaves, Token.significant_take_reach,
        Token.significant_drop_reach, Token.significant_behind]
      exact ⟨rfl, rfl⟩
  | .node k parts, ts => by
      obtain ⟨inner, rest⟩ := bare_growAll parts (ts.drop (triviaLength ts))
      rw [Token.significant_behind] at inner rest
      simp only [grow, Token.triviaLength_significant, List.drop_zero]
      rw [bare_wrapped, inner]
      exact ⟨rfl, rest⟩

theorem bare_growAll : ∀ (ps : List Outline) (ts : List Token),
    Tree.bareAll (growAll ps ts).1 = (growAll ps (significant ts)).1 ∧
      significant (growAll ps ts).2 = (growAll ps (significant ts)).2
  | [], ts => ⟨rfl, rfl⟩
  | p :: ps, ts => by
      obtain ⟨first, rest⟩ := bare_grow p ts
      obtain ⟨more, rest'⟩ := bare_growAll ps (p.grow ts).2
      rw [rest] at more rest'
      rw [growAll, growAll, Tree.bareAll_append, first, more]
      exact ⟨rfl, rest'⟩

end

end Outline

theorem bare_parse (limits : Limits) (text : String) :
    (parse limits text).tree.bare =
      .node .file (Outline.growAll (outline limits (lex text)) (significant (lex text))).1 := by
  rw [parse_tree, Tree.ofParts_eq, Tree.bare, Tree.bareAll_append, Tree.bareAll_leaves,
    significant_rest, (Outline.bare_growAll _ _).1, Token.leaves_nil, List.append_nil]

def SamePlace (text text' : String) (r r' : Range) : Prop :=
  ∃ (i : Nat) (t t' : Token), (significant (tokenize text))[i]? = some t ∧
    (significant (tokenize text'))[i]? = some t' ∧ t.range = r ∧ t'.range = r'

def SameTokens (text text' : String) : Prop :=
  (significant (tokenize text)).map (fun t => (t.kind, t.text)) =
    (significant (tokenize text')).map fun t => (t.kind, t.text)

instance (text text' : String) : Decidable (SameTokens text text') :=
  inferInstanceAs (Decidable (_ = _))

theorem significant_tokenize (text : String) :
    significant (tokenize text) = significant (lex text) ++ [.endAt text.utf8ByteSize] := by
  rw [tokenize, Token.significant_append]
  rfl

section

variable {text text' : String} (same : SameTokens text text')

include same

theorem alike_of_getElem? {i : Nat} {t t' : Token}
    (first : (significant (tokenize text))[i]? = some t)
    (second : (significant (tokenize text'))[i]? = some t') :
    t.Alike (SamePlace text text') t' := by
  have pair := congrArg (·[i]?) same
  simp only [List.getElem?_map, first, second, Option.map_some, Option.some.injEq,
    Prod.mk.injEq] at pair
  exact ⟨pair.1, pair.2, i, t, t', first, second, rfl, rfl⟩

theorem length_significant :
    (significant (lex text)).length = (significant (lex text')).length := by
  have count := congrArg List.length same
  simpa [significant_tokenize] using count

theorem lex_alike :
    List.Forall₂ (Token.Alike (SamePlace text text')) (significant (lex text))
      (significant (lex text')) := by
  refine List.forall₂_iff_get.mpr ⟨length_significant same, fun i bound bound' => ?_⟩
  apply alike_of_getElem? same (i := i)
  · rw [significant_tokenize, List.getElem?_append_left bound]
    exact List.getElem?_eq_getElem bound
  · rw [significant_tokenize, List.getElem?_append_left bound']
    exact List.getElem?_eq_getElem bound'

theorem endAt_alike :
    (Token.endAt text.utf8ByteSize).Alike (SamePlace text text') (.endAt text'.utf8ByteSize) := by
  apply alike_of_getElem? same (i := (significant (lex text)).length)
  · rw [significant_tokenize, List.getElem?_concat_length]
  · rw [significant_tokenize, length_significant same, List.getElem?_concat_length]

theorem outline_congr (limits : Limits) :
    outline limits (lex text) = outline limits (lex text') :=
  congrArg (Grammar.file limits.maxDepth) (Token.kinds_alike (lex_alike same))

end

/-- Without comments that do not end, all that is wrong is wrong with the significant tokens. -/
theorem faults_of_ended (limits : Limits) {text : String}
    (ended : ∀ t ∈ lex text, t.kind = .blockComment → t.isUnterminated = false) :
    faults limits text = (Outline.faultsOfAll (.endAt text.utf8ByteSize) none
      (outline limits (lex text)) (significant (lex text))).1 := by
  have silent : Token.blankFaults (lex text) = [] := by
    rw [Token.blankFaults_eq_nil]
    intro t present blank
    rw [Token.fault?_eq_none]
    by_cases comment : t.kind = .blockComment
    · rw [comment]
      exact ⟨nofun, ended t present comment⟩
    · obtain ⟨k, s, offset⟩ := t
      cases k with
      | blockComment => exact absurd rfl comment
      | whitespace => exact ⟨nofun, rfl⟩
      | lineComment => exact ⟨nofun, rfl⟩
      | _ => cases blank
  rw [faults, Fault.ofParts]
  change (Token.blankFaults (lex text)).foldr Fault.insert _ = _
  rw [silent]
  rfl

/-- Only the significant tokens are read, whatever the limit: the tree is the same but for blanks
and comments, and what is said is said of the same tokens in the same order. -/
theorem parse_significant (limits : Limits) {text text' : String}
    (same : SameTokens text text')
    (ended : ∀ t ∈ lex text, t.kind = .blockComment → t.isUnterminated = false)
    (ended' : ∀ t ∈ lex text', t.kind = .blockComment → t.isUnterminated = false) :
    (parse limits text).tree.bare = (parse limits text').tree.bare ∧
      List.Forall₂ (Diagnostic.Alike (SamePlace text text')) (parse limits text).diagnostics
        (parse limits text').diagnostics := by
  have outlines := outline_congr same limits
  have tokens := lex_alike same
  constructor
  · rw [bare_parse, bare_parse, outlines, (Outline.growAll_alike _ tokens).1]
  · rw [parse_diagnostics, parse_diagnostics, faults_of_ended limits ended,
      faults_of_ended limits ended', outlines]
    exact Fault.diagnostics_alike (Outline.faultsOfAll_alike (endAt_alike same) _ .none tokens)

theorem significant_of_spread :
    SameTokens "a=f(1" "a = /* b */ f(\n  1 // c" ∧
      (parse ⟨2⟩ "a=f(1").tree.bare = (parse ⟨2⟩ "a = /* b */ f(\n  1 // c").tree.bare ∧
      List.Forall₂ (Diagnostic.Alike (SamePlace "a=f(1" "a = /* b */ f(\n  1 // c"))
        (parse ⟨2⟩ "a=f(1").diagnostics (parse ⟨2⟩ "a = /* b */ f(\n  1 // c").diagnostics := by
  have same : SameTokens "a=f(1" "a = /* b */ f(\n  1 // c" := by decide +kernel
  exact ⟨same, parse_significant ⟨2⟩ same (by decide +kernel) (by decide +kernel)⟩

end ConfigSyntax
