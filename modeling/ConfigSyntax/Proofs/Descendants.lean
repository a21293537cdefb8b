import ConfigSyntax.Node.Typed
import ConfigSyntax.Proofs.Lossless
import ConfigSyntax.Proofs.Places
import Mathlib.Data.List.Pairwise

/-! The nodes of a tree that is read: their parts, and their tokens. Main statements:
`symbols_of_descendant`, `tokens_of_descendants`. -/

namespace ConfigSyntax

open Outline (originsOfAll Stems)
open Token (significant)

namespace Part

def isTrivia : Part → Bool
  | .token t => t.isTrivia
  | .node _ => false

def symbol : Part → Symbol
  | .token t => .token t.kind
  | .node n => Tree.symbol (.node n.kind n.trees)

theorem eq_token {p : Part} {k : Kind} (seen : p.symbol = .token k) :
    ∃ t, p = .token t ∧ t.kind = k := by
  cases p with
  | token t => exact ⟨t, rfl, Symbol.token.inj seen⟩
  | node n => cases seen

theorem eq_node {p : Part} {k : Kind} {c : Bool} (seen : p.symbol = .node k c) :
    ∃ n, p = .node n ∧ n.kind = k := by
  cases p with
  | token t => cases seen
  | node n => exact ⟨n, rfl, (Symbol.node.inj seen).1⟩

theorem symbols_ofTrees (above : List Frame) (start : Nat) (before ts : List Tree) :
    ((ofTrees above start before ts).filter (!·.isTrivia)).map symbol =
      (ts.filter (!·.isTrivia)).map Tree.symbol := by
  induction ts generalizing start before with
  | nil => rfl
  | cons t ts ih =>
      have more := ih (start + t.width) (t :: before)
      cases t with
      | node k us =>
          rw [ofTrees, List.filter_cons_of_pos rfl, List.filter_cons_of_pos rfl, List.map_cons,
            more]
          rfl
      | token k s =>
          by_cases blank : k.isTrivia = true
          · rw [ofTrees, List.filter_cons_of_neg (by simp [isTrivia, Token.isTrivia, blank]),
              List.filter_cons_of_neg (by simp [Tree.isTrivia, blank]), more]
          · rw [ofTrees, List.filter_cons_of_pos (by simp [isTrivia, Token.isTrivia, blank]),
              List.filter_cons_of_pos (by simp [Tree.isTrivia, blank]), List.map_cons, more]
            rfl

theorem filterMap_visible {α : Type} {f : Part → Option α} (ps : List Part)
    (blind : ∀ t : Token, t.isTrivia = true → f (.token t) = none) :
    (ps.filter (!·.isTrivia)).filterMap f = ps.filterMap f := by
  rw [List.filterMap_filter]
  congr 1
  funext p
  cases p with
  | node n => rfl
  | token t =>
      by_cases blank : t.isTrivia = true
      · simp [isTrivia, blank, blind t blank]
      · simp [isTrivia, blank]

theorem dropWhile_visible {k : Kind} (visible : k.isTrivia = false) (ps : List Part) :
    (ps.dropWhile (!·.isToken k)).filter (!·.isTrivia) =
      (ps.filter (!·.isTrivia)).dropWhile (!·.isToken k) := by
  induction ps with
  | nil => rfl
  | cons p ps ih =>
      by_cases found : p.isToken k = true
      · have shown : p.isTrivia = false := by
          cases p with
          | node n => rfl
          | token t =>
              rw [isTrivia, Token.isTrivia, of_decide_eq_true found]
              exact visible
        simp [found, shown]
      · by_cases blank : p.isTrivia = true <;> simp [found, blank, ih]

end Part

namespace Node

def visible (n : Node) : List Part := n.parts.filter (!·.isTrivia)

theorem symbols_visible (n : Node) : n.visible.map Part.symbol = n.symbols :=
  Part.symbols_ofTrees ..

theorem children_visible (n : Node) : n.children = n.visible.filterMap (·.node?) :=
  (Part.filterMap_visible n.parts fun _ _ => rfl).symm

theorem childrenAfter_visible (n : Node) {k : Kind} (visible : k.isTrivia = false) :
    n.childrenAfter k = (n.visible.dropWhile (!·.isToken k)).filterMap (·.node?) := by
  rw [childrenAfter, Node.visible, ← Part.dropWhile_visible visible,
    Part.filterMap_visible _ fun _ _ => rfl]

theorem tokens_visible (n : Node) : significant n.tokens = n.visible.filterMap (·.token?) := by
  rw [significant, tokens, Node.visible, List.filter_filterMap, List.filterMap_filter]
  congr 1
  funext p
  cases p <;> simp [Part.token?, Part.isTrivia, Option.filter]

theorem hasToken_visible (n : Node) {k : Kind} (visible : k.isTrivia = false) :
    n.hasToken k = n.visible.any (·.isToken k) := by
  rw [hasToken, tokens, Node.visible, List.any_filterMap, List.any_filter]
  congr 1
  funext p
  cases p with
  | node m => rfl
  | token t =>
      by_cases same : t.kind = k
      · simp [Part.token?, Part.isToken, Part.isTrivia, Token.isTrivia, same, visible]
      · simp [Part.token?, Part.isToken, same]

theorem exists_typed {α : Type} {c : Category} {f : Typed c → α} {ns : List Node} {x : α}
    (given : x ∈ ns.filterMap fun n => (n.as? c).map f) :
    ∃ n : Typed c, n.toNode ∈ ns ∧ f n = x := by
  obtain ⟨m, member, found⟩ := List.mem_filterMap.mp given
  obtain ⟨n, typed, rfl⟩ := Option.map_eq_some_iff.mp found
  unfold as? at typed
  split at typed
  · rw [← Option.some.inj typed]
    exact ⟨_, member, rfl⟩
  · cases typed

end Node

namespace Token

def place (start : Nat) : List (Kind × String) → List Token
  | [] => []
  | leaf :: rest => ⟨leaf.1, leaf.2, start⟩ :: place (start + leaf.2.utf8ByteSize) rest

theorem place_append (start : Nat) (front back : List (Kind × String)) :
    place start (front ++ back) =
      place start front ++ place (start + (Tree.joined front).utf8ByteSize) back := by
  induction front generalizing start with
  | nil => rfl
  | cons leaf rest ih =>
      rw [List.cons_append, place, ih, place, Tree.joined, String.utf8ByteSize_append,
        Nat.add_assoc]
      rfl

theorem Tiled.place_eq {start stop : Nat} {ts : List Token} (tiled : Tiled start stop ts) :
    place start (ts.map fun t => (t.kind, t.text)) = ts := by
  induction ts generalizing start with
  | nil => rfl
  | cons t ts ih =>
      obtain ⟨rfl, -, rest⟩ := tiled
      exact congrArg (t :: ·) (ih rest)

end Token

namespace Node

open Token (place)

mutual

theorem tokens_preorderOf : ∀ (t : Tree) (above : List Frame) (start : Nat) (before : List Tree),
    ((Part.ofTrees above start before [t]).filterMap (·.token?) ++
      (preorderOf (fun _ => true) above start before t).flatMap (·.tokens)).Perm
        (place start t.leaves)
  | .token _ _, _, _, _ => .refl _
  | .node k ts, above, start, before => tokens_preorderOfAll ts (⟨k, ts, start, before⟩ :: above)
      start []

/-- The tokens of trees are those among the trees, and those of the nodes in them. -/
theorem tokens_preorderOfAll : ∀ (ts : List Tree) (above : List Frame) (start : Nat)
    (before : List Tree),
    ((Part.ofTrees above start before ts).filterMap (·.token?) ++
      (preorderOfAll (fun _ => true) above start before ts).flatMap (·.tokens)).Perm
        (place start (Tree.leavesOfAll ts))
  | [], _, _, _ => .refl _
  | t :: ts, above, start, before => by
      have first := tokens_preorderOf t above start before
      have rest := tokens_preorderOfAll ts above (start + t.width) (t :: before)
      have parts : Part.ofTrees above start before (t :: ts) =
          Part.ofTrees above start before [t] ++
            Part.ofTrees above (start + t.width) (t :: before) ts := rfl
      rw [parts, List.filterMap_append, preorderOfAll, List.flatMap_append, Tree.leavesOfAll,
        Token.place_append, Tree.joined_leaves, Tree.text_size]
      exact (Outline.perm_halves first.symm rest.symm).symm

end

end Node

theorem lex_nodup (text : String) : (lex text).Nodup :=
  (lex_tiled text).sorted.imp fun before same => by
    rw [same] at before
    exact Nat.lt_irrefl _ before

section

variable {limits : Limits} {text : String} {n : Node}

/-- A node is the file, or it stems from a node of the outline. -/
theorem origin_of_descendant (member : n ∈ (fileNode limits text).descendants) :
    n = fileNode limits text ∨
      ∃ o ∈ originsOfAll (outline limits (lex text)) (lex text), Stems text.utf8ByteSize n o := by
  obtain ⟨nodes, list, stems⟩ := descendants_fileNode limits text
  rw [list] at member
  rcases List.mem_cons.mp member with same | member
  · exact Or.inl same
  · exact Or.inr (Outline.exists_origin stems member)

theorem symbols_of_descendant (member : n ∈ (fileNode limits text).descendants) :
    n.symbols ∈ Schema.parts n.kind := by
  rcases origin_of_descendant member with rfl | ⟨o, present, stem⟩
  · exact fileNode_parts limits text
  · have sound := sound_outline limits text o present
    rw [Node.symbols, stem.kind, stem.trees, Outline.symbols_growAll _ sound.fits]
    exact Schema.erases_production o.kind _ sound.symbols

/-- Each token of the text is one of one node. -/
theorem tokens_of_descendants (limits : Limits) (text : String) :
    ((fileNode limits text).descendants.flatMap (·.tokens)).Perm (lex text) := by
  have leaves := Tree.leaves_ofParts .file (outline limits (lex text)) (lex text)
  rw [Tree.ofParts_eq, Tree.leaves] at leaves
  have whole := Node.tokens_preorderOfAll (fileNode limits text).trees
    [(fileNode limits text).toFrame] 0 []
  rw [fileNode, leaves, (lex_tiled text).place_eq] at whole
  exact whole

theorem mem_lex {t : Token} (member : n ∈ (fileNode limits text).descendants)
    (inside : t ∈ n.tokens) : t ∈ lex text :=
  (tokens_of_descendants limits text).subset (List.mem_flatMap.mpr ⟨n, member, inside⟩)

theorem eq_of_mem_tokens {m : Node} {t : Token} (member : n ∈ (fileNode limits text).descendants)
    (member' : m ∈ (fileNode limits text).descendants) (inside : t ∈ n.tokens)
    (inside' : t ∈ m.tokens) : n = m := by
  have distinct := (tokens_of_descendants limits text).nodup_iff.mpr (lex_nodup text)
  have apart := (List.nodup_flatMap.mp distinct).2
  by_contra different
  have : Std.Symm (Function.onFun List.Disjoint fun n : Node => n.tokens) :=
    ⟨fun _ _ disjoint => disjoint.symm⟩
  exact apart.forall member member' different inside inside'

end

end ConfigSyntax
