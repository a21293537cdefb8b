import ConfigSyntax.Proofs.Places
import ConfigSyntax.Proofs.Recovery.Contexts
import ConfigSyntax.Proofs.Skips

/-! What is skipped of a text, in the order of the text: each omission is told by one fault, and is
kept in one error of the tree. Main statements: `skips_of_faults`, `errors_of_text`. -/

namespace ConfigSyntax

open Event (triviaLength)
open Outline (Law Obeys ObeysAll Suits SuitsAll Stems Origin kindsOfAll kindsBefore)
open Token (Tiled significant)

/-- Kinds that are skipped: why, in a node of which kind, and with which tokens ahead. -/
structure Omission where
  parent : Kind
  why : Skip
  run : List Kind
  tokens : List Token

namespace Omission

def fault (last : Token) (m : Omission) : Fault :=
  ⟨.skipped m.why, (significant m.tokens).headD last⟩

def origin (m : Omission) : Origin := ⟨.error, m.run.map .token, m.tokens⟩

structure Kept (stop : Nat) (n : Node) (m : Omission) : Prop where
  parent : n.above.head?.map (·.kind) = some m.parent
  stem : Stems stop n m.origin

end Omission

namespace Outline

mutual

def omissions (parent : Kind) : Outline → List Token → List Omission
  | .token _, _ => []
  | .gap _, _ => []
  | .skipped why run, ts => [⟨parent, why, run, ts.drop (triviaLength ts)⟩]
  | .node k parts, ts => omissionsOfAll k parts (ts.drop (triviaLength ts))

def omissionsOfAll (parent : Kind) : List Outline → List Token → List Omission
  | [], _ => []
  | p :: ps, ts => omissions parent p ts ++ omissionsOfAll parent ps (p.grow ts).2

end

mutual

theorem skips_omissions (last : Token) (opener : Option Token) (parent : Kind) :
    ∀ (o : Outline) (ts : List Token),
    (faults last opener o (significant ts)).1.filter (·.isSkip) =
      (omissions parent o ts).map (·.fault last)
  | .token _, ts => by
      rw [faults, Token.head?_faults]
      exact filter_skips_tokens _
  | .gap _, _ => rfl
  | .skipped why run, ts => by
      rw [faults, List.filter_cons_of_pos rfl, filter_skips_tokens, omissions, List.map_singleton,
        Omission.fault, Token.significant_behind]
  | .node k parts, ts => by
      have inside := skips_omissionsOfAll last none k parts (ts.drop (triviaLength ts))
      rwa [Token.significant_behind] at inside

theorem skips_omissionsOfAll (last : Token) (opener : Option Token) (parent : Kind) :
    ∀ (ps : List Outline) (ts : List Token),
    (faultsOfAll last opener ps (significant ts)).1.filter (·.isSkip) =
      (omissionsOfAll parent ps ts).map (·.fault last)
  | [], _ => rfl
  | p :: ps, ts => by
      have more := skips_omissionsOfAll last (opener? opener p (significant ts)) parent ps
        (p.grow ts).2
      rw [significant_grow] at more
      rw [faultsOfAll, List.filter_append, faults_rest, more, omissionsOfAll, List.map_append,
        skips_omissions last opener parent p]

end

mutual

theorem kept_grow : ∀ (o : Outline) {ts : List Token} {start stop : Nat}
    (_ : Tiled start stop ts) (f : Frame) (above : List Frame) (before : List Tree)
    (_ : o.Suits f.kind), List.Forall₂ (Omission.Kept stop)
      ((Node.preorderOfAll (fun _ => true) (f :: above) start before (o.grow ts).1).filter
        (·.kind = .error))
      (omissions f.kind o ts)
  | .token _, ts, start, stop, tiled, f, above, before, _ => by
      rw [grow, Node.preorderOfAll_leaves]
      exact .nil
  | .gap _, ts, start, stop, tiled, f, above, before, _ => .nil
  | .skipped why run, ts, start, stop, tiled, f, above, before, _ => by
      rw [grow]
      obtain ⟨n, kind, trees, place, top, nodes⟩ := preorder_wrapped .error
        (Token.leaves ((ts.drop (triviaLength ts)).take
          (reach run.length (ts.drop (triviaLength ts)))))
        (ts.take (triviaLength ts)) (f :: above) start before
      rw [nodes, Node.preorderOfAll_leaves, List.filter_cons_of_pos (by simp [kind])]
      refine .cons ⟨?_, kind, ?_, ?_⟩ .nil
      · rw [top]
        rfl
      · rw [trees, Omission.origin, growAll_tokens]
      · rw [place]
        exact tiled_drop tiled _
  | .node k parts, ts, start, stop, tiled, f, above, before, suits => by
      rw [grow]
      have inside := tiled_drop tiled (triviaLength ts)
      obtain ⟨n, rfl, trees, place, top, nodes⟩ := preorder_wrapped k
        (growAll parts (ts.drop (triviaLength ts))).1 (ts.take (triviaLength ts)) (f :: above)
        start before
      rw [nodes, List.filter_cons_of_neg (by simpa using suits.1)]
      rw [← place] at inside
      exact kept_growAll parts inside n.toFrame (f :: above) [] suits.2

theorem kept_growAll : ∀ (ps : List Outline) {ts : List Token} {start stop : Nat}
    (_ : Tiled start stop ts) (f : Frame) (above : List Frame) (before : List Tree)
    (_ : SuitsAll f.kind ps), List.Forall₂ (Omission.Kept stop)
      ((Node.preorderOfAll (fun _ => true) (f :: above) start before (growAll ps ts).1).filter
        (·.kind = .error))
      (omissionsOfAll f.kind ps ts)
  | [], ts, start, stop, tiled, f, above, before, _ => .nil
  | p :: ps, ts, start, stop, tiled, f, above, before, suits => by
      rw [growAll, Node.preorderOfAll_append, List.filter_append]
      exact List.rel_append (kept_grow p tiled f above before suits.1)
        (kept_growAll ps (tiled_grow p tiled) f above _ suits.2)

end

structure Lawful (law : Law) (m : Omission) : Prop where
  suits : m.why.Suits m.parent
  skip : law.skip m.why m.run (kindsBefore m.tokens)
  led : Led m.tokens

mutual

theorem lawful_omissions {law : Law} : ∀ (o : Outline) {parent : Kind} {ts : List Token}
    (_ : o.Suits parent) (_ : Obeys law o (kindsBefore ts)),
    ∀ m ∈ omissions parent o ts, Lawful law m ∧ m.tokens <:+ ts
  | .token _, _, _, _, _, _, member => by cases member
  | .gap _, _, _, _, _, _, member => by cases member
  | .skipped why run, parent, ts, suits, obeys, m, member => by
      rw [List.mem_singleton.mp member]
      refine ⟨⟨suits, ?_, led_behind ts⟩, List.drop_suffix _ ts⟩
      rw [kindsBefore_behind]
      exact obeys
  | .node k parts, parent, ts, suits, obeys, m, member => by
      have inside : ObeysAll law parts (kindsBefore (ts.drop (triviaLength ts))) := by
        rw [kindsBefore_behind]
        exact obeys.2.2
      obtain ⟨lawful, suffix⟩ := lawful_omissionsOfAll parts suits.2 inside m member
      exact ⟨lawful, suffix.trans (List.drop_suffix _ ts)⟩

theorem lawful_omissionsOfAll {law : Law} : ∀ (ps : List Outline) {parent : Kind}
    {ts : List Token} (_ : SuitsAll parent ps) (_ : ObeysAll law ps (kindsBefore ts)),
    ∀ m ∈ omissionsOfAll parent ps ts, Lawful law m ∧ m.tokens <:+ ts
  | [], _, _, _, _, _, member => by cases member
  | p :: ps, parent, ts, suits, obeys, m, member => by
      have rest : ObeysAll law ps (kindsBefore (p.grow ts).2) := by
        rw [kindsBefore_grow]
        exact obeys.2
      rcases List.mem_append.mp member with member | member
      · exact lawful_omissions p suits.1 obeys.1 m member
      · obtain ⟨lawful, suffix⟩ := lawful_omissionsOfAll ps suits.2 rest m member
        exact ⟨lawful, suffix.trans (grow_suffix p ts)⟩

end

end Outline

open Outline (omissionsOfAll Lawful)

def omissions (limits : Limits) (text : String) : List Omission :=
  omissionsOfAll .file (outline limits (lex text)) (lex text)

namespace Fault

theorem filter_insert {p : Fault → Bool} {f : Fault} (left : p f = false) (fs : List Fault) :
    (f.insert fs).filter p = fs.filter p := by
  have split := List.takeWhile_append_dropWhile (p := (·.range.start < f.range.start)) (l := fs)
  rw [insert, List.filter_append, List.filter_cons_of_neg (by simp [left]), ← List.filter_append,
    split]

theorem filter_foldr_insert {p : Fault → Bool} {fs : List Fault} (left : ∀ f ∈ fs, p f = false)
    (gs : List Fault) : (fs.foldr insert gs).filter p = gs.filter p := by
  induction fs with
  | nil => rfl
  | cons f fs ih =>
      obtain ⟨first, rest⟩ := List.forall_mem_cons.mp left
      rw [List.foldr_cons, filter_insert first, ih rest]

end Fault

/-- The skips among the faults of a text, in their order. The faults of blanks are put in between,
and none of them is a skip. -/
theorem skips_of_faults (limits : Limits) (text : String) :
    (faults limits text).filter (·.isSkip) =
      (omissions limits text).map (·.fault (.endAt text.utf8ByteSize)) := by
  have blanks : ∀ f ∈ ((lex text).filter (·.isTrivia)).filterMap Token.fault?,
      f.isSkip = false := by
    intro f member
    obtain ⟨t, -, fault⟩ := List.mem_filterMap.mp member
    exact Token.not_skip_of_fault? fault
  rw [faults, Fault.ofParts, Fault.filter_foldr_insert blanks]
  exact Outline.skips_omissionsOfAll _ none .file _ (lex text)

theorem suits_outline (limits : Limits) (tokens : List Token) :
    SuitsAll .file (outline limits tokens) := Grammar.file_suits _ _

theorem errors_of_text (limits : Limits) (text : String) :
    List.Forall₂ (Omission.Kept text.utf8ByteSize)
      ((fileNode limits text).descendants.filter (·.kind = .error)) (omissions limits text) := by
  have top : (fileNode limits text).kind ≠ .error := nofun
  have kept := Outline.kept_growAll _ (lex_tiled text) (fileNode limits text).toFrame [] []
    (suits_outline limits (lex text))
  have below : (fileNode limits text).below (fun _ => true) =
      Node.preorderOfAll (fun _ => true) [(fileNode limits text).toFrame] 0 []
        (Outline.growAll (outline limits (lex text)) (lex text)).1 := by
    rw [Node.below, fileNode, Node.preorderOfAll_append, Node.preorderOfAll_leaves,
      List.append_nil]
  rw [Node.descendants, Node.preorder, List.filter_cons_of_neg (by simpa using top), if_pos rfl,
    below]
  exact kept

theorem lawful_of_text {law : Law} (limits : Limits) (text : String)
    (obeys : ObeysAll law (outline limits (lex text)) (kindsBefore (lex text))) :
    ∀ m ∈ omissions limits text, Lawful law m ∧ m.tokens <:+ lex text :=
  Outline.lawful_omissionsOfAll _ (suits_outline limits (lex text)) obeys

end ConfigSyntax
