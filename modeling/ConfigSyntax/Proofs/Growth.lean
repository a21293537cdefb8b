import ConfigSyntax.Parse
import ConfigSyntax.Proofs.Tiling

/-! The trees an outline makes of tokens, without the stream in between. Main statement:
`Tree.ofParts_eq`, by which a replayed stream is a walk over the outline. -/

namespace ConfigSyntax

open Event (Site triviaLength replay)

namespace Outline

def reach : Nat → List Token → Nat
  | 0, _ => 0
  | n + 1, ts => triviaLength ts + 1 + reach n (ts.drop (triviaLength ts + 1))

theorem reach_succ (n : Nat) (ts : List Token) :
    reach (n + 1) ts = reach 1 ts + reach n (ts.drop (reach 1 ts)) := rfl

mutual

/-- What an outline adds to the site it stands in, and the tokens it leaves. -/
def grow : Outline → List Token → List Tree × List Token
  | .token _, ts => (Token.leaves (ts.take (reach 1 ts)), ts.drop (reach 1 ts))
  | .gap _, ts => ([], ts)
  | .skipped _ ks, ts =>
    let lead := triviaLength ts
    let length := reach ks.length (ts.drop lead)
    (Token.leaves (ts.take lead) ++
        [.node .error (Token.leaves ((ts.drop lead).take length))],
      (ts.drop lead).drop length)
  | .node k parts, ts =>
    let lead := triviaLength ts
    let inner := growAll parts (ts.drop lead)
    (Token.leaves (ts.take lead) ++ [.node k inner.1], inner.2)

def growAll : List Outline → List Token → List Tree × List Token
  | [], ts => ([], ts)
  | p :: ps, ts =>
    let first := grow p ts
    let more := growAll ps first.2
    (first.1 ++ more.1, more.2)

end

/-- A skipped run grows like a node over its tokens. -/
theorem growAll_tokens (ks : List Kind) (ts : List Token) :
    growAll (ks.map .token) ts =
      (Token.leaves (ts.take (reach ks.length ts)), ts.drop (reach ks.length ts)) := by
  induction ks generalizing ts with
  | nil => simp [growAll, reach]
  | cons k ks ih =>
      rw [List.length_cons, reach_succ, List.take_add, Token.leaves_append, ← List.drop_drop]
      simp only [List.map_cons, growAll, grow, ih]

end Outline

namespace Event

theorem Site.add_add (s : Site) (first second : List Token) :
    (s.add first).add second = s.add (first ++ second) := by
  simp [Site.add]

def Site.put (s : Site) (ts : List Tree) : Site := { s with done := ts.reverse ++ s.done }

theorem Site.put_leaves (s : Site) (ts : List Token) : s.put (Token.leaves ts) = s.add ts := rfl

theorem Site.put_put (s : Site) (first second : List Tree) :
    (s.put first).put second = s.put (first ++ second) := by
  simp [Site.put]

theorem replay_token (es : List Event) (s : Site) (up : List Site) (ts : List Token) :
    replay (.token :: es) (s :: up) ts =
      replay es (s.add (ts.take (Outline.reach 1 ts)) :: up) (ts.drop (Outline.reach 1 ts)) := rfl

theorem replay_tokens (n : Nat) (es : List Event) (s : Site) (up : List Site) (ts : List Token) :
    replay (List.replicate n .token ++ es) (s :: up) ts =
      replay es (s.add (ts.take (Outline.reach n ts)) :: up) (ts.drop (Outline.reach n ts)) := by
  induction n generalizing s ts with
  | zero => simp [Outline.reach, Site.add]
  | succ n ih =>
      rw [List.replicate_succ, List.cons_append, replay_token, ih, Site.add_add]
      rw [Outline.reach_succ n, List.take_add, ← List.drop_drop]

/-- A node is opened behind the blanks in front of it, and closed onto the site below. -/
theorem replay_node (k : Kind) (inner : List Event) (es : List Event) (s : Site) (up : List Site)
    (ts : List Token) (trees : List Tree) (rest : List Token)
    (within : ∀ es up, replay (inner ++ es) (⟨k, []⟩ :: up) (ts.drop (triviaLength ts)) =
      replay es ((⟨k, []⟩ : Site).put trees :: up) rest) :
    replay (.start k :: inner ++ [.finish] ++ es) (s :: up) ts =
      replay es (s.put (Token.leaves (ts.take (triviaLength ts)) ++ [.node k trees]) :: up)
        rest := by
  let outer := s.add (ts.take (triviaLength ts))
  have enter : replay (.start k :: inner ++ [.finish] ++ es) (s :: up) ts =
      replay (inner ++ .finish :: es) (⟨k, []⟩ :: outer :: up) (ts.drop (triviaLength ts)) := by
    simp [replay, outer]
  have leave : replay (.finish :: es) ((⟨k, []⟩ : Site).put trees :: outer :: up) rest =
      replay es (outer.put [.node k trees] :: up) rest := by
    cases es <;> simp [replay, Site.put, Site.close]
  rw [enter, within, leave, ← Site.put_put, Site.put_leaves]

mutual

theorem replay_events : ∀ (o : Outline) (es : List Event) (s : Site) (up : List Site)
    (ts : List Token),
    replay (o.events ++ es) (s :: up) ts = replay es (s.put (o.grow ts).1 :: up) (o.grow ts).2
  | .token _, es, s, up, ts => rfl
  | .gap _, es, s, up, ts => rfl
  | .skipped _ ks, es, s, up, ts => by
      rw [Outline.events, List.map_const']
      exact replay_node .error _ es s up ts _ _
        fun es up => replay_tokens ks.length es ⟨.error, []⟩ up _
  | .node k parts, es, s, up, ts => by
      rw [Outline.events]
      exact replay_node k _ es s up ts _ _
        fun es up => replay_eventsOfAll parts es ⟨k, []⟩ up _

theorem replay_eventsOfAll : ∀ (ps : List Outline) (es : List Event) (s : Site) (up : List Site)
    (ts : List Token),
    replay (Outline.eventsOfAll ps ++ es) (s :: up) ts =
      replay es (s.put (Outline.growAll ps ts).1 :: up) (Outline.growAll ps ts).2
  | [], es, s, up, ts => rfl
  | p :: ps, es, s, up, ts => by
      rw [Outline.eventsOfAll, List.append_assoc, replay_events p, replay_eventsOfAll ps,
        Site.put_put]
      rfl

end

end Event

theorem Tree.ofParts_eq (k : Kind) (parts : List Outline) (ts : List Token) :
    Tree.ofParts k parts ts =
      .node k ((Outline.growAll parts ts).1 ++ Token.leaves (Outline.growAll parts ts).2) := by
  have stream : replay (Outline.node k parts).events [] ts =
      replay [.finish] [(⟨k, []⟩ : Site).put (Outline.growAll parts ts).1]
        (Outline.growAll parts ts).2 := by
    rw [Outline.events]
    exact Event.replay_eventsOfAll parts [.finish] ⟨k, []⟩ [] ts
  have root : replay (Outline.node k parts).events [] ts =
      some (.node k ((Outline.growAll parts ts).1 ++
        Token.leaves (Outline.growAll parts ts).2)) := by
    rw [stream]
    simp [replay, Site.put, Site.add, Site.close, Token.leaves]
  simp only [Tree.ofParts, root, Option.get_some]

theorem parse_tree (limits : Limits) (text : String) :
    (parse limits text).tree = .ofParts .file (outline limits (lex text)) (lex text) := by
  rw [parse]

end ConfigSyntax
