import ConfigSyntax.Outline
import ConfigSyntax.Tree
import ConfigSyntax.Token

/-! An outline as a stream of events, and the tree that a stream makes of the tokens of a text. The
stream counts significant tokens only; blanks and comments come in where it is replayed. -/

namespace ConfigSyntax

inductive Event where
  | start (kind : Kind)
  | token
  | finish
  deriving DecidableEq, Repr

namespace Outline

mutual

def events : Outline → List Event
  | .token _ => [.token]
  | .gap _ => []
  | .skipped _ ks => .start .error :: ks.map (fun _ => .token) ++ [.finish]
  | .node k parts => .start k :: eventsOfAll parts ++ [.finish]

def eventsOfAll : List Outline → List Event
  | [] => []
  | p :: ps => events p ++ eventsOfAll ps

end

end Outline

namespace Event

/-- A node that is not finished: its kind, and its parts so far, the latest first. -/
structure Site where
  kind : Kind
  done : List Tree

namespace Site

def add (s : Site) (ts : List Token) : Site :=
  { s with done := (ts.map (·.leaf)).reverse ++ s.done }

def close (s : Site) : Tree := .node s.kind s.done.reverse

end Site

def triviaLength (ts : List Token) : Nat := (ts.takeWhile (·.isTrivia)).length

/-- Replays a stream. Blanks and comments go in front of the node or the token they precede; when
the root finishes it takes what is left. -/
def replay : List Event → List Site → List Token → Option Tree
  | [], _, _ => none
  | .start k :: es, [], ts => replay es [⟨k, []⟩] ts
  | .start k :: es, s :: up, ts =>
    let n := triviaLength ts
    replay es (⟨k, []⟩ :: s.add (ts.take n) :: up) (ts.drop n)
  | .token :: es, s :: up, ts =>
    let n := triviaLength ts + 1
    replay es (s.add (ts.take n) :: up) (ts.drop n)
  | [.finish], [s], ts => some (s.add ts).close
  | .finish :: es, s :: t :: up, ts => replay es ({ t with done := s.close :: t.done } :: up) ts
  | _, _, _ => none

def AddsOnly (events : List Event) : Prop :=
  ∀ es s up ts, ∃ done rest,
    replay (events ++ es) (s :: up) ts = replay es (⟨s.kind, done⟩ :: up) rest

theorem AddsOnly.append {a b : List Event} (ha : AddsOnly a) (hb : AddsOnly b) :
    AddsOnly (a ++ b) := by
  intro es s up ts
  obtain ⟨done, rest, h⟩ := ha (b ++ es) s up ts
  obtain ⟨done', rest', h'⟩ := hb es ⟨s.kind, done⟩ up rest
  exact ⟨done', rest', by rw [List.append_assoc, h, h']⟩

theorem addsOnly_nil : AddsOnly [] := fun _ s _ ts => ⟨s.done, ts, rfl⟩

theorem addsOnly_token : AddsOnly [.token] := fun _ _ _ _ => ⟨_, _, rfl⟩

theorem addsOnly_tokens (n : Nat) : AddsOnly (List.replicate n .token) := by
  induction n with
  | zero => exact addsOnly_nil
  | succ n ih => exact addsOnly_token.append ih

theorem AddsOnly.node {inner : List Event} (k : Kind) (h : AddsOnly inner) :
    AddsOnly (.start k :: inner ++ [.finish]) := by
  intro es s up ts
  let outer := s.add (ts.take (triviaLength ts))
  obtain ⟨done, rest, h⟩ := h (.finish :: es) ⟨k, []⟩ (outer :: up) (ts.drop (triviaLength ts))
  have enter : replay (.start k :: inner ++ [.finish] ++ es) (s :: up) ts =
      replay (inner ++ .finish :: es) (⟨k, []⟩ :: outer :: up) (ts.drop (triviaLength ts)) := by
    simp [replay, outer]
  have leave : replay (.finish :: es) (⟨k, done⟩ :: outer :: up) rest =
      replay es (⟨s.kind, .node k done.reverse :: outer.done⟩ :: up) rest := by
    cases es <;> rfl
  exact ⟨_, rest, by rw [enter, h, leave]⟩

mutual

theorem addsOnly_events : ∀ o : Outline, AddsOnly o.events
  | .token _ => by simpa [Outline.events] using addsOnly_token
  | .gap _ => by simpa [Outline.events] using addsOnly_nil
  | .skipped _ ks => by
    simpa [Outline.events, List.map_const'] using (addsOnly_tokens ks.length).node .error
  | .node k parts => by simpa [Outline.events] using (addsOnly_eventsOfAll parts).node k

theorem addsOnly_eventsOfAll : ∀ ps : List Outline, AddsOnly (Outline.eventsOfAll ps)
  | [] => by simpa [Outline.eventsOfAll] using addsOnly_nil
  | p :: ps => by
    simpa [Outline.eventsOfAll] using (addsOnly_events p).append (addsOnly_eventsOfAll ps)

end

theorem replay_node_isSome (k : Kind) (parts : List Outline) (ts : List Token) :
    (replay (Outline.node k parts).events [] ts).isSome := by
  obtain ⟨done, rest, h⟩ := addsOnly_eventsOfAll parts [.finish] ⟨k, []⟩ [] ts
  simp [Outline.events, replay, h]

end Event

def Tree.ofParts (k : Kind) (parts : List Outline) (ts : List Token) : Tree :=
  (Event.replay (Outline.node k parts).events [] ts).get (Event.replay_node_isSome k parts ts)

end ConfigSyntax
