import ConfigSyntax.Event

/-! Streams in which a node may be put into another one after it is finished, and the trees that are
assembled from them. Main definition: `Assembly.build`. -/

namespace ConfigSyntax

/-- An event of such a stream. The start of a node knows how far behind it the start of its parent
is, if that was written later. -/
inductive Entry where
  | start (kind : Kind) (parent : Option Nat)
  | token
  | finish
  deriving DecidableEq, Repr

namespace Entry

/-- A start that opens nothing: its node has no kind yet, or was opened before. -/
def blank : Entry := .start .tombstone none

def withKind (k : Kind) : Entry → Entry
  | .start _ parent => .start k parent
  | e => e

def withParent (distance : Nat) : Entry → Entry
  | .start k _ => .start k (some distance)
  | e => e

def isLinked : Entry → Bool
  | .start _ (some _) => true
  | _ => false

theorem countP_set_blank {es : List Entry} {idx : Nat} {e : Entry} (known : es[idx]? = some e) :
    (es.set idx blank).countP (·.isLinked) + e.isLinked.toNat = es.countP (·.isLinked) := by
  induction es generalizing idx with
  | nil => cases known
  | cons head tail ih =>
      cases idx with
      | zero =>
          cases known
          have same : blank.isLinked = false := rfl
          cases linked : e.isLinked <;> simp [same, linked]
      | succ idx =>
          have := ih known
          simp only [List.set_cons_succ, List.countP_cons]
          omega

/-- The kinds of the parents that follow one another from the start at `idx`, the nearest first, and
the stream without their starts. There is none where a distance does not lead to a start. -/
def parents (idx : Nat) (parent : Option Nat) (es : List Entry) : Option (List Kind × List Entry) :=
  match parent with
  | none => some ([], es)
  | some distance =>
    match _ : es[idx + distance]? with
    | some (.start k above) => do
      let more ← parents (idx + distance) above (es.set (idx + distance) blank)
      some (k :: more.1, more.2)
    | _ => none
termination_by parent.toList.length + es.countP (·.isLinked)
decreasing_by
  -- The link of the parent is gone with its start.
  have := countP_set_blank ‹es[idx + distance]? = some (.start k above)›
  cases above <;> simp [isLinked] at * <;> omega

theorem parents_none (idx : Nat) (es : List Entry) : parents idx none es = some ([], es) := by
  rw [parents]

theorem parents_some {idx distance : Nat} {k : Kind} {above : Option Nat} {es : List Entry}
    (known : es[idx + distance]? = some (.start k above)) :
    parents idx (some distance) es =
      (parents (idx + distance) above (es.set (idx + distance) blank)).map fun more =>
        (k :: more.1, more.2) := by
  rw [parents]
  split
  case h_1 found =>
    obtain ⟨rfl, rfl⟩ := Entry.start.inj (Option.some.inj (found.symm.trans known))
    exact Option.map_eq_bind.symm
  case h_2 other => exact absurd known (other _ _)

end Entry

/-- A tree while it is assembled: the tokens that are left, how many nodes are open, the open nodes,
the innermost first, and what stands in none of them, the latest first. -/
structure Assembly where
  rest : List Token
  depth : Nat := 0
  sites : List Event.Site := []
  roots : List Tree := []

namespace Assembly

open Event (Site triviaLength)

def put (a : Assembly) (ts : List Token) : Assembly :=
  match a.sites with
  | [] => { a with roots := (ts.map (·.leaf)).reverse ++ a.roots }
  | s :: up => { a with sites := s.add ts :: up }

def takeTrivia (a : Assembly) : Assembly :=
  { a.put (a.rest.take (triviaLength a.rest)) with rest := a.rest.drop (triviaLength a.rest) }

/-- Blanks and comments in front of a node belong to the one around it. The outermost node keeps
them. -/
def start (a : Assembly) (k : Kind) : Assembly :=
  let a := if 0 < a.depth then a.takeTrivia else a
  { a with sites := ⟨k, []⟩ :: a.sites, depth := a.depth + 1 }

def token (a : Assembly) : Assembly :=
  let a := a.takeTrivia
  match a.rest with
  | [] => a
  | t :: ts => { (if t.kind = .eof then a else a.put [t]) with rest := ts }

/-- The outermost node takes all that is left. Where no node is open, none can be finished. -/
def finish (a : Assembly) : Option Assembly :=
  let a :=
    if a.depth = 1 then { a.put (a.rest.filter (·.kind ≠ .eof)) with rest := [] } else a
  match a.sites with
  | [] => none
  | [s] => some { a with sites := [], roots := s.close :: a.roots, depth := a.depth - 1 }
  | s :: t :: up =>
    some { a with sites := { t with done := s.close :: t.done } :: up, depth := a.depth - 1 }

def apply (a : Assembly) : Event → Option Assembly
  | .start k => some (a.start k)
  | .token => some a.token
  | .finish => a.finish

/-- What an entry amounts to: a start opens the parents of its node first, the outermost in front.
No start is opened twice. -/
def events (es : List Entry) (idx : Nat) : Option (List Event × List Entry) := do
  let e ← es[idx]?
  let es := es.set idx .blank
  match e with
  | .start k parent =>
    if k = .tombstone ∧ parent = none then some ([], es)
    else
      let above ← Entry.parents idx parent es
      some (((k :: above.1).reverse.filter (· ≠ .tombstone)).map .start, above.2)
  | .token => some ([.token], es)
  | .finish => some ([.finish], es)

def step (a : Assembly × List Entry) (idx : Nat) : Option (Assembly × List Entry) := do
  let now ← events a.2 idx
  let next ← now.1.foldlM apply a.1
  some (next, now.2)

def upTo (n : Nat) (ts : List Token) (es : List Entry) : Option (Assembly × List Entry) :=
  (List.range n).foldlM step ({ rest := ts }, es)

def build (ts : List Token) (es : List Entry) : Option Tree := do
  let a ← upTo es.length ts es
  match a.1.sites, a.1.roots with
  | [], [.node k parts] => some (.node k parts)
  | _, _ => none

end Assembly
end ConfigSyntax
