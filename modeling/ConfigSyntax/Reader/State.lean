import ConfigSyntax.Fault
import ConfigSyntax.Grammar
import ConfigSyntax.Limits
import ConfigSyntax.Reader.Entry

/-! A reader that goes over the tokens of a text one by one: what it knows on its way, and the steps
it takes. -/

namespace ConfigSyntax

structure Reader where
  tokens : List Token
  pos : Nat := 0
  entries : List Entry := []
  diagnostics : List Diagnostic := []
  log : List String := []
  depth : Nat := 0
  maxDepth : Nat

namespace Reader

structure Opened where
  index : Nat

/-- A finished node, by the place of its start. It can still be put into another node. -/
structure Finished where
  index : Nat
  deriving DecidableEq

inductive Outcome where
  | notMatched
  | matched (node : Finished)
  | flawed (node : Finished)
  deriving DecidableEq

def Outcome.node? : Outcome → Option Finished
  | notMatched => none
  | matched node | flawed node => some node

structure Checkpoint where
  pos : Nat
  entries : Nat
  diagnostics : Nat

/-- At the start of a text. A comment without its end is told of before anything is read. -/
def ofTokens (limits : Limits) (tokens : List Token) : Reader where
  tokens
  diagnostics :=
    ((tokens.filter (·.isTrivia)).filterMap Token.fault?).filterMap (·.diagnostic?)
  maxDepth := limits.maxDepth

def significant (r : Reader) : List Token := r.tokens.filter (!·.isTrivia)

/-- The kind of a token ahead. There is no end to the end of a text. -/
def nth (r : Reader) (n : Nat) : Kind := ((r.significant[r.pos + n]?).map (·.kind)).getD .eof

def kind (r : Reader) : Kind := r.nth 0

def isAt (r : Reader) (k : Kind) : Bool := r.kind = k

def isAtAny (r : Reader) (ks : List Kind) : Bool := ks.contains r.kind

def isAtEnd (r : Reader) : Bool := r.isAt .eof

def here (r : Reader) : Token :=
  (r.significant[r.pos]?).getD (.endAt ((r.tokens.getLast?.map (·.range.stop)).getD 0))

def levels (r : Reader) : Nat := r.maxDepth - r.depth

/-- A reader acts until it comes to an end, if it does. It never looks into a place that is not
there. -/
abbrev Action := StateT Reader Option

def say (r : Reader) (f : Fault) : Reader :=
  { r with
    diagnostics := r.diagnostics ++ f.diagnostic?.toList
    log := r.log ++ f.trace?.toList }

def tell (f : Fault) : Action Unit := modify (·.say f)

def next (r : Reader) : Reader :=
  match r.significant[r.pos]? with
  | none => r
  | some t =>
    if t.kind = .eof then r
    else
      { t.fault?.elim r r.say with
        entries := r.entries ++ [.token]
        pos := r.pos + 1 }

def bump : Action Unit := modify (·.next)

def eat (k : Kind) : Action Bool := do
  if (← get).isAt k then
    bump
    return true
  else return false

def withEntries (r : Reader) (es : List Entry) : Reader := { r with entries := es }

def start : Action Opened :=
  modifyGet fun r => (⟨r.entries.length⟩, r.withEntries (r.entries ++ [.blank]))

def complete (node : Opened) (k : Kind) : Action Finished := do
  let r ← get
  match r.entries[node.index]? with
  | none => failure
  | some e =>
    set (r.withEntries (r.entries.set node.index (e.withKind k) ++ [.finish]))
    return ⟨node.index⟩

def precede (node : Finished) : Action Opened := do
  let parent ← start
  let r ← get
  match r.entries[node.index]? with
  | none => failure
  | some e =>
    set (r.withEntries (r.entries.set node.index (e.withParent (parent.index - node.index))))
    return parent

def mark : Action Checkpoint := do
  let r ← get
  return ⟨r.pos, r.entries.length, r.diagnostics.length⟩

/-- Back to where the reader was. The log keeps what it said. -/
def rewind (checkpoint : Checkpoint) : Action Unit :=
  modify fun r =>
    { r with
      pos := checkpoint.pos
      entries := r.entries.take checkpoint.entries
      diagnostics := r.diagnostics.take checkpoint.diagnostics }

def errorCount : Action Nat := do return (← get).diagnostics.length

def enter : Action Bool := do
  let r ← get
  if r.maxDepth ≤ r.depth then return false
  else
    set { r with depth := r.depth + 1 }
    return true

def leave : Action Unit := modify fun r => { r with depth := r.depth - 1 }

def conclude (node : Opened) (k : Kind) (before : Nat) : Action Outcome := do
  let done ← complete node k
  if before < (← errorCount) then return .flawed done else return .matched done

def wrap (k : Kind) : Outcome → Action Outcome
  | .notMatched => return .notMatched
  | .matched node => do return .matched (← complete (← precede node) k)
  | .flawed node => do return .flawed (← complete (← precede node) k)

end Reader
end ConfigSyntax
