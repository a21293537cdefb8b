import ConfigSyntax.Event
import ConfigSyntax.Fault
import ConfigSyntax.Grammar
import ConfigSyntax.Limits
import ConfigSyntax.Node.Typed
import ConfigSyntax.Token.Lexer

/-! Reading a text: its tree, the diagnostics, and the log of the reading. -/

namespace ConfigSyntax

inductive Log.Level where
  | trace | debug
  deriving DecidableEq, Repr

structure Log.Entry where
  level : Log.Level
  message : String
  deriving DecidableEq, Repr

structure Parse where
  tree : Tree
  diagnostics : List Diagnostic
  log : List Log.Entry

def outline (limits : Limits) (tokens : List Token) : List Outline :=
  Grammar.file limits.maxDepth ((tokens.filter (!·.isTrivia)).map (·.kind))

def parse (limits : Limits) (text : String) : Parse :=
  let tokens := lex text
  let parts := outline limits tokens
  let faults := Fault.ofParts parts tokens (.endAt text.utf8ByteSize)
  let diagnostics := faults.filterMap (·.diagnostic?)
  let total := s!"parsed {text.utf8ByteSize} bytes: {tokens.length + 1} tokens, " ++
    s!"{diagnostics.length} errors"
  { tree := .ofParts .file parts tokens
    diagnostics
    log := (faults.filterMap (·.trace?)).map (⟨.trace, ·⟩) ++ [⟨.debug, total⟩] }

namespace Parse

def isOk (p : Parse) : Bool := p.diagnostics.isEmpty

def file? (p : Parse) : Option File := (Node.ofTree? p.tree).bind (·.as? .file)

inductive Failure where
  | diagnostics (all : List Diagnostic)
  | noFile

def result (p : Parse) : Except Failure File :=
  if p.isOk then p.file?.elim (.error .noFile) .ok else .error (.diagnostics p.diagnostics)

end Parse
end ConfigSyntax
