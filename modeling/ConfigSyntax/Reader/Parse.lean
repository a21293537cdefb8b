import ConfigSyntax.Parse
import ConfigSyntax.Reader.Rules
import Mathlib.Data.List.Sort

/-! The way of a text from its tokens to its tree, step by step. -/

namespace ConfigSyntax.Reader

/-- Diagnostics are told as the rules complete, and put in the order of their starts at last. Those
of one start stay as they are. -/
def inOrder (ds : List Diagnostic) : List Diagnostic :=
  ds.insertionSort fun d e => d.range.start ≤ e.range.start

/-- Reads a text. There is no answer where the reader does not come to an end or the tokens do not
make one tree. -/
def parse? (limits : Limits) (text : String) : Option Parse := do
  let tokens := tokenize text
  let (_, r) ← file.run (ofTokens limits tokens)
  let tree ← Assembly.build tokens r.entries
  let total := s!"parsed {text.utf8ByteSize} bytes: {tokens.length} tokens, " ++
    s!"{r.diagnostics.length} errors"
  some
    { tree
      diagnostics := inOrder r.diagnostics
      log := r.log.map (⟨.trace, ·⟩) ++ [⟨.debug, total⟩] }

end ConfigSyntax.Reader
