import ConfigSyntax.Context
import ConfigSyntax.Lines
import ConfigSyntax.Diagnostic.Code

/-! What the reader says about a text. -/

namespace ConfigSyntax

structure Related where
  message : String
  range : Range
  deriving DecidableEq, Repr

structure Diagnostic where
  code : Code
  message : String
  range : Range
  expected : Option String := none
  hint : Option String := none
  related : List Related := []
  deriving DecidableEq, Repr

namespace Diagnostic

def ofCode (code : Code) : Diagnostic := ⟨code, code.defaultMessage, .empty 0, none, none, []⟩

def withExpected (d : Diagnostic) (s : String) : Diagnostic := { d with expected := some s }

def withHint (d : Diagnostic) (s : String) : Diagnostic := { d with hint := some s }

def withRelated (d : Diagnostic) (r : Related) : Diagnostic :=
  { d with related := d.related ++ [r] }

def hasHint (d : Diagnostic) : Bool := d.hint.isSome

def hasRelated (d : Diagnostic) : Bool := !d.related.isEmpty

def unexpected (found : String) (context : Context) (code : Code) : Diagnostic :=
  { ofCode code with
    message := s!"unexpected {found} {context.description}"
    expected := some context.expected }

def position (d : Diagnostic) (lines : Lines) : Position := lines.position d.range.start

def span (d : Diagnostic) (lines : Lines) : Span := lines.span d.range

def headline (d : Diagnostic) : String := s!"{d.code}: {d.message}"

def render (d : Diagnostic) : String :=
  d.headline ++ (d.expected.map ("\n  expected: " ++ ·)).getD "" ++
    (d.hint.map ("\n  hint: " ++ ·)).getD ""

def summary (ds : List Diagnostic) : String :=
  s!"{ds.length} syntax error(s), first: " ++ (ds.head?.map (·.message)).getD ""

end Diagnostic
end ConfigSyntax
