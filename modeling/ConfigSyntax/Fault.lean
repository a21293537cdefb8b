import ConfigSyntax.Diagnostic
import ConfigSyntax.Outline
import ConfigSyntax.Token

/-! What is wrong with a text, each fault at the token where it shows. Both the diagnostics and the
log are read off the faults. -/

namespace ConfigSyntax

inductive Fault.Cause where
  | invalidCharacter
  | unterminatedString
  | unterminatedComment
  | gap (gap : Gap) (opener : Option Token)
  | skipped (why : Skip)
  deriving DecidableEq, Repr

structure Fault where
  cause : Fault.Cause
  token : Token
  deriving DecidableEq, Repr

def Token.fault? (t : Token) : Option Fault :=
  match t.kind with
  | .error => some ⟨.invalidCharacter, t⟩
  | .singleQuoted | .doubleQuoted =>
    if t.isUnterminated then some ⟨.unterminatedString, t⟩ else none
  | .blockComment => if t.isUnterminated then some ⟨.unterminatedComment, t⟩ else none
  | _ => none

namespace Outline

def opener? (opener : Option Token) : Outline → List Token → Option Token
  | .token k, ts => if k.isOpener then ts.head? else opener
  | _, _ => opener

mutual

/-- The faults of an outline that starts at the first of the significant tokens `ts`, and the
tokens after it. What is missing at the end of the text is missing at `last`. -/
def faults (last : Token) (opener : Option Token) :
    Outline → List Token → List Fault × List Token
  | .token _, ts => ((ts.head?.bind Token.fault?).toList, ts.drop 1)
  | .gap g, ts => ([⟨.gap g opener, ts.headD last⟩], ts)
  | .skipped why ks, ts =>
    (⟨.skipped why, ts.headD last⟩ :: (ts.take ks.length).filterMap Token.fault?,
      ts.drop ks.length)
  | .node _ parts, ts => faultsOfAll last none parts ts

def faultsOfAll (last : Token) (opener : Option Token) :
    List Outline → List Token → List Fault × List Token
  | [], ts => ([], ts)
  | p :: ps, ts =>
    let first := faults last opener p ts
    let more := faultsOfAll last (opener? opener p ts) ps first.2
    (first.1 ++ more.1, more.2)

end

end Outline

namespace Fault

def range (f : Fault) : Range := f.token.range

/-- Puts a fault in front of those that do not start before it. -/
def insert (f : Fault) (fs : List Fault) : List Fault :=
  fs.takeWhile (·.range.start < f.range.start) ++ f ::
    fs.dropWhile (·.range.start < f.range.start)

def ofParts (parts : List Outline) (tokens : List Token) (last : Token) : List Fault :=
  let significant := tokens.filter (!·.isTrivia)
  let inTrivia := (tokens.filter (·.isTrivia)).filterMap Token.fault?
  inTrivia.foldr insert (Outline.faultsOfAll last none parts significant).1

def gapDiagnostic (g : Gap) (opener : Option Token) : Diagnostic :=
  match g with
  | .closer group =>
    let code := if group.closer = .closeBrace then Code.unclosedBrace else .unclosedParen
    { Diagnostic.ofCode code with
      message := s!"expected {group.closer.description} to close the {group.name}"
      expected := some group.closer.description
      related := opener.toList.map fun t => ⟨s!"{group.name} opened here", t.range⟩ }
  | .variableName =>
    { Diagnostic.ofCode .missingName with
      message := "expected a variable name after 'val'"
      expected := some "identifier" }
  | .assignment =>
    { Diagnostic.ofCode .missingAssignment with
      message := "expected '=' after the variable name"
      expected := some "'='" }
  | .statement =>
    { Diagnostic.ofCode .missingStatement with
      message := "expected '\x7b' or a statement after context names"
      expected := some Context.contextNames.expected }
  | .contextName =>
    { Diagnostic.ofCode .missingContextName with
      message := "expected a context name after the context marker"
      expected := some "identifier" }

def unexpectedDiagnostic (c : Context) (t : Token) : Diagnostic :=
  if Kind.closingDelimiters.contains t.kind then
    (Diagnostic.unexpected t.found c .unexpectedCloser).withHint
      "remove the unmatched closing delimiter"
  else if c = .argumentList then .unexpected t.found c .invalidArgument
  else .unexpected t.found c .unexpectedToken

def skipDiagnostic (why : Skip) (t : Token) : Diagnostic :=
  match why with
  | .unexpected c => unexpectedDiagnostic c t
  | .noValue c =>
    { Diagnostic.ofCode .missingValue with
      message := "expected a value after '='"
      expected := some c.expected }
  | .tooDeep =>
    { Diagnostic.ofCode .tooDeep with
      message := "nesting too deep, construct skipped"
      expected := some "a shallower construct" }

def report : Fault → Diagnostic
  | ⟨.invalidCharacter, t⟩ =>
    { Diagnostic.ofCode .invalidCharacter with message := s!"invalid character '{t.text}'" }
  | ⟨.unterminatedString, _⟩ => (Diagnostic.ofCode .unterminatedString).withExpected "closing quote"
  | ⟨.unterminatedComment, _⟩ => (Diagnostic.ofCode .unterminatedComment).withExpected "'*/'"
  | ⟨.gap g opener, _⟩ => gapDiagnostic g opener
  | ⟨.skipped why, t⟩ => skipDiagnostic why t

/-- A skip that starts with an invalid character says nothing: the character has its own fault. -/
def isSilent : Fault → Bool
  | ⟨.skipped (.unexpected _), t⟩ => t.kind = .error
  | _ => false

def diagnostic? (f : Fault) : Option Diagnostic :=
  if f.isSilent then none else some { f.report with range := f.range }

/-- What the log says of a fault. It speaks of skips only. -/
def trace? (f : Fault) : Option String :=
  match f.cause with
  | .skipped (.unexpected c) =>
    if f.isSilent then some s!"recovering {c.description} at invalid character {f.range}"
    else some s!"recovering {c.description} at {f.range}: {f.report.message}"
  | .skipped (.noValue c) => some s!"empty slot {c.description} at {f.range}: {f.report.message}"
  | .skipped .tooDeep => some s!"nesting limit reached at {f.range}"
  | _ => none

end Fault
end ConfigSyntax
