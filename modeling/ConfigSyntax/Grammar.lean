import ConfigSyntax.Outline

/-! The grammar, on the kinds of the significant tokens.

    file        = element*
    element     = names '{' (element ','?)* '}' | names statement | statement
    names       = (('@' | '!@') IDENT ','?)+
    statement   = invocation | 'val' IDENT '=' value | name ('=' value | object)?
    name        = literal | reference
    reference   = IDENT ('.' IDENT)*
    invocation  = reference '(' (value ','?)* ')'
    value       = constructor? object | literal | invocation | '.' reference | reference
    constructor = invocation | reference | STRING
    object      = '{' (element ','?)* '}'

A rule that applies reads one token at least and gives an outline, whatever comes after its first
tokens. -/

namespace ConfigSyntax.Grammar

abbrev Read := Outline × List Kind

/-- A rule answers `none` where it does not apply. -/
abbrev Rule := List Kind → Option Read

/-- How many kinds come before one that `stop` holds of. A group counts as a whole: with `depth`
groups open, nothing stops the skip before they are closed. -/
def skipLength (stop : Kind → Bool) : Nat → List Kind → Nat
  | _, [] => 0
  | 0, k :: ks =>
    if stop k then 0 else skipLength stop (if k.isOpener then 1 else 0) ks + 1
  | depth + 1, k :: ks =>
    skipLength stop (if k.isOpener then depth + 2 else if k.isCloser then depth else depth + 1) ks
      + 1

/-- The length of a construct that is not looked into: up to the end of its first group, or to
where a list goes on. -/
def constructLength : List Kind → Nat
  | [] => 0
  | k :: ks =>
    if k = .comma || k.isCloser then 0
    else if k.isOpener then skipLength (fun _ => true) 1 ks + 1
    else constructLength ks + 1

def skip (why : Skip) (n : Nat) (ks : List Kind) : Read := (.skipped why (ks.take n), ks.drop n)

/-- Skips the kind in front, and goes on to where `c` can be resumed. -/
def recover (c : Context) : List Kind → Read
  | [] => skip (.unexpected c) 0 []
  | k :: ks =>
    skip (.unexpected c) (skipLength c.stopsAt (if k.isOpener then 1 else 0) ks + 1) (k :: ks)

def slot (c : Context) (ks : List Kind) : Read := skip (.noValue c) (skipLength c.stopsAt 0 ks) ks

def tooDeep (ks : List Kind) : Read := skip .tooDeep (constructLength ks) ks

/-- Repeats `step` until it does not apply. Each step reads a kind at least, so as many steps as
there are kinds are enough. -/
def steps (step : List Kind → Option (List Outline × List Kind)) :
    Nat → List Kind → List Outline × List Kind
  | 0, ks => ([], ks)
  | n + 1, ks =>
    match step ks with
    | none => ([], ks)
    | some (parts, rest) =>
      let more := steps step n rest
      (parts ++ more.1, more.2)

def repeated (step : List Kind → Option (List Outline × List Kind)) (ks : List Kind) :
    List Outline × List Kind :=
  steps step ks.length ks

def comma? : List Kind → List Outline × List Kind
  | .comma :: ks => ([.token .comma], ks)
  | ks => ([], ks)

def fileItem (rule : Rule) (ks : List Kind) : Option (List Outline × List Kind) :=
  if ks.isEmpty then none
  else
    let item := (rule ks).getD (recover .topLevel ks)
    some ([item.1], item.2)

def groupItem (g : Group) (rule : Rule) : List Kind → Option (List Outline × List Kind)
  | [] => none
  | k :: ks =>
    if g.ends.contains k then none
    else
      let item := (rule (k :: ks)).getD (recover g.context (k :: ks))
      let comma := comma? item.2
      some (item.1 :: comma.1, comma.2)

def closing (g : Group) : List Kind → List Outline × List Kind
  | [] => ([.gap (.closer g)], [])
  | k :: ks => if k = g.closer then ([.token k], ks) else ([.gap (.closer g)], k :: ks)

/-- A group from its opener on, which has been seen. -/
def group (g : Group) (rules : Construct → Rule) (ks : List Kind) : List Outline × List Kind :=
  let items := repeated (groupItem g (rules g.holds)) ks
  let close := closing g items.2
  (.token g.opener :: items.1 ++ close.1, close.2)

def segments : List Kind → List Outline × List Kind
  | .dot :: .identifier :: ks =>
    let more := segments ks
    (.token .dot :: .token .identifier :: more.1, more.2)
  | ks => ([], ks)

def reference (ks : List Kind) : Read :=
  let more := segments ks
  (.node .referenceExpression (.token .identifier :: more.1), more.2)

def literalKind? : Kind → Option Kind
  | .singleQuoted | .doubleQuoted => some .stringLiteral
  | .number => some .numberLiteral
  | .trueWord | .falseWord => some .booleanLiteral
  | .nullWord => some .nullLiteral
  | _ => none

def literal? (k : Kind) : Option Outline := (literalKind? k).map (.node · [.token k])

def contextName : List Kind → Option (List Outline × List Kind)
  | [] => none
  | k :: ks =>
    if Kind.contextMarkers.contains k then
      match ks with
      | .identifier :: ks =>
        let comma := comma? ks
        some (.node .contextName [.token k, .token .identifier] :: comma.1, comma.2)
      | ks =>
        let comma := comma? ks
        some (.node .contextName [.token k, .gap .contextName] :: comma.1, comma.2)
    else none

variable (rules : Construct → Rule)

def invocation (callee : Outline) (ks : List Kind) : Read :=
  let arguments := group .arguments rules ks
  (.node .invocationExpression (callee :: arguments.1), arguments.2)

def constructed (name : Outline) : List Kind → Read
  | .openBrace :: ks =>
    let body := group .object rules ks
    (.node .object (.node .constructorReference [name] :: body.1), body.2)
  | ks => (name, ks)

def value : Rule
  | .openBrace :: ks =>
    let body := group .object rules ks
    some (.node .object body.1, body.2)
  | .dot :: .identifier :: ks =>
    let name := reference ks
    some (.node .contextualPropertyReference [.token .dot, name.1], name.2)
  | .identifier :: ks =>
    let name := reference ks
    match name.2 with
    | .openParen :: ks =>
      let call := invocation rules name.1 ks
      some (constructed rules call.1 call.2)
    | ks => some (constructed rules name.1 ks)
  | k :: ks =>
    (literal? k).map fun name => if k.isString then constructed rules name ks else (name, ks)
  | [] => none

def assigned (c : Context) (ks : List Kind) : Read := (rules .value ks).getD (slot c ks)

def property (name : Outline) : List Kind → Read
  | .equals :: ks =>
    let value := assigned rules .propertyValue ks
    (.node .property [name, .token .equals, value.1], value.2)
  | .openBrace :: ks =>
    let body := group .object rules ks
    (.node .property [name, .node .object body.1], body.2)
  | ks => (.node .property [name], ks)

/-- A declaration whose `val` has been seen. Only the first missing piece is a gap. -/
def declaration : List Kind → Read
  | .identifier :: .equals :: ks =>
    let value := assigned rules .variableDeclaration ks
    (.node .variableDeclaration
      [.token .valWord, .token .identifier, .token .equals, value.1], value.2)
  | .identifier :: ks =>
    (.node .variableDeclaration [.token .valWord, .token .identifier, .gap .assignment], ks)
  | ks => (.node .variableDeclaration [.token .valWord, .gap .variableName], ks)

def statement : Rule
  | .valWord :: ks => some (declaration rules ks)
  | .identifier :: ks =>
    let name := reference ks
    match name.2 with
    | .openParen :: ks =>
      let call := invocation rules name.1 ks
      some (.node .invocationElement [call.1], call.2)
    | ks => some (property rules name.1 ks)
  | k :: ks => (literal? k).map (property rules · ks)
  | [] => none

def contextual (ks : List Kind) : Read :=
  let names := repeated contextName ks
  match names.2 with
  | .openBrace :: ks =>
    let body := group .contextBlock rules ks
    (.node .contextBlock (names.1 ++ body.1), body.2)
  | ks =>
    match statement rules ks with
    | some (body, ks) => (.node .contextualStatement (names.1 ++ [body]), ks)
    | none => (.node .contextualStatement (names.1 ++ [.gap .statement]), ks)

def element : Rule
  | [] => none
  | k :: ks =>
    if Kind.contextMarkers.contains k then some (contextual rules (k :: ks))
    else statement rules (k :: ks)

def construct : Construct → Rule
  | .element => element rules
  | .value => value rules

/-- The rules with `depth` levels left. Whether a construct starts here is seen first, so that only
a construct can be too deep. -/
def nested : Nat → Construct → Rule
  | _, _, [] => none
  | 0, c, k :: ks => if c.first.contains k then some (tooDeep (k :: ks)) else none
  | depth + 1, c, k :: ks =>
    if c.first.contains k then construct (nested depth) c (k :: ks) else none

def file (depth : Nat) (ks : List Kind) : List Outline :=
  (repeated (fileItem (nested depth .element)) ks).1

end ConfigSyntax.Grammar
