import ConfigSyntax.Reader.State

/-! The rules by which a reader goes over the tokens. A rule that does not match leaves the reader
as it was; one that matches writes a node. -/

namespace ConfigSyntax.Reader

/-- A round of a loop gets what the loop counts, and tells what that is now and whether the loop
goes on. -/
abbrev Round := Nat → Action (Nat × Bool)

def rounds (round : Round) : Nat → Nat → Action Nat
  | 0, _ => failure
  | n + 1, count => do
    let (count, more) ← round count
    if more then rounds round n count else return count

/-- With a token taken in each round but the last, there are enough rounds. A loop that needs more
goes round for ever. -/
def loop (round : Round) (count : Nat) : Action Nat := do
  let r ← get
  rounds round (r.significant.length - r.pos + 1) count

def whileDo (goesOn : Reader → Bool) (once : Action Unit) : Round := fun count => do
  if goesOn (← get) then
    once
    return (count, true)
  else return (count, false)

def groupRound : Round := fun count => do
  let r ← get
  if r.isAtEnd then return (count, false)
  else
    bump
    if r.kind.isOpener then return (count + 1, true)
    else if r.kind.isCloser then return (count - 1, count - 1 ≠ 0)
    else return (count, true)

/-- Behind the group that opens here. One that is not closed goes on to the end. -/
def skipGroup : Action Unit := do
  let _ ← loop groupRound 0

def skipOne : Action Unit := do
  if (← get).isAtAny Kind.groupOpeners then skipGroup else bump

def skipRound (stop : List Kind) : Round := whileDo (fun r => !r.isAtEnd && !r.isAtAny stop) skipOne

def skipUntil (stop : List Kind) : Action Unit := do
  let _ ← loop (skipRound stop) 0

def recover (c : Context) : Action Unit := do
  let r ← get
  if r.isAtEnd then return
  else
    tell ⟨.skipped (.unexpected c), r.here⟩
    let node ← start
    skipOne
    skipUntil c.recovery
    let _ ← complete node .error

def slot (c : Context) : Action Unit := do
  tell ⟨.skipped (.noValue c), (← get).here⟩
  let node ← start
  skipUntil c.recovery
  let _ ← complete node .error

def constructRound : Round := fun count => do
  let r ← get
  if r.isAtEnd || r.isAtAny [.comma, .closeBrace, .closeParen] then return (count, false)
  else if r.isAtAny Kind.groupOpeners then
    skipGroup
    return (count, false)
  else
    bump
    return (count, true)

def tooDeep : Action Outcome := do
  let before ← errorCount
  tell ⟨.skipped .tooDeep, (← get).here⟩
  let node ← start
  let _ ← loop constructRound 0
  conclude node .error before

def literal : Action Outcome := do
  match Grammar.literalKind? (← get).kind with
  | none => return .notMatched
  | some kind =>
    let before ← errorCount
    let node ← start
    bump
    conclude node kind before

/-- A dot without a name behind it is left alone. -/
def segmentRound : Round :=
  whileDo (fun r => r.isAt .dot && r.nth 1 = .identifier) do
    bump
    bump

def reference : Action Outcome := do
  if (← get).isAt .identifier then
    let node ← start
    bump
    let _ ← loop segmentRound 0
    return .matched (← complete node .referenceExpression)
  else return .notMatched

def contextualReference : Action Outcome := do
  let r ← get
  if r.isAt .dot && r.nth 1 = .identifier then
    let node ← start
    bump
    let _ ← reference
    return .matched (← complete node .contextualPropertyReference)
  else return .notMatched

def propertyName : Action Outcome := do
  if (← get).isAt .identifier then reference else literal

def contextName : Action Outcome := do
  if (← get).isAtAny Kind.contextMarkers then
    let before ← errorCount
    let node ← start
    bump
    if !(← eat .identifier) then tell ⟨.gap .contextName none, (← get).here⟩
    conclude node .contextName before
  else return .notMatched

def nameRound : Round := fun count => do
  if (← contextName) = .notMatched then return (count, false)
  else
    let _ ← eat .comma
    return (count + 1, true)

def contextNames : Action Nat := loop nameRound 0

section

variable (rules : Construct → Action Outcome)

def close (g : Group) (opener : Token) : Action Unit := do
  if !(← eat g.closer) then tell ⟨.gap (.closer g) (some opener), (← get).here⟩

def elementItem (c : Context) : Action Unit := do
  let before := (← get).pos
  let _ ← rules .element
  if (← get).pos = before then recover c
  let _ ← eat .comma

def elementRound (c : Context) : Round :=
  whileDo (fun r => !r.isAt .closeBrace && !r.isAtEnd) (elementItem rules c)

def body (g : Group) : Action Unit := do
  let opener := (← get).here
  bump
  let _ ← loop (elementRound rules g.context) 0
  close g opener

def argumentItem : Action Unit := do
  if (← rules .value) = .notMatched then recover .argumentList
  let _ ← eat .comma

def argumentRound : Round :=
  whileDo (fun r => !r.isAtAny [.closeParen, .closeBrace] && !r.isAtEnd) (argumentItem rules)

def arguments (node : Opened) (before : Nat) : Action Outcome := do
  let opener := (← get).here
  bump
  let _ ← loop (argumentRound rules) 0
  close .arguments opener
  conclude node .invocationExpression before

def objectBody (node : Opened) (before : Nat) : Action Outcome := do
  body rules .object
  conclude node .object before

def object : Action Outcome := do
  if (← get).isAt .openBrace then
    let before ← errorCount
    objectBody rules (← start) before
  else return .notMatched

/-- A name that no parenthesis follows is no call; the reader goes back in front of it. -/
def invocation : Action Outcome := do
  if (← get).isAt .identifier then
    let checkpoint ← mark
    let before ← errorCount
    match (← reference).node? with
    | none => return .notMatched
    | some callee =>
      if (← get).isAt .openParen then arguments rules (← precede callee) before
      else
        rewind checkpoint
        return .notMatched
  else return .notMatched

def referenceOrInvocation (before : Nat) : Action Outcome := do
  let name ← reference
  match name.node? with
  | none => return name
  | some callee =>
    if (← get).isAt .openParen then arguments rules (← precede callee) before else return name

def constructed (name : Outcome) (before : Nat) : Action Outcome := do
  match name.node? with
  | none => return name
  | some done =>
    if (← get).isAt .openBrace then
      let constructor ← complete (← precede done) .constructorReference
      objectBody rules (← precede constructor) before
    else return name

def valueInside (before : Nat) : Action Outcome := do
  match (← get).kind with
  | .openBrace => object rules
  | .singleQuoted | .doubleQuoted => constructed rules (← literal) before
  | .identifier => constructed rules (← referenceOrInvocation rules before) before
  | .dot => contextualReference
  | _ => literal

def value : Action Outcome := do
  if (← get).isAtAny Kind.valueFirst then
    if ← enter then
      let outcome ← valueInside rules (← errorCount)
      leave
      return outcome
    else tooDeep
  else return .notMatched

def assigned (c : Context) : Action Unit := do
  if (← rules .value) = .notMatched then slot c else return

def propertyRest : Action Unit := do
  if ← eat .equals then assigned rules .propertyValue
  else if (← get).isAt .openBrace then
    let _ ← object rules
  else return

def property : Action Outcome := do
  if (← get).isAtAny Kind.propertyNameFirst then
    let before ← errorCount
    let node ← start
    let _ ← propertyName
    propertyRest rules
    conclude node .property before
  else return .notMatched

/-- Only the first missing piece is told. -/
def declarationRest : Action Unit := do
  if ← eat .identifier then
    if ← eat .equals then assigned rules .variableDeclaration
    else tell ⟨.gap .assignment none, (← get).here⟩
  else tell ⟨.gap .variableName none, (← get).here⟩

def declaration : Action Outcome := do
  if (← get).isAt .valWord then
    let before ← errorCount
    let node ← start
    bump
    declarationRest rules
    conclude node .variableDeclaration before
  else return .notMatched

def invocationElement : Action Outcome := do
  wrap .invocationElement (← invocation rules)

def statement : Action Outcome := do
  match (← get).kind with
  | .valWord => declaration rules
  | .identifier =>
    let outcome ← invocationElement rules
    if outcome = .notMatched then property rules else return outcome
  | _ => property rules

def contextual : Action Outcome := do
  if (← get).isAtAny Kind.contextMarkers then
    let before ← errorCount
    let node ← start
    let _ ← contextNames
    if (← get).isAt .openBrace then
      body rules .contextBlock
      conclude node .contextBlock before
    else
      if (← statement rules) = .notMatched then tell ⟨.gap .statement none, (← get).here⟩
      conclude node .contextualStatement before
  else return .notMatched

def elementInside : Action Outcome := do
  if (← get).isAtAny Kind.contextMarkers then contextual rules else statement rules

def element : Action Outcome := do
  if (← get).isAtAny Kind.objectElementFirst then
    if ← enter then
      let outcome ← elementInside rules
      leave
      return outcome
    else tooDeep
  else return .notMatched

def constructWith : Construct → Action Outcome
  | .element => element rules
  | .value => value rules

end

def nested : Nat → Construct → Action Outcome
  | 0, _ => failure
  | n + 1, c => constructWith (nested n) c

/-- Each rule inside another one is on a level of its own, up to the one that the limit forbids. -/
def construct (c : Construct) : Action Outcome := do
  nested ((← get).levels + 1) c

def fileItem : Action Unit := do
  let before := (← get).pos
  let _ ← construct .element
  if (← get).pos = before then recover .topLevel

def fileRound : Round := whileDo (!·.isAtEnd) fileItem

def file : Action Finished := do
  let node ← start
  let _ ← loop fileRound 0
  complete node .file

end ConfigSyntax.Reader
