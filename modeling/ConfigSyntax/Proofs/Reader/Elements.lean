import ConfigSyntax.Proofs.Reader.Values

/-! Elements are read as in the grammar, and so is a file. Main statements: `construct_follows`,
`file_writes`. -/

namespace ConfigSyntax

namespace Grammar

variable (rules : Construct → Rule)

def propertyRest : List Kind → List Outline × List Kind
  | .equals :: ks =>
    ([.token .equals, (assigned rules .propertyValue ks).1], (assigned rules .propertyValue ks).2)
  | .openBrace :: ks => ([.node .object (group .object rules ks).1], (group .object rules ks).2)
  | ks => ([], ks)

theorem property_parts (name : Outline) (ks : List Kind) : property rules name ks =
    (.node .property (name :: (propertyRest rules ks).1), (propertyRest rules ks).2) := by
  unfold propertyRest
  split <;> simp only [property]

def propertyRule (ks : List Kind) : Option Read :=
  (nameRule ks).map fun name => property rules name.1 name.2

def declarationRest : List Kind → List Outline × List Kind
  | .identifier :: .equals :: ks =>
    ([.token .identifier, .token .equals, (assigned rules .variableDeclaration ks).1],
      (assigned rules .variableDeclaration ks).2)
  | .identifier :: ks => ([.token .identifier, .gap .assignment], ks)
  | ks => ([.gap .variableName], ks)

theorem declaration_parts (ks : List Kind) : declaration rules ks =
    (.node .variableDeclaration (.token .valWord :: (declarationRest rules ks).1),
      (declarationRest rules ks).2) := by
  unfold declarationRest
  split <;> simp only [declaration]

def declarationRule : Rule
  | .valWord :: ks => some (declaration rules ks)
  | _ => none

def callElementRule (ks : List Kind) : Option Read :=
  (callRule rules ks).map fun call => (.node .invocationElement [call.1], call.2)

theorem wraps_callRule {ks : List Kind} {call : Read} (applies : callRule rules ks = some call) :
    Outline.wraps .invocationElement call.1 = true := by
  unfold callRule at applies
  split at applies
  case h_1 =>
    split at applies
    case h_1 =>
      cases applies
      rfl
    case h_2 => cases applies
  case h_2 => cases applies

theorem statement_name (ks : List Kind) : statement rules (.identifier :: ks) =
    (callElementRule rules (.identifier :: ks)).or (propertyRule rules (.identifier :: ks)) := by
  unfold callElementRule callRule
  simp only
  split
  case h_1 rest call => simp [statement, call]
  case h_2 other => simp [statement, propertyRule, nameRule]

def contextualRule : Rule
  | [] => none
  | k :: ks =>
    if Kind.contextMarkers.contains k then some (contextual rules (k :: ks)) else none

theorem nested_zero_eq (c : Construct) (ks : List Kind) : nested 0 c ks =
    if c.first.contains (ks.headD .eof) then some (tooDeep ks) else none := by
  cases ks with
  | nil => cases c <;> rfl
  | cons k ks => rfl

theorem nested_succ_eq (depth : Nat) (c : Construct) (ks : List Kind) : nested (depth + 1) c ks =
    if c.first.contains (ks.headD .eof) then construct (nested depth) c ks else none := by
  cases ks with
  | nil => cases c <;> rfl
  | cons k ks => rfl

end Grammar

namespace Reader

open Outline (kindsOfAll entriesOfAll)

variable {r r' : Reader}

theorem Follows.or {rule first second : Action Outcome} {read? read?' : Option Grammar.Read}
    (follows : Follows first r read?) (follows' : Follows second r read?')
    (run : rule.run r = (do
      let outcome ← first
      if outcome = .notMatched then second else return outcome : Action Outcome).run r) :
    Follows rule r (read?.or read?') := by
  rw [StateT.run_bind] at run
  cases read? with
  | none =>
      rw [Follows] at follows
      rw [follows] at run
      exact follows'.congr run
  | some read =>
      obtain ⟨node, r₁, done, writes⟩ := follows
      refine ⟨node, r₁, ?_, writes⟩
      rw [run, done]
      simp [judge_ne]

section

variable {rules : Construct → Action Outcome} {reads : Construct → Grammar.Rule} {levels : Nat}
  (good : RulesFollow rules reads levels)

include good

theorem assigned_writes (level : r.levels = levels) (c : Context) (op : Option Token) :
    ∃ r', (assigned rules c).run r = some ((), r') ∧
      Writes op r ([(Grammar.assigned reads c r.kindsAhead).1],
        (Grammar.assigned reads c r.kindsAhead).2) op r' := by
  have follows := good.follows .value r level
  unfold Grammar.assigned
  cases read : reads .value r.kindsAhead with
  | none =>
      rw [read] at follows
      obtain ⟨r₁, skipped, writes⟩ := slot_writes c r
      refine ⟨r₁, ?_, writes.of_node rfl op⟩
      simp [assigned, show (rules .value).run r = _ from follows, skipped]
  | some read =>
      rw [read] at follows
      obtain ⟨⟨kind, node⟩, r₁, run, writes⟩ := follows
      exact ⟨r₁, by simp [assigned, run, judge_ne], writes.of_node node op⟩

omit good in
theorem isAtAny_propertyNameFirst (r : Reader) :
    r.isAtAny Kind.propertyNameFirst = (Grammar.nameRule r.kindsAhead).isSome := by
  cases kinds : r.kindsAhead with
  | nil =>
      rw [isAtAny, kind_of_nil kinds]
      rfl
  | cons k ks =>
      rw [isAtAny_of_cons kinds]
      cases k <;> rfl

theorem propertyRest_writes (level : r.levels = levels) :
    ∃ r', (propertyRest rules).run r = some ((), r') ∧
      Writes none r (Grammar.propertyRest reads r.kindsAhead) none r' := by
  unfold Grammar.propertyRest
  split
  case h_1 ks kinds =>
    have sign := Writes.token none kinds
    obtain ⟨r₁, run, value⟩ := assigned_writes good (sign.levels.trans level) .propertyValue none
    rw [sign.kindsAhead] at value
    exact ⟨r₁, by simp [propertyRest, run_eat kinds, run], sign.append value⟩
  case h_2 ks kinds =>
    have object := object_follows good level
    rw [kinds] at object
    obtain ⟨-, r₁, run, writes⟩ := object
    have away : ∀ ks, r.kindsAhead ≠ .equals :: ks := by simp [kinds]
    refine ⟨r₁, ?_, writes⟩
    simp [propertyRest, run_eat_other (by decide) away, isAt_of_cons kinds, run]
  case h_3 noSign noBrace =>
    have away : r.isAt .openBrace = false := by
      rw [Bool.eq_false_iff, Ne, isAt_iff (by decide), not_exists]
      exact noBrace
    exact ⟨r, by simp [propertyRest, run_eat_other (by decide) noSign, away], .nil none r⟩

theorem property_follows (level : r.levels = levels) :
    Follows (property rules) r (Grammar.propertyRule reads r.kindsAhead) := by
  have name := propertyName_follows r.opened
  have here := isAtAny_propertyNameFirst r
  change Follows propertyName r.opened (Grammar.nameRule r.kindsAhead) at name
  unfold Grammar.propertyRule
  cases read : Grammar.nameRule r.kindsAhead with
  | none =>
      rw [read] at here
      simp [Follows, property, here]
  | some found =>
      rw [read] at name here
      obtain ⟨-, r₁, run, first⟩ := name
      obtain ⟨r₂, more, rest⟩ := propertyRest_writes good (first.levels.trans level)
      rw [first.kindsAhead] at rest
      rw [Option.map_some, Grammar.property_parts]
      apply follows_node (first.append rest) (by cases found.1 <;> simp [Outline.wraps])
      intro s closed _
      simp [property, here, run_start, run, more, run_conclude closed]

theorem declarationRest_writes (level : r.levels = levels) :
    ∃ r', (declarationRest rules).run r = some ((), r') ∧
      Writes none r (Grammar.declarationRest reads r.kindsAhead) none r' := by
  unfold Grammar.declarationRest
  split
  case h_1 ks kinds =>
    have name := Writes.token none kinds
    have sign := Writes.token none name.kindsAhead
    obtain ⟨r₁, run, value⟩ := assigned_writes good
      ((name.append sign).levels.trans level) .variableDeclaration none
    rw [sign.kindsAhead] at value
    refine ⟨r₁, ?_, (name.append sign).append value⟩
    simp [declarationRest, run_eat kinds, run_eat name.kindsAhead, run]
  case h_2 ks other kinds =>
    have name := Writes.token none kinds
    have gap := Writes.gap .assignment none r.next
    rw [name.kindsAhead] at gap
    have away : ∀ ks, r.next.kindsAhead ≠ .equals :: ks := by
      rw [name.kindsAhead]
      exact other
    refine ⟨r.next.say ⟨.gap .assignment none, r.next.here⟩, ?_, name.append gap⟩
    simp [declarationRest, run_eat kinds, run_eat_other (by decide) away]
  case h_3 noNameSign noName =>
    refine ⟨r.say ⟨.gap .variableName none, r.here⟩, ?_, .gap .variableName none r⟩
    simp [declarationRest, run_eat_other (by decide) noName]

theorem declaration_follows (level : r.levels = levels) :
    Follows (declaration rules) r (Grammar.declarationRule reads r.kindsAhead) := by
  unfold Grammar.declarationRule
  split
  case h_1 ks kinds =>
    have word := Writes.token none (r := r.opened) kinds
    obtain ⟨r₁, run, rest⟩ := declarationRest_writes good (word.levels.trans level)
    rw [word.kindsAhead] at rest
    rw [Grammar.declaration_parts]
    apply follows_node (word.append rest) (by simp [Outline.wraps])
    intro s closed _
    simp [declaration, isAt_of_cons kinds, run_start, run, run_conclude closed]
  case h_2 other =>
    have away : r.isAt .valWord = false := by
      rw [Bool.eq_false_iff, Ne, isAt_iff (by decide), not_exists]
      exact other
    simp [Follows, declaration, away]

theorem invocationElement_follows (level : r.levels = levels) :
    Follows (invocationElement rules) r (Grammar.callElementRule reads r.kindsAhead) := by
  have call := invocation_follows good level
  unfold Grammar.callElementRule
  cases read : Grammar.callRule reads r.kindsAhead with
  | none =>
      rw [read] at call
      simp [Follows, invocationElement, show (invocation rules).run r = _ from call, wrap]
  | some found =>
      rw [read] at call
      obtain ⟨-, r₁, run, writes⟩ := call
      obtain ⟨links, opened, finish⟩ := around_node writes (Grammar.wraps_callRule reads read)
      obtain ⟨s, closed, all, quiet⟩ := finish (Writes.nil none (r₁.withEntries links))
      have kinds : (r₁.withEntries links).kindsAhead = found.2 := writes.kindsAhead
      rw [kinds] at all
      refine ⟨⟨_, rfl⟩, s, ?_, all⟩
      have flawed : s.diagnostics = r₁.diagnostics := congrArg Prod.fst quiet
      simp only [invocationElement, StateT.run_bind, run, Outcome.judge, flawed]
      split <;> simp [wrap, opened, closed]

/-- A call is tried first, and a property read where there is none. -/
theorem statement_follows (level : r.levels = levels) :
    Follows (statement rules) r (Grammar.statement reads r.kindsAhead) := by
  have property := property_follows good level
  cases kinds : r.kindsAhead with
  | nil =>
      rw [kinds] at property
      exact property.congr (by simp [statement, kind_of_nil kinds])
  | cons k ks =>
      have here := kind_of_cons kinds
      rw [kinds] at property
      cases k
      case valWord =>
        have declaration := declaration_follows good level
        rw [kinds] at declaration
        exact declaration.congr (by simp [statement, here])
      case identifier =>
        have call := invocationElement_follows good level
        rw [kinds] at call
        rw [Grammar.statement_name]
        exact call.or property (by simp [statement, here])
      all_goals exact property.congr (by simp [statement, here])

/-- Behind the names of contexts that no block follows there is a statement, or a gap for one. -/
theorem contextualStatement_follows {count : Nat} {r₁ : Reader} {names : List Outline}
    {ks : List Kind} (here : r.isAtAny Kind.contextMarkers = true)
    (run : contextNames.run r.opened = some (count, r₁))
    (writes : Writes none r.opened (names, ks) none r₁) (level : r₁.levels = levels)
    (noBrace : ∀ rest, ks ≠ .openBrace :: rest) :
    Follows (contextual rules) r (some (match Grammar.statement reads ks with
      | some (body, ks) => (.node .contextualStatement (names ++ [body]), ks)
      | none => (.node .contextualStatement (names ++ [.gap .statement]), ks))) := by
  have ahead := writes.kindsAhead
  have away : r₁.isAt .openBrace = false := by
    rw [Bool.eq_false_iff, Ne, isAt_iff (by decide), not_exists, ahead]
    exact noBrace
  have body := statement_follows good level
  rw [ahead] at body
  cases read : Grammar.statement reads ks with
  | none =>
      rw [read] at body
      have missing : (statement rules).run r₁ = some (.notMatched, r₁) := body
      have gap := Writes.gap .statement none r₁
      rw [ahead] at gap
      apply follows_node (writes.append gap) (fun p _ => Outline.wraps_plain p rfl)
      intro s closed _
      simp [contextual, here, run_start, run, away, missing, run_conclude closed]
  | some found =>
      rw [read] at body
      obtain ⟨-, r₂, more, inside⟩ := body
      apply follows_node (writes.append inside) (fun p _ => Outline.wraps_plain p rfl)
      intro s closed _
      simp [contextual, here, run_start, run, away, more, judge_ne, run_conclude closed]

theorem contextual_follows (level : r.levels = levels) :
    Follows (contextual rules) r (Grammar.contextualRule reads r.kindsAhead) := by
  cases kinds : r.kindsAhead with
  | nil =>
      have away : r.isAtAny Kind.contextMarkers = false := by
        rw [isAtAny, kind_of_nil kinds]
        rfl
      simp [Grammar.contextualRule, Follows, contextual, away]
  | cons k ks =>
      have here := isAtAny_of_cons kinds Kind.contextMarkers
      rw [Grammar.contextualRule]
      split
      case isFalse away =>
        rw [Bool.eq_false_iff.mpr away] at here
        simp [Follows, contextual, here]
      case isTrue marker =>
        rw [marker] at here
        obtain ⟨count, r₁, run, names⟩ := contextNames_writes none r.opened
        change Writes none r.opened (Grammar.repeated Grammar.contextName r.kindsAhead) none r₁
          at names
        rw [kinds] at names
        have level' := names.levels.trans level
        unfold Grammar.contextual
        simp only
        split
        case h_1 rest brace =>
          have ahead := names.kindsAhead
          rw [brace] at ahead
          obtain ⟨r₂, op, more, inside⟩ := body_writes good (g := .contextBlock) rfl level' ahead
          apply follows_node (names.append inside) (fun p _ => Outline.wraps_plain p rfl)
          intro s closed _
          simp [contextual, here, run_start, run, isAt_of_cons ahead, more, run_conclude closed]
        case h_2 noBrace =>
          exact contextualStatement_follows good here run names level' noBrace

theorem elementInside_follows (level : r.levels = levels) :
    Follows (elementInside rules) r (Grammar.element reads r.kindsAhead) := by
  have statement := statement_follows good level
  have contextual := contextual_follows good level
  cases kinds : r.kindsAhead with
  | nil =>
      have away : r.isAtAny Kind.contextMarkers = false := by
        rw [isAtAny, kind_of_nil kinds]
        rfl
      rw [kinds] at statement
      exact statement.congr (by simp [elementInside, away])
  | cons k ks =>
      have here := isAtAny_of_cons kinds Kind.contextMarkers
      rw [kinds] at statement contextual
      rw [Grammar.element]
      split
      case isTrue marker =>
        rw [Grammar.contextualRule, if_pos marker] at contextual
        rw [marker] at here
        exact contextual.congr (by simp [elementInside, here])
      case isFalse away =>
        rw [Bool.eq_false_iff.mpr away] at here
        exact statement.congr (by simp [elementInside, here])

theorem element_follows (level : r.levels = levels + 1) :
    Follows (element rules) r
      (if Kind.objectElementFirst.contains r.kind then Grammar.element reads r.kindsAhead
        else none) := by
  obtain ⟨entered, left⟩ := run_enter level
  split
  case isTrue first =>
    have here : r.isAtAny Kind.objectElementFirst = true := first
    exact (elementInside_follows (r := r.deeper) good left).deeper
      (by simp [element, here, entered])
  case isFalse away =>
    have away : r.isAtAny Kind.objectElementFirst = false := Bool.eq_false_iff.mpr away
    simp [Follows, element, away]

end

section

variable {rules : Construct → Action Outcome}

theorem constructWith_follows_zero (c : Construct) (level : r.levels = 0) :
    Follows (constructWith rules c) r (Grammar.nested 0 c r.kindsAhead) := by
  rw [Grammar.nested_zero_eq, ← kind_eq]
  split
  case isTrue first =>
    have skipped : Follows tooDeep r (some (Grammar.tooDeep r.kindsAhead)) := by
      cases kinds : r.kindsAhead with
      | nil =>
          rw [kind_of_nil kinds] at first
          cases c <;> cases first
      | cons k ks => exact tooDeep_follows kinds
    have entered := run_enter_not level
    have here : r.isAtAny c.first = true := first
    cases c <;> rw [Construct.first] at here <;>
      exact skipped.congr (by simp [constructWith, element, value, here, entered])
  case isFalse away =>
    have here : r.isAtAny c.first = false := Bool.eq_false_iff.mpr away
    cases c <;> rw [Construct.first] at here <;> simp [Follows, constructWith, element, value, here]

theorem constructWith_follows {levels : Nat}
    (good : RulesFollow rules (Grammar.nested levels) levels) (c : Construct)
    (level : r.levels = levels + 1) :
    Follows (constructWith rules c) r (Grammar.nested (levels + 1) c r.kindsAhead) := by
  rw [Grammar.nested_succ_eq, ← kind_eq]
  cases c with
  | element => exact element_follows good level
  | value => exact value_follows good level

end

theorem nested_follows (levels : Nat) :
    RulesFollow (nested (levels + 1)) (Grammar.nested levels) levels := by
  induction levels with
  | zero =>
      exact ⟨fun c _ level => constructWith_follows_zero c level, Grammar.nested_advances 0⟩
  | succ levels ih =>
      exact ⟨fun c _ level => constructWith_follows ih c level,
        Grammar.nested_advances (levels + 1)⟩

/-- A construct is read as the grammar does with the levels that are left. -/
theorem construct_follows (c : Construct) (r : Reader) :
    Follows (construct c) r (Grammar.nested r.levels c r.kindsAhead) := by
  have follows := (nested_follows r.levels).follows c r rfl
  refine follows.congr ?_
  rw [construct, StateT.run_bind]
  rfl

theorem constructs_follow (levels : Nat) :
    RulesFollow construct (Grammar.nested levels) levels where
  follows c r level := level ▸ construct_follows c r
  advances := Grammar.nested_advances levels

/-- What is read says all about the run. -/
theorem Follows.run_eq {rule rule' : Action Outcome} {read? : Option Grammar.Read}
    (follows : Follows rule r read?) (follows' : Follows rule' r read?) :
    rule.run r = rule'.run r := by
  cases read? with
  | none => exact Eq.trans follows (Eq.symm follows')
  | some read =>
      obtain ⟨-, r₁, run, writes⟩ := follows
      obtain ⟨-, r₂, run', writes'⟩ := follows'
      rw [run, run', writes.same, writes'.same]

/-- The rules use one another, on whatever level they are. -/
theorem construct_eq : construct = constructWith construct := by
  funext c
  refine StateT.ext fun r => (construct_follows c r).run_eq ?_
  cases level : r.levels with
  | zero => exact constructWith_follows_zero c level
  | succ levels => exact constructWith_follows (constructs_follow levels) c level

theorem fileRound_follows (op : Option Token) (levels : Nat) :
    RoundFollows fileRound op levels (Grammar.fileItem (Grammar.nested levels .element)) := by
  intro r count level
  cases kinds : r.kindsAhead with
  | nil =>
      have ended := isAtEnd_iff.mpr kinds
      exact ⟨count, run_while_end (by simp [ended]) count⟩
  | cons k ks =>
      have more := isAtEnd_of_cons kinds
      obtain ⟨r₁, writes, cases⟩ :=
        item_writes (constructs_follow levels) level .element .topLevel kinds op
      refine ⟨count, r₁, run_while (by simp [more]) ?_ count, writes⟩
      rcases cases with ⟨away, skipped⟩ | ⟨outcome, run, -, moved⟩
      · simp [fileItem, away, skipped]
      · simp [fileItem, run, moved]

theorem file_writes (r : Reader) : ∃ r', file.run r = some (⟨r.entries.length⟩, r') ∧
    Writes none r ([.node .file (Grammar.file r.levels r.kindsAhead)], []) none r' := by
  obtain ⟨count, r₁, run, inside⟩ := loop_writes (fileRound_follows none r.levels)
    (Grammar.fileItem_advances (Grammar.nested_advances r.levels .element)) 0 r.opened rfl
  have rest := Grammar.items_rest r.levels r.kindsAhead
  obtain ⟨es, closed, writes⟩ := inside.complete (k := .file) (fun p _ => Outline.wraps_plain p rfl)
  change Writes none r ([.node .file (Grammar.file r.levels r.kindsAhead)], _) _ _ at writes
  exact ⟨_, by simp [file, run_start, run, closed], rest ▸ writes⟩

end Reader
end ConfigSyntax
