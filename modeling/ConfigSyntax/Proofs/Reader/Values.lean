import ConfigSyntax.Proofs.Reader.Groups

/-! Values are read as in the grammar, if the constructs in them are. A call and a constructor are
opened around the name that was read before them. Main statement: `value_follows`. -/

namespace ConfigSyntax

namespace Grammar

variable (rules : Construct → Rule)

def objectRule : Rule
  | .openBrace :: ks => some (.node .object (group .object rules ks).1, (group .object rules ks).2)
  | _ => none

def callRule : Rule
  | .identifier :: ks =>
    match (reference ks).2 with
    | .openParen :: rest => some (invocation rules (reference ks).1 rest)
    | _ => none
  | _ => none

def nameOrCall (ks : List Kind) : Read :=
  match (reference ks).2 with
  | .openParen :: rest => invocation rules (reference ks).1 rest
  | _ => reference ks

theorem wraps_nameOrCall (ks : List Kind) :
    Outline.wraps .constructorReference (nameOrCall rules ks).1 = true := by
  unfold nameOrCall
  split <;> rfl

theorem value_name (ks : List Kind) : value rules (.identifier :: ks) =
    some (constructed rules (nameOrCall rules ks).1 (nameOrCall rules ks).2) := by
  unfold nameOrCall
  split
  case h_1 rest call => simp only [value, call]
  case h_2 other =>
    unfold value
    simp only

theorem contextualReferenceRule_dot (ks : List Kind) :
    contextualReferenceRule (.dot :: ks) = value rules (.dot :: ks) := by
  unfold contextualReferenceRule
  split
  case h_1 same =>
    obtain ⟨-, rfl⟩ := List.cons.inj same
    rfl
  case h_2 other =>
    cases ks with
    | nil => rfl
    | cons k ks => cases k <;> first | rfl | exact absurd rfl (other ks)

end Grammar

namespace Reader

open Outline (kindsOfAll entriesOfAll)

variable {r r' : Reader}

/-- A node that is opened around one that is there. What comes behind that one is its own. -/
theorem around_node {o : Outline} {k : Kind} {mid : List Kind}
    (writes : Writes none r ([o], mid) none r') (wraps : Outline.wraps k o = true) :
    ∃ links, (precede ⟨r.entries.length + o.head⟩).run r' =
        some (⟨r.entries.length + o.size⟩, r'.withEntries links) ∧
      ∀ {parts : List Outline} {rest : List Kind} {op : Option Token} {r'' : Reader},
        Writes none (r'.withEntries links) (parts, rest) op r'' →
          ∃ s, (complete ⟨r.entries.length + o.size⟩ k).run r'' =
              some (⟨r.entries.length + (Outline.node k (o :: parts)).head⟩, s) ∧
            Writes none r ([.node k (o :: parts)], rest) none s ∧ s.said = r''.said := by
  obtain ⟨kind, node⟩ := Outline.kind?_of_wraps wraps
  obtain ⟨links, run, opens⟩ := writes.precede node
  refine ⟨links, run, fun {parts rest op r''} inside => ?_⟩
  have fits : Outline.entriesWithin k none ([o] ++ parts) =
      o.entries (some o.distance) ++ .start k none :: entriesOfAll parts := by
    simp [Outline.entriesWithin, wraps]
  have head : (Outline.node k (o :: parts)).head = o.size := by simp [Outline.head, wraps]
  obtain ⟨es, closed, all⟩ := opens.complete inside fits
  rw [Outline.length_entries] at closed
  rw [head]
  exact ⟨_, closed, all, rfl⟩

/-- Nothing is left of what was read in between, if nothing was said. -/
theorem run_rewind {op op' : Option Token} {out : List Outline × List Kind}
    (writes : Writes op r out op' r') (quiet : r'.said = r.said) :
    (rewind ⟨r.pos, r.entries.length, r.diagnostics.length⟩).run r' = some ((), r) := by
  have log : r'.log = r.log := congrArg Prod.snd quiet
  rw [writes.same] at log ⊢
  simp only [write] at log
  simp [rewind, write, log]

section

variable {rules : Construct → Action Outcome} {reads : Construct → Grammar.Rule} {levels : Nat}
  (good : RulesFollow rules reads levels)

include good

theorem object_follows (level : r.levels = levels) :
    Follows (object rules) r (Grammar.objectRule reads r.kindsAhead) := by
  unfold Grammar.objectRule
  split
  case h_1 ks kinds =>
    obtain ⟨r₁, op, run, inside⟩ := body_writes (r := r.opened) good (g := .object) rfl level kinds
    apply follows_node inside (by simp [Outline.wraps])
    intro s closed _
    simp [object, objectBody, isAt_of_cons kinds, run_start, run, run_conclude closed]
  case h_2 other =>
    have away : r.isAt .openBrace = false := by
      rw [Bool.eq_false_iff, Ne, isAt_iff (by decide), not_exists]
      exact other
    simp [Follows, object, away]

theorem arguments_give (level : r.levels = levels) {callee : Outline} {ks : List Kind}
    (writes : Writes none r ([callee], .openParen :: ks) none r')
    (wraps : Outline.wraps .invocationExpression callee = true) :
    Gives (do arguments rules (← precede ⟨r.entries.length + callee.head⟩) r.diagnostics.length)
      r r' (Grammar.invocation reads callee ks) := by
  obtain ⟨links, opened, finish⟩ := around_node writes wraps
  obtain ⟨count, r₁, r₂, op, items, closed, inside⟩ :=
    group_writes (r := r'.withEntries links) (g := .arguments) good
      (argumentRound_follows good) (writes.levels.trans level) writes.kindsAhead
  obtain ⟨s, done, all, -⟩ := finish inside
  refine ⟨⟨_, rfl⟩, s, ?_, all⟩
  simp [opened, arguments, items, closed, run_conclude done]
  rfl

/-- The object that a name constructs, where the name was read from `r` on. -/
theorem constructed_gives (level : r.levels = levels) {name : Outline} {mid : List Kind}
    (writes : Writes none r ([name], mid) none r')
    (wraps : Outline.wraps .constructorReference name = true) :
    Gives (constructed rules
        (Outcome.judge r.diagnostics.length r' ⟨r.entries.length + name.head⟩)
        r.diagnostics.length) r r' (Grammar.constructed reads name mid) := by
  have kinds := writes.kindsAhead
  unfold Grammar.constructed
  split
  case h_1 ks =>
    obtain ⟨links, opened, finish⟩ := around_node writes wraps
    obtain ⟨s, done, constructor, -⟩ := finish (Writes.nil none (r'.withEntries links))
    have left : (r'.withEntries links).kindsAhead = .openBrace :: ks := kinds
    rw [left] at constructor
    obtain ⟨links', opened', finish'⟩ := around_node (k := .object) constructor rfl
    obtain ⟨r₁, op, run, inside⟩ := body_writes (r := s.withEntries links') good (g := .object) rfl
      (constructor.levels.trans level) constructor.kindsAhead
    obtain ⟨s', done', all, -⟩ := finish' inside
    refine ⟨⟨_, rfl⟩, s', ?_, all⟩
    simp [constructed, isAt_of_cons kinds, opened, done, opened', objectBody, run,
      run_conclude done']
    rfl
  case h_2 other =>
    have away : r'.isAt .openBrace = false := by
      rw [Bool.eq_false_iff, Ne, isAt_iff (by decide), not_exists, kinds]
      exact other
    refine ⟨Outline.kind?_of_wraps wraps, r', ?_, writes⟩
    simp [constructed, away]

theorem referenceOrInvocation_gives (level : r.levels = levels) {ks : List Kind}
    (kinds : r.kindsAhead = .identifier :: ks) :
    Gives (referenceOrInvocation rules r.diagnostics.length) r r (Grammar.nameOrCall reads ks) := by
  obtain ⟨r₁, run, quiet, name⟩ := reference_matched kinds
  have ahead := name.kindsAhead
  unfold Grammar.nameOrCall
  split
  case h_1 rest call =>
    rw [call] at name ahead
    obtain ⟨node, r₂, more, writes⟩ := arguments_give good level name rfl
    refine ⟨node, r₂, ?_, writes⟩
    rw [← more]
    simp [referenceOrInvocation, run, Outcome.node?, isAt_of_cons ahead]
    rfl
  case h_2 other =>
    have away : r₁.isAt .openParen = false := by
      rw [Bool.eq_false_iff, Ne, isAt_iff (by decide), not_exists, ahead]
      exact other
    refine ⟨⟨_, rfl⟩, r₁, ?_, name⟩
    rw [judge_of_quiet quiet]
    simp [referenceOrInvocation, run, Outcome.node?, away]
    rfl

/-- A call is tried, and taken back where no parenthesis follows the name. -/
theorem invocation_follows (level : r.levels = levels) :
    Follows (invocation rules) r (Grammar.callRule reads r.kindsAhead) := by
  unfold Grammar.callRule
  split
  case h_1 ks kinds =>
    have here := isAt_of_cons kinds .identifier
    obtain ⟨r₁, run, quiet, name⟩ := reference_matched kinds
    have ahead := name.kindsAhead
    split
    case h_1 rest call =>
      rw [call] at name ahead
      apply (arguments_give good level name rfl).follows
      simp [invocation, here, mark, run, Outcome.node?, isAt_of_cons ahead]
      rfl
    case h_2 other =>
      have away : r₁.isAt .openParen = false := by
        rw [Bool.eq_false_iff, Ne, isAt_iff (by decide), not_exists, ahead]
        exact other
      simp [Follows, invocation, here, mark, run, Outcome.node?, away, run_rewind name quiet]
  case h_2 other =>
    have away : r.isAt .identifier = false := by
      rw [Bool.eq_false_iff, Ne, isAt_iff (by decide), not_exists]
      exact other
    simp [Follows, invocation, away]

theorem valueInside_follows (level : r.levels = levels) :
    Follows (valueInside rules r.diagnostics.length) r (Grammar.value reads r.kindsAhead) := by
  cases kinds : r.kindsAhead with
  | nil =>
      have literal := literal_follows r
      rw [kinds] at literal
      exact literal.congr (by simp [valueInside, kind_of_nil kinds])
  | cons k ks =>
      have here := kind_of_cons kinds
      cases k
      case openBrace =>
        have object := object_follows good level
        rw [kinds] at object
        exact object.congr (by simp [valueInside, here])
      case dot =>
        have name := contextualReference_follows r
        rw [kinds, Grammar.contextualReferenceRule_dot reads] at name
        exact name.congr (by simp [valueInside, here])
      case identifier =>
        obtain ⟨node, r₁, run, writes⟩ := referenceOrInvocation_gives good level kinds
        rw [Grammar.value_name]
        exact (constructed_gives good level writes (Grammar.wraps_nameOrCall reads ks)).follows
          (by simp [valueInside, here, run])
      case singleQuoted | doubleQuoted =>
        have literal := literal_follows r
        rw [kinds] at literal
        obtain ⟨node, r₁, run, writes⟩ := literal
        exact (constructed_gives good level writes rfl).follows (by simp [valueInside, here, run])
      all_goals
        have literal := literal_follows r
        rw [kinds] at literal
        exact literal.congr (by simp [valueInside, here])

end

def deeper (r : Reader) : Reader := { r with depth := r.depth + 1 }

theorem run_enter {levels : Nat} (level : r.levels = levels + 1) :
    enter.run r = some (true, r.deeper) ∧ r.deeper.levels = levels := by
  unfold Reader.levels at level
  have allowed : ¬r.maxDepth ≤ r.depth := by omega
  refine ⟨by simp [enter, allowed, deeper], ?_⟩
  simp only [Reader.levels, deeper]
  omega

theorem run_enter_not (level : r.levels = 0) : enter.run r = some (false, r) := by
  unfold Reader.levels at level
  have forbidden : r.maxDepth ≤ r.depth := by omega
  simp [enter, forbidden]

/-- What is read a level deeper is read here, if the level is left again. -/
theorem Follows.deeper {inside rule : Action Outcome} {read? : Option Grammar.Read}
    (follows : Follows inside r.deeper read?)
    (run : rule.run r = (do
      let outcome ← inside
      leave
      return outcome : Action Outcome).run r.deeper) : Follows rule r read? := by
  rw [StateT.run_bind] at run
  cases read? with
  | none =>
      rw [Follows] at follows ⊢
      rw [run, follows]
      rfl
  | some read =>
      obtain ⟨node, r₁, inner, writes⟩ := follows
      refine ⟨node, r.write none [read.1], ?_, rfl, writes.split, writes.opener⟩
      rw [run, inner, writes.same]
      rfl

section

variable {rules : Construct → Action Outcome} {reads : Construct → Grammar.Rule} {levels : Nat}

theorem value_follows (good : RulesFollow rules reads levels) (level : r.levels = levels + 1) :
    Follows (value rules) r
      (if Kind.valueFirst.contains r.kind then Grammar.value reads r.kindsAhead else none) := by
  obtain ⟨entered, left⟩ := run_enter level
  split
  case isTrue first =>
    have here : r.isAtAny Kind.valueFirst = true := first
    exact (valueInside_follows (r := r.deeper) good left).deeper (by simp [value, here, entered])
  case isFalse away =>
    have away : r.isAtAny Kind.valueFirst = false := Bool.eq_false_iff.mpr away
    simp [Follows, value, away]

end

end Reader
end ConfigSyntax
