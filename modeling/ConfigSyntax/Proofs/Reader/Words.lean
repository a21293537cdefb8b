import ConfigSyntax.Proofs.Reader.Skips

/-! The rules for names, literals and errors read what the grammar does. Main statements:
`reference_follows`, `literal_follows`, `contextNames_writes`. -/

namespace ConfigSyntax

namespace Grammar

def literalRule : Rule
  | [] => none
  | k :: ks => (literal? k).map fun name => (name, ks)

def referenceRule : Rule
  | .identifier :: ks => some (reference ks)
  | _ => none

def contextualReferenceRule : Rule
  | .dot :: .identifier :: ks =>
    some (.node .contextualPropertyReference [.token .dot, (reference ks).1], (reference ks).2)
  | _ => none

def nameRule : Rule
  | .identifier :: ks => some (reference ks)
  | ks => literalRule ks

def contextNameRule : Rule
  | [] => none
  | k :: ks =>
    if Kind.contextMarkers.contains k then
      match ks with
      | .identifier :: ks => some (.node .contextName [.token k, .token .identifier], ks)
      | ks => some (.node .contextName [.token k, .gap .contextName], ks)
    else none

end Grammar

namespace Reader

open Outline (kindsOfAll entriesOfAll)

variable {r r' : Reader}

theorem isAt_of_cons {k : Kind} {ks : List Kind} (kinds : r.kindsAhead = k :: ks) (k' : Kind) :
    r.isAt k' = decide (k = k') := by
  rw [isAt, kind_of_cons kinds]

theorem isAtAny_of_cons {k : Kind} {ks : List Kind} (kinds : r.kindsAhead = k :: ks)
    (ks' : List Kind) : r.isAtAny ks' = ks'.contains k := by
  rw [isAtAny, kind_of_cons kinds]

theorem kind_of_nil (kinds : r.kindsAhead = []) : r.kind = .eof := by
  rw [kind_eq, kinds]
  rfl

theorem isAt_iff {k : Kind} (inner : k ≠ .eof) :
    r.isAt k = true ↔ ∃ ks, r.kindsAhead = k :: ks := by
  rw [isAt, kind_eq, decide_eq_true_eq]
  cases r.kindsAhead with
  | nil => simp [Ne.symm inner]
  | cons k' ks => simp

theorem run_eat {k : Kind} {ks : List Kind} (kinds : r.kindsAhead = k :: ks) :
    (eat k).run r = some (true, r.next) := by
  simp [eat, isAt_of_cons kinds]

theorem run_eat_other {k : Kind} (inner : k ≠ .eof) (other : ∀ ks, r.kindsAhead ≠ k :: ks) :
    (eat k).run r = some (false, r) := by
  have away : r.isAt k = false := by
    rw [Bool.eq_false_iff, Ne, isAt_iff inner, not_exists]
    exact other
  simp [eat, away]

theorem comma_writes (op : Option Token) (r : Reader) : ∃ b r', (eat .comma).run r = some (b, r') ∧
    Writes op r (Grammar.comma? r.kindsAhead) op r' := by
  unfold Grammar.comma?
  split
  case h_1 ks kinds => exact ⟨true, r.next, run_eat kinds, Writes.token op kinds⟩
  case h_2 other => exact ⟨false, r, run_eat_other (by decide) other, Writes.nil op r⟩

def said (r : Reader) : List Diagnostic × List String := (r.diagnostics, r.log)

/-- A node is flawed where more is wrong than before. -/
def Outcome.judge (before : Nat) (r : Reader) (node : Finished) : Outcome :=
  if before < r.diagnostics.length then .flawed node else .matched node

@[simp] theorem node?_judge (before : Nat) (r : Reader) (node : Finished) :
    (Outcome.judge before r node).node? = some node := by
  rw [Outcome.judge]
  split <;> rfl

theorem judge_ne (before : Nat) (r : Reader) (node : Finished) :
    Outcome.judge before r node ≠ .notMatched := by
  rw [Outcome.judge]
  split <;> nofun

theorem run_conclude {node : Opened} {done : Finished} {k : Kind}
    (closed : (complete node k).run r = some (done, r')) (before : Nat) :
    (conclude node k before).run r = some (Outcome.judge before r' done, r') := by
  simp only [conclude, StateT.run_bind, closed, Outcome.judge]
  by_cases more : before < r'.diagnostics.length <;> simp [more]

/-- From `r'` on, the rule completes the node that was begun at `r`. -/
def Gives (rule : Action Outcome) (r r' : Reader) (read : Grammar.Read) : Prop :=
  (∃ k, read.1.kind? = some k) ∧ ∃ r'', rule.run r' =
    some (Outcome.judge r.diagnostics.length r'' ⟨r.entries.length + read.1.head⟩, r'') ∧
      Writes none r ([read.1], read.2) none r''

def Follows (rule : Action Outcome) (r : Reader) : Option Grammar.Read → Prop
  | none => rule.run r = some (.notMatched, r)
  | some read => Gives rule r r read

theorem Gives.follows {rule rule' : Action Outcome} {read : Grammar.Read}
    (gives : Gives rule' r r' read) (same : rule.run r = rule'.run r') :
    Follows rule r (some read) := by
  obtain ⟨node, r'', run, writes⟩ := gives
  exact ⟨node, r'', same.trans run, writes⟩

theorem Follows.congr {rule rule' : Action Outcome} {read? : Option Grammar.Read}
    (same : rule.run r = rule'.run r) (follows : Follows rule' r read?) :
    Follows rule r read? := by
  cases read? with
  | none => exact same.trans follows
  | some read => exact Gives.follows follows same

theorem follows_node {rule : Action Outcome} {k : Kind} {parts : List Outline} {rest : List Kind}
    {op : Option Token} {r'' : Reader}
    (inside : Writes none r.opened (parts, rest) op r'')
    (plain : ∀ p ∈ parts.head?, Outline.wraps k p = false)
    (run : ∀ s, (complete ⟨r.entries.length⟩ k).run r'' = some (⟨r.entries.length⟩, s) →
      s.said = r''.said →
        rule.run r = some (Outcome.judge r.diagnostics.length s ⟨r.entries.length⟩, s)) :
    Follows rule r (some (.node k parts, rest)) := by
  obtain ⟨es, closed, writes⟩ := inside.complete plain
  refine ⟨⟨k, rfl⟩, _, ?_, writes⟩
  rw [Outline.head_plain plain, Nat.add_zero]
  exact run _ closed rfl

theorem literal_follows (r : Reader) : Follows literal r (Grammar.literalRule r.kindsAhead) := by
  cases kinds : r.kindsAhead with
  | nil =>
      have none : Grammar.literalKind? r.kind = none := by rw [kind_of_nil kinds]; rfl
      simp [Grammar.literalRule, Follows, literal, none]
  | cons k ks =>
      have here := kind_of_cons kinds
      cases known : Grammar.literalKind? k with
      | none => simp [Grammar.literalRule, Grammar.literal?, Follows, literal, here, known]
      | some kind =>
          simp only [Grammar.literalRule, Grammar.literal?, known, Option.map_some]
          apply follows_node (Writes.token none (r := r.opened) kinds) (by simp [Outline.wraps])
          intro s closed _
          simp [literal, here, known, run_start, run_conclude closed]

theorem dotted_iff : (r.isAt .dot && decide (r.nth 1 = .identifier)) = true ↔
    ∃ ks, r.kindsAhead = .dot :: .identifier :: ks := by
  rw [Bool.and_eq_true, isAt_iff (by decide), decide_eq_true_eq]
  constructor
  · rintro ⟨⟨ks, kinds⟩, second⟩
    rw [nth_one kinds] at second
    cases ks with
    | nil => cases second
    | cons k ks =>
        rw [List.headD_cons] at second
        exact ⟨ks, by rw [kinds, second]⟩
  · rintro ⟨ks, kinds⟩
    exact ⟨⟨_, kinds⟩, by rw [nth_one kinds]; rfl⟩

theorem next_said {k : Kind} {ks : List Kind} (kinds : r.kindsAhead = k :: ks)
    (word : k = .identifier ∨ k = .dot) : r.next.said = r.said := by
  obtain ⟨t, ts, -, rfl, here⟩ := Writes.ahead_cons kinds
  have sound : t.fault? = none := by
    rcases word with word | word <;> simp [Token.fault?, word]
  have inner : t.kind ≠ .eof := by
    rcases word with word | word <;> simp [word]
  simp [said, next, here, inner, sound]

theorem segmentRounds_write (op : Option Token) (n count : Nat) (r : Reader)
    (enough : r.kindsAhead.length < n) : ∃ count' r',
      (rounds segmentRound n count).run r = some (count', r') ∧
        Writes op r (Grammar.segments r.kindsAhead) op r' ∧ r'.said = r.said := by
  induction n generalizing r count with
  | zero => exact absurd enough (Nat.not_lt_zero _)
  | succ n ih =>
      by_cases more : ∃ ks, r.kindsAhead = .dot :: .identifier :: ks
      · obtain ⟨ks, kinds⟩ := more
        have dot := Writes.token op kinds
        have name := Writes.token op dot.kindsAhead
        have left : r.next.next.kindsAhead = ks := name.kindsAhead
        have shorter : r.next.next.kindsAhead.length < n := by
          rw [kinds] at enough
          rw [left]
          simp only [List.length_cons] at enough
          omega
        obtain ⟨count', r', run, rest, quiet⟩ := ih count r.next.next shorter
        rw [left] at rest
        refine ⟨count', r', ?_, ?_, ?_⟩
        · exact (rounds_while (dotted_iff.mpr ⟨ks, kinds⟩) (by simp) n count).trans run
        · rw [kinds, Grammar.segments]
          exact (dot.append name).append rest
        · rw [quiet, next_said dot.kindsAhead (Or.inl rfl),
            next_said kinds (Or.inr rfl)]
      · have ended : (r.isAt .dot && decide (r.nth 1 = .identifier)) = false := by
          rwa [Bool.eq_false_iff, Ne, dotted_iff]
        have stuck : Grammar.segments r.kindsAhead = ([], r.kindsAhead) := by
          unfold Grammar.segments
          split
          case h_1 ks kinds => exact absurd ⟨ks, kinds⟩ more
          case h_2 => rfl
        refine ⟨count, r, rounds_while_end ended n count, ?_, rfl⟩
        rw [stuck]
        exact .nil op r

theorem reference_matched {ks : List Kind} (kinds : r.kindsAhead = .identifier :: ks) :
    ∃ r', reference.run r = some (.matched ⟨r.entries.length⟩, r') ∧
      r'.said = r.said ∧
      Writes none r ([(Grammar.reference ks).1], (Grammar.reference ks).2) none r' := by
  have name := Writes.token none (r := r.opened) kinds
  have left := name.kindsAhead
  obtain ⟨count, r₁, run, rest, quiet⟩ := segmentRounds_write none _ 0 r.opened.next
    (Nat.lt_succ_of_le (length_kindsAhead_le _))
  rw [left] at rest
  obtain ⟨es, closed, writes⟩ :=
    (name.append rest).complete (k := .referenceExpression) (by simp [Outline.wraps])
  refine ⟨_, ?_, ?_, writes⟩
  · simp [reference, loop, isAt_of_cons kinds, run_start, run, closed]
  · exact quiet.trans (next_said (r := r.opened) kinds (Or.inl rfl))

theorem judge_of_quiet (quiet : r'.said = r.said) (node : Finished) :
    Outcome.judge r.diagnostics.length r' node = .matched node := by
  rw [Outcome.judge, show r'.diagnostics = r.diagnostics from congrArg Prod.fst quiet,
    if_neg (lt_irrefl _)]

theorem reference_follows (r : Reader) :
    Follows reference r (Grammar.referenceRule r.kindsAhead) := by
  unfold Grammar.referenceRule
  split
  case h_1 ks kinds =>
    obtain ⟨r', run, quiet, writes⟩ := reference_matched kinds
    refine ⟨⟨_, rfl⟩, r', ?_, writes⟩
    rw [run, judge_of_quiet quiet]
    rfl
  case h_2 other =>
    have away : r.isAt .identifier = false := by
      rw [Bool.eq_false_iff, Ne, isAt_iff (by decide), not_exists]
      exact other
    simp [Follows, reference, away]

theorem contextualReference_follows (r : Reader) :
    Follows contextualReference r (Grammar.contextualReferenceRule r.kindsAhead) := by
  unfold Grammar.contextualReferenceRule
  split
  case h_1 ks kinds =>
    have dot := Writes.token none (r := r.opened) kinds
    obtain ⟨r₁, run, quiet, name⟩ := reference_matched dot.kindsAhead
    apply follows_node (dot.append name) (by simp [Outline.wraps])
    intro s closed same
    have silent : s.said = r.said := by
      rw [same, quiet, next_said (r := r.opened) kinds (Or.inr rfl)]
      rfl
    rw [judge_of_quiet silent]
    simp [contextualReference, isAt_of_cons kinds, nth_one kinds, run_start, run, closed]
  case h_2 other =>
    have away : (r.isAt .dot && decide (r.nth 1 = .identifier)) = false := by
      rw [Bool.eq_false_iff, Ne, dotted_iff, not_exists]
      exact other
    simp only [Follows, contextualReference, StateT.run_bind, StateT.run_get, Option.pure_def,
      Option.bind_eq_bind, Option.bind_some, away]
    rfl

theorem propertyName_follows (r : Reader) :
    Follows propertyName r (Grammar.nameRule r.kindsAhead) := by
  unfold Grammar.nameRule
  split
  case h_1 ks kinds =>
    have name := reference_follows r
    rw [kinds] at name
    exact name.congr (by simp [propertyName, isAt_of_cons kinds])
  case h_2 other =>
    have away : r.isAt .identifier = false := by
      rw [Bool.eq_false_iff, Ne, isAt_iff (by decide), not_exists]
      exact other
    exact (literal_follows r).congr (by simp [propertyName, away])

theorem contextName_follows (r : Reader) :
    Follows contextName r (Grammar.contextNameRule r.kindsAhead) := by
  cases kinds : r.kindsAhead with
  | nil =>
      have away : r.isAtAny Kind.contextMarkers = false := by
        rw [isAtAny, kind_of_nil kinds]
        rfl
      simp [Grammar.contextNameRule, Follows, contextName, away]
  | cons k ks =>
      have here := isAtAny_of_cons kinds Kind.contextMarkers
      unfold Grammar.contextNameRule
      simp only
      split
      case isFalse away =>
        rw [Bool.eq_false_iff.mpr away] at here
        simp [Follows, contextName, here]
      case isTrue marker =>
        rw [marker] at here
        have first := Writes.token none (r := r.opened) kinds
        have plain : k.isOpener = false := by
          revert marker
          cases k <;> decide
        rw [plain, if_neg Bool.false_ne_true] at first
        split
        case h_1 ks =>
          have name := Writes.token none first.kindsAhead
          apply follows_node (first.append name) (by simp [Outline.wraps])
          intro s closed _
          simp [contextName, here, run_start, run_eat first.kindsAhead, run_conclude closed]
        case h_2 ks other =>
          have gap := Writes.gap .contextName none r.opened.next
          rw [first.kindsAhead] at gap
          apply follows_node (first.append gap) (by simp [Outline.wraps])
          intro s closed _
          have away : ∀ ks, r.opened.next.kindsAhead ≠ .identifier :: ks := by
            rw [first.kindsAhead]
            exact other
          simp [contextName, here, run_start, run_eat_other (by decide) away, run_conclude closed]

def RoundFollows (round : Round) (op : Option Token) (levels : Nat)
    (step : List Kind → Option (List Outline × List Kind)) : Prop :=
  ∀ (r : Reader) (count : Nat), r.levels = levels →
    match step r.kindsAhead with
    | none => ∃ count', (round count).run r = some ((count', false), r)
    | some out => ∃ count' r', (round count).run r = some ((count', true), r') ∧
        Writes op r out op r'

section

variable {round : Round} {op : Option Token} {levels : Nat}
  {step : List Kind → Option (List Outline × List Kind)}
  (follows : RoundFollows round op levels step)
  (advances : ∀ ks out, step ks = some out → out.2.length < ks.length)

include follows advances

theorem rounds_write (n count : Nat) (r : Reader) (level : r.levels = levels)
    (enough : r.kindsAhead.length < n) : ∃ count' r',
      (rounds round n count).run r = some (count', r') ∧
        Writes op r (Grammar.repeated step r.kindsAhead) op r' := by
  induction n generalizing r count with
  | zero => exact absurd enough (Nat.not_lt_zero _)
  | succ n ih =>
      have here := follows r count level
      cases read : step r.kindsAhead with
      | none =>
          rw [read] at here
          obtain ⟨count', run⟩ := here
          refine ⟨count', r, by simp [rounds, run], ?_⟩
          rw [Grammar.repeated_of_none read]
          exact .nil op r
      | some out =>
          rw [read] at here
          obtain ⟨count₁, r₁, run, first⟩ := here
          have shorter : r₁.kindsAhead.length < n := by
            have := advances _ out read
            rw [first.kindsAhead]
            omega
          obtain ⟨count', r', further, rest⟩ :=
            ih count₁ r₁ (first.levels.trans level) shorter
          refine ⟨count', r', by simp [rounds, run, further], ?_⟩
          rw [Grammar.repeated_of_some advances read, ← first.kindsAhead]
          exact first.append rest

/-- A loop goes on for as long as a step can be repeated. -/
theorem loop_writes (count : Nat) (r : Reader) (level : r.levels = levels) : ∃ count' r',
    (loop round count).run r = some (count', r') ∧
      Writes op r (Grammar.repeated step r.kindsAhead) op r' := by
  obtain ⟨count', r', run, writes⟩ := rounds_write follows advances _ count r level
    (Nat.lt_succ_of_le (length_kindsAhead_le r))
  exact ⟨count', r', by simp [loop, run], writes⟩

end

theorem contextName_eq (ks : List Kind) : Grammar.contextName ks =
    (Grammar.contextNameRule ks).map fun name =>
      (name.1 :: (Grammar.comma? name.2).1, (Grammar.comma? name.2).2) := by
  cases ks with
  | nil => rfl
  | cons k ks =>
      unfold Grammar.contextName Grammar.contextNameRule
      by_cases marker : Kind.contextMarkers.contains k = true
      · simp only [marker, if_true]
        cases ks with
        | nil => rfl
        | cons k' ks => cases k' <;> rfl
      · simp only [marker, Bool.false_eq_true, if_false]
        rfl

theorem nameRound_follows (op : Option Token) (levels : Nat) :
    RoundFollows nameRound op levels Grammar.contextName := by
  intro r count _
  have name := contextName_follows r
  rw [contextName_eq]
  cases read : Grammar.contextNameRule r.kindsAhead with
  | none =>
      rw [read] at name
      exact ⟨count, by simp [nameRound, show contextName.run r = _ from name]⟩
  | some read =>
      rw [read] at name
      obtain ⟨⟨k, node⟩, r₁, run, writes⟩ := name
      obtain ⟨b, r₂, eaten, comma⟩ := comma_writes op r₁
      rw [writes.kindsAhead] at comma
      refine ⟨count + 1, r₂, ?_, (writes.of_node node op).append comma⟩
      simp [nameRound, run, judge_ne, eaten]

theorem contextNames_writes (op : Option Token) (r : Reader) : ∃ count r',
    contextNames.run r = some (count, r') ∧
      Writes op r (Grammar.repeated Grammar.contextName r.kindsAhead) op r' :=
  loop_writes (nameRound_follows op r.levels) Grammar.contextName_advances 0 r rfl

theorem tooDeep_follows {k : Kind} {ks : List Kind} (kinds : r.kindsAhead = k :: ks) :
    Follows tooDeep r (some (Grammar.tooDeep (k :: ks))) := by
  obtain ⟨count, r₁, run, takes⟩ := constructRounds_take _ 0
    (r.say ⟨.skipped .tooDeep, r.here⟩).opened (Nat.lt_succ_of_le (length_kindsAhead_le _))
  obtain ⟨s, closed, writes⟩ := takes.complete
  change Writes none r ([(Grammar.tooDeep r.kindsAhead).1], (Grammar.tooDeep r.kindsAhead).2)
    none s at writes
  rw [kinds] at writes
  refine ⟨⟨.error, rfl⟩, s, ?_, writes⟩
  simp [tooDeep, loop, run_start_behind, run, run_conclude closed]
  rfl

end Reader
end ConfigSyntax
