import ConfigSyntax.Proofs.Reader.Words

/-! Groups are read as in the grammar, if their constructs are. Main statement: `body_writes`. -/

namespace ConfigSyntax.Reader

open Outline (kindsOfAll)

variable {r r' : Reader}

structure RulesFollow (rules : Construct → Action Outcome) (reads : Construct → Grammar.Rule)
    (levels : Nat) : Prop where
  follows : ∀ (c : Construct) (r : Reader), r.levels = levels →
    Follows (rules c) r (reads c r.kindsAhead)
  advances : ∀ c, (reads c).Advances

section

variable {rules : Construct → Action Outcome} {reads : Construct → Grammar.Rule} {levels : Nat}

/-- Where no construct is read, the reader is where it was and recovers from there. -/
theorem item_writes (good : RulesFollow rules reads levels) (level : r.levels = levels)
    (construct : Construct) (c : Context) {k : Kind} {ks : List Kind}
    (kinds : r.kindsAhead = k :: ks) (op : Option Token) :
    ∃ r', Writes op r ([((reads construct (k :: ks)).getD (Grammar.recover c (k :: ks))).1],
        ((reads construct (k :: ks)).getD (Grammar.recover c (k :: ks))).2) op r' ∧
      ((rules construct).run r = some (.notMatched, r) ∧ (recover c).run r = some ((), r') ∨
        ∃ outcome, (rules construct).run r = some (outcome, r') ∧ outcome ≠ .notMatched ∧
          r'.pos ≠ r.pos) := by
  have follows := good.follows construct r level
  rw [kinds] at follows
  cases read : reads construct (k :: ks) with
  | none =>
      rw [read] at follows
      obtain ⟨r₁, skipped, writes⟩ := recover_writes c kinds
      exact ⟨r₁, writes.of_node rfl op, .inl ⟨follows, skipped⟩⟩
  | some read =>
      rw [read] at follows
      obtain ⟨⟨kind, node⟩, r₁, run, writes⟩ := follows
      have moved := writes.pos_lt (good.advances construct _ _ (kinds ▸ read))
      exact ⟨r₁, writes.of_node node op, .inr ⟨_, run, judge_ne _ _ _, moved.ne'⟩⟩

theorem elementItem_writes (good : RulesFollow rules reads levels) (level : r.levels = levels)
    (c : Context) {k : Kind} {ks : List Kind} (kinds : r.kindsAhead = k :: ks)
    (op : Option Token) : ∃ r', (elementItem rules c).run r = some ((), r') ∧
      Writes op r (((reads .element (k :: ks)).getD (Grammar.recover c (k :: ks))).1 ::
        (Grammar.comma? ((reads .element (k :: ks)).getD (Grammar.recover c (k :: ks))).2).1,
        (Grammar.comma? ((reads .element (k :: ks)).getD (Grammar.recover c (k :: ks))).2).2)
        op r' := by
  obtain ⟨r₁, writes, cases⟩ := item_writes good level .element c kinds op
  obtain ⟨b, r₂, eaten, comma⟩ := comma_writes op r₁
  rw [writes.kindsAhead] at comma
  refine ⟨r₂, ?_, writes.append comma⟩
  rcases cases with ⟨away, skipped⟩ | ⟨outcome, run, -, moved⟩
  · simp [elementItem, away, skipped, eaten]
  · simp [elementItem, run, moved, eaten]

theorem argumentItem_writes (good : RulesFollow rules reads levels) (level : r.levels = levels)
    {k : Kind} {ks : List Kind} (kinds : r.kindsAhead = k :: ks) (op : Option Token) :
    ∃ r', (argumentItem rules).run r = some ((), r') ∧
      Writes op r (((reads .value (k :: ks)).getD (Grammar.recover .argumentList (k :: ks))).1 ::
        (Grammar.comma? ((reads .value (k :: ks)).getD (Grammar.recover .argumentList (k :: ks))).2).1,
        (Grammar.comma? ((reads .value (k :: ks)).getD (Grammar.recover .argumentList (k :: ks))).2).2)
        op r' := by
  obtain ⟨r₁, writes, cases⟩ := item_writes good level .value .argumentList kinds op
  obtain ⟨b, r₂, eaten, comma⟩ := comma_writes op r₁
  rw [writes.kindsAhead] at comma
  refine ⟨r₂, ?_, writes.append comma⟩
  rcases cases with ⟨away, skipped⟩ | ⟨outcome, run, matched, -⟩
  · simp [argumentItem, away, skipped, eaten]
  · simp [argumentItem, run, matched, eaten]

theorem itemRound_follows {g : Group} {goesOn : Reader → Bool} {once : Action Unit}
    (op : Option Token)
    (ends : ∀ r : Reader, goesOn r = (!r.isAtAny g.ends && !r.isAtEnd))
    (item : ∀ (r : Reader) (k : Kind) (ks : List Kind), r.levels = levels → r.kindsAhead = k :: ks →
      ∃ r', once.run r = some ((), r') ∧
        Writes op r (((reads g.holds (k :: ks)).getD (Grammar.recover g.context (k :: ks))).1 ::
          (Grammar.comma?
            ((reads g.holds (k :: ks)).getD (Grammar.recover g.context (k :: ks))).2).1,
          (Grammar.comma?
            ((reads g.holds (k :: ks)).getD (Grammar.recover g.context (k :: ks))).2).2) op r') :
    RoundFollows (whileDo goesOn once) op levels (Grammar.groupItem g (reads g.holds)) := by
  intro r count level
  cases kinds : r.kindsAhead with
  | nil =>
      have ended : goesOn r = false := by simp [ends, isAtEnd_iff.mpr kinds]
      exact ⟨count, run_while_end ended count⟩
  | cons k ks =>
      have more : goesOn r = !g.ends.contains k := by
        rw [ends, isAtEnd_of_cons kinds, isAtAny_of_cons kinds, Bool.not_false, Bool.and_true]
      rw [Grammar.groupItem]
      cases stops : g.ends.contains k with
      | true =>
          rw [stops] at more
          exact ⟨count, run_while_end more count⟩
      | false =>
          rw [stops] at more
          obtain ⟨r', run, writes⟩ := item r k ks level kinds
          exact ⟨count, r', run_while more run count, writes⟩

theorem close_writes (g : Group) (opener : Token) (r : Reader) : ∃ op' r',
    (close g opener).run r = some ((), r') ∧
      Writes (some opener) r (Grammar.closing g r.kindsAhead) op' r' := by
  by_cases closes : ∃ ks, r.kindsAhead = g.closer :: ks
  · obtain ⟨ks, kinds⟩ := closes
    refine ⟨if g.closer.isOpener then some r.here else some opener, r.next,
      by simp [close, run_eat kinds], ?_⟩
    rw [kinds, Grammar.closing, if_pos rfl]
    exact Writes.token _ kinds
  · have inner : g.closer ≠ .eof := by cases g <;> decide
    rw [not_exists] at closes
    refine ⟨some opener, r.say ⟨.gap (.closer g) (some opener), r.here⟩,
      by simp [close, run_eat_other inner closes], ?_⟩
    have missing : Grammar.closing g r.kindsAhead = ([.gap (.closer g)], r.kindsAhead) := by
      cases kinds : r.kindsAhead with
      | nil => rfl
      | cons k ks =>
          have other : k ≠ g.closer := fun same => closes ks (by rw [kinds, same])
          rw [Grammar.closing, if_neg other]
    rw [missing]
    exact .gap _ _ r

theorem group_writes {g : Group} {round : Round} (good : RulesFollow rules reads levels)
    (follows : ∀ op, RoundFollows round op levels (Grammar.groupItem g (reads g.holds)))
    (level : r.levels = levels) {ks : List Kind} (kinds : r.kindsAhead = g.opener :: ks) :
    ∃ count r₁ r₂ op, (loop round 0).run r.next = some (count, r₁) ∧
      (close g r.here).run r₁ = some ((), r₂) ∧
        Writes none r (Grammar.group g reads ks) op r₂ := by
  have opener : g.opener.isOpener = true := by cases g <;> rfl
  have first := Writes.token none kinds
  rw [if_pos opener] at first
  obtain ⟨count, r₁, items, inside⟩ := loop_writes (follows (some r.here))
    (Grammar.groupItem_advances g (good.advances g.holds)) 0 r.next (first.levels.trans level)
  rw [first.kindsAhead] at inside
  obtain ⟨op, r₂, closed, last⟩ := close_writes g r.here r₁
  rw [inside.kindsAhead] at last
  exact ⟨count, r₁, r₂, op, items, closed, (first.append inside).append last⟩

theorem elementRound_follows (good : RulesFollow rules reads levels) {g : Group}
    (holds : g.holds = .element) (op : Option Token) :
    RoundFollows (elementRound rules g.context) op levels
      (Grammar.groupItem g (reads g.holds)) := by
  apply itemRound_follows op
  · intro r
    cases g with
    | arguments => cases holds
    | object | contextBlock => simp [isAtAny, isAt, Group.ends]
  · intro r k ks level kinds
    rw [holds]
    exact elementItem_writes good level g.context kinds op

theorem argumentRound_follows (good : RulesFollow rules reads levels) (op : Option Token) :
    RoundFollows (argumentRound rules) op levels
      (Grammar.groupItem .arguments (reads Group.arguments.holds)) :=
  itemRound_follows op (fun _ => rfl) fun _ _ _ level kinds =>
    argumentItem_writes good level kinds op

theorem body_writes (good : RulesFollow rules reads levels) {g : Group}
    (holds : g.holds = .element) (level : r.levels = levels) {ks : List Kind}
    (kinds : r.kindsAhead = g.opener :: ks) :
    ∃ r' op, (body rules g).run r = some ((), r') ∧
      Writes none r (Grammar.group g reads ks) op r' := by
  obtain ⟨count, r₁, r₂, op, items, closed, writes⟩ :=
    group_writes good (elementRound_follows good holds) level kinds
  exact ⟨r₂, op, by simp [body, items, closed], writes⟩

end

end ConfigSyntax.Reader
