import ConfigSyntax.Proofs.Reader.Files

/-! Each round of a loop takes a token, so every loop comes to its end, and a file is read up to the
end of the tokens. Main statements: `Loop.progresses`, `Progresses.ends`, `file_consumes`. -/

namespace ConfigSyntax.Reader

open Outline (kindsOfAll)

variable {r r' : Reader}

structure Moves (r r' : Reader) : Prop where
  tokens : r'.tokens = r.tokens
  forward : r.pos < r'.pos
  within : r'.pos ≤ r.pos + r.ahead.length

/-- Each round takes a token, or is the last and does nothing. -/
def Progresses (round : Round) : Prop :=
  ∀ (r : Reader) (count : Nat), (∃ count', (round count).run r = some ((count', false), r)) ∨
    ∃ count' more r', (round count).run r = some ((count', more), r') ∧ Moves r r'

/-- With a token taken in each round there are enough rounds. -/
theorem Progresses.ends {round : Round} (progress : Progresses round) (count : Nat) (r : Reader) :
    ∃ count' r', (loop round count).run r = some (count', r') := by
  have rounds_end (n count : Nat) (r : Reader) (enough : r.significant.length - r.pos < n) :
      ∃ count' r', (rounds round n count).run r = some (count', r') := by
    induction n generalizing r count with
    | zero => exact absurd enough (Nat.not_lt_zero _)
    | succ n ih =>
        rcases progress r count with ⟨count₁, run⟩ | ⟨count₁, more, r₁, run, moves⟩
        · exact ⟨count₁, r, by simp [rounds, run]⟩
        cases more with
        | false => exact ⟨count₁, r₁, by simp [rounds, run]⟩
        | true =>
            have same : r₁.significant.length = r.significant.length := by
              rw [significant, moves.tokens, significant]
            have bound := length_kindsAhead_le r
            rw [kindsAhead, List.length_map] at bound
            have forward := moves.forward
            have within := moves.within
            obtain ⟨count', r', further⟩ := ih count₁ r₁ (by omega)
            exact ⟨count', r', by simp [rounds, run, further]⟩
  obtain ⟨count', r', run⟩ := rounds_end _ count r (Nat.lt_succ_self _)
  exact ⟨count', r', by simp [loop, run]⟩

theorem Writes.moves {op op' : Option Token} {out : List Outline × List Kind}
    (writes : Writes op r out op' r') (shorter : out.2.length < r.kindsAhead.length) :
    Moves r r' where
  tokens := by rw [writes.same]; rfl
  forward := writes.pos_lt shorter
  within := by rw [writes.pos]; exact Nat.add_le_add_left writes.short _

theorem Takes.moves {n : Nat} (takes : Takes r n r') (positive : 0 < n) : Moves r r' := by
  obtain ⟨op, writes⟩ := takes.writes none
  have short := takes.short
  exact writes.moves (by rw [List.length_drop]; omega)

inductive Loop where
  | file
  | object
  | contextBlock
  | arguments
  | contextNames
  | segments
  | skipUntil (stop : List Kind)
  | skipGroup
  | skipConstruct

def Loop.round : Loop → Round
  | file => fileRound
  | object => elementRound construct .objectBody
  | contextBlock => elementRound construct .contextBlockBody
  | arguments => argumentRound construct
  | contextNames => nameRound
  | segments => segmentRound
  | skipUntil stop => skipRound stop
  | skipGroup => groupRound
  | skipConstruct => constructRound

theorem progresses_of_follows {round : Round}
    {step : Nat → List Kind → Option (List Outline × List Kind)}
    (follows : ∀ levels, RoundFollows round none levels (step levels))
    (advances : ∀ levels ks out, step levels ks = some out → out.2.length < ks.length) :
    Progresses round := by
  intro r count
  have here := follows r.levels r count rfl
  cases read : step r.levels r.kindsAhead with
  | none =>
      rw [read] at here
      exact .inl here
  | some out =>
      rw [read] at here
      obtain ⟨count', r', run, writes⟩ := here
      exact .inr ⟨count', true, r', run, writes.moves (advances _ _ _ read)⟩

theorem segmentRound_progresses : Progresses segmentRound := by
  intro r count
  by_cases more : ∃ ks, r.kindsAhead = .dot :: .identifier :: ks
  · obtain ⟨ks, kinds⟩ := more
    have dot := Takes.one kinds
    have left : r.next.kindsAhead = .identifier :: ks := by rw [dot.kindsAhead, kinds]; rfl
    have both := dot.append (Takes.one left)
    exact .inr ⟨count, true, r.next.next,
      run_while (dotted_iff.mpr ⟨ks, kinds⟩) (by simp) count, both.moves Nat.two_pos⟩
  · rw [← dotted_iff] at more
    exact .inl ⟨count, run_while_end (Bool.eq_false_iff.mpr more) count⟩

theorem skipRound_progresses (stop : List Kind) : Progresses (skipRound stop) := by
  intro r count
  by_cases goes : (!r.isAtEnd && !r.isAtAny stop) = true
  · cases kinds : r.kindsAhead with
    | nil => simp [isAtEnd_iff.mpr kinds] at goes
    | cons k ks =>
        obtain ⟨r', run, takes⟩ := skipOne_takes kinds
        exact .inr ⟨count, true, r', run_while goes run count, takes.moves (unitLength_pos k ks)⟩
  · exact .inl ⟨count, run_while_end (Bool.eq_false_iff.mpr goes) count⟩

theorem groupRound_progresses : Progresses groupRound := by
  intro r count
  cases kinds : r.kindsAhead with
  | nil =>
      have ended := isAtEnd_iff.mpr kinds
      exact .inl ⟨count, by simp [groupRound, ended]⟩
  | cons k ks =>
      have here := isAtEnd_of_cons kinds
      have moves := (Takes.one kinds).moves Nat.one_pos
      by_cases opens : r.kind.isOpener = true
      · exact .inr ⟨count + 1, true, r.next, by simp [groupRound, here, opens], moves⟩
      · by_cases closes : r.kind.isCloser = true
        · exact .inr ⟨count - 1, decide (count - 1 ≠ 0), r.next,
            by simp [groupRound, here, opens, closes], moves⟩
        · exact .inr ⟨count, true, r.next, by simp [groupRound, here, opens, closes], moves⟩

theorem constructRound_progresses : Progresses constructRound := by
  intro r count
  cases kinds : r.kindsAhead with
  | nil =>
      have ended := isAtEnd_iff.mpr kinds
      exact .inl ⟨count, by simp [constructRound, ended]⟩
  | cons k ks =>
      have here := isAtEnd_of_cons kinds
      by_cases stops : r.isAtAny [.comma, .closeBrace, .closeParen] = true
      · exact .inl ⟨count, by simp [constructRound, stops]⟩
      · have opener : r.isAtAny Kind.groupOpeners = k.isOpener := isAtAny_of_cons kinds _
        by_cases opens : k.isOpener = true
        · obtain ⟨r', run, takes⟩ := skipGroup_takes kinds opens
          refine .inr ⟨count, false, r', ?_, takes.moves (unitLength_pos k ks)⟩
          simp [constructRound, here, stops, opener, opens, run]
        · refine .inr ⟨count, true, r.next, ?_, (Takes.one kinds).moves Nat.one_pos⟩
          simp [constructRound, here, stops, opener, opens]

theorem Loop.progresses (l : Loop) : Progresses l.round := by
  have good := constructs_follow
  have advances := Grammar.nested_advances
  cases l with
  | file =>
      exact progresses_of_follows (fileRound_follows none) fun levels =>
        Grammar.fileItem_advances (advances levels .element)
  | object =>
      exact progresses_of_follows
        (fun levels => elementRound_follows (g := .object) (good levels) rfl none) fun levels =>
          Grammar.groupItem_advances .object (advances levels .element)
  | contextBlock =>
      exact progresses_of_follows
        (fun levels => elementRound_follows (g := .contextBlock) (good levels) rfl none)
        fun levels => Grammar.groupItem_advances .contextBlock (advances levels .element)
  | arguments =>
      exact progresses_of_follows (fun levels => argumentRound_follows (good levels) none)
        fun levels => Grammar.groupItem_advances .arguments (advances levels .value)
  | contextNames =>
      exact progresses_of_follows (nameRound_follows none) fun _ => Grammar.contextName_advances
  | segments => exact segmentRound_progresses
  | skipUntil stop => exact skipRound_progresses stop
  | skipGroup => exact groupRound_progresses
  | skipConstruct => exact constructRound_progresses

theorem exists_end (body : List Token) {last : Token} (ended : last.kind = .eof) :
    ∃ ts t more, body ++ [last] = ts ++ t :: more ∧ (∀ t ∈ ts, t.kind ≠ .eof) ∧ t.kind = .eof ∧
      ((∀ t ∈ body, t.kind ≠ .eof) → ts = body ∧ more = []) := by
  induction body with
  | nil => exact ⟨[], last, [], rfl, by simp, ended, fun _ => ⟨rfl, rfl⟩⟩
  | cons u body ih =>
      by_cases here : u.kind = .eof
      · exact ⟨[], u, body ++ [last], rfl, by simp, here,
          fun none => absurd here (none u List.mem_cons_self)⟩
      · obtain ⟨ts, t, more, split, inner, stop, whole⟩ := ih
        refine ⟨u :: ts, t, more, by rw [List.cons_append, split, List.cons_append],
          List.forall_mem_cons.mpr ⟨here, inner⟩, stop, fun none => ?_⟩
        obtain ⟨rfl, rfl⟩ := whole fun t member => none t (List.mem_cons_of_mem u member)
        exact ⟨rfl, rfl⟩

structure StopsAtEnd (tokens : List Token) (r : Reader) : Prop where
  here : ∃ t, (Token.significant tokens)[r.pos]? = some t ∧ t.kind = .eof
  before : ∀ t ∈ (Token.significant tokens).take r.pos, t.kind ≠ .eof
  events : r.entries.count .token = r.pos

/-- The last entry finishes the outermost node, which has only blanks and comments left to take. -/
def LeavesTrivia (tokens : List Token) (es : List Entry) : Prop :=
  es.getLast? = some .finish ∧
    ∃ a fs, Assembly.upTo (es.length - 1) tokens es = some (a, fs) ∧ a.depth = 1 ∧
      ∀ t ∈ a.rest, t.kind ≠ .eof → t.isTrivia

theorem leavesTrivia_file (limits : Limits) {ts tail : List Token}
    (inner : ∀ t ∈ ts, t.kind ≠ .eof) (ends : ∀ t ∈ tail, t.kind = .eof) :
    LeavesTrivia (ts ++ tail) (Assembly.fileEntries (outline limits ts)) := by
  set es := Assembly.fileEntries (outline limits ts) with stream
  have split : es = _ ++ [.finish] := Assembly.entries_file _
  have length : es.length - 1 + 1 = es.length := by simp [split]
  obtain ⟨a, fs, s, rest, upTo, same, -, left⟩ :=
    Assembly.upTo_root (shaped_outline limits ts) length inner ends
  refine ⟨by rw [split]; exact List.getLast?_concat, a, fs, upTo, ?_, fun t member text => ?_⟩
  · rw [same.depth, same.nodes]
    rfl
  · obtain ⟨tail', known, ends'⟩ := same.rest
    rw [known] at member
    have within : t ∈ rest := (List.mem_append.mp member).resolve_right fun t' => text (ends' t t')
    have none : Token.significant rest = [] := by
      rw [left, kinds_outline, Outline.kindsBefore, List.length_map, List.drop_length]
    simpa using List.filter_eq_nil_iff.mp none t within

/-- A file is read up to the end and not past it, and every round of every loop on the way takes a
token. Where no other end comes before, each token has its event, and none is left to be rescued by
the last entry. -/
theorem file_consumes (limits : Limits) (body : List Token) (last : Token)
    (ended : last.kind = .eof) :
    (∃ node r', file.run (ofTokens limits (body ++ [last])) = some (node, r') ∧
      StopsAtEnd (body ++ [last]) r' ∧
      ((∀ t ∈ body, t.kind ≠ .eof) →
        r'.entries.count .token = (Token.significant body).length ∧
          LeavesTrivia (body ++ [last]) r'.entries)) ∧
    ∀ l : Loop, Progresses l.round := by
  refine ⟨?_, Loop.progresses⟩
  obtain ⟨ts, t, more, split, inner, stop, whole⟩ := exists_end body ended
  have first : ∀ u ∈ (t :: more).head?, u.kind = .eof := by simp [stop]
  obtain ⟨r', run, writes, entries⟩ := file_run limits inner first
  have taken : (kindsOfAll (outline limits ts)).length = (Token.significant ts).length := by
    rw [kinds_outline, Outline.kindsBefore, List.length_map]
  have pos : r'.pos = (Token.significant ts).length := by
    rw [writes.pos, ← taken]
    simp [ofTokens, kindsOfAll, Outline.kinds]
  have events : r'.entries.count .token = (Token.significant ts).length := by
    rw [entries, Assembly.fileEntries, Outline.tokens_entries, Outline.kinds, taken]
  rw [split]
  refine ⟨_, r', run, ⟨⟨t, ?_, stop⟩, ?_, by rw [events, pos]⟩, fun none => ?_⟩
  · rw [significant_split stop, pos, List.getElem?_append_right le_rfl, Nat.sub_self,
      List.getElem?_cons_zero]
  · rw [significant_split stop, pos, List.take_left]
    exact fun u member => inner u (List.mem_of_mem_filter member)
  · obtain ⟨rfl, rfl⟩ := whole none
    rw [entries] at events ⊢
    exact ⟨events, leavesTrivia_file limits inner (by simp [stop])⟩

theorem file_consumes_name :
    let body : List Token := [⟨.identifier, "a", 0⟩, ⟨.whitespace, " ", 1⟩]
    (Token.endAt 2).kind = .eof ∧ (∀ t ∈ body, t.kind ≠ .eof) ∧
      ∃ node r', file.run (ofTokens {} (body ++ [.endAt 2])) = some (node, r') ∧
        r'.entries.count .token = 1 ∧ LeavesTrivia (body ++ [.endAt 2]) r'.entries := by
  intro body
  have inner : ∀ t ∈ body, t.kind ≠ .eof := by decide
  obtain ⟨⟨node, r', run, -, whole⟩, -⟩ := file_consumes {} body (.endAt 2) rfl
  obtain ⟨events, leaves⟩ := whole inner
  exact ⟨rfl, inner, node, r', run, events, leaves⟩

end ConfigSyntax.Reader
