import ConfigSyntax.Proofs.Growth
import ConfigSyntax.Proofs.Origin
import ConfigSyntax.Proofs.Reader.Bursts

/-! The assembly of a stream, entry by entry: it goes the way of the replay of the plain events.
Main statements: `upTo_open`, `upTo_root`, `build_file`. -/

namespace ConfigSyntax

open Event (Site triviaLength replay)
open Outline (kindsOfAll eventsOfAll)
open Token (significant)

theorem triviaLength_le (ts : List Token) : triviaLength ts ≤ ts.length :=
  (List.takeWhile_sublist _).length_le

theorem triviaLength_ended (ts : List Token) {tail : List Token}
    (ends : ∀ t ∈ tail, t.kind = .eof) : triviaLength (ts ++ tail) = triviaLength ts := by
  have none : tail.takeWhile (·.isTrivia) = [] := by
    cases tail with
    | nil => rfl
    | cons t tail => simp [Token.isTrivia, ends t List.mem_cons_self, Kind.isTrivia]
  rw [triviaLength, triviaLength, List.takeWhile_append]
  split
  case isTrue all => simp [none, all]
  case isFalse => rfl

namespace Assembly

structure Matches (a : Assembly) (sites : List Site) (ts : List Token) : Prop where
  nodes : a.sites = sites
  depth : a.depth = a.sites.length
  roots : a.roots = []
  rest : ∃ tail, a.rest = ts ++ tail ∧ ∀ t ∈ tail, t.kind = .eof
  inner : ∀ t ∈ ts, t.kind ≠ .eof

section

variable {a : Assembly} {sites up : List Site} {s : Site} {ts : List Token}

theorem Matches.put (same : a.Matches (s :: up) ts) (more : List Token) :
    (a.put more).Matches (s.add more :: up) ts := by
  obtain ⟨rest, depth, _, _⟩ := a
  obtain ⟨rfl, known, roots, rest, inner⟩ := same
  exact ⟨rfl, known, roots, rest, inner⟩

theorem Matches.takeTrivia (same : a.Matches (s :: up) ts) :
    a.takeTrivia.Matches (s.add (ts.take (triviaLength ts)) :: up) (ts.drop (triviaLength ts)) := by
  obtain ⟨tail, rest, ends⟩ := same.rest
  have short := triviaLength_le ts
  have length : triviaLength a.rest = triviaLength ts := by rw [rest, triviaLength_ended ts ends]
  have put := same.put (a.rest.take (triviaLength a.rest))
  rw [length, rest, List.take_append_of_le_length short] at put
  unfold Assembly.takeTrivia
  rw [length, rest, List.take_append_of_le_length short, List.drop_append_of_le_length short]
  exact ⟨put.nodes, put.depth, put.roots, ⟨tail, rfl, ends⟩,
    fun t member => same.inner t (List.mem_of_mem_drop member)⟩

theorem Matches.start (same : a.Matches sites ts) (k : Kind) {es : List Event} {tree : Tree}
    (answer : replay (.start k :: es) sites ts = some tree) :
    ∃ sites' ts', (a.start k).Matches sites' ts' ∧ sites' ≠ [] ∧
      replay es sites' ts' = some tree ∧ significant ts' = significant ts := by
  have depth := same.depth
  rw [same.nodes] at depth
  cases sites with
  | nil =>
      have opened : a.start k = { a with sites := ⟨k, []⟩ :: a.sites, depth := a.depth + 1 } := by
        simp [Assembly.start, depth]
      refine ⟨[⟨k, []⟩], ts, ?_, List.cons_ne_nil _ _, answer, rfl⟩
      rw [opened]
      exact ⟨by simp [same.nodes], by simp [same.depth], same.roots, same.rest, same.inner⟩
  | cons s up =>
      have opened : a.start k = { a.takeTrivia with
          sites := ⟨k, []⟩ :: a.takeTrivia.sites, depth := a.takeTrivia.depth + 1 } := by
        simp [Assembly.start, depth]
      have front := same.takeTrivia
      refine ⟨_, _, ?_, List.cons_ne_nil _ _, answer, Token.significant_behind ts⟩
      rw [opened]
      exact ⟨by simp [front.nodes], by simp [front.depth], front.roots, front.rest, front.inner⟩

theorem token_of_nil (none : a.takeTrivia.rest = []) : a.token = a.takeTrivia := by
  simp [Assembly.token, none]

theorem token_of_cons {t : Token} (some : a.takeTrivia.rest = t :: ts) : a.token =
    { (if t.kind = .eof then a.takeTrivia else a.takeTrivia.put [t]) with rest := ts } := by
  simp [Assembly.token, some]

theorem Matches.token (same : a.Matches (s :: up) ts) :
    a.token.Matches (s.add (ts.take (triviaLength ts + 1)) :: up)
      (ts.drop (triviaLength ts + 1)) := by
  have front := same.takeTrivia
  obtain ⟨tail, rest, ends⟩ := front.rest
  rw [← List.drop_drop, List.take_add]
  cases behind : ts.drop (triviaLength ts) with
  | nil =>
      rw [behind] at front
      rw [behind, List.nil_append] at rest
      simp only [List.take_nil, List.append_nil, List.drop_nil]
      cases tail with
      | nil =>
          rw [token_of_nil rest]
          exact front
      | cons t tail =>
          rw [token_of_cons rest, if_pos (ends t List.mem_cons_self)]
          exact ⟨front.nodes, front.depth, front.roots,
            ⟨tail, rfl, fun u member => ends u (List.mem_cons_of_mem t member)⟩, front.inner⟩
  | cons t more =>
      rw [behind] at front
      rw [behind, List.cons_append] at rest
      have put := front.put [t]
      rw [token_of_cons rest, if_neg (front.inner t List.mem_cons_self)]
      rw [Site.add_add] at put
      exact ⟨put.nodes, put.depth, put.roots, ⟨tail, rfl, ends⟩,
        fun u member => front.inner u (List.mem_cons_of_mem t member)⟩

theorem Matches.finish {t : Site} (same : a.Matches (s :: t :: up) ts) :
    ∃ a', a.finish = some a' ∧ a'.Matches ({ t with done := s.close :: t.done } :: up) ts := by
  have deep : a.depth ≠ 1 := by
    rw [same.depth, same.nodes]
    simp
  refine ⟨{ a with sites := { t with done := s.close :: t.done } :: up, depth := a.depth - 1 },
    ?_, rfl, ?_, same.roots, same.rest, same.inner⟩
  · simp [Assembly.finish, deep, same.nodes]
  · simp [same.depth, same.nodes]

theorem Matches.finish_root (same : a.Matches [s] ts) : a.finish =
    some { rest := [], depth := 0, sites := [], roots := [(s.add ts).close] } := by
  have last : a.depth = 1 := by
    rw [same.depth, same.nodes]
    rfl
  obtain ⟨tail, rest, ends⟩ := same.rest
  have left : a.rest.filter (·.kind ≠ .eof) = ts := by
    have inner : ts.filter (·.kind ≠ .eof) = ts := by simpa using same.inner
    have none : tail.filter (·.kind ≠ .eof) = [] := by simpa using ends
    rw [rest, List.filter_append, inner, none, List.append_nil]
  simp only [Assembly.finish, last, if_true, left, Assembly.put, same.nodes, same.roots]

/-- Wherever a replay goes on after an event, the assembly does. -/
theorem Matches.apply (same : a.Matches sites ts) {e : Event} {es : List Event} {tree : Tree}
    (more : es ≠ []) (answer : replay (e :: es) sites ts = some tree) :
    ∃ a' sites' ts', a.apply e = some a' ∧ a'.Matches sites' ts' ∧ sites' ≠ [] ∧
      replay es sites' ts' = some tree ∧
      significant ts' = (significant ts).drop ([e].count .token) := by
  cases e with
  | start k =>
      obtain ⟨sites', ts', opened, filled, answer, left⟩ := same.start k answer
      exact ⟨a.start k, sites', ts', rfl, opened, filled, answer, left⟩
  | token =>
      cases sites with
      | nil => cases answer
      | cons s up =>
          exact ⟨a.token, _, _, rfl, same.token, List.cons_ne_nil _ _, answer,
            Token.significant_drop_one ts⟩
  | finish =>
      match sites, es with
      | [], _ => simp [replay] at answer
      | [_], [] => exact absurd rfl more
      | [_], _ :: _ => cases answer
      | s :: t :: up, es =>
          obtain ⟨a', finished, there⟩ := same.finish
          refine ⟨a', _, ts, finished, there, List.cons_ne_nil _ _, ?_, rfl⟩
          cases es with
          | nil => exact absurd rfl more
          | cons => exact answer

/-- A run of events in front of others leaves a node open. -/
theorem Matches.run (same : a.Matches sites ts) {front back : List Event} {tree : Tree}
    (more : back ≠ []) (answer : replay (front ++ back) sites ts = some tree) :
    ∃ a' sites' ts', front.foldlM Assembly.apply a = some a' ∧ a'.Matches sites' ts' ∧
      (sites ≠ [] ∨ front ≠ [] → sites' ≠ []) ∧ replay back sites' ts' = some tree ∧
      significant ts' = (significant ts).drop (front.count .token) := by
  induction front generalizing a sites ts with
  | nil => exact ⟨a, sites, ts, rfl, same, by simp, answer, rfl⟩
  | cons e es ih =>
      obtain ⟨a₁, sites₁, ts₁, applied, same₁, filled, answer₁, left₁⟩ :=
        same.apply (by simp [more]) answer
      obtain ⟨a₂, sites₂, ts₂, run, same₂, filled₂, answer₂, left₂⟩ := ih same₁ answer₁
      refine ⟨a₂, sites₂, ts₂, ?_, same₂, fun _ => filled₂ (Or.inl filled), answer₂, ?_⟩
      · rw [List.foldlM_cons, applied]
        exact run
      · rw [left₂, left₁, List.drop_drop, ← List.count_append]
        rfl

end

def fileEntries (parts : List Outline) : List Entry := (Outline.node .file parts).entries none

section

variable {parts : List Outline} (shaped : (Outline.node .file parts).Shaped) {ts tail : List Token}
  (inner : ∀ t ∈ ts, t.kind ≠ .eof) (ends : ∀ t ∈ tail, t.kind = .eof)

include shaped in
/-- The events of a file fall into one run for each entry. -/
theorem fire_file : ∃ es, fire 0 (fileEntries parts).length (fileEntries parts) =
    some ((Outline.node .file parts).bursts [], es) := by
  have fires := amounts_of_node (.node .file parts) shaped rfl none [] [] _ _ (by simp)
    (climbs_none [] _ _ [])
  simp only [Fires, List.nil_append, List.append_nil, List.length_nil] at fires
  exact ⟨_, fires⟩

theorem bursts_file (parts : List Outline) : (Outline.node .file parts).bursts [] =
    ([.start .file] :: Outline.burstsOfAll parts) ++ [[.finish]] := by
  rw [Outline.bursts, Outline.burstsWithin_plain fun p _ => Outline.wraps_plain p rfl]
  rfl

theorem entries_file (parts : List Outline) : fileEntries parts =
    .start .file none :: Outline.entriesOfAll parts ++ [.finish] := by
  rw [fileEntries, Outline.entries, Outline.entriesWithin_plain fun p _ => Outline.wraps_plain p rfl]

include shaped in
theorem length_bursts :
    ((Outline.node .file parts).bursts []).length = (fileEntries parts).length := by
  obtain ⟨es, fired⟩ := fire_file shaped
  exact length_fire fired

include shaped in
theorem upTo_eq {n : Nat} (within : n ≤ (fileEntries parts).length) (ts : List Token) :
    ∃ es, upTo n ts (fileEntries parts) =
      ((((Outline.node .file parts).bursts []).take n).flatten.foldlM apply { rest := ts }).map
        fun a => (a, es) := by
  obtain ⟨es, fired⟩ := fire_file shaped
  obtain ⟨more, split⟩ := Nat.exists_eq_add_of_le within
  rw [split, fire_add, Option.bind_eq_some_iff] at fired
  obtain ⟨front, first, fired⟩ := fired
  obtain ⟨back, -, same⟩ := Option.map_eq_some_iff.mp fired
  have take : ((Outline.node .file parts).bursts []).take n = front.1 := by
    rw [← (Prod.mk.inj same).1, List.take_left' (length_fire first)]
  refine ⟨front.2, ?_⟩
  rw [upTo, List.range_eq_range', foldlM_step, first, take]
  rfl

include inner ends in
theorem matches_start : Matches { rest := ts ++ tail } [] ts :=
  ⟨rfl, rfl, rfl, ⟨tail, rfl, ends⟩, inner⟩

include shaped in
/-- Between the first entry and the last a node is open. -/
theorem upTo_open {n : Nat} (positive : 0 < n) (within : n < (fileEntries parts).length)
    (inner : ∀ t ∈ ts, t.kind ≠ .eof) (ends : ∀ t ∈ tail, t.kind = .eof) :
    ∃ a es sites rest, upTo n (ts ++ tail) (fileEntries parts) = some (a, es) ∧
      a.Matches sites rest ∧ sites ≠ [] := by
  set bursts := (Outline.node .file parts).bursts [] with known
  have length : bursts.length = (fileEntries parts).length := length_bursts shaped
  have flat : (bursts.take n).flatten ++ (bursts.drop n).flatten =
      (Outline.node .file parts).events := by
    rw [← List.flatten_append, List.take_append_drop, known]
    exact Outline.flatten_bursts _ [] (absurd rfl)
  have split : bursts = _ ++ [[.finish]] := bursts_file parts
  -- The first run opens the file, and the last one finishes it.
  have back : (bursts.drop n).flatten ≠ [] := by
    have short : n ≤ ([.start .file] :: Outline.burstsOfAll parts).length := by
      rw [split, List.length_append, List.length_singleton] at length
      omega
    rw [split, List.drop_append_of_le_length short]
    simp
  have front : (bursts.take n).flatten ≠ [] := by
    obtain ⟨m, rfl⟩ := Nat.exists_eq_succ_of_ne_zero positive.ne'
    simp [split]
  have answer : replay ((bursts.take n).flatten ++ (bursts.drop n).flatten) [] ts =
      some (Tree.ofParts .file parts ts) := by
    rw [flat]
    exact (Option.some_get _).symm
  obtain ⟨a, sites, rest, run, same, filled, -⟩ := (matches_start inner ends).run back answer
  obtain ⟨es, upTo⟩ := upTo_eq shaped within.le (ts ++ tail)
  refine ⟨a, es, sites, rest, ?_, same, filled (Or.inr front)⟩
  rw [upTo, run]
  rfl

include inner ends in
/-- With the parts of a file assembled only the file is open. -/
theorem run_file (parts : List Outline) : ∃ a s rest,
    (Event.start .file :: eventsOfAll parts).foldlM apply { rest := ts ++ tail } = some a ∧
      a.Matches [s] rest ∧ (s.add rest).close = Tree.ofParts .file parts ts ∧
      significant rest = (significant ts).drop (kindsOfAll parts).length := by
  have answer : replay ((.start .file :: eventsOfAll parts) ++ [.finish]) [] ts =
      some (Tree.ofParts .file parts ts) := (Option.some_get _).symm
  obtain ⟨a, sites, rest, run, same, filled, answer, left⟩ :=
    (matches_start inner ends).run (List.cons_ne_nil _ _) answer
  have count : (Event.start .file :: eventsOfAll parts).count .token =
      (kindsOfAll parts).length := by
    simp [Outline.tokens_eventsOfAll]
  rw [count] at left
  match sites with
  | [] => exact absurd rfl (filled (Or.inr (List.cons_ne_nil _ _)))
  | [s] => exact ⟨a, s, rest, run, same, Option.some.inj answer, left⟩
  | s :: t :: up => cases up <;> simp [replay] at answer

theorem flatten_opening (parts : List Outline) :
    ([.start .file] :: Outline.burstsOfAll parts).flatten = .start .file :: eventsOfAll parts := by
  simp [Outline.flatten_burstsOfAll]

include shaped in
theorem upTo_root {n : Nat} (last : n + 1 = (fileEntries parts).length)
    (inner : ∀ t ∈ ts, t.kind ≠ .eof) (ends : ∀ t ∈ tail, t.kind = .eof) :
    ∃ a es s rest, upTo n (ts ++ tail) (fileEntries parts) = some (a, es) ∧
      a.Matches [s] rest ∧ (s.add rest).close = Tree.ofParts .file parts ts ∧
      significant rest = (significant ts).drop (kindsOfAll parts).length := by
  have front : ([.start .file] :: Outline.burstsOfAll parts).length = n := by
    have length := length_bursts shaped
    rw [bursts_file, List.length_append, List.length_singleton] at length
    omega
  obtain ⟨a, s, rest, run, there⟩ := run_file inner ends parts
  obtain ⟨es, upTo⟩ := upTo_eq shaped (n := n) (by omega) (ts ++ tail)
  refine ⟨a, es, s, rest, ?_, there⟩
  rw [upTo, bursts_file, List.take_left' front, flatten_opening, run]
  rfl

include shaped in
/-- The last entry finishes the file, and nothing is open or left then. -/
theorem upTo_end (inner : ∀ t ∈ ts, t.kind ≠ .eof) (ends : ∀ t ∈ tail, t.kind = .eof) :
    ∃ es, upTo (fileEntries parts).length (ts ++ tail) (fileEntries parts) =
      some ({ rest := [], roots := [Tree.ofParts .file parts ts] }, es) := by
  obtain ⟨a, s, rest, run, same, whole, -⟩ := run_file inner ends parts
  obtain ⟨es, upTo⟩ := upTo_eq shaped le_rfl (ts ++ tail)
  refine ⟨es, ?_⟩
  rw [upTo, ← length_bursts shaped, List.take_length, bursts_file, List.flatten_append,
    flatten_opening, List.foldlM_append, run]
  simp [apply, same.finish_root, whole]

include shaped in
theorem build_file (inner : ∀ t ∈ ts, t.kind ≠ .eof) (ends : ∀ t ∈ tail, t.kind = .eof) :
    build (ts ++ tail) (fileEntries parts) = some (Tree.ofParts .file parts ts) := by
  obtain ⟨es, upTo⟩ := upTo_end shaped inner ends
  rw [build, upTo]
  simp [Tree.ofParts_eq]

end

end Assembly
end ConfigSyntax
