import ConfigSyntax.Proofs.Descendants
import ConfigSyntax.Proofs.Trivia.Ends

/-! Where blanks and comments stand in a tree. Main statement: `parse_places_trivia`. -/

namespace ConfigSyntax

open Event (triviaLength)
open Token (Tiled significant leaves)

theorem Part.ofTrees_leaves {start stop : Nat} {ts : List Token} (tiled : Tiled start stop ts)
    (above : List Frame) (before : List Tree) :
    ofTrees above start before (leaves ts) = ts.map .token := by
  induction ts generalizing start before with
  | nil => rfl
  | cons t ts ih =>
      obtain ⟨rfl, -, rest⟩ := tiled
      exact congrArg (Part.token t :: ·) (ih rest (t.leaf :: before))

namespace Outline

theorem Led.initial {front back : List Token} (led : Led (front ++ back)) : Led front := by
  cases front with
  | nil => nofun
  | cons t ts => exact led

/-- Where a blank comes last, an empty error does in the trees. -/
theorem Ends.bare_of_blank {front back : List Token} {trees : List Tree}
    (ends : Ends front back trees) {t : Token} (last : front.getLast? = some t)
    (blank : t.isTrivia = true) :
    Led back ∧ ∃ before u, trees = before ++ [u] ∧ u.EndsBare := by
  cases ends with
  | seen u found visible =>
      rw [last] at found
      rw [Option.some.inj found, visible] at blank
      cases blank
  | nothing none =>
      rw [none] at last
      cases last
  | bare led u found bare =>
      obtain ⟨before, trees⟩ := List.getLast?_eq_some_iff.mp found
      exact ⟨led, before, u, trees, bare⟩

/-- Where no blank comes behind one, a run of blanks is on one side. -/
theorem infix_of_led {run front back : List Token} (blank : ∀ t ∈ run, t.isTrivia = true)
    (inside : run <:+: front ++ back)
    (apart : ∀ t, front.getLast? = some t → t.isTrivia = true → Led back) :
    run <:+: front ∨ run <:+: back := by
  obtain ⟨before, behind, whole⟩ := inside
  rcases List.append_eq_append_iff.mp whole with ⟨more, rfl, -⟩ | ⟨more, split, rfl⟩
  · exact Or.inl ⟨before, more, rfl⟩
  · rcases List.append_eq_append_iff.mp split with ⟨first, rfl, rfl⟩ | ⟨first, rfl, rfl⟩
    · -- `first` is in front, and `more` is behind.
      rcases List.eq_nil_or_concat' first with rfl | ⟨first, t, rfl⟩
      · exact Or.inr ⟨[], behind, by simp⟩
      · cases more with
        | nil => exact Or.inl ⟨before, [], by simp⟩
        | cons u more =>
            have led := apart t (by simp) (blank t (by simp))
            have visible := led u rfl
            rw [blank u (by simp)] at visible
            cases visible
    · exact Or.inr ⟨first, behind, by simp⟩

/-- Wherever the trees of `ts` are put, the run stands among them undivided. -/
def Shows (trees : List Tree) (ts run : List Token) : Prop :=
  ∀ start stop above before, Tiled start stop ts →
    run.map .token <:+: Part.ofTrees above start before trees

theorem shows_take {run ts : List Token} (n : Nat) (inside : run <:+: ts.take n) :
    Shows (leaves (ts.take n)) ts run := by
  intro start stop above before tiled
  rw [← List.take_append_drop n ts] at tiled
  rw [Part.ofTrees_leaves tiled.initial]
  exact inside.map _

theorem Shows.front {trees : List Tree} {ts run : List Token} (shows : Shows trees ts run)
    (more : List Tree) : Shows (trees ++ more) ts run := by
  intro start stop above before tiled
  rw [Part.ofTrees_append]
  exact (shows start stop above before tiled).trans (List.prefix_append _ _).isInfix

theorem Shows.behind {o : Outline} {trees : List Tree} {ts run : List Token}
    (shows : Shows trees (o.grow ts).2 run) : Shows ((o.grow ts).1 ++ trees) ts run := by
  intro start stop above before tiled
  rw [Part.ofTrees_append]
  exact (shows _ stop above _ (tiled_grow o tiled)).trans (List.suffix_append _ _).isInfix

def Origin.Shows (origin : Origin) (run : List Token) : Prop :=
  Outline.Shows (growAll origin.parts origin.tokens).1 origin.tokens run

theorem take_of_split {n : Nat} {ts front : List Token} (split : ts = front ++ ts.drop n) :
    front = ts.take n :=
  List.append_cancel_right (split.symm.trans (List.take_append_drop n ts).symm)

section

variable {run : List Token} (blank : ∀ t ∈ run, t.isTrivia = true)

include blank

theorem lead_or_inner {ts front back : List Token}
    (split : ts.drop (triviaLength ts) = front ++ back)
    (inside : run <:+: ts.take (triviaLength ts) ++ front) (k : Kind) (inner : List Tree) :
    Outline.Shows (leaves (ts.take (triviaLength ts)) ++ [.node k inner]) ts run ∨
      run <:+: front := by
  have led := led_behind ts
  rw [split] at led
  exact (infix_of_led blank inside fun _ _ _ => led.initial).imp_left
    fun lead => (shows_take _ lead).front _

mutual

theorem shows_grow : ∀ (o : Outline) {ts front : List Token} (_ : o.Shaped)
    (_ : o.symbol.isNode .file = false) (_ : o.kinds <+: kindsBefore ts)
    (_ : ts = front ++ (o.grow ts).2) (_ : run <:+: front),
    Outline.Shows (o.grow ts).1 ts run ∨ ∃ origin ∈ o.origins ts, origin.Shows run
  | .token k, ts, front, _, _, _, split, inside => by
      rw [take_of_split split] at inside
      exact Or.inl (shows_take _ inside)
  | .gap g, ts, front, _, _, _, split, inside => by
      obtain rfl := List.append_left_eq_self.mp split.symm
      rw [List.infix_nil.mp inside]
      exact Or.inl fun _ _ _ _ _ => List.nil_infix
  | .skipped why ks, ts, front, _, _, _, split, inside => by
      have behind := List.take_append_drop (reach ks.length (ts.drop (triviaLength ts)))
        (ts.drop (triviaLength ts))
      have whole : front = ts.take (triviaLength ts) ++ (ts.drop (triviaLength ts)).take
          (reach ks.length (ts.drop (triviaLength ts))) := by
        refine List.append_cancel_right (split.symm.trans ?_)
        rw [List.append_assoc, grow, behind, List.take_append_drop]
      rw [whole] at inside
      refine (lead_or_inner blank behind.symm inside _ _).imp_right fun inner =>
        ⟨_, List.mem_singleton_self _, ?_⟩
      rw [Origin.Shows, growAll_tokens]
      exact shows_take _ inner
  | .node k parts, ts, front, shaped, _, fits, split, inside => by
      cases shaped with
      | node _ _ symbols within =>
          have other := no_file_of_symbols symbols
          obtain ⟨inner, behind, -⟩ := ends_growAll parts within other (fits_behind fits)
          have whole : front = ts.take (triviaLength ts) ++ inner := by
            refine List.append_cancel_right (split.symm.trans ?_)
            rw [List.append_assoc, grow, ← behind, List.take_append_drop]
          rw [whole] at inside
          rcases lead_or_inner blank behind inside k _ with lead | inner
          · exact Or.inl lead
          · rcases shows_growAll parts within other (fits_behind fits) behind inner with own | below
            · exact Or.inr ⟨_, List.mem_cons_self, own⟩
            · obtain ⟨origin, present, shows⟩ := below
              exact Or.inr ⟨origin, List.mem_cons_of_mem _ present, shows⟩

/-- A run of blanks among the tokens that are taken stands undivided among the trees, or in a node
below. -/
theorem shows_growAll : ∀ (ps : List Outline) {ts front : List Token} (_ : ∀ p ∈ ps, p.Shaped)
    (_ : ∀ p ∈ ps, p.symbol.isNode .file = false) (_ : kindsOfAll ps <+: kindsBefore ts)
    (_ : ts = front ++ (growAll ps ts).2) (_ : run <:+: front),
    Outline.Shows (growAll ps ts).1 ts run ∨ ∃ origin ∈ originsOfAll ps ts, origin.Shows run
  | [], ts, front, _, _, _, split, inside => by
      obtain rfl := List.append_left_eq_self.mp split.symm
      rw [List.infix_nil.mp inside]
      exact Or.inl fun _ _ _ _ _ => List.nil_infix
  | p :: ps, ts, front, shaped, other, fits, split, inside => by
      obtain ⟨first, rest⟩ := fits_split fits
      have shaped' := fun q member => shaped q (List.mem_cons_of_mem p member)
      have other' := fun q member => other q (List.mem_cons_of_mem p member)
      obtain ⟨mine, own, ends⟩ := ends_grow p (shaped p List.mem_cons_self)
        (other p List.mem_cons_self) first
      obtain ⟨more, theirs, -⟩ := ends_growAll ps shaped' other' rest
      have whole : front = mine ++ more := by
        refine List.append_cancel_right (split.symm.trans ?_)
        rw [List.append_assoc, growAll, ← theirs, ← own]
      have apart : ∀ t, mine.getLast? = some t → t.isTrivia = true → Led more := by
        intro t last trivia
        have led := (ends.bare_of_blank last trivia).1
        rw [theirs] at led
        exact led.initial
      rw [whole] at inside
      rcases infix_of_led blank inside apart with inside | inside
      · rcases shows_grow p (shaped p List.mem_cons_self) (other p List.mem_cons_self) first own
          inside with shows | ⟨origin, present, shows⟩
        · exact Or.inl (shows.front _)
        · exact Or.inr ⟨origin, List.mem_append_left _ present, shows⟩
      · rcases shows_growAll ps shaped' other' rest theirs inside with
          shows | ⟨origin, present, shows⟩
        · exact Or.inl shows.behind
        · exact Or.inr ⟨origin, List.mem_append_right _ present, shows⟩

end

end

theorem exists_node {stop : Nat} {nodes : List Node} {origins : List Origin}
    (stems : List.Forall₂ (Stems stop) nodes origins) {o : Origin} (present : o ∈ origins) :
    ∃ n ∈ nodes, Stems stop n o := by
  induction stems with
  | nil => cases present
  | cons stem _ ih =>
      rcases List.mem_cons.mp present with rfl | present
      · exact ⟨_, List.mem_cons_self, stem⟩
      · obtain ⟨n, member, stem⟩ := ih present
        exact ⟨n, List.mem_cons_of_mem _ member, stem⟩

/-- The tokens that some outlines take, and how they end. -/
theorem taken_growAll {ps : List Outline} {ts : List Token} (shaped : ∀ p ∈ ps, p.Shaped)
    (other : ∀ p ∈ ps, p.symbol.isNode .file = false) (fits : kindsOfAll ps <+: kindsBefore ts) :
    ∃ front, ts = front ++ (growAll ps ts).2 ∧ Ends front (growAll ps ts).2 (growAll ps ts).1 ∧
      Tree.leavesOfAll (growAll ps ts).1 = front.map fun t => (t.kind, t.text) := by
  obtain ⟨front, split, ends⟩ := ends_growAll ps shaped other fits
  refine ⟨front, split, ends, ?_⟩
  have leaves := leaves_growAll ps ts
  rw [Tree.leavesOfAll_leaves, Tree.leavesOfAll_leaves] at leaves
  have whole := congrArg (List.map fun t : Token => (t.kind, t.text)) split
  rw [List.map_append] at whole
  exact List.append_cancel_right (leaves.trans whole)

theorem taken_of_stem {stop : Nat} {n : Node} {o : Origin} (stem : Stems stop n o)
    (sound : o.Sound) : ∃ front back, o.tokens = front ++ back ∧ Ends front back n.trees ∧
      Tree.leavesOfAll n.trees = front.map fun t => (t.kind, t.text) := by
  obtain ⟨front, split, ends, leaves⟩ :=
    taken_growAll sound.shaped (no_file_of_symbols sound.symbols) sound.fits
  rw [stem.trees]
  exact ⟨front, _, split, ends, leaves⟩

end Outline

open Outline (growAll originsOfAll Ends)

theorem file_ends (limits : Limits) (text : String) :
    ∃ front, lex text = front ++ (growAll (outline limits (lex text)) (lex text)).2 ∧
      Ends front (growAll (outline limits (lex text)) (lex text)).2
        (growAll (outline limits (lex text)) (lex text)).1 := by
  have reading := outline_reading limits (lex text)
  apply Outline.ends_growAll _ reading.shaped (Outline.no_file_of_symbols reading.symbols)
  rw [kinds_outline]

/-- The nodes of a file come first, and what they leave is the end. -/
theorem parts_fileNode (limits : Limits) (text : String) :
    (fileNode limits text).parts =
      Part.ofTrees [(fileNode limits text).toFrame] 0 []
          (growAll (outline limits (lex text)) (lex text)).1 ++
        (growAll (outline limits (lex text)) (lex text)).2.map .token := by
  have tiled := Outline.tiled_growAll (outline limits (lex text)) (lex_tiled text)
  rw [← Part.ofTrees_leaves tiled]
  exact Part.ofTrees_append _ _ _ _ _

section

variable {limits : Limits} {text : String}

theorem first_of_descendant {n : Node} (member : n ∈ (fileNode limits text).descendants)
    (below : n ≠ fileNode limits text) {leaf : Kind × String}
    (first : (Tree.leavesOfAll n.trees).head? = some leaf) : leaf.1.isTrivia = false := by
  obtain ⟨o, present, stem⟩ := (origin_of_descendant member).resolve_left below
  obtain ⟨front, back, split, -, leaves⟩ :=
    Outline.taken_of_stem stem (sound_outline limits text o present)
  have led := Outline.originsOfAll_led _ _ o present
  rw [leaves, List.head?_map] at first
  obtain ⟨t, head, rfl⟩ := Option.map_eq_some_iff.mp first
  rw [split] at led
  exact led.initial t head

theorem last_of_descendant {n : Node} (member : n ∈ (fileNode limits text).descendants)
    (below : n ≠ fileNode limits text) {leaf : Kind × String}
    (last : (Tree.leavesOfAll n.trees).getLast? = some leaf) (blank : leaf.1.isTrivia = true) :
    Tree.EndsBare (.node n.kind n.trees) := by
  obtain ⟨o, present, stem⟩ := (origin_of_descendant member).resolve_left below
  obtain ⟨front, back, -, ends, leaves⟩ :=
    Outline.taken_of_stem stem (sound_outline limits text o present)
  rw [leaves, List.getLast?_map] at last
  obtain ⟨t, found, rfl⟩ := Option.map_eq_some_iff.mp last
  obtain ⟨-, before, u, trees, bare⟩ := ends.bare_of_blank found blank
  rw [trees]
  exact .last n.kind before bare

variable (limits) in
/-- A run of blanks stands undivided in a node. -/
theorem node_of_run {run : List Token} (blank : ∀ t ∈ run, t.isTrivia = true)
    (inside : run <:+: lex text) :
    ∃ n ∈ (fileNode limits text).descendants, run.map .token <:+: n.parts := by
  obtain ⟨front, split, ends⟩ := file_ends limits text
  have reading := outline_reading limits (lex text)
  have parts := parts_fileNode limits text
  rw [split] at inside
  rcases Outline.infix_of_led blank inside fun _ last trivia =>
    (ends.bare_of_blank last trivia).1 with inside | inside
  · have fits : Outline.kindsOfAll (outline limits (lex text)) <+:
        Outline.kindsBefore (lex text) := by
      rw [kinds_outline]
    rcases Outline.shows_growAll blank _ reading.shaped
        (Outline.no_file_of_symbols reading.symbols) fits split inside with
      shows | ⟨o, present, shows⟩
    · refine ⟨_, List.mem_cons_self, ?_⟩
      rw [parts]
      exact (shows 0 _ _ _ (lex_tiled text)).trans (List.prefix_append _ _).isInfix
    · obtain ⟨nodes, list, stems⟩ := descendants_fileNode limits text
      obtain ⟨n, member, stem⟩ := Outline.exists_node stems present
      refine ⟨n, ?_, ?_⟩
      · rw [list]
        exact List.mem_cons_of_mem _ member
      · rw [Node.parts, stem.trees]
        exact shows _ _ _ _ stem.tiled
  · refine ⟨_, List.mem_cons_self, ?_⟩
    rw [parts]
    exact (inside.map _).trans (List.suffix_append _ _).isInfix

theorem last_child {before : List Tree} {u : Tree}
    (trees : (growAll (outline limits (lex text)) (lex text)).1 = before ++ [u])
    (bare : u.EndsBare) :
    ∃ m, (fileNode limits text).children.getLast? = some m ∧ u = .node m.kind m.trees := by
  have others (ts : List Token) : (ts.map Part.token).filterMap (·.node?) = [] := by
    simp [Part.node?]
  rw [Node.children, parts_fileNode, List.filterMap_append, others, List.append_nil, trees,
    Part.ofTrees_append, List.filterMap_append]
  cases bare with
  | error => exact ⟨_, List.getLast?_concat, rfl⟩
  | last k front inner => exact ⟨_, List.getLast?_concat, rfl⟩

/-- The trailing blanks of a file are its own, where no empty error comes last. -/
theorem trailing_of_file {run : List Token} (blank : ∀ t ∈ run, t.isTrivia = true)
    (ends : run <:+ lex text)
    (filled : ∀ m ∈ (fileNode limits text).children.getLast?,
      ¬ Tree.EndsBare (.node m.kind m.trees)) :
    run.map .token <:+ (fileNode limits text).parts := by
  obtain ⟨front, split, taken⟩ := file_ends limits text
  have parts := parts_fileNode limits text
  obtain ⟨before, whole⟩ := ends
  have inside : run <:+ (growAll (outline limits (lex text)) (lex text)).2 := by
    rcases List.append_eq_append_iff.mp (whole.trans split) with
      ⟨more, own, rest⟩ | ⟨more, own, rest⟩
    · rcases List.eq_nil_or_concat' more with rfl | ⟨more, t, rfl⟩
      · exact ⟨[], rest⟩
      · have last : front.getLast? = some t := by
          rw [own, ← List.append_assoc, List.getLast?_concat]
        have trivia : t.isTrivia = true := blank t (by rw [rest]; simp)
        obtain ⟨-, before, u, trees, bare⟩ := taken.bare_of_blank last trivia
        obtain ⟨m, child, same⟩ := last_child trees bare
        exact absurd (same ▸ bare) (filled m child)
    · exact ⟨more, rest.symm⟩
  rw [parts]
  exact (inside.map _).trans (List.suffix_append _ _)

end

/-- Whatever the text and the limit, no blank comes first in a node below the file, and none comes
last but in front of an empty error at the end of the node. Blanks next to each other stand so in
one node. Those at the end of the text stand at the end of the file, if its last child does not end
with an empty error. -/
theorem parse_places_trivia (limits : Limits) (text : String) :
    ∃ root, Node.ofTree? (parse limits text).tree = some root ∧
      (∀ n ∈ root.descendants, n ≠ root →
        (∀ leaf ∈ (Tree.leavesOfAll n.trees).head?, leaf.1.isTrivia = false) ∧
        (∀ leaf ∈ (Tree.leavesOfAll n.trees).getLast?, leaf.1.isTrivia = true →
          Tree.EndsBare (.node n.kind n.trees))) ∧
      (∀ run, (∀ t ∈ run, t.isTrivia = true) → run <:+: lex text →
        ∃ n ∈ root.descendants, run.map .token <:+: n.parts ∧
          ∀ m ∈ root.descendants, ∀ t ∈ run, t ∈ m.tokens → m = n) ∧
      ((∀ m ∈ root.children.getLast?, ¬ Tree.EndsBare (.node m.kind m.trees)) →
        ∀ run, (∀ t ∈ run, t.isTrivia = true) → run <:+ lex text →
          run.map .token <:+ root.parts) := by
  refine ⟨fileNode limits text, ofTree?_parse limits text, ?_, ?_, ?_⟩
  · exact fun n member below => ⟨fun _ => first_of_descendant member below,
      fun _ => last_of_descendant member below⟩
  · intro run blank inside
    obtain ⟨n, member, shown⟩ := node_of_run limits blank inside
    refine ⟨n, member, shown, fun m member' t present own => ?_⟩
    have mine : t ∈ n.tokens :=
      List.mem_filterMap.mpr ⟨_, shown.subset (List.mem_map_of_mem present), rfl⟩
    exact eq_of_mem_tokens member' member own mine
  · exact fun filled run blank ends => trailing_of_file blank ends filled

/-- The blank is the property's, in front of the value that is not there. -/
example : (fileNode {} "a = ").children.map (fun n => (Tree.leavesOfAll n.trees).getLast?) =
    [some (.whitespace, " ")] := by
  decide +kernel

end ConfigSyntax
