import ConfigSyntax.Proofs.Limited.Rules

/-! Lists under a limit. Whatever is skipped in a list, it is read to the closer it ends with where
more nesting is allowed. Main statements: `group_follows`, `nested_follows`, `file_follows`. -/

namespace ConfigSyntax.Grammar

open Outline (Law ObeysAll kindsOfAll)
open Sentence (items tail braced Lands)
open scoped Computability

section

variable {g : Group} {depth : Nat} {ks rest : List Kind}

theorem items_of_whole
    (whole : Whole (repeated (groupItem g (nested depth g.holds)) ks) rest) :
    ∃ list ∈ items depth g.holds, ks = list ++ rest := by
  have reading := steps_reading (groupItem_reading (nested_reading depth) g) ks.length ks
  have split := reading.split
  rw [show (steps _ _ ks).2 = rest from whole.rest] at split
  exact ⟨_, reading.sentence whole.clean, split.symm⟩

theorem starts_items {list : List Kind} (word : list ∈ items depth g.holds) :
    list = [] ∨ ∃ k ks, list = k :: ks ∧ k ∈ g.holds.first := by
  obtain ⟨words, rfl, each⟩ := word
  cases words with
  | nil => exact Or.inl rfl
  | cons w words =>
      obtain ⟨k, ks, rfl, first⟩ :=
        ((starts_construct depth g.holds).mul _) w (each w List.mem_cons_self)
      exact Or.inr ⟨k, ks ++ words.flatten, rfl, first⟩

theorem inside_of_first {k : Kind} (first : k ∈ g.holds.first) : g.ends.contains k = false := by
  have notEnd := not_end_of_first k first
  simpa using notEnd

theorem groupItem_inside {k : Kind} (inside : g.ends.contains k = false) (rule : Rule)
    (ks : List Kind) :
    groupItem g rule (k :: ks) =
      let item := (rule (k :: ks)).getD (recover g.context (k :: ks))
      some (item.1 :: (comma? item.2).1, (comma? item.2).2) := by
  rw [groupItem, inside, if_neg Bool.false_ne_true]

/-- A clean list that is not empty starts with a construct, which leaves the rest of the list. -/
theorem first_item {k : Kind} (word : k :: ks ∈ items depth g.holds) (rest : List Kind) :
    k ∈ g.holds.first ∧ ∃ read, nested depth g.holds (k :: ks ++ g.closer :: rest) = some read ∧
      read.1.Clean ∧ ∃ more ∈ tail (items depth g.holds), read.2 = more ++ g.closer :: rest := by
  have first : k ∈ g.holds.first := by
    rcases starts_items word with none | ⟨k', ks', same, first⟩
    · cases none
    · obtain ⟨rfl, -⟩ := List.cons.inj same
      exact first
  obtain ⟨words, flat, each⟩ := word
  have whole := items_whole (nested_accepts depth) g words each rest
  have advances := groupItem_advances g (nested_advances depth g.holds)
  have applies := groupItem_inside (inside_of_first first) (nested depth g.holds)
    (ks ++ g.closer :: rest)
  rw [← flat, List.cons_append, repeated_of_some advances applies] at whole
  obtain ⟨read, answer, clean⟩ :=
    some_of_clean (whole.clean _ (List.mem_append_left _ List.mem_cons_self))
  rw [answer] at whole
  obtain ⟨list, more, split⟩ := items_of_whole (g := g)
    ⟨fun p member => whole.clean p (List.mem_append_right _ member), whole.rest⟩
  have comma := comma?_reading read.2
  have sep := comma.sentence fun p member =>
    whole.clean p (List.mem_append_left _ (List.mem_cons_of_mem _ member))
  refine ⟨first, read, answer, clean, _, Language.append_mem_mul sep more, ?_⟩
  rw [List.append_assoc, ← split]
  exact comma.split.symm

end

/-- A skip from the start of a construct, with `rest` behind that, ends at `rest'`. Under elements
it may start at a value inside. -/
def Cut (depth : Nat) (c : Construct) (ks rest rest' : List Kind) : Prop :=
  ∃ w, (w ∈ Sentence.construct depth c ∨ ∃ depth, w ∈ Sentence.construct depth .value) ∧
    w ++ rest <:+ ks ∧ rest' = (w ++ rest).drop (constructLength (w ++ rest))

/-- With `limit` levels left a construct is read to its end, or cut where its value is too deep. -/
def Near (limit depth : Nat) (c : Construct) (ks rest rest' : List Kind) : Prop :=
  rest' = rest ∨ (limit = 0 ∨ limit = 1 ∧ c = .element) ∧ Cut depth c ks rest rest'

/-- What is read cleanly with any depth left is read with `limit` levels left up to a place near. -/
def Follows (all : List Kind) (limit : Nat) : Prop :=
  ∀ depth c ks read, nested depth c ks = some read → read.1.Clean →
    ∃ read', nested limit c ks = some read' ∧ Leaves all (Near limit depth c) ks read' read.2

/-- What may be ahead in a list under the limit: items, or a braced group in front of them that is
cut off from a construct. -/
inductive Ahead (all : List Kind) (limit depth : Nat) (g : Group) (rest : List Kind) :
    List Kind → Prop
  | items {list} (word : list ∈ items depth g.holds) : Ahead all limit depth g rest list
  | braced {list} (word : list ∈ braced * tail (items depth g.holds))
    (deep : limit = 0 ∨ g.holds = .element)
    (behind : ∃ k ∈ [Kind.comma, .closeParen], k :: (list ++ g.closer :: rest) <:+ all) :
    Ahead all limit depth g rest list

section

variable {all : List Kind} {limit depth : Nat} {g : Group} {list rest ks : List Kind}

theorem comma?_tail (word : list ∈ tail (items depth g.holds)) :
    ∃ list' ∈ items depth g.holds, Lawful all (list ++ g.closer :: rest)
      (comma? (list ++ g.closer :: rest)) (list' ++ g.closer :: rest) := by
  rcases Sentence.mem_tail.mp word with goes | ⟨list', goes, rfl⟩
  · refine ⟨list, goes, ?_⟩
    have ends : Avoids [.comma] (list ++ g.closer :: rest) := by
      rcases starts_items goes with rfl | ⟨k, ks, rfl, first⟩
      · apply avoids_cons
        cases g <;> decide
      · exact avoids_cons (not_comma_of_first k first) _
    rw [comma?_of_avoids ends]
    exact .nil _
  · exact ⟨list', goes, .token .comma _⟩

theorem starts_braced {front : List Kind} (word : front ∈ braced) :
    ∃ ks, front = .openBrace :: ks := by
  obtain ⟨inner, rfl, -⟩ := word
  exact ⟨_, rfl⟩

theorem comma?_braced (word : list ∈ braced * tail (items depth g.holds)) (rest : List Kind) :
    comma? (list ++ rest) = ([], list ++ rest) := by
  obtain ⟨front, brace, more, -, rfl⟩ := word
  obtain ⟨ks, rfl⟩ := starts_braced brace
  rfl

theorem ahead_of_cut (deep : limit = 0 ∨ limit = 1 ∧ g.holds = .element)
    (goes : list ∈ tail (items depth g.holds)) (suffix : ks <:+ all) {rest' : List Kind}
    (cut : Cut depth g.holds ks (list ++ g.closer :: rest) rest') :
    ∃ list', Lawful all rest' (comma? rest') (list' ++ g.closer :: rest) ∧
      Ahead all limit depth g rest list' := by
  obtain ⟨w, word, inside, rfl⟩ := cut
  have lands : Lands (items depth g.holds) (tail (items depth g.holds)) (w ++ list) := by
    rcases word with word | ⟨depth', word⟩
    · exact Sentence.lands_one word goes (Sentence.lands_items goes)
    · exact Sentence.lands_construct word goes (Sentence.lands_items goes)
  obtain ⟨before, after, split, resumes, length⟩ := lands
  have whole := inside.trans suffix
  have element : limit = 0 ∨ g.holds = .element := deep.imp id And.right
  rw [← List.append_assoc] at whole ⊢
  have ends : ∀ k ∈ (g.closer :: rest).head?, k.isCloser = true := by
    intro k last
    rw [← Option.some.inj last]
    exact g.isCloser_closer
  rw [length _ ends, split, List.append_assoc, List.drop_left]
  rw [split, List.append_assoc] at whole
  cases resumes with
  | next goes =>
      obtain ⟨list', word, lawful⟩ := comma?_tail goes
      exact ⟨list', lawful, .items word⟩
  | @name after cut _ =>
      have behind : .comma :: (after ++ g.closer :: rest) <:+ all :=
        (List.suffix_append before _).trans whole
      rcases cut with goes | cut
      · exact ⟨after, .token .comma _, .items goes⟩
      · exact ⟨after, .token .comma _, .braced cut element ⟨.comma, by decide, behind⟩⟩
  | paren cut ends =>
      obtain ⟨front, rfl⟩ := List.getLast?_eq_some_iff.mp ends
      rw [List.append_assoc, List.singleton_append] at whole
      have behind := (List.suffix_append front _).trans whole
      rw [comma?_braced cut]
      exact ⟨after, .nil _, .braced cut element ⟨.closeParen, by decide, behind⟩⟩

/-- A skip stops where the list goes on, or ends. -/
theorem stops_at_tail (goes : list ∈ tail (items depth g.holds)) :
    skipLength g.context.stopsAt 0 (list ++ g.closer :: rest) = 0 := by
  have stops (k : Kind) (ks : List Kind) (stop : g.context.stopsAt k = true) :
      skipLength g.context.stopsAt 0 (k :: ks) = 0 := by
    rw [skipLength, if_pos stop]
  rcases Sentence.mem_tail.mp goes with goes | ⟨list', -, rfl⟩
  · rcases starts_items goes with rfl | ⟨k, ks, rfl, first⟩
    · exact stops _ _ (by cases g <;> rfl)
    · have known : ∀ k ∈ g.holds.first, g.context.stopsAt k = true := by cases g <;> decide
      exact stops _ _ (known k first)
  · exact stops _ _ (by cases g <;> rfl)

variable {front : List Kind} (word : front ∈ braced)

include word

theorem recover_braced (goes : list ∈ tail (items depth g.holds)) :
    recover g.context (front ++ (list ++ g.closer :: rest)) =
      skip (.unexpected g.context) front.length (front ++ (list ++ g.closer :: rest)) := by
  obtain ⟨inner, rfl, nested⟩ := word
  have closes : Kind.closeBrace.isCloser = true := rfl
  have length := skipLength_group nested closes g.context.stopsAt (list ++ g.closer :: rest)
  rw [stops_at_tail goes] at length
  rw [List.cons_append, List.cons_append, List.append_assoc, List.singleton_append, recover,
    if_pos (show Kind.openBrace.isOpener = true from rfl), length]
  simp

theorem tooDeep_braced (rest : List Kind) :
    tooDeep (front ++ rest) = skip .tooDeep front.length (front ++ rest) := by
  obtain ⟨inner, rfl, nested⟩ := word
  have length : constructLength (.openBrace :: inner ++ .closeBrace :: rest) = inner.length + 2 :=
    constructLength_group .object nested rest
  rw [List.append_assoc, List.singleton_append, tooDeep, length]
  simp

theorem skip_braced (goes : list ∈ tail (items depth g.holds))
    (deep : limit = 0 ∨ g.holds = .element)
    (behind : ∃ k ∈ [Kind.comma, .closeParen],
      k :: (front ++ (list ++ g.closer :: rest)) <:+ all) :
    ∃ why, (nested limit g.holds (front ++ (list ++ g.closer :: rest))).getD
        (recover g.context (front ++ (list ++ g.closer :: rest))) =
          skip why front.length (front ++ (list ++ g.closer :: rest)) ∧
      (limited all).skip why front (front ++ (list ++ g.closer :: rest)) := by
  obtain ⟨ks, brace⟩ := starts_braced word
  cases holds : g.holds with
  | element =>
      have other : g.context ≠ .argumentList := by cases g <;> first | decide | cases holds
      have none : nested limit .element (front ++ (list ++ g.closer :: rest)) = none := by
        rw [brace]
        cases limit <;> rfl
      rw [none, Option.getD_none, recover_braced word goes]
      refine ⟨_, rfl, Or.inr ⟨_, rfl, other, ?_, behind⟩⟩
      rw [brace]
      rfl
  | value =>
      obtain rfl : limit = 0 := by
        rcases deep with deep | element
        · exact deep
        · rw [holds] at element
          cases element
      have deepest : nested 0 .value (front ++ (list ++ g.closer :: rest)) =
          some (tooDeep (front ++ (list ++ g.closer :: rest))) := by
        rw [brace]
        rfl
      rw [deepest, Option.getD_some, tooDeep_braced word]
      exact ⟨_, rfl, Or.inl rfl⟩

end

section

variable {all : List Kind} {limit depth : Nat} {g : Group} {list rest ks : List Kind}

/-- What is ahead in a list stays ahead after each item. -/
theorem item_follows (follows : Follows all limit) (suffix : list ++ g.closer :: rest <:+ all)
    (ahead : Ahead all limit depth g rest list) (filled : list ≠ []) :
    ∃ out, groupItem g (nested limit g.holds) (list ++ g.closer :: rest) = some out ∧
      ∃ list', Lawful all (list ++ g.closer :: rest) out (list' ++ g.closer :: rest) ∧
        Ahead all limit depth g rest list' := by
  cases ahead with
  | items word =>
      -- A construct is read or cut, and a comma may come behind it.
      obtain ⟨k, ks, rfl⟩ := List.exists_cons_of_ne_nil filled
      obtain ⟨first, read, answer, clean, more, goes, left⟩ := first_item word rest
      obtain ⟨read', answer', rest', item, near⟩ := follows _ _ _ read answer clean
      have comma : ∃ list', Lawful all rest' (comma? rest') (list' ++ g.closer :: rest) ∧
          Ahead all limit depth g rest list' := by
        rw [left] at near
        rcases near with rfl | ⟨deep, cut⟩
        · obtain ⟨list', word, lawful⟩ := comma?_tail goes
          exact ⟨list', lawful, .items word⟩
        · exact ahead_of_cut deep goes suffix cut
      obtain ⟨list', comma, ahead⟩ := comma
      have applies := groupItem_inside (inside_of_first first) (nested limit g.holds)
        (ks ++ g.closer :: rest)
      rw [← List.cons_append, answer', Option.getD_some] at applies
      refine ⟨_, applies, list', ?_, ahead⟩
      rw [show read'.2 = rest' from item.rest]
      exact item.append comma
  | braced word deep behind =>
      obtain ⟨front, brace, more, goes, rfl⟩ := Language.mem_mul.mp word
      rw [List.append_assoc] at behind ⊢
      obtain ⟨why, skipped, lawful⟩ := skip_braced brace goes deep behind
      obtain ⟨list', word, comma⟩ := comma?_tail goes
      have inside : g.ends.contains .openBrace = false := by cases g <;> rfl
      have item := Lawful.skip front (more ++ g.closer :: rest) fun _ => lawful
      obtain ⟨ks, starts⟩ := starts_braced brace
      have applies := groupItem_inside inside (nested limit g.holds)
        (ks ++ (more ++ g.closer :: rest))
      rw [← List.cons_append, ← starts, skipped] at applies
      refine ⟨_, applies, list', ?_, .items word⟩
      rw [show (skip why front.length _).2 = more ++ g.closer :: rest from item.rest]
      exact item.append comma

/-- By induction on the length of the list, of which each item takes something away. -/
theorem list_follows (follows : Follows all limit) (suffix : list ++ g.closer :: rest <:+ all)
    (ahead : Ahead all limit depth g rest list) :
    Lawful all (list ++ g.closer :: rest)
      (repeated (groupItem g (nested limit g.holds)) (list ++ g.closer :: rest))
      (g.closer :: rest) := by
  induction length : list.length using Nat.strong_induction_on generalizing list with
  | _ n ih =>
      cases list with
      | nil =>
          rw [List.nil_append, repeated_of_none (groupItem_closer g _ rest)]
          exact .nil _
      | cons k ks =>
          obtain ⟨out, applies, list', item, ahead'⟩ :=
            item_follows follows suffix ahead (List.cons_ne_nil k ks)
          have advances := groupItem_advances g (nested_advances limit g.holds)
          have shorter := advances _ out applies
          rw [item.rest, List.length_append, List.length_append] at shorter
          have behind : list' ++ g.closer :: rest <:+ all :=
            List.IsSuffix.trans ⟨_, item.split⟩ suffix
          have others := ih list'.length (by omega) behind ahead' rfl
          rw [repeated_of_some advances applies, item.rest]
          exact item.append others

end

section

variable {limit depth : Nat} (follows : ∀ all, Follows all limit)

include follows

theorem group_follows {all : List Kind} (g : Group) (ks : List Kind)
    (clean : ∀ p ∈ (group g (nested depth) ks).1, p.Clean) :
    Lawful all (g.opener :: ks) (group g (nested limit) ks) (group g (nested depth) ks).2 := by
  have items : ∀ p ∈ (repeated (groupItem g (nested depth g.holds)) ks).1, p.Clean :=
    fun p member => clean p (List.mem_append_left _ (List.mem_cons_of_mem _ member))
  obtain ⟨rest, closed⟩ := closed_of_clean fun p member => clean p (List.mem_append_right _ member)
  obtain ⟨list, word, rfl⟩ := items_of_whole ⟨items, closed⟩
  have close : closing g (g.closer :: rest) = ([.token g.closer], rest) := if_pos rfl
  have lists (all : List Kind) (suffix : list ++ g.closer :: rest <:+ all) :=
    list_follows (follows all) suffix (.items word)
  have alone := lists _ List.suffix_rfl
  have inner : Lawful all (list ++ g.closer :: rest)
      (repeated (groupItem g (nested limit g.holds)) (list ++ g.closer :: rest))
      (g.closer :: rest) :=
    ⟨alone.split, fun suffix => (lists all suffix).lawful suffix, alone.rest⟩
  rw [group, group, closed, inner.rest, close]
  exact (inner.cons g.opener).append (.token g.closer rest)

end

theorem near_wider {limit depth : Nat} {c : Construct} {ks ks' rest rest' : List Kind}
    (suffix : ks <:+ ks') (near : Near limit depth c ks rest rest') :
    Near limit depth c ks' rest rest' := by
  rcases near with same | ⟨deep, w, word, inside, ends⟩
  · exact Or.inl same
  · exact Or.inr ⟨deep, w, word, inside.trans suffix, ends⟩

/-- Under an element with one level left a value is too deep. -/
theorem near_element {limit depth : Nat} {ks rest rest' : List Kind}
    (near : Near limit depth .value ks rest rest') :
    Near (limit + 1) (depth + 1) .element ks rest rest' := by
  rcases near with same | ⟨deep, w, word, inside, ends⟩
  · exact Or.inl same
  · have last : limit = 0 := by
      rcases deep with deep | ⟨-, element⟩
      · exact deep
      · cases element
    have value : ∃ depth, w ∈ Sentence.construct depth .value := by
      rcases word with word | word
      · exact ⟨depth, word⟩
      · exact word
    exact Or.inr ⟨Or.inr ⟨by rw [last], rfl⟩, w, Or.inr value, inside, ends⟩

theorem nested_of_first {c : Construct} {k : Kind} (first : k ∈ c.first) (depth : Nat)
    (ks : List Kind) : nested (depth + 1) c (k :: ks) = construct (nested depth) c (k :: ks) :=
  if_pos (List.contains_iff_mem.mpr first)

theorem construct_of_clean {depth : Nat} {c : Construct} {ks : List Kind} {read : Read}
    (answer : nested depth c ks = some read) (clean : read.1.Clean) :
    ∃ depth' k ks', depth = depth' + 1 ∧ ks = k :: ks' ∧ k ∈ c.first ∧
      construct (nested depth') c (k :: ks') = some read := by
  cases depth with
  | zero =>
      obtain ⟨k, ks, rfl, -, rfl⟩ := nested_zero answer
      exact absurd clean (Outline.not_clean_skipped _ _)
  | succ depth =>
      obtain ⟨k, ks, rfl, first, answer⟩ := nested_succ answer
      exact ⟨depth, k, ks, rfl, rfl, first, answer⟩

theorem nested_follows (limit : Nat) (all : List Kind) : Follows all limit := by
  induction limit generalizing all with
  | zero =>
      -- The construct is skipped, from its own start.
      intro depth c ks read answer clean
      have reading := nested_reading depth c ks read answer
      have word := reading.sentence fun p member => by
        rw [List.mem_singleton.mp member]
        exact clean
      obtain ⟨-, k, ks, -, rfl, first, -⟩ := construct_of_clean answer clean
      have builds : Builds .topLevel (k :: ks) [(tooDeep (k :: ks)).1] (tooDeep (k :: ks)).2 :=
        .tooDeep c first
      refine ⟨tooDeep (k :: ks), if_pos (List.contains_iff_mem.mpr first), _,
        ⟨builds.split, fun _ => Outline.obeysAll_singleton.mpr (Or.inl rfl), rfl⟩, ?_⟩
      refine Or.inr ⟨Or.inl rfl, _, Or.inl word, ?_, ?_⟩
      · rw [reading.split]
      · rw [reading.split]
        rfl
  | succ limit ih =>
      intro depth c ks read answer clean
      obtain ⟨depth, k, ks, rfl, rfl, first, answer⟩ := construct_of_clean answer clean
      have groups (g : Group) (ks : List Kind)
          (clean : ∀ p ∈ (group g (nested depth) ks).1, p.Clean) :
          Lawful all (g.opener :: ks) (group g (nested limit) ks) (group g (nested depth) ks).2 :=
        group_follows ih g ks clean
      rw [nested_of_first first]
      cases c with
      | element =>
          -- Only the value at the end of an element may be cut: groups are read to their closers.
          rw [construct] at answer ⊢
          have same (ks rest : List Kind) : Near (limit + 1) (depth + 1) .element ks rest rest :=
            Or.inl rfl
          refine element_follows groups same (fun _ _ _ _ => near_wider) ?_ answer clean
          intro ks read answer clean
          obtain ⟨read', answer', rest', lawful, near⟩ := ih all depth .value ks read answer clean
          exact ⟨read', answer', rest', lawful, near_element near⟩
      | value =>
          rw [construct] at answer ⊢
          obtain ⟨read', answer', lawful⟩ := value_follows groups answer clean
          exact ⟨read', answer', _, lawful, Or.inl rfl⟩

/-- At the top of a file there are no commas between elements. With less than two levels the comma
behind a context name may be left there, by a skip that stops at it. -/
def limitedFile (limit : Nat) (all : List Kind) : Law where
  node _ _ := True
  gap _ := False
  skip why run ks := (limited all).skip why run ks ∨
    limit < 2 ∧ why = .unexpected .topLevel ∧ ks.head? = some .comma ∧ .identifier :: ks <:+ all

/-- What may be ahead in a file under the limit: elements, or what was cut off from one. -/
inductive Resumed (all : List Kind) (limit depth : Nat) : List Kind → Prop
  | file {ks} (word : ks ∈ Sentence.file depth) : Resumed all limit depth ks
  | comma {ks} (word : ks ∈ Sentence.file depth ∨ ks ∈ braced * Sentence.file depth)
    (flat : limit < 2) (behind : .identifier :: .comma :: ks <:+ all) :
    Resumed all limit depth (.comma :: ks)
  | paren {ks} (word : ks ∈ braced * Sentence.file depth) (behind : .closeParen :: ks <:+ all) :
    Resumed all limit depth ks

section

variable {all : List Kind} {limit depth : Nat} {ks : List Kind}

/-- An element was cut, and a file is ahead. -/
theorem resumed_of_cut (flat : limit < 2) {rest rest' : List Kind}
    (goes : rest ∈ Sentence.file depth) (suffix : ks <:+ all)
    (cut : Cut depth .element ks rest rest') : Resumed all limit depth rest' := by
  obtain ⟨w, word, inside, rfl⟩ := cut
  obtain ⟨before, after, split, resumes, length⟩ :=
    Sentence.lands_file_one word goes (Sentence.lands_file goes)
  have whole := inside.trans suffix
  have ends := length [] nofun
  rw [List.append_nil] at ends
  rw [ends, split, List.drop_left]
  rw [split] at whole
  cases resumes with
  | next goes => exact .file goes
  | name cut last =>
      obtain ⟨front, rfl⟩ := List.getLast?_eq_some_iff.mp last
      rw [List.append_assoc, List.singleton_append] at whole
      exact .comma cut flat ((List.suffix_append front _).trans whole)
  | paren cut last =>
      obtain ⟨front, rfl⟩ := List.getLast?_eq_some_iff.mp last
      rw [List.append_assoc, List.singleton_append] at whole
      exact .paren cut ((List.suffix_append front _).trans whole)

/-- At the top of a file a skip stops at an element, or at the end. -/
theorem stops_at_file (word : ks ∈ Sentence.file depth) :
    skipLength Context.topLevel.stopsAt 0 ks = 0 := by
  obtain ⟨words, rfl, each⟩ := word
  cases words with
  | nil => rfl
  | cons w words =>
      obtain ⟨k, ks, rfl, first⟩ := starts_construct depth .element w (each w List.mem_cons_self)
      have stops : ∀ k ∈ Construct.first .element, Context.topLevel.stopsAt k = true := by decide
      rw [List.flatten_cons, List.cons_append, skipLength, if_pos (stops k first)]

theorem skipLength_braced (word : ks ∈ braced * Sentence.file depth) :
    ∃ front, ∃ rest ∈ Sentence.file depth, ks = .openBrace :: front ++ rest ∧
      skipLength Context.topLevel.stopsAt 1 (front ++ rest) = front.length := by
  obtain ⟨block, ⟨inner, rfl, nested⟩, rest, goes, rfl⟩ := word
  refine ⟨inner ++ [.closeBrace], rest, goes, rfl, ?_⟩
  have closes : Kind.closeBrace.isCloser = true := rfl
  have length := skipLength_group nested closes Context.topLevel.stopsAt rest
  rw [stops_at_file goes] at length
  simpa using length

theorem skipLength_behind_name
    (word : ks ∈ Sentence.file depth ∨ ks ∈ braced * Sentence.file depth) :
    ∃ front, ∃ rest ∈ Sentence.file depth, ks = front ++ rest ∧
      skipLength Context.topLevel.stopsAt 0 (front ++ rest) = front.length := by
  rcases word with goes | cut
  · exact ⟨[], ks, goes, rfl, stops_at_file goes⟩
  · obtain ⟨front, rest, goes, rfl, length⟩ := skipLength_braced cut
    have opens : Context.topLevel.stopsAt .openBrace = false := rfl
    refine ⟨.openBrace :: front, rest, goes, rfl, ?_⟩
    rw [List.cons_append, skipLength, opens, if_neg Bool.false_ne_true,
      if_pos (show Kind.openBrace.isOpener = true from rfl), length]
    rfl

theorem sentence_of_clean (clean : ∀ o ∈ file depth ks, o.Clean) : ks ∈ Sentence.file depth := by
  have reading := items_reading depth ks
  have word := reading.sentence clean
  have split := reading.split
  rw [items_rest, List.append_nil] at split
  rwa [split] at word

theorem first_element (word : ks ∈ Sentence.file depth) (filled : ks ≠ []) :
    ∃ read, nested depth .element ks = some read ∧ read.1.Clean ∧
      read.2 ∈ Sentence.file depth := by
  obtain ⟨k, ks, rfl⟩ := List.exists_cons_of_ne_nil filled
  have clean := file_clean word
  rw [file, repeated_of_some (fileItem_advances (nested_advances depth .element)) rfl] at clean
  obtain ⟨read, answer, one⟩ :=
    some_of_clean (clean _ (List.mem_append_left _ (List.mem_singleton_self _)))
  have others := fun o member => clean o (List.mem_append_right _ member)
  rw [answer] at others
  exact ⟨read, answer, one, sentence_of_clean others⟩

def FileStep (all : List Kind) (limit depth : Nat) (ks : List Kind) : Prop :=
  ∃ out, fileItem (nested limit .element) ks = some out ∧ kindsOfAll out.1 ++ out.2 = ks ∧
    ObeysAll (limitedFile limit all) out.1 ks ∧ Resumed all limit depth out.2

theorem fileStep_element (suffix : ks <:+ all) (word : ks ∈ Sentence.file depth) (filled : ks ≠ []) :
    FileStep all limit depth ks := by
  obtain ⟨read, answer, clean, goes⟩ := first_element word filled
  obtain ⟨read', answer', rest', lawful, near⟩ :=
    nested_follows limit all depth .element ks read answer clean
  have applies : fileItem (nested limit .element) ks = some ([read'.1], read'.2) := by
    obtain ⟨k, ks, rfl⟩ := List.exists_cons_of_ne_nil filled
    change some _ = _
    rw [answer', Option.getD_some]
  have ahead : Resumed all limit depth rest' := by
    rcases near with rfl | ⟨deep, cut⟩
    · exact .file goes
    · exact resumed_of_cut (by omega) goes suffix cut
  have obeys : ObeysAll (limitedFile limit all) [read'.1] ks := by
    apply Outline.ObeysAll.mono _ _ _ _ (lawful.lawful suffix)
    · exact fun _ _ => id
    · exact fun _ => id
    · exact fun _ _ _ => Or.inl
  refine ⟨_, applies, ?_, obeys, ?_⟩
  · rw [lawful.rest]
    exact lawful.split
  · rw [lawful.rest]
    exact ahead

/-- What was cut off from an element is skipped, up to an element. -/
theorem fileStep_cut {k : Kind} {front rest : List Kind} (other : k ∉ Construct.first .element)
    (goes : rest ∈ Sentence.file depth)
    (length : skipLength Context.topLevel.stopsAt (if k.isOpener then 1 else 0) (front ++ rest) =
      front.length)
    (lawful : (limitedFile limit all).skip (.unexpected .topLevel) (k :: front)
      (k :: front ++ rest)) : FileStep all limit depth (k :: front ++ rest) := by
  have none : nested limit .element (k :: front ++ rest) = none := by
    have absent : ¬ (Construct.first .element).contains k = true :=
      fun member => other (List.contains_iff_mem.mp member)
    cases limit <;> exact if_neg absent
  have applies : fileItem (nested limit .element) (k :: front ++ rest) =
      some ([.skipped (.unexpected .topLevel) (k :: front)], rest) := by
    change some _ = _
    rw [none, Option.getD_none, List.cons_append, recover, length, skip]
    simp
  refine ⟨_, applies, ?_, Outline.obeysAll_singleton.mpr lawful, .file goes⟩
  rw [Outline.kindsOfAll_singleton]
  rfl

/-- What is ahead in a file stays ahead after each step. -/
theorem fileStep_of_resumed (suffix : ks <:+ all) (resumed : Resumed all limit depth ks)
    (filled : ks ≠ []) : FileStep all limit depth ks := by
  cases resumed with
  | file word => exact fileStep_element suffix word filled
  | comma word flat behind =>
      obtain ⟨front, rest, goes, rfl, length⟩ := skipLength_behind_name word
      exact fileStep_cut (by decide) goes length (Or.inr ⟨flat, rfl, rfl, behind⟩)
  | paren word behind =>
      obtain ⟨front, rest, goes, rfl, length⟩ := skipLength_braced word
      apply fileStep_cut (k := .openBrace) (by decide) goes length
      exact Or.inl (Or.inr ⟨.topLevel, rfl, by decide, rfl, .closeParen, by decide, behind⟩)

/-- By induction on the number of kinds ahead, of which each step takes some. -/
theorem obeys_of_resumed (suffix : ks <:+ all) (resumed : Resumed all limit depth ks) :
    ObeysAll (limitedFile limit all) (repeated (fileItem (nested limit .element)) ks).1 ks := by
  have advances := fileItem_advances (nested_advances limit .element)
  induction length : ks.length using Nat.strong_induction_on generalizing ks with
  | _ n ih =>
      cases ks with
      | nil => trivial
      | cons k ks =>
          obtain ⟨out, applies, split, obeys, ahead⟩ :=
            fileStep_of_resumed suffix resumed (List.cons_ne_nil k ks)
          have shorter := advances _ out applies
          have behind : out.2 <:+ k :: ks := ⟨_, split⟩
          have others := ih _ (length ▸ shorter) (behind.trans suffix) ahead rfl
          rw [repeated_of_some advances applies]
          exact Outline.obeysAll_append split obeys others

end

/-- A file that is read cleanly with any depth keeps the law. -/
theorem file_follows {limit depth : Nat} {ks : List Kind}
    (clean : ∀ o ∈ file depth ks, o.Clean) : ObeysAll (limitedFile limit ks) (file limit ks) ks :=
  obeys_of_resumed List.suffix_rfl (.file (sentence_of_clean clean))

end ConfigSyntax.Grammar
