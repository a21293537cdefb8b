import ConfigSyntax.Proofs.Whole

/-! Groups and values read the sentences of their languages. Of two values side by side the second
may go on where the first ends; then they are read as one, which is a value too. -/

namespace ConfigSyntax.Grammar

open scoped Computability

/-- The rules read what they should, as far as it matters to a group of constructs. -/
structure Accepts (rules : Construct → Rule) (constructs : Construct → Language Kind) : Prop where
  advances : ∀ c, (rules c).Advances
  starts : ∀ c, Sentence.Starts c.first (constructs c)
  exact : ∀ c, ∀ w ∈ constructs c, ∀ rest, Avoids extenders rest → (rules c).Exact w rest
  joins : ∀ c, ∀ w ∈ constructs c, ∀ w' ∈ constructs c,
    w ++ w' ∈ constructs c ∨ ∀ rest, (rules c).Exact w (w' ++ rest)

theorem not_comma_of_first {c : Construct} : ∀ k ∈ c.first, k ∉ [Kind.comma] := by
  cases c <;> decide

theorem not_end_of_first {g : Group} : ∀ k ∈ g.holds.first, k ∉ g.ends := by
  cases g <;> decide

theorem groupItem_closer (g : Group) (rule : Rule) (rest : List Kind) :
    groupItem g rule (g.closer :: rest) = none := by
  have ends : g.ends.contains g.closer = true := by cases g <;> rfl
  rw [groupItem, if_pos ends]

theorem groupItem_whole {g : Group} {rule : Rule} {w c rest : List Kind} {k : Kind}
    {ks : List Kind} (start : w = k :: ks) (first : k ∈ g.holds.first)
    (exact : rule.Exact w (c ++ rest)) (comma : c ∈ (1 + Sentence.word .comma : Language Kind))
    (ends : Avoids [.comma] rest) :
    ∃ out, groupItem g rule (w ++ (c ++ rest)) = some out ∧ Whole out rest := by
  obtain ⟨read, answer, whole⟩ := exact
  have inside : g.ends.contains k = false := by
    have notEnd := not_end_of_first k first
    simpa using notEnd
  rw [start, List.cons_append] at answer ⊢
  rw [groupItem, inside, if_neg Bool.false_ne_true, answer, Option.getD_some]
  refine ⟨_, rfl, ?_⟩
  rw [show read.2 = c ++ rest from whole.rest]
  exact whole.append (comma?_whole comma ends)

section

variable {rules : Construct → Rule} {constructs : Construct → Language Kind}
  (accepts : Accepts rules constructs)

include accepts

theorem avoids_comma_items {g : Group} {items : List (List Kind)}
    (each : ∀ w ∈ items, w ∈ constructs g.holds * (1 + Sentence.word .comma)) (rest : List Kind) :
    Avoids [.comma] (items.flatten ++ g.closer :: rest) := by
  cases items with
  | nil =>
      apply avoids_cons
      cases g <;> decide
  | cons item items =>
      obtain ⟨w, word, c, -, rfl⟩ := each _ List.mem_cons_self
      obtain ⟨k, ks, rfl, first⟩ := accepts.starts _ w word
      exact avoids_cons (not_comma_of_first k first) _

/-- By induction on the number of items, since two of them may be read as one. -/
theorem items_whole (g : Group) (items : List (List Kind))
    (each : ∀ w ∈ items, w ∈ constructs g.holds * (1 + Sentence.word .comma))
    (rest : List Kind) :
    Whole (repeated (groupItem g (rules g.holds)) (items.flatten ++ g.closer :: rest))
      (g.closer :: rest) := by
  induction length : items.length generalizing items with
  | zero =>
      rw [List.length_eq_zero_iff.mp length]
      exact repeated_done (groupItem_closer g _ rest)
  | succ n ih =>
      obtain ⟨item, items, rfl⟩ := List.exists_cons_of_length_eq_add_one length
      obtain ⟨w, word, c, comma, rfl⟩ := each _ List.mem_cons_self
      have within : ∀ w ∈ items, w ∈ constructs g.holds * (1 + Sentence.word .comma) :=
        fun w member => each w (List.mem_cons_of_mem _ member)
      have shorter : items.length = n := Nat.succ.inj length
      -- What is left to show where the first item is read alone.
      have apart (exact : (rules g.holds).Exact w (c ++ (items.flatten ++ g.closer :: rest))) :
          Whole (repeated (groupItem g (rules g.holds))
            (((w ++ c) :: items).flatten ++ g.closer :: rest)) (g.closer :: rest) := by
        obtain ⟨k, ks, start, first⟩ := accepts.starts _ w word
        obtain ⟨out, applies, whole⟩ := groupItem_whole start first exact comma
          (avoids_comma_items accepts within rest)
        rw [List.flatten_cons, List.append_assoc, List.append_assoc]
        exact repeated_whole (groupItem_advances g (accepts.advances _)) applies whole
          (ih items within shorter)
      rcases comma with empty | comma
      · obtain rfl : c = [] := (Language.mem_one c).mp empty
        cases items with
        | nil =>
            apply apart
            apply accepts.exact _ w word
            apply avoids_cons
            cases g <;> decide
        | cons next items =>
            obtain ⟨w', word', c', comma', rfl⟩ := within _ List.mem_cons_self
            rcases accepts.joins _ w word w' word' with joined | exact
            -- The two are read as one item, and one item less is left.
            · have one := ih ((w ++ w' ++ c') :: items) (by
                intro v member
                rcases List.mem_cons.mp member with rfl | member
                · exact Language.append_mem_mul joined comma'
                · exact within v (List.mem_cons_of_mem _ member)) shorter
              simpa only [List.flatten_cons, List.append_assoc, List.append_nil, List.nil_append]
                using one
            · apply apart
              simpa only [List.flatten_cons, List.append_assoc, List.nil_append] using
                exact (c' ++ (items.flatten ++ g.closer :: rest))
      · obtain rfl : c = [.comma] := comma
        exact apart (accepts.exact _ w word _ (avoids_cons (by decide) _))

theorem group_whole (g : Group) {w : List Kind} (word : w ∈ Sentence.group constructs g) :
    ∃ ks, w = g.opener :: ks ∧ ∀ rest, Whole (group g rules (ks ++ rest)) rest := by
  obtain ⟨front, inner, last, closer, rfl⟩ := word
  obtain ⟨first, opener, body, word, rfl⟩ := inner
  obtain ⟨items, rfl, each⟩ := word
  refine ⟨items.flatten ++ last, ?_, ?_⟩
  · rw [show first = [g.opener] from opener]
    rfl
  · intro rest
    rw [show last = [g.closer] from closer, List.append_assoc]
    change Whole (group g rules (items.flatten ++ g.closer :: rest)) rest
    have whole := items_whole accepts g items each rest
    have close : Whole (closing g (g.closer :: rest)) rest := by
      rw [closing, if_pos rfl]
      exact .token g.closer rest
    rw [group, whole.rest]
    exact (whole.cons g.opener).append close

theorem invocation_whole {w : List Kind} (word : w ∈ Sentence.invocation constructs) :
    ∃ ks, w = .identifier :: ks ∧ ∀ rest, ∃ inner,
      (reference (ks ++ rest)).2 = .openParen :: inner ∧
        Whole ([(invocation rules (reference (ks ++ rest)).1 inner).1],
          (invocation rules (reference (ks ++ rest)).1 inner).2) rest := by
  obtain ⟨name, first, arguments, second, rfl⟩ := word
  obtain ⟨ks, rfl, callee⟩ := reference_whole first
  obtain ⟨inner, rfl, group⟩ := group_whole accepts .arguments second
  refine ⟨ks ++ .openParen :: inner, rfl, fun rest => ⟨inner ++ rest, ?_⟩⟩
  have name := callee (.openParen :: inner ++ rest) (avoids_cons (by decide) _)
  rw [List.append_assoc]
  exact ⟨name.rest, (name.append (group rest)).node .invocationExpression⟩

omit accepts in
theorem constructed_alone {rest : List Kind} (ends : Avoids [.openBrace] rest) (name : Outline) :
    constructed rules name rest = (name, rest) := by
  unfold constructed
  split
  · exact absurd rfl (ends.head_ne .openBrace (by decide))
  · rfl

theorem constructed_whole {w : List Kind} (word : w ∈ Sentence.group constructs .object)
    {name : Outline} (clean : name.Clean) (rest : List Kind) :
    Whole ([(constructed rules name (w ++ rest)).1], (constructed rules name (w ++ rest)).2)
      rest := by
  obtain ⟨ks, rfl, group⟩ := group_whole accepts .object word
  have constructor := (Whole.one clean rest).node .constructorReference
  exact (constructor.append (group rest)).node .object

omit accepts in
theorem value_of_call {ks inner : List Kind} (opens : (reference ks).2 = .openParen :: inner) :
    value rules (.identifier :: ks) = some (constructed rules
      (invocation rules (reference ks).1 inner).1 (invocation rules (reference ks).1 inner).2) := by
  simp only [value, opens]

omit accepts in
theorem value_of_name {ks : List Kind} (closed : Avoids [.openParen] (reference ks).2) :
    value rules (.identifier :: ks) =
      some (constructed rules (reference ks).1 (reference ks).2) := by
  simp only [value]
  split
  case h_1 inner opens =>
    rw [opens] at closed
    exact absurd rfl (closed.head_ne .openParen (by decide))
  case h_2 => rfl

def Names (rules : Construct → Rule) (w rest : List Kind) : Prop :=
  ∃ name : Outline, name.Clean ∧ value rules (w ++ rest) = some (constructed rules name rest)

omit accepts in
theorem Names.alone {w rest : List Kind} (names : Names rules w rest)
    (ends : Avoids [.openBrace] rest) : (value rules).Exact w rest := by
  obtain ⟨name, clean, answer⟩ := names
  refine ⟨_, answer, ?_⟩
  rw [constructed_alone ends]
  exact .one clean rest

theorem Names.object {w body rest : List Kind} (names : Names rules w (body ++ rest))
    (word : body ∈ Sentence.group constructs .object) : (value rules).Exact (w ++ body) rest := by
  obtain ⟨name, clean, answer⟩ := names
  rw [← List.append_assoc] at answer
  exact ⟨_, answer, constructed_whole accepts word clean rest⟩

theorem invocation_names {w : List Kind} (word : w ∈ Sentence.invocation constructs)
    (rest : List Kind) : Names rules w rest := by
  obtain ⟨ks, rfl, whole⟩ := invocation_whole accepts word
  obtain ⟨inner, opens, call⟩ := whole rest
  refine ⟨_, call.clean _ (List.mem_singleton_self _), ?_⟩
  rw [List.cons_append, value_of_call opens]
  rw [show (invocation rules _ inner).2 = rest from call.rest]

omit accepts in
theorem reference_names {w : List Kind} (word : w ∈ Sentence.reference) {rest : List Kind}
    (ends : Avoids [.dot, .openParen] rest) : Names rules w rest := by
  obtain ⟨ks, rfl, whole⟩ := reference_whole word
  have name := whole rest (ends.mono (by decide))
  refine ⟨_, name.clean _ (List.mem_singleton_self _), ?_⟩
  have stops : (reference (ks ++ rest)).2 = rest := name.rest
  have closed : Avoids [.openParen] (reference (ks ++ rest)).2 := by
    rw [stops]
    exact ends.mono (by decide)
  rw [List.cons_append, value_of_name closed, stops]

omit accepts in
theorem value_of_literal {k kind : Kind} (known : literalKind? k = some kind) (rest : List Kind) :
    value rules (k :: rest) = some (if k.isString
      then constructed rules (.node kind [.token k]) rest else (.node kind [.token k], rest)) := by
  cases k <;> cases known <;> rfl

omit accepts in
theorem string_names {w : List Kind} (word : w ∈ Sentence.string) (rest : List Kind) :
    Names rules w rest := by
  obtain ⟨k, rfl, quoted, known⟩ := string_of_word word
  refine ⟨.node .stringLiteral [.token k], ?_, ?_⟩
  · exact ((Whole.token k rest).node .stringLiteral).clean _ (List.mem_singleton_self _)
  · rw [List.singleton_append, value_of_literal known, if_pos quoted]

/-- A value of the kinds `w`, read where none of `stops` follows. With an object or a name behind
a dot where those are what must not follow, it is another value. -/
structure Ends (rules : Construct → Rule) (constructs : Construct → Language Kind)
    (w stops : List Kind) : Prop where
  exact : ∀ rest, Avoids stops rest → (value rules).Exact w rest
  known : ∀ k ∈ stops, k ∈ [.dot, .openParen, .openBrace]
  object : .openBrace ∈ stops →
    ∀ body ∈ Sentence.group constructs .object, w ++ body ∈ Sentence.value constructs
  dotted : .dot ∈ stops → ∀ name ∈ Sentence.word .dot * Sentence.reference,
    w ++ name ∈ Sentence.value constructs

omit accepts in
theorem constructed_mem_value {name body : List Kind}
    (first : name ∈ (1 + Sentence.invocation constructs + Sentence.reference + Sentence.string :
      Language Kind)) (second : body ∈ Sentence.group constructs .object) :
    name ++ body ∈ Sentence.value constructs := by
  have word := Language.append_mem_mul first second
  simp only [Sentence.value, Language.mem_add]
  tauto

omit accepts in
theorem reference_append {w w' : List Kind} (first : w ∈ Sentence.reference)
    (second : w' ∈ Sentence.word .dot * Sentence.reference) : w ++ w' ∈ Sentence.reference := by
  obtain ⟨head, name, segments, more, rfl⟩ := first
  obtain ⟨dot, isDot, reference, ⟨head', name', segments', more', rfl⟩, rfl⟩ := second
  have segment := Language.append_mem_mul (Language.append_mem_mul isDot name') more'
  have rest := Language.append_mem_mul more (mem_kstar_of_mem_mul _ segment)
  rw [kstar_mul_kstar] at rest
  have whole := Language.append_mem_mul name rest
  rw [Sentence.reference]
  simpa only [List.append_assoc] using whole

theorem object_exact {name body : List Kind}
    (first : name ∈ (1 + Sentence.invocation constructs + Sentence.reference + Sentence.string :
      Language Kind)) (second : body ∈ Sentence.group constructs .object) (rest : List Kind) :
    (value rules).Exact (name ++ body) rest := by
  obtain ⟨ks, rfl, group⟩ := group_whole accepts .object second
  rcases first with ((empty | call) | reference) | string
  · rw [(Language.mem_one name).mp empty]
    exact ⟨_, rfl, (group rest).node .object⟩
  · exact (invocation_names accepts call _).object accepts second
  · exact (reference_names reference (avoids_cons (by decide) _)).object accepts second
  · exact (string_names string _).object accepts second

omit accepts in
theorem dotted_exact {w : List Kind} (word : w ∈ Sentence.word .dot * Sentence.reference)
    {rest : List Kind} (ends : Avoids [.dot] rest) : (value rules).Exact w rest := by
  obtain ⟨dot, first, name, second, rfl⟩ := word
  obtain ⟨ks, rfl, whole⟩ := reference_whole second
  rw [show dot = [.dot] from first]
  exact ⟨_, rfl, ((whole rest ends).cons .dot).node .contextualPropertyReference⟩

omit accepts in
theorem literal_exact {w : List Kind}
    (word : w ∈ Sentence.wordOf [.number, .trueWord, .falseWord, .nullWord]) (rest : List Kind) :
    (value rules).Exact w rest := by
  have plain : ∀ k ∈ [Kind.number, .trueWord, .falseWord, .nullWord], k.isString = false := by
    decide
  obtain ⟨k', kind, same, known⟩ := literalKind?_of_word (Or.inr word)
  obtain ⟨k, member, rfl⟩ := word
  rw [← List.singleton_inj.mp same] at known
  refine ⟨(.node kind [.token k], rest), ?_, (Whole.token k rest).node kind⟩
  rw [List.singleton_append, value_of_literal known, plain k member, if_neg Bool.false_ne_true]

omit accepts in
theorem Ends.anything {w : List Kind} (exact : ∀ rest, (value rules).Exact w rest) :
    Ends rules constructs w [] where
  exact := fun rest _ => exact rest
  known := nofun
  object := nofun
  dotted := nofun

omit accepts in
theorem string_ends {w : List Kind} (word : w ∈ Sentence.string) :
    Ends rules constructs w [.openBrace] where
  exact := fun rest ends => (string_names word rest).alone ends
  known := by decide
  object := fun _ _ => constructed_mem_value (Or.inr word)
  dotted := nofun

theorem invocation_ends {w : List Kind} (word : w ∈ Sentence.invocation constructs) :
    Ends rules constructs w [.openBrace] where
  exact := fun rest ends => (invocation_names accepts word rest).alone ends
  known := by decide
  object := fun _ _ => constructed_mem_value (Or.inl (Or.inl (Or.inr word)))
  dotted := nofun

omit accepts in
theorem dotted_ends {w : List Kind} (word : w ∈ Sentence.word .dot * Sentence.reference) :
    Ends rules constructs w [.dot] where
  exact := fun _ ends => dotted_exact word ends
  known := by decide
  object := nofun
  dotted := by
    intro _ name second
    obtain ⟨dot, first, reference, more, rfl⟩ := word
    have longer := Language.append_mem_mul first (reference_append more second)
    rw [List.append_assoc]
    exact Or.inl (Or.inr longer)

omit accepts in
theorem reference_ends {w : List Kind} (word : w ∈ Sentence.reference) :
    Ends rules constructs w [.dot, .openParen, .openBrace] where
  exact := fun _ ends => (reference_names word (ends.mono (by decide))).alone
    (ends.mono (by decide))
  known := by decide
  object := fun _ _ => constructed_mem_value (Or.inl (Or.inr word))
  dotted := fun _ _ second => Or.inr (reference_append word second)

theorem value_ends {w : List Kind} (word : w ∈ Sentence.value constructs) :
    ∃ stops, Ends rules constructs w stops := by
  rcases word with (((object | literal) | call) | dotted) | name
  · obtain ⟨name, first, body, second, rfl⟩ := object
    exact ⟨[], .anything (object_exact accepts first second)⟩
  · rcases literal with string | other
    · exact ⟨_, string_ends string⟩
    · exact ⟨[], .anything (literal_exact other)⟩
  · exact ⟨_, invocation_ends accepts call⟩
  · exact ⟨_, dotted_ends dotted⟩
  · exact ⟨_, reference_ends name⟩

theorem value_exact {w rest : List Kind} (word : w ∈ Sentence.value constructs)
    (ends : Avoids extenders rest) : (value rules).Exact w rest := by
  have included : ∀ k ∈ [Kind.dot, .openParen, .openBrace], k ∈ extenders := by decide
  obtain ⟨stops, value⟩ := value_ends accepts word
  exact value.exact rest (ends.mono fun k stop => included k (value.known k stop))

theorem value_joins {w w' : List Kind} (first : w ∈ Sentence.value constructs)
    (second : w' ∈ Sentence.value constructs) :
    w ++ w' ∈ Sentence.value constructs ∨ ∀ rest, (value rules).Exact w (w' ++ rest) := by
  obtain ⟨stops, ends⟩ := value_ends accepts first
  have apart {k : Kind} {ks : List Kind} (other : k ∉ stops) (rest : List Kind) :
      (value rules).Exact w (k :: ks ++ rest) := ends.exact _ (avoids_cons other _)
  rcases Sentence.starts_value constructs w' second with name | object | dotted
  · obtain ⟨k, ks, rfl, start⟩ := name
    have other : ∀ k ∈ Kind.propertyNameFirst, k ∉ [.dot, .openParen, .openBrace] := by decide
    exact Or.inr (apart fun stop => other k start (ends.known k stop))
  · obtain ⟨ks, rfl, -⟩ := group_whole accepts .object object
    by_cases stop : .openBrace ∈ stops
    · exact Or.inl (ends.object stop _ object)
    · exact Or.inr (apart stop)
  · obtain ⟨dot, isDot, name, -, rfl⟩ := id dotted
    obtain rfl : dot = [.dot] := isDot
    by_cases stop : .dot ∈ stops
    · exact Or.inl (ends.dotted stop _ dotted)
    · exact Or.inr (apart stop)

end

end ConfigSyntax.Grammar
