import ConfigSyntax.Proofs.Exact.Value

/-! Elements read the sentences of their languages, and so do the nested rules. Main statements:
`nested_accepts`, `file_clean`. -/

namespace ConfigSyntax.Grammar

open scoped Computability

section

variable {rules : Construct → Rule} {constructs : Construct → Language Kind}
  (accepts : Accepts rules constructs)

include accepts

theorem assigned_whole {w rest : List Kind} (word : w ∈ constructs .value)
    (ends : Avoids extenders rest) (c : Context) :
    Whole ([(assigned rules c (w ++ rest)).1], (assigned rules c (w ++ rest)).2) rest := by
  obtain ⟨read, answer, whole⟩ := accepts.exact .value w word rest ends
  rw [assigned, answer, Option.getD_some]
  exact whole

omit accepts in
theorem property_alone {rest : List Kind} (unassigned : Avoids [.equals] rest)
    (closed : Avoids [.openBrace] rest) (name : Outline) :
    property rules name rest = (.node .property [name], rest) := by
  unfold property
  split
  · exact absurd rfl (unassigned.head_ne .equals (by decide))
  · exact absurd rfl (closed.head_ne .openBrace (by decide))
  · rfl

theorem property_whole {w rest : List Kind} (word : w ∈ Sentence.content constructs)
    (ends : Avoids extenders rest) {name : Outline} (clean : name.Clean) :
    Whole ([(property rules name (w ++ rest)).1], (property rules name (w ++ rest)).2) rest := by
  rcases word with (empty | assigned) | object
  · rw [(Language.mem_one w).mp empty, List.nil_append,
      property_alone (ends.mono (by decide)) (ends.mono (by decide))]
    exact (Whole.one clean rest).node .property
  · obtain ⟨sign, first, value, second, rfl⟩ := assigned
    obtain rfl : sign = [.equals] := first
    have value := (assigned_whole accepts second ends .propertyValue).cons .equals
    exact ((Whole.one clean rest).append value).node .property
  · obtain ⟨ks, rfl, group⟩ := group_whole accepts .object object
    have body := (group rest).node .object
    exact ((Whole.one clean rest).append body).node .property

theorem declaration_exact {w rest : List Kind} (word : w ∈ Sentence.declaration constructs)
    (ends : Avoids extenders rest) : (statement rules).Exact w rest := by
  obtain ⟨front, ⟨front', ⟨val, first, name, second, rfl⟩, sign, third, rfl⟩, value, last, rfl⟩ :=
    word
  obtain rfl : val = [.valWord] := first
  obtain rfl : name = [.identifier] := second
  obtain rfl : sign = [.equals] := third
  have value := assigned_whole accepts last ends .variableDeclaration
  exact ⟨_, rfl,
    (((value.cons .equals).cons .identifier).cons .valWord).node .variableDeclaration⟩

omit accepts in
theorem content_avoids {w rest : List Kind} (word : w ∈ Sentence.content constructs)
    (ends : Avoids extenders rest) : Avoids [.dot, .openParen] (w ++ rest) := by
  rcases word with (empty | assigned) | object
  · rw [(Language.mem_one w).mp empty]
    exact ends.mono (by decide)
  · obtain ⟨sign, first, value, -, rfl⟩ := assigned
    obtain rfl : sign = [.equals] := first
    exact avoids_cons (by decide) _
  · have opener : Sentence.Starts [.openBrace] (Sentence.group constructs .object) :=
      Sentence.starts_group constructs (by decide)
    obtain ⟨k, ks, rfl, start⟩ := opener w object
    rw [List.mem_singleton.mp start]
    exact avoids_cons (by decide) _

omit accepts in
theorem statement_of_literal {k kind : Kind} (known : literalKind? k = some kind)
    (rest : List Kind) :
    statement rules (k :: rest) = some (property rules (.node kind [.token k]) rest) := by
  cases k <;> cases known <;> rfl

omit accepts in
theorem statement_of_call {ks inner : List Kind} (opens : (reference ks).2 = .openParen :: inner) :
    statement rules (.identifier :: ks) =
      some (.node .invocationElement [(invocation rules (reference ks).1 inner).1],
        (invocation rules (reference ks).1 inner).2) := by
  simp only [statement, opens]

omit accepts in
theorem statement_of_name {ks : List Kind} (closed : Avoids [.openParen] (reference ks).2) :
    statement rules (.identifier :: ks) =
      some (property rules (reference ks).1 (reference ks).2) := by
  simp only [statement]
  split
  case h_1 inner opens =>
    rw [opens] at closed
    exact absurd rfl (closed.head_ne .openParen (by decide))
  case h_2 => rfl

theorem property_exact {w rest : List Kind} (word : w ∈ Sentence.property constructs)
    (ends : Avoids extenders rest) : (statement rules).Exact w rest := by
  obtain ⟨name, first, content, second, rfl⟩ := word
  rcases first with literal | reference
  · obtain ⟨k, kind, rfl, known⟩ := literalKind?_of_word literal
    have clean := ((Whole.token k rest).node kind).clean _ (List.mem_singleton_self _)
    refine ⟨_, ?_, property_whole accepts second ends clean⟩
    rw [List.append_assoc, List.singleton_append, statement_of_literal known]
  · obtain ⟨ks, rfl, whole⟩ := reference_whole reference
    have behind := content_avoids second ends
    have name := whole (content ++ rest) (behind.mono (by decide))
    have clean := name.clean _ (List.mem_singleton_self _)
    have stops : (Grammar.reference (ks ++ (content ++ rest))).2 = content ++ rest := name.rest
    have closed : Avoids [.openParen] (Grammar.reference (ks ++ (content ++ rest))).2 := by
      rw [stops]
      exact behind.mono (by decide)
    refine ⟨_, ?_, property_whole accepts second ends clean⟩
    rw [List.append_assoc, List.cons_append, statement_of_name closed, stops]

theorem statement_exact {w rest : List Kind} (word : w ∈ Sentence.statement constructs)
    (ends : Avoids extenders rest) : (statement rules).Exact w rest := by
  rcases word with (call | declaration) | property
  · obtain ⟨ks, rfl, whole⟩ := invocation_whole accepts call
    obtain ⟨inner, opens, call⟩ := whole rest
    refine ⟨(.node .invocationElement [(invocation rules _ inner).1], _), ?_,
      call.node .invocationElement⟩
    rw [List.cons_append, statement_of_call opens]
  · exact declaration_exact accepts declaration ends
  · exact property_exact accepts property ends

omit accepts in
theorem contextName_whole {w rest : List Kind} (word : w ∈ Sentence.contextName)
    (ends : Avoids [.comma] rest) :
    ∃ out, contextName (w ++ rest) = some out ∧ Whole out rest := by
  obtain ⟨front, ⟨mark, ⟨k, member, rfl⟩, name, second, rfl⟩, comma, third, rfl⟩ := word
  obtain rfl : name = [.identifier] := second
  have marker : Kind.contextMarkers.contains k = true := by
    rwa [List.contains_iff_mem]
  have whole := (((Whole.token .identifier (comma ++ rest)).cons k).node .contextName).append
    (comma?_whole third ends)
  refine ⟨_, ?_, whole⟩
  rw [List.append_assoc]
  change contextName (k :: .identifier :: (comma ++ rest)) = _
  rw [contextName, if_pos marker]
  rfl

omit accepts in
theorem contextNames_whole {w rest : List Kind} (word : w ∈ Sentence.contextNames)
    (ends : Avoids (.comma :: Kind.contextMarkers) rest) :
    Whole (repeated contextName (w ++ rest)) rest := by
  obtain ⟨items, rfl, each⟩ := mem_kstar_of_mem_mul w word
  clear word
  induction items with
  | nil =>
      apply repeated_done
      cases rest with
      | nil => rfl
      | cons k ks =>
          have other : Kind.contextMarkers.contains k = false := by
            have := ends k rfl
            simp_all
          change contextName (k :: ks) = none
          simp only [contextName, other, Bool.false_eq_true, if_false]
  | cons item items ih =>
      have behind : Avoids [.comma] (items.flatten ++ rest) := by
        cases items with
        | nil => exact ends.mono (by decide)
        | cons next items =>
            have markers : Sentence.Starts Kind.contextMarkers Sentence.contextName :=
              ((Sentence.starts_wordOf _).mul _).mul _
            obtain ⟨k, ks, rfl, start⟩ := markers next (each _ (by simp))
            have other : ∀ k ∈ Kind.contextMarkers, k ∉ [Kind.comma] := by decide
            exact avoids_cons (other k start) _
      obtain ⟨out, applies, whole⟩ := contextName_whole (each _ List.mem_cons_self) behind
      rw [List.flatten_cons, List.append_assoc]
      exact repeated_whole contextName_advances applies whole
        (ih fun w member => each w (List.mem_cons_of_mem _ member))

omit accepts in
theorem contextual_block {ks inner : List Kind}
    (opens : (repeated contextName ks).2 = .openBrace :: inner) :
    contextual rules ks = (.node .contextBlock
      ((repeated contextName ks).1 ++ (group .contextBlock rules inner).1),
        (group .contextBlock rules inner).2) := by
  simp only [contextual, opens]

omit accepts in
theorem contextual_statement {ks inner : List Kind} {read : Read}
    (names : (repeated contextName ks).2 = inner) (closed : Avoids [.openBrace] inner)
    (answer : statement rules inner = some read) :
    contextual rules ks = (.node .contextualStatement ((repeated contextName ks).1 ++ [read.1]),
      read.2) := by
  simp only [contextual, names]
  split
  · exact absurd rfl (closed.head_ne .openBrace (by decide))
  · rw [answer]

omit accepts in
theorem contextual_alone {ks inner : List Kind} (names : (repeated contextName ks).2 = inner)
    (closed : Avoids [.openBrace] inner) (missing : statement rules inner = none) :
    contextual rules ks = (.node .contextualStatement
      ((repeated contextName ks).1 ++ [.gap .statement]), inner) := by
  simp only [contextual, names]
  split
  · exact absurd rfl (closed.head_ne .openBrace (by decide))
  · rw [missing]

theorem contextual_whole {names content rest : List Kind} (first : names ∈ Sentence.contextNames)
    (second : content ∈ Sentence.group constructs .contextBlock ∨
      content ∈ Sentence.statement constructs) (ends : Avoids extenders rest) :
    Whole ([(contextual rules (names ++ (content ++ rest))).1],
      (contextual rules (names ++ (content ++ rest))).2) rest := by
  rcases second with block | statement
  · obtain ⟨ks, rfl, group⟩ := group_whole accepts .contextBlock block
    have brace : Avoids (.comma :: Kind.contextMarkers) (.openBrace :: ks ++ rest) :=
      avoids_cons (by decide) _
    have named := contextNames_whole first brace
    rw [show Group.contextBlock.opener = .openBrace from rfl, contextual_block named.rest]
    exact (named.append (group rest)).node .contextBlock
  · have other : ∀ k ∈ .valWord :: Kind.propertyNameFirst,
        k ∉ .openBrace :: .comma :: Kind.contextMarkers := by decide
    obtain ⟨k, ks, start, member⟩ := Sentence.starts_statement constructs content statement
    obtain ⟨read, answer, whole⟩ := statement_exact accepts statement ends
    have behind : Avoids (.openBrace :: .comma :: Kind.contextMarkers) (content ++ rest) := by
      rw [start]
      exact avoids_cons (other k member) _
    have named := contextNames_whole first (behind.mono (by decide))
    rw [contextual_statement named.rest (behind.mono (by decide)) answer]
    exact (named.append whole).node .contextualStatement

theorem element_exact {w rest : List Kind} (word : w ∈ Sentence.element constructs)
    (ends : Avoids extenders rest) : (element rules).Exact w rest := by
  have named {names content : List Kind} (first : names ∈ Sentence.contextNames)
      (second : content ∈ Sentence.group constructs .contextBlock ∨
        content ∈ Sentence.statement constructs) :
      (element rules).Exact (names ++ content) rest := by
    obtain ⟨k, ks, start, member⟩ := Sentence.starts_contextNames names first
    refine ⟨_, ?_, contextual_whole accepts first second ends⟩
    rw [start, List.append_assoc]
    exact if_pos (List.contains_iff_mem.mpr member)
  rcases word with (block | contextual) | statement
  · obtain ⟨names, first, content, second, rfl⟩ := block
    exact named first (Or.inl second)
  · obtain ⟨names, first, content, second, rfl⟩ := contextual
    exact named first (Or.inr second)
  · have other : ∀ k ∈ .valWord :: Kind.propertyNameFirst, k ∉ Kind.contextMarkers := by decide
    obtain ⟨k, ks, rfl, member⟩ := Sentence.starts_statement constructs w statement
    obtain ⟨read, answer, whole⟩ := statement_exact accepts statement ends
    refine ⟨read, ?_, whole⟩
    rw [← answer]
    exact if_neg fun marker => other k member (List.contains_iff_mem.mp marker)

end

theorem starts_construct (depth : Nat) (c : Construct) :
    Sentence.Starts c.first (Sentence.construct depth c) := by
  cases depth with
  | zero => exact fun w none => absurd none (Language.notMem_zero w)
  | succ depth =>
      cases c with
      | element => exact Sentence.starts_element _
      | value =>
          intro w word
          have names : ∀ k ∈ Kind.propertyNameFirst, k ∈ Kind.valueFirst := by decide
          have braced : Sentence.Starts Kind.valueFirst
              (Sentence.group (Sentence.construct depth) .object) :=
            Sentence.starts_group _ (by decide)
          have dotted : Sentence.Starts Kind.valueFirst (Sentence.word .dot * Sentence.reference) :=
            (Sentence.starts_word (by decide)).mul _
          rcases Sentence.starts_value _ w word with name | object | name
          · obtain ⟨k, ks, same, start⟩ := name
            exact ⟨k, ks, same, names k start⟩
          · exact braced w object
          · exact dotted w name

theorem nested_accepts (depth : Nat) : Accepts (nested depth) (Sentence.construct depth) := by
  induction depth with
  | zero =>
      refine ⟨nested_advances 0, starts_construct 0, ?_, ?_⟩
      · exact fun c w none => absurd none (Language.notMem_zero w)
      · exact fun c w none => absurd none (Language.notMem_zero w)
  | succ depth ih =>
      have rule (c : Construct) {w rest : List Kind} (word : w ∈ Sentence.construct (depth + 1) c)
          (exact : (construct (nested depth) c).Exact w rest) :
          (nested (depth + 1) c).Exact w rest := by
        obtain ⟨k, ks, rfl, first⟩ := starts_construct (depth + 1) c w word
        obtain ⟨read, answer, whole⟩ := exact
        refine ⟨read, ?_, whole⟩
        rw [← answer]
        exact if_pos (List.contains_iff_mem.mpr first)
      refine ⟨nested_advances (depth + 1), starts_construct (depth + 1), ?_, ?_⟩
      · intro c w word rest ends
        apply rule c word
        cases c with
        | element => exact element_exact ih word ends
        | value => exact value_exact ih word ends
      · intro c w word w' word'
        cases c with
        | element =>
            have plain : ∀ k ∈ Construct.first .element, k ∉ extenders := by decide
            obtain ⟨k, ks, rfl, first⟩ := starts_construct (depth + 1) .element w' word'
            exact Or.inr fun rest =>
              rule .element word (element_exact ih word (avoids_cons (plain k first) _))
        | value =>
            rcases value_joins ih word word' with joined | exact
            · exact Or.inl joined
            · exact Or.inr fun rest => rule .value word (exact rest)

theorem fileItem_whole {depth : Nat} {w rest : List Kind}
    (word : w ∈ Sentence.construct depth .element) (ends : Avoids extenders rest) :
    ∃ out, fileItem (nested depth .element) (w ++ rest) = some out ∧ Whole out rest := by
  have accepts := nested_accepts depth
  obtain ⟨k, ks, rfl, -⟩ := accepts.starts .element w word
  obtain ⟨read, answer, whole⟩ := accepts.exact .element _ word rest ends
  refine ⟨([read.1], read.2), ?_, whole⟩
  change some _ = _
  rw [answer]
  rfl

/-- A sentence is read element by element, and nothing is missing. -/
theorem file_clean {depth : Nat} {ks : List Kind} (sentence : ks ∈ Sentence.file depth) :
    ∀ o ∈ file depth ks, o.Clean := by
  have advances := fileItem_advances (nested_advances depth .element)
  have whole : Whole (repeated (fileItem (nested depth .element)) ks) [] := by
    obtain ⟨items, rfl, each⟩ := sentence
    induction items with
    | nil => exact repeated_done rfl
    | cons item items ih =>
        have within := fun w member => each w (List.mem_cons_of_mem item member)
        have ends : Avoids extenders items.flatten := by
          cases items with
          | nil => exact avoids_nil _
          | cons next items =>
              have plain : ∀ k ∈ Construct.first .element, k ∉ extenders := by decide
              obtain ⟨k, ks, rfl, first⟩ := starts_construct depth .element next
                (within next List.mem_cons_self)
              exact avoids_cons (plain k first) _
        obtain ⟨out, applies, first⟩ := fileItem_whole (each item List.mem_cons_self) ends
        exact repeated_whole advances applies first (ih within)
  exact whole.clean

end ConfigSyntax.Grammar
