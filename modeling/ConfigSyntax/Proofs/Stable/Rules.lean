import ConfigSyntax.Proofs.Stable.Groups

/-! What stays as it is read where more nesting is allowed, or where more text follows: the rules of
the grammar one by one. Main statements: `file_deeper`, `file_append`. -/

namespace ConfigSyntax.Grammar

open Outline (Stable)

section

variable {t : List Kind}

section

variable (ends : Avoids extenders t)

include ends

theorem segments_followed {ks : List Kind} (settled : Settled t (segments ks).2) :
    segments (ks ++ t) = followed t (segments ks) := by
  fun_induction segments ks with
  | case1 ks more ih =>
      rw [List.cons_append, List.cons_append, segments, ih settled]
      rfl
  | case2 ks stops =>
      unfold segments
      split
      case h_1 tail split =>
        -- The name could go on behind `ks` alone, or behind a dot that is all there is of `ks`.
        rcases ks with _ | ⟨k, _ | ⟨k', ks⟩⟩
        · rw [List.nil_append] at split
          rw [split] at ends
          exact absurd rfl (ends.head_ne .dot (by decide))
        · injection split with first rest
          rw [first] at settled
          have more : t ≠ [] := fun empty => by
            rw [empty] at rest
            cases rest
          exact absurd rfl (settled more)
        · injection split with first rest
          injection rest with second
          exact absurd (by rw [first, second]) (stops ks)
      case h_2 => rfl

theorem reference_followed {ks : List Kind} (settled : Settled t (reference ks).2) :
    reference (ks ++ t) = followed t (reference ks) := by
  rw [reference, segments_followed ends settled]
  rfl

theorem reference_of_call {ks rest : List Kind} (opens : (reference ks).2 = .openParen :: rest) :
    reference (ks ++ t) = ((reference ks).1, .openParen :: (rest ++ t)) := by
  have settled : Settled t (reference ks).2 := by
    rw [opens]
    exact fun _ same => absurd (List.cons.inj same).1 (by decide)
  rw [reference_followed ends settled, followed, opens]
  rfl

theorem reference_of_name {ks : List Kind} (settled : Settled t (reference ks).2)
    (closed : Avoids [.openParen] (reference ks).2) :
    reference (ks ++ t) = followed t (reference ks) ∧
      Avoids [.openParen] (reference (ks ++ t)).2 := by
  have name := reference_followed ends settled
  refine ⟨name, ?_⟩
  rw [name]
  exact closed.append (ends.mono (by decide))

end

section

variable {rules rules' : Construct → Rule}

theorem stable_of_constructed {name : Outline} {ks : List Kind}
    (stable : (constructed rules name ks).1.Stable t) : name.Stable t := by
  revert stable
  unfold constructed
  split
  · exact fun stable => (stable.part List.mem_cons_self).part List.mem_cons_self
  · exact id

theorem settled_of_constructed {name : Outline} {ks : List Kind}
    (settled : Settled t (constructed rules name ks).2) : Settled t ks := by
  intro more same
  rw [same] at settled
  exact settled more rfl

theorem settled_of_property {name : Outline} {ks : List Kind}
    (settled : Settled t (property rules name ks).2) : Settled t ks := by
  intro more same
  rw [same] at settled
  exact settled more rfl

/-- Whether a value starts does not depend on what is inside. -/
theorem isSome_value (ks : List Kind) : (value rules' ks).isSome = (value rules ks).isSome := by
  unfold value
  split
  · rfl
  · rfl
  · dsimp only
    split <;> rfl
  · rw [Option.isSome_map, Option.isSome_map]
  · rfl

theorem isSome_statement (ks : List Kind) :
    (statement rules' ks).isSome = (statement rules ks).isSome := by
  unfold statement
  split
  · rfl
  · dsimp only
    split <;> rfl
  · rw [Option.isSome_map, Option.isSome_map]
  · rfl

variable (ext : Extends t rules rules')

include ext

theorem invocation_followed {callee : Outline} {ks : List Kind}
    (stable : (invocation rules callee ks).1.Stable t) :
    invocation rules' callee (ks ++ t) = followed t (invocation rules callee ks) := by
  rw [invocation, group_followed ext fun p member =>
    stable.part (List.mem_cons_of_mem callee member)]
  rfl

theorem constructed_followed {name : Outline} {ks : List Kind}
    (stable : (constructed rules name ks).1.Stable t) :
    constructed rules' name (ks ++ t) = followed t (constructed rules name ks) := by
  revert stable
  fun_cases constructed rules name ks with
  | case1 ks body =>
      intro stable
      have body := group_followed ext fun p member => stable.part (List.mem_cons_of_mem _ member)
      rw [List.cons_append, constructed, body]
      rfl
  | case2 =>
      have closed : Avoids [.openBrace] ks := avoids_of_ne ‹_›
      rw [constructed_alone (closed.append (ext.ends.mono (by decide)))]
      exact fun _ => rfl

theorem value_followed {ks : List Kind} {read : Read} (answer : value rules ks = some read)
    (stable : read.1.Stable t) (settled : Settled t read.2) :
    value rules' (ks ++ t) = some (followed t read) := by
  revert answer
  fun_cases value rules ks with
  | case1 ks body =>
      rintro ⟨⟩
      have body := group_followed ext fun p member => stable.part member
      rw [List.cons_append, value, body]
      rfl
  | case2 ks name =>
      rintro ⟨⟩
      rw [List.cons_append, List.cons_append, value, reference_followed ext.ends settled]
      rfl
  | case3 ks name rest opens call =>
      rintro ⟨⟩
      have callee := reference_of_call ext.ends opens
      have called := invocation_followed ext (stable_of_constructed stable)
      rw [List.cons_append, value_of_call (congrArg Prod.snd callee), callee, called]
      exact congrArg some (constructed_followed ext stable)
  | case4 ks name closed =>
      rintro ⟨⟩
      obtain ⟨same, closed⟩ := reference_of_name ext.ends (settled_of_constructed settled)
        (avoids_of_ne closed)
      rw [List.cons_append, value_of_name closed, same]
      exact congrArg some (constructed_followed ext stable)
  | case5 k ks notBrace notDot notName =>
      intro answer
      obtain ⟨name, found, rfl⟩ := Option.map_eq_some_iff.mp answer
      obtain ⟨kind, known, rfl⟩ := literal?_eq_some found
      rw [List.cons_append, value_of_literal known]
      split
      case isTrue quoted =>
        rw [if_pos quoted] at stable
        rw [constructed_followed ext stable]
      case isFalse => rfl
  | case6 => rintro ⟨⟩

theorem assigned_followed {c : Context} {ks : List Kind} (stable : (assigned rules c ks).1.Stable t)
    (settled : Settled t (assigned rules c ks).2) :
    assigned rules' c (ks ++ t) = followed t (assigned rules c ks) :=
  getD_followed (ext.rule .value) (fun _ => Outline.not_clean_skipped _ _) stable settled

theorem property_followed {name : Outline} {ks : List Kind}
    (stable : (property rules name ks).1.Stable t)
    (settled : Settled t (property rules name ks).2) :
    property rules' name (ks ++ t) = followed t (property rules name ks) := by
  revert stable settled
  fun_cases property rules name ks with
  | case1 ks value =>
      intro stable settled
      have value := assigned_followed ext (stable.part (p := value.1) (by simp)) settled
      rw [List.cons_append, property, value]
      rfl
  | case2 ks body =>
      intro stable settled
      have object := stable.part (p := .node .object body.1) (by simp)
      have body := group_followed ext fun p member => object.part member
      rw [List.cons_append, property, body]
      rfl
  | case3 =>
      have unassigned : Avoids [.equals] ks := avoids_of_ne ‹_›
      have closed : Avoids [.openBrace] ks := avoids_of_ne ‹_›
      rw [property_alone (unassigned.append (ext.ends.mono (by decide)))
        (closed.append (ext.ends.mono (by decide)))]
      exact fun _ _ => rfl

theorem declaration_followed {ks : List Kind} (stable : (declaration rules ks).1.Stable t)
    (settled : Settled t (declaration rules ks).2) :
    declaration rules' (ks ++ t) = followed t (declaration rules ks) := by
  revert stable settled
  fun_cases declaration rules ks with
  | case1 ks value =>
      intro stable settled
      have value := assigned_followed ext (stable.part (p := value.1) (by simp)) settled
      rw [List.cons_append, List.cons_append, declaration, value]
      rfl
  | case2 ks notAssigned =>
      intro stable settled
      obtain rfl := eq_nil_of_gap (stable.part (p := .gap .assignment) (by simp))
      rw [List.append_nil, followed_nil, declaration]
      exact notAssigned
  | case3 =>
      intro stable settled
      obtain rfl := eq_nil_of_gap (stable.part (p := .gap .variableName) (by simp))
      rw [List.append_nil, followed_nil, declaration]
      · assumption
      · assumption

theorem statement_followed {ks : List Kind} {read : Read} (answer : statement rules ks = some read)
    (stable : read.1.Stable t) (settled : Settled t read.2) :
    statement rules' (ks ++ t) = some (followed t read) := by
  revert answer
  fun_cases statement rules ks with
  | case1 ks =>
      rintro ⟨⟩
      exact congrArg some (declaration_followed ext stable settled)
  | case2 ks name rest opens call =>
      rintro ⟨⟩
      have callee := reference_of_call ext.ends opens
      have called := invocation_followed ext (stable.part List.mem_cons_self)
      rw [List.cons_append, statement_of_call (congrArg Prod.snd callee), callee, called]
      rfl
  | case3 ks name closed =>
      rintro ⟨⟩
      obtain ⟨same, closed⟩ := reference_of_name ext.ends (settled_of_property settled)
        (avoids_of_ne closed)
      rw [List.cons_append, statement_of_name closed, same]
      exact congrArg some (property_followed ext stable settled)
  | case4 k ks notVal notName =>
      intro answer
      obtain ⟨name, found, rfl⟩ := Option.map_eq_some_iff.mp answer
      obtain ⟨kind, known, rfl⟩ := literal?_eq_some found
      rw [List.cons_append, statement_of_literal known]
      exact congrArg some (property_followed ext stable settled)
  | case5 => rintro ⟨⟩

theorem contextual_followed {ks : List Kind} (stable : (contextual rules ks).1.Stable t)
    (settled : Settled t (contextual rules ks).2) :
    contextual rules' (ks ++ t) = followed t (contextual rules ks) := by
  have named (stable : ∀ p ∈ (repeated contextName ks).1, p.Stable t)
      (filled : t ≠ [] → (repeated contextName ks).2 ≠ []) :=
    contextNames_followed stable filled
  revert stable settled
  fun_cases contextual rules ks with
  | case1 found rest opens body =>
      intro stable settled
      have body := group_followed ext fun p member =>
        stable.part (List.mem_append_right _ member)
      have filled : (repeated contextName ks).2 ≠ [] := by
        rw [show (repeated contextName ks).2 = _ from opens]
        exact List.cons_ne_nil _ _
      have names := named (fun p member => stable.part (List.mem_append_left _ member))
        fun _ => filled
      have opens' : (repeated contextName (ks ++ t)).2 = .openBrace :: (rest ++ t) := by
        rw [names, followed, show (repeated contextName ks).2 = _ from opens]
        rfl
      rw [contextual_block opens', names, body]
      rfl
  | case2 found body rest notBrace answer =>
      intro stable settled
      have statement := statement_followed ext answer (stable.part (p := body) (by simp)) settled
      have filled : (repeated contextName ks).2 ≠ [] := by
        intro empty
        rw [show (repeated contextName ks).2 = _ from empty] at answer
        cases answer
      have names := named (fun p member => stable.part (List.mem_append_left _ member))
        fun _ => filled
      have closed := (avoids_of_ne notBrace).append (ext.ends.mono (by decide))
      rw [contextual_statement (congrArg Prod.snd names) closed statement, names]
      rfl
  | case3 found notBrace answer =>
      intro stable settled
      obtain rfl := eq_nil_of_gap (stable.part (p := .gap .statement) (by simp))
      have missing : statement rules' (repeated contextName ks).2 = none :=
        (Option.isSome_eq_isSome.mp (isSome_statement _)).mpr answer
      rw [List.append_nil, contextual_alone rfl (avoids_of_ne notBrace) missing, followed_nil]

theorem element_followed {ks : List Kind} {read : Read} (answer : element rules ks = some read)
    (stable : read.1.Stable t) (settled : Settled t read.2) :
    element rules' (ks ++ t) = some (followed t read) := by
  cases ks with
  | nil => cases answer
  | cons k ks =>
      rw [element] at answer
      rw [List.cons_append, element]
      split at answer
      case isTrue marker =>
        cases answer
        rw [if_pos marker]
        exact congrArg some (contextual_followed ext stable settled)
      case isFalse other =>
        rw [if_neg other]
        exact statement_followed ext answer stable settled

theorem construct_followed (c : Construct) {ks : List Kind} {read : Read}
    (answer : construct rules c ks = some read) (stable : read.1.Stable t)
    (settled : Settled t read.2) : construct rules' c (ks ++ t) = some (followed t read) := by
  cases c with
  | element => exact element_followed ext answer stable settled
  | value => exact value_followed ext answer stable settled

end

end

theorem isSome_construct {rules rules' : Construct → Rule} (c : Construct) (ks : List Kind) :
    (construct rules' c ks).isSome = (construct rules c ks).isSome := by
  cases c with
  | value => exact isSome_value ks
  | element =>
      cases ks with
      | nil => rfl
      | cons k ks =>
          change (element rules' (k :: ks)).isSome = (element rules (k :: ks)).isSome
          rw [element, element]
          split
          · rfl
          · exact isSome_statement (k :: ks)

theorem nested_extends {t : List Kind} (ends : Avoids extenders t) {depth deeper : Nat}
    (le : depth ≤ deeper) (c : Construct) : (nested depth c).Extends t (nested deeper c) := by
  induction depth generalizing deeper c with
  | zero =>
      constructor
      · intro ks read answer stable _
        obtain ⟨k, ks, rfl, -, rfl⟩ := nested_zero answer
        exact absurd stable.1 (Outline.not_shallow_tooDeep _)
      · intro _ ks missing
        cases ks with
        | nil => cases deeper <;> rfl
        | cons k ks =>
            rw [nested] at missing
            split at missing
            · cases missing
            case isFalse other => cases deeper <;> rw [nested, if_neg other]
  | succ depth ih =>
      obtain ⟨deeper, rfl⟩ := Nat.exists_eq_add_of_le' (Nat.le_trans (Nat.le_add_left 1 _) le)
      have ext : Extends t (nested depth) (nested deeper) :=
        ⟨ends, ih (Nat.le_of_succ_le_succ le), nested_advances depth, nested_advances deeper,
          nested_built depth⟩
      constructor
      · intro ks read answer stable settled
        obtain ⟨k, ks, rfl, first, answer⟩ := nested_succ answer
        rw [List.cons_append, nested, if_pos (List.contains_iff_mem.mpr first)]
        exact construct_followed ext c answer stable settled
      · intro _ ks missing
        cases ks with
        | nil => rfl
        | cons k ks =>
            rw [nested] at missing ⊢
            split at missing
            case isTrue first =>
              rw [if_pos first]
              exact (Option.isSome_eq_isSome.mp (isSome_construct c _)).mpr missing
            case isFalse other => rw [if_neg other]

theorem file_followed {t : List Kind} (ends : Avoids extenders t) {depth deeper : Nat}
    (le : depth ≤ deeper) {ks : List Kind} (stable : ∀ p ∈ file depth ks, p.Stable t) :
    file deeper (ks ++ t) = file depth ks ++ file deeper t := by
  have rule := nested_extends ends le .element
  have each : ∀ ks out, fileItem (nested depth .element) ks = some out →
      (∀ p ∈ out.1, p.Stable t) → Settled t out.2 →
      Settled t ks ∧ fileItem (nested deeper .element) (ks ++ t) = some (followed t out) := by
    intro ks out applies stable settled
    obtain ⟨k, ks, rfl, rfl⟩ := fileItem_some applies
    have item := getD_followed rule (not_clean_recover .topLevel)
      (stable _ List.mem_cons_self) settled
    constructor
    · -- A dot is no element, so that there would be something to skip.
      intro more same
      have missing : nested depth .element [.dot] = none := by cases depth <;> rfl
      rw [same, missing, Option.getD_none] at stable
      exact not_clean_recover .topLevel _ ((stable _ List.mem_cons_self).2 more)
    · rw [List.cons_append] at item ⊢
      rw [fileItem]
      simp only [item, followed]
      rfl
  have items := (repeated_followed (Settled t)
    (fileItem_advances (nested_advances depth .element))
    (fileItem_advances (nested_advances deeper .element)) each stable
    (by rw [items_rest]; exact fun _ => (List.cons_ne_nil _ _).symm)).2
  rw [items_rest, List.nil_append] at items
  exact congrArg Prod.fst items

/-- Where nothing is too deep, nothing changes where more nesting is allowed. -/
theorem file_deeper {depth deeper : Nat} (le : depth ≤ deeper) {ks : List Kind}
    (shallow : ∀ p ∈ file depth ks, p.Shallow) : file deeper ks = file depth ks := by
  have same : file deeper (ks ++ []) = file depth ks ++ file deeper [] :=
    file_followed (avoids_nil extenders) le fun p member => ⟨shallow p member, absurd rfl⟩
  rwa [List.append_nil, show file deeper [] = [] from rfl, List.append_nil] at same

/-- What follows a file that is read cleanly is read as if it stood alone. -/
theorem file_append {depth : Nat} {ks t : List Kind} (clean : ∀ p ∈ file depth ks, p.Clean)
    (ends : Avoids extenders t) : file depth (ks ++ t) = file depth ks ++ file depth t :=
  file_followed ends (Nat.le_refl depth) fun p member => (clean p member).stable

end ConfigSyntax.Grammar
