import ConfigSyntax.Proofs.Reader.Elements

/-! What a rule leaves as it was. Main statement: `Rule.frame`. -/

namespace ConfigSyntax

namespace Grammar

theorem Rule.Reads.advances {rule : Rule} {kinds : List Kind} {words : Language Kind}
    (reads : rule.Reads (Schema.nodeOf kinds) words)
    (firm : ∀ k ∈ kinds, k ≠ .error ∧ k ≠ .file) : rule.Advances := fun ks read applies =>
  (reads ks read applies).length_lt_of_holds (Schema.holds_nodeOf firm)

theorem nameRule_reading : Rule.Reads nameRule Schema.name Sentence.name := by
  intro ks read applies
  unfold nameRule at applies
  split at applies
  case h_1 ks =>
    cases applies
    exact ((reference_reading ks).nodeOf _ (by decide)).widen fun _ => Or.inr
  case h_2 =>
    cases ks with
    | nil => cases applies
    | cons k ks =>
        obtain ⟨name, found, rfl⟩ := Option.map_eq_some_iff.mp applies
        obtain ⟨kind, known, rfl⟩ := literal?_eq_some found
        obtain ⟨-, literal, word, -⟩ := literalKind?_spec known
        exact ((literal_reading known word ks).nodeOf _ (List.mem_cons_of_mem _ literal)).widen
          fun _ => Or.inl

theorem literalRule_advances : Rule.Advances literalRule := by
  intro ks read applies
  cases ks with
  | nil => cases applies
  | cons k ks =>
      obtain ⟨name, -, rfl⟩ := Option.map_eq_some_iff.mp applies
      exact Nat.lt_succ_self _

theorem referenceRule_advances : Rule.Advances referenceRule := by
  intro ks read applies
  unfold referenceRule at applies
  split at applies
  case h_1 ks =>
    cases applies
    exact (reference_reading ks).length_lt_of_holds (Schema.holds_nodeOf (by decide))
  case h_2 => cases applies

theorem contextNameRule_advances : Rule.Advances contextNameRule := by
  intro ks read applies
  unfold contextNameRule at applies
  split at applies
  case h_1 => cases applies
  case h_2 k ks =>
    split at applies
    case isTrue =>
      split at applies <;> cases applies <;> simp only [List.length_cons] <;> omega
    case isFalse => cases applies

section

variable {rules : Construct → Rule} {constructs : Construct → Language Kind}
  (reads : ∀ c, (rules c).Reads (Schema.construct c) (constructs c))

include reads

theorem value_advances : Rule.Advances (value rules) :=
  Rule.Reads.advances (value_reading reads) (by decide)

theorem statement_advances : Rule.Advances (statement rules) :=
  Rule.Reads.advances (statement_reading reads) (by decide)

theorem contextualReferenceRule_advances : Rule.Advances contextualReferenceRule := by
  intro ks read applies
  unfold contextualReferenceRule at applies
  split at applies
  case h_1 ks => exact value_advances reads _ read applies
  case h_2 => cases applies

theorem objectRule_advances : Rule.Advances (objectRule rules) := by
  intro ks read applies
  unfold objectRule at applies
  split at applies
  case h_1 ks => exact value_advances reads _ read applies
  case h_2 => cases applies

theorem callRule_advances : Rule.Advances (callRule rules) := by
  intro ks read applies
  unfold callRule at applies
  split at applies
  case h_1 ks =>
    split at applies
    case h_1 rest call =>
      cases applies
      have callee := reference_reading ks
      rw [call] at callee
      exact (invocation_reading reads callee).length_lt_of_holds (Schema.holds_nodeOf (by decide))
    case h_2 => cases applies
  case h_2 => cases applies

theorem callElementRule_advances : Rule.Advances (callElementRule rules) := by
  intro ks read applies
  obtain ⟨call, answer, rfl⟩ := Option.map_eq_some_iff.mp applies
  exact callRule_advances reads ks call answer

theorem declarationRule_advances : Rule.Advances (declarationRule rules) := by
  intro ks read applies
  unfold declarationRule at applies
  split at applies
  case h_1 ks => exact statement_advances reads _ read applies
  case h_2 => cases applies

theorem propertyRule_advances : Rule.Advances (propertyRule rules) := by
  intro ks read applies
  obtain ⟨name, answer, rfl⟩ := Option.map_eq_some_iff.mp applies
  have property := property_reading reads (nameRule_reading ks name answer)
  exact property.length_lt_of_holds (Schema.holds_nodeOf (by decide))

theorem contextualRule_advances : Rule.Advances (contextualRule rules) := by
  intro ks read applies
  unfold contextualRule at applies
  split at applies
  case h_1 => cases applies
  case h_2 k ks =>
    split at applies
    case isTrue marker =>
      cases applies
      exact (contextual_reading reads marker ks).length_lt_of_holds
        (Schema.holds_nodeOf (by decide))
    case isFalse => cases applies

end

end Grammar

namespace Reader

variable {r r' : Reader}

inductive Rule where
  | element | statement | property | propertyName | object | declaration | value | literal
  | reference | contextualReference | invocation | invocationElement | contextName | contextual

namespace Rule

def action : Rule → Action Outcome
  | element => construct .element
  | statement => Reader.statement construct
  | property => Reader.property construct
  | propertyName => Reader.propertyName
  | object => Reader.object construct
  | declaration => Reader.declaration construct
  | value => construct .value
  | literal => Reader.literal
  | reference => Reader.reference
  | contextualReference => Reader.contextualReference
  | invocation => Reader.invocation construct
  | invocationElement => Reader.invocationElement construct
  | contextName => Reader.contextName
  | contextual => Reader.contextual construct

def reads (levels : Nat) : Rule → Grammar.Rule
  | element => Grammar.nested levels .element
  | statement => Grammar.statement (Grammar.nested levels)
  | property => Grammar.propertyRule (Grammar.nested levels)
  | propertyName => Grammar.nameRule
  | object => Grammar.objectRule (Grammar.nested levels)
  | declaration => Grammar.declarationRule (Grammar.nested levels)
  | value => Grammar.nested levels .value
  | literal => Grammar.literalRule
  | reference => Grammar.referenceRule
  | contextualReference => Grammar.contextualReferenceRule
  | invocation => Grammar.callRule (Grammar.nested levels)
  | invocationElement => Grammar.callElementRule (Grammar.nested levels)
  | contextName => Grammar.contextNameRule
  | contextual => Grammar.contextualRule (Grammar.nested levels)

theorem follows (rule : Rule) (r : Reader) :
    Follows rule.action r (rule.reads r.levels r.kindsAhead) := by
  have good := constructs_follow r.levels
  cases rule with
  | element => exact construct_follows .element r
  | statement => exact statement_follows good rfl
  | property => exact property_follows good rfl
  | propertyName => exact propertyName_follows r
  | object => exact object_follows good rfl
  | declaration => exact declaration_follows good rfl
  | value => exact construct_follows .value r
  | literal => exact literal_follows r
  | reference => exact reference_follows r
  | contextualReference => exact contextualReference_follows r
  | invocation => exact invocation_follows good rfl
  | invocationElement => exact invocationElement_follows good rfl
  | contextName => exact contextName_follows r
  | contextual => exact contextual_follows good rfl

theorem advances (rule : Rule) (levels : Nat) : (rule.reads levels).Advances := by
  have reads := Grammar.nested_reading levels
  cases rule with
  | element => exact Grammar.nested_advances levels .element
  | statement => exact Grammar.statement_advances reads
  | property => exact Grammar.propertyRule_advances reads
  | propertyName => exact Grammar.nameRule_reading.advances (by decide)
  | object => exact Grammar.objectRule_advances reads
  | declaration => exact Grammar.declarationRule_advances reads
  | value => exact Grammar.nested_advances levels .value
  | literal => exact Grammar.literalRule_advances
  | reference => exact Grammar.referenceRule_advances
  | contextualReference => exact Grammar.contextualReferenceRule_advances reads
  | invocation => exact Grammar.callRule_advances reads
  | invocationElement => exact Grammar.callElementRule_advances reads
  | contextName => exact Grammar.contextNameRule_advances
  | contextual => exact Grammar.contextualRule_advances reads

end Rule

structure Extends (r r' : Reader) : Prop where
  entries : r.entries <+: r'.entries
  diagnostics : r.diagnostics <+: r'.diagnostics
  log : r.log <+: r'.log

theorem Writes.depth {op op' : Option Token} {out : List Outline × List Kind}
    (writes : Writes op r out op' r') : r'.depth = r.depth := by
  rw [writes.same]
  rfl

theorem Writes.extend {op op' : Option Token} {out : List Outline × List Kind}
    (writes : Writes op r out op' r') : Extends r r' := by
  rw [writes.same]
  exact ⟨List.prefix_append _ _, List.prefix_append _ _, List.prefix_append _ _⟩

/-- A rule that does not match leaves all as it was. One that matches takes a token at least, and
adds to what was written and said before. In both cases the reader is on the level it was on. -/
theorem Rule.frame (rule : Rule) (r : Reader) :
    ∃ outcome r', rule.action.run r = some (outcome, r') ∧ r'.depth = r.depth ∧
      (outcome = .notMatched → r' = r) ∧
        (outcome ≠ .notMatched → r.pos < r'.pos ∧ Extends r r') := by
  have follows := rule.follows r
  have advances := rule.advances r.levels
  cases read : rule.reads r.levels r.kindsAhead with
  | none =>
      rw [read] at follows
      exact ⟨.notMatched, r, follows, rfl, fun _ => rfl, fun matched => absurd rfl matched⟩
  | some found =>
      rw [read] at follows
      obtain ⟨-, r', run, writes⟩ := follows
      have moved := writes.pos_lt (advances _ _ read)
      exact ⟨_, r', run, writes.depth, fun none => absurd none (judge_ne _ _ _),
        fun _ => ⟨moved, writes.extend⟩⟩

end Reader
end ConfigSyntax
