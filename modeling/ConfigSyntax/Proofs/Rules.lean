import ConfigSyntax.Proofs.Reading
import Mathlib.Tactic.Tauto

/-! The rules of the grammar one by one. Main statement: `items_reading`. -/

namespace ConfigSyntax.Grammar

open Outline (kindsOfAll)
open scoped Computability

theorem recover_reading (c : Context) (ks : List Kind) (words : Language Kind) :
    Reading ks Schema.skipped words ([(recover c ks).1], (recover c ks).2) := by
  cases ks with
  | nil => exact .skip _ _ _ _
  | cons k ks => exact .skip _ _ _ _

theorem skipped_mem_construct (c : Construct) :
    ∀ w ∈ Schema.skipped, w ∈ Schema.construct c := by
  intro w member
  cases c with
  | element => exact Or.inr member
  | value => exact Or.inr member

theorem getD_recover_reading {rule : Rule} {c : Construct} {words : Language Kind}
    (reads : rule.Reads (Schema.construct c) words) (context : Context) (ks : List Kind) :
    Reading ks (Schema.construct c) words
      ([((rule ks).getD (recover context ks)).1], ((rule ks).getD (recover context ks)).2) := by
  cases answer : rule ks with
  | none =>
      exact (recover_reading context ks words).mono (skipped_mem_construct c) fun _ word => word
  | some read => exact reads ks read answer

variable {step : List Kind → Option (List Outline × List Kind)} {shape : Language Symbol}
  {words : Language Kind}

theorem steps_reading (each : ∀ ks out, step ks = some out → Reading ks shape words out)
    (n : Nat) (ks : List Kind) : Reading ks shape∗ words∗ (steps step n ks) := by
  induction n generalizing ks with
  | zero => exact .nil_star ks
  | succ n ih =>
      rw [steps]
      cases answer : step ks with
      | none => exact .nil_star ks
      | some out => exact ((each ks out answer).append (ih out.2)).star

theorem repeated_reading_of_some
    (each : ∀ ks out, step ks = some out → Reading ks shape words out) {k : Kind}
    {ks : List Kind} {out : List Outline × List Kind} (applies : step (k :: ks) = some out) :
    Reading (k :: ks) (shape * shape∗) (words * words∗) (repeated step (k :: ks)) := by
  rw [repeated, List.length_cons, steps, applies]
  exact (each _ _ applies).append (steps_reading each _ _)

theorem comma?_reading (ks : List Kind) :
    Reading ks (1 + Schema.token .comma) (1 + Sentence.word .comma) (comma? ks) := by
  unfold comma?
  split
  · exact (Reading.token _ _).mono (fun _ => Or.inr) fun _ => Or.inr
  · exact (Reading.nil _).mono (fun _ => Or.inl) fun _ => Or.inl

section

theorem groupItem_some {g : Group} {rule : Rule} {ks : List Kind} {out : List Outline × List Kind}
    (applies : groupItem g rule ks = some out) :
    ∃ k ks', ks = k :: ks' ∧ ¬ g.ends.contains k = true ∧
      out = (((rule (k :: ks')).getD (recover g.context (k :: ks'))).1 ::
        (comma? ((rule (k :: ks')).getD (recover g.context (k :: ks'))).2).1,
        (comma? ((rule (k :: ks')).getD (recover g.context (k :: ks'))).2).2) := by
  cases ks with
  | nil => cases applies
  | cons k ks =>
      obtain ⟨notEnd, applies⟩ := Option.ite_none_left_eq_some.mp applies
      exact ⟨k, ks, rfl, notEnd, (Option.some.inj applies).symm⟩

theorem fileItem_some {rule : Rule} {ks : List Kind} {out : List Outline × List Kind}
    (applies : fileItem rule ks = some out) :
    ∃ k ks', ks = k :: ks' ∧
      out = ([((rule (k :: ks')).getD (recover .topLevel (k :: ks'))).1],
        ((rule (k :: ks')).getD (recover .topLevel (k :: ks'))).2) := by
  cases ks with
  | nil => cases applies
  | cons k ks => exact ⟨k, ks, rfl, (Option.some.inj applies).symm⟩

variable {rules : Construct → Rule} {constructs : Construct → Language Kind}
  (reads : ∀ c, (rules c).Reads (Schema.construct c) (constructs c))

include reads

theorem groupItem_reading (g : Group) (ks : List Kind) (out : List Outline × List Kind)
    (applies : groupItem g (rules g.holds) ks = some out) :
    Reading ks (Schema.construct g.holds * (1 + Schema.token .comma))
      (constructs g.holds * (1 + Sentence.word .comma)) out := by
  obtain ⟨k, ks, rfl, -, rfl⟩ := groupItem_some applies
  exact (getD_recover_reading (reads g.holds) g.context (k :: ks)).append (comma?_reading _)

omit reads in
theorem closing_reading (g : Group) (ks : List Kind) :
    Reading ks (Schema.token g.closer + Schema.gap (.closer g)) (Sentence.word g.closer)
      (closing g ks) := by
  cases ks with
  | nil => exact (Reading.gap _ _ _).orLeft _
  | cons k ks =>
      rw [closing]
      split
      case isTrue same =>
        rw [same]
        exact (Reading.token _ _).orRight _
      case isFalse => exact (Reading.gap _ _ _).orLeft _

theorem group_reading (g : Group) (ks : List Kind) :
    Reading (g.opener :: ks) (Schema.group Schema.gap g) (Sentence.group constructs g)
      (group g rules ks) :=
  ((steps_reading (groupItem_reading reads g) _ ks).cons g.opener).append (closing_reading g _)

end

theorem segments_reading (ks : List Kind) :
    Reading ks (Schema.token .dot * Schema.token .identifier)∗
      (Sentence.word .dot * Sentence.word .identifier)∗ (segments ks) := by
  fun_induction segments ks with
  | case1 ks more ih => exact (((Reading.token .identifier ks).cons .dot).append ih).star
  | case2 ks => exact .nil_star ks

theorem reference_reading (ks : List Kind) :
    Reading (.identifier :: ks) (Schema.node .referenceExpression) Sentence.reference
      ([(reference ks).1], (reference ks).2) :=
  ((segments_reading ks).cons .identifier).node .referenceExpression

theorem literalKind?_spec {k kind : Kind} (known : literalKind? k = some kind) :
    [.token k] ∈ Schema.production Schema.gap kind ∧ kind ∈ Kind.literals ∧
      [k] ∈ Sentence.literal ∧ (k.isString → kind = .stringLiteral ∧ [k] ∈ Sentence.string) := by
  have strings : ∀ k, k ∈ [Kind.singleQuoted, .doubleQuoted] → [k] ∈ Sentence.string :=
    fun k member => ⟨k, member, rfl⟩
  have others : ∀ k, k ∈ [Kind.number, .trueWord, .falseWord, .nullWord] →
      [k] ∈ Sentence.literal := fun k member => Or.inr ⟨k, member, rfl⟩
  have tokens : ∀ ks k, k ∈ ks → [.token k] ∈ Schema.tokenOf ks :=
    fun ks k member => ⟨k, member, rfl⟩
  cases k with
  | singleQuoted =>
      cases known
      exact ⟨tokens _ _ (by decide), by decide, Or.inl (strings _ (by decide)),
        fun _ => ⟨rfl, strings _ (by decide)⟩⟩
  | doubleQuoted =>
      cases known
      exact ⟨tokens _ _ (by decide), by decide, Or.inl (strings _ (by decide)),
        fun _ => ⟨rfl, strings _ (by decide)⟩⟩
  | number => cases known; exact ⟨rfl, by decide, others _ (by decide), nofun⟩
  | trueWord =>
      cases known; exact ⟨tokens _ _ (by decide), by decide, others _ (by decide), nofun⟩
  | falseWord =>
      cases known; exact ⟨tokens _ _ (by decide), by decide, others _ (by decide), nofun⟩
  | nullWord => cases known; exact ⟨rfl, by decide, others _ (by decide), nofun⟩
  | _ => cases known

theorem literal_reading {k kind : Kind} (known : literalKind? k = some kind)
    {words : Language Kind} (word : [k] ∈ words) (ks : List Kind) :
    Reading (k :: ks) (Schema.node kind) words ([.node kind [.token k]], ks) := by
  have production := (literalKind?_spec known).1
  have parts : Reading (k :: ks) (Schema.production Schema.gap kind) words ([.token k], ks) :=
    (Reading.token k ks).mono (fun _ same => same ▸ production) fun _ same => same ▸ word
  exact parts.node kind

theorem literal?_eq_some {k : Kind} {name : Outline} (known : literal? k = some name) :
    ∃ kind, literalKind? k = some kind ∧ name = .node kind [.token k] := by
  obtain ⟨kind, found, rfl⟩ := Option.map_eq_some_iff.mp known
  exact ⟨kind, found, rfl⟩

theorem contextName_reading (ks : List Kind) (out : List Outline × List Kind)
    (applies : contextName ks = some out) :
    Reading ks Schema.contextName Sentence.contextName out := by
  have marker {k : Kind} (member : Kind.contextMarkers.contains k = true) (ks : List Kind) :
      Reading (k :: ks) (Schema.tokenOf [.atSign, .bangAt]) (Sentence.wordOf [.atSign, .bangAt])
        ([.token k], ks) := by
    have known : k ∈ [Kind.atSign, .bangAt] := by simpa [Kind.contextMarkers] using member
    exact (Reading.token k ks).mono (fun _ same => ⟨k, known, same⟩) fun _ same => ⟨k, known, same⟩
  revert applies
  fun_cases contextName ks with
  | case1 => nofun
  | case2 k member ks comma =>
      intro applies
      rw [← Option.some.inj applies]
      have parts := (marker member _).append
        ((Reading.token .identifier ks).orRight (Schema.gap .contextName))
      exact (parts.node .contextName).append (comma?_reading ks)
  | case3 k member ks none comma =>
      intro applies
      rw [← Option.some.inj applies]
      have parts := (marker member _).append
        ((Reading.gap .contextName ks (Sentence.word .identifier)).orLeft
          (Schema.token .identifier))
      exact (parts.node .contextName).append (comma?_reading ks)
  | case4 => nofun

theorem contextName_of_marker {k : Kind} (marker : Kind.contextMarkers.contains k = true)
    (ks : List Kind) : ∃ out, contextName (k :: ks) = some out := by
  unfold contextName
  simp only [marker, if_true]
  split
  · exact ⟨_, rfl⟩
  · exact ⟨_, rfl⟩

section

variable {rules : Construct → Rule} {constructs : Construct → Language Kind}
  (reads : ∀ c, (rules c).Reads (Schema.construct c) (constructs c))

include reads

theorem invocation_reading {callee : Outline} {ks rest : List Kind} {words : Language Kind}
    (reading : Reading ks (Schema.node .referenceExpression) words
      ([callee], .openParen :: rest)) :
    Reading ks (Schema.node .invocationExpression) (words * Sentence.group constructs .arguments)
      ([(invocation rules callee rest).1], (invocation rules callee rest).2) :=
  (reading.append (group_reading reads .arguments rest)).node .invocationExpression

theorem constructed_reading {name : Outline} {ks rest : List Kind} {words : Language Kind}
    (reading : Reading ks
      (Schema.nodeOf [.invocationExpression, .referenceExpression, .stringLiteral]) words
      ([name], rest)) :
    Reading ks (Schema.nodeOf Kind.values) (words * Sentence.group constructs .object + words)
      ([(constructed rules name rest).1], (constructed rules name rest).2) := by
  unfold constructed
  split
  case h_1 rest =>
    have constructor := reading.node .constructorReference
    have parts := (constructor.orLeft 1).append (group_reading reads .object rest)
    exact ((parts.node .object).nodeOf _ (by decide)).widen fun _ => Or.inl
  case h_2 =>
    refine reading.mono (fun w member => ?_) fun _ => Or.inr
    obtain ⟨k, known, c, rfl⟩ := member
    refine ⟨k, ?_, c, rfl⟩
    revert k
    decide

theorem value_reading :
    Rule.Reads (value rules) (Schema.nodeOf Kind.values) (Sentence.value constructs) := by
  intro ks read
  fun_cases value rules ks with
  | case1 ks body =>
      intro answer
      rw [← Option.some.inj answer]
      have parts := ((Reading.nil (.openBrace :: ks)).orRight
        (Schema.node .constructorReference)).append (group_reading reads .object ks)
      refine ((parts.node .object).nodeOf _ (by decide)).widen fun w word => ?_
      simp only [Sentence.value, add_mul, Language.mem_add]
      tauto
  | case2 ks name =>
      intro answer
      rw [← Option.some.inj answer]
      have parts := (reference_reading ks).cons .dot
      refine ((parts.node .contextualPropertyReference).nodeOf _ (by decide)).widen
        fun w word => ?_
      simp only [Sentence.value, Language.mem_add]
      tauto
  | case3 ks name rest opens call =>
      intro answer
      rw [← Option.some.inj answer]
      have callee := reference_reading ks
      rw [show (reference ks).2 = .openParen :: rest from opens] at callee
      have name := (invocation_reading reads callee).nodeOf
        [.invocationExpression, .referenceExpression, .stringLiteral] (by decide)
      refine (constructed_reading reads name).widen fun w word => ?_
      simp only [Sentence.value, Sentence.invocation, add_mul, Language.mem_add] at word ⊢
      tauto
  | case4 ks name closed =>
      intro answer
      rw [← Option.some.inj answer]
      have name := (reference_reading ks).nodeOf
        [.invocationExpression, .referenceExpression, .stringLiteral] (by decide)
      refine (constructed_reading reads name).widen fun w word => ?_
      simp only [Sentence.value, add_mul, Language.mem_add] at word ⊢
      tauto
  | case5 k ks notBrace notDot notName =>
      intro answer
      obtain ⟨name, found, rfl⟩ := Option.map_eq_some_iff.mp answer
      obtain ⟨kind, known, rfl⟩ := literal?_eq_some found
      obtain ⟨-, literal, word, string⟩ := literalKind?_spec known
      split
      case isTrue quoted =>
        obtain ⟨rfl, word⟩ := string quoted
        have name := (literal_reading known word ks).nodeOf
          [.invocationExpression, .referenceExpression, .stringLiteral] (by decide)
        refine (constructed_reading reads name).widen fun w word => ?_
        simp only [Sentence.value, Sentence.literal, add_mul, Language.mem_add] at word ⊢
        tauto
      case isFalse =>
        have values : ∀ kind ∈ Kind.literals, kind ∈ Kind.values := by decide
        refine ((literal_reading known word ks).nodeOf _ (values kind literal)).widen
          fun w word => ?_
        simp only [Sentence.value, Language.mem_add] at word ⊢
        tauto
  | case6 => nofun

theorem assigned_reading (c : Context) (ks : List Kind) :
    Reading ks (Schema.construct .value) (constructs .value)
      ([(assigned rules c ks).1], (assigned rules c ks).2) := by
  unfold assigned
  cases answer : rules .value ks with
  | none =>
      exact (Reading.skip _ _ _ _).mono (skipped_mem_construct .value) fun _ word => word
  | some read => exact reads .value ks read answer

omit reads in
theorem plain_of_group {g : Group} {ks : List Kind} {words : Language Kind}
    {out : List Outline × List Kind} (reading : Reading ks (Schema.group Schema.gap g) words out) :
    out.1.any (·.isNode .constructorReference) = false := by
  rw [List.any_eq_false]
  intro o member
  have plain := Schema.over_group g _ reading.symbols o.symbol (List.mem_map_of_mem member)
  cases o with
  | node k parts => exact Bool.eq_false_iff.mp plain
  | _ => exact Bool.false_ne_true

theorem property_reading {name : Outline} {ks rest : List Kind}
    (reading : Reading ks Schema.name Sentence.name ([name], rest)) :
    Reading ks (Schema.node .property) (Sentence.property constructs)
      ([(property rules name rest).1], (property rules name rest).2) := by
  fun_cases property rules name rest with
  | case1 ks value =>
      have content : Reading (.equals :: ks) Schema.content (Sentence.content constructs)
          ([.token .equals, value.1], value.2) :=
        ((assigned_reading reads .propertyValue ks).cons .equals).mono
          (fun _ part => Or.inl (Or.inr part)) fun _ word => Or.inl (Or.inr word)
      exact (reading.append content).node .property
  | case2 ks body =>
      have group := group_reading reads .object ks
      have content : Reading (.openBrace :: ks) Schema.content (Sentence.content constructs)
          ([.node .object body.1], body.2) := by
        have parts := ((Reading.nil (.openBrace :: ks)).orRight
          (Schema.node .constructorReference)).append group
        have object := parts.wrap .object
        simp only [List.nil_append, plain_of_group group] at object
        refine object.mono (fun _ part => Or.inr part) fun w word => Or.inr ?_
        rwa [one_mul] at word
      exact (reading.append content).node .property
  | case3 notEquals notBrace =>
      have content : Reading rest Schema.content (Sentence.content constructs) ([], rest) :=
        (Reading.nil rest).mono (fun _ part => Or.inl (Or.inl part))
          fun _ word => Or.inl (Or.inl word)
      exact (reading.append content).node .property

theorem declaration_reading (ks : List Kind) :
    Reading (.valWord :: ks) (Schema.node .variableDeclaration) (Sentence.declaration constructs)
      ([(declaration rules ks).1], (declaration rules ks).2) := by
  have sentence : Sentence.declaration constructs = Sentence.word .valWord *
      (Sentence.word .identifier * (Sentence.word .equals * constructs .value)) := by
    simp only [Sentence.declaration, mul_assoc]
  rw [sentence]
  fun_cases declaration rules ks with
  | case1 ks value =>
      have assignment := (assigned_reading reads .variableDeclaration ks).cons .equals
      have named := (assignment.orLeft (Schema.gap .assignment)).cons .identifier
      exact ((named.orLeft (Schema.gap .variableName)).cons .valWord).node .variableDeclaration
  | case2 ks notAssigned =>
      have assignment := (Reading.gap .assignment ks
        (Sentence.word .equals * constructs .value)).orRight
          (Schema.token .equals * Schema.construct .value)
      have named := (assignment.cons .identifier).orLeft (Schema.gap .variableName)
      exact (named.cons .valWord).node .variableDeclaration
  | case3 notAssigned notNamed =>
      have named := (Reading.gap .variableName ks (Sentence.word .identifier *
        (Sentence.word .equals * constructs .value))).orRight (Schema.token .identifier *
          (Schema.gap .assignment + Schema.token .equals * Schema.construct .value))
      exact (named.cons .valWord).node .variableDeclaration

theorem statement_reading :
    Rule.Reads (statement rules) Schema.statement (Sentence.statement constructs) := by
  intro ks read
  fun_cases statement rules ks with
  | case1 ks =>
      intro answer
      rw [← Option.some.inj answer]
      exact ((declaration_reading reads ks).nodeOf _ (by decide)).widen
        fun _ word => Or.inl (Or.inr word)
  | case2 ks name rest opens call =>
      intro answer
      rw [← Option.some.inj answer]
      have callee := reference_reading ks
      rw [show (reference ks).2 = .openParen :: rest from opens] at callee
      have parts := (invocation_reading reads callee).node .invocationElement
      exact (parts.nodeOf _ (by decide)).widen fun _ word => Or.inl (Or.inl word)
  | case3 ks name closed =>
      intro answer
      rw [← Option.some.inj answer]
      have reading : Reading (.identifier :: ks) Schema.name Sentence.name ([name.1], name.2) :=
        ((reference_reading ks).nodeOf _ (by decide)).widen fun _ => Or.inr
      exact ((property_reading reads reading).nodeOf _ (by decide)).widen fun _ => Or.inr
  | case4 k ks notVal notName =>
      intro answer
      obtain ⟨name, found, rfl⟩ := Option.map_eq_some_iff.mp answer
      obtain ⟨kind, known, rfl⟩ := literal?_eq_some found
      obtain ⟨-, literal, word, -⟩ := literalKind?_spec known
      have reading : Reading (k :: ks) Schema.name Sentence.name
          ([.node kind [.token k]], ks) :=
        ((literal_reading known word ks).nodeOf _ (List.mem_cons_of_mem _ literal)).widen
          fun _ => Or.inl
      exact ((property_reading reads reading).nodeOf _ (by decide)).widen fun _ => Or.inr
  | case5 => nofun

theorem contextual_reading {k : Kind} (marker : Kind.contextMarkers.contains k = true)
    (ks : List Kind) :
    Reading (k :: ks) (Schema.nodeOf Kind.objectElements) (Sentence.element constructs)
      ([(contextual rules (k :: ks)).1], (contextual rules (k :: ks)).2) := by
  obtain ⟨first, applies⟩ := contextName_of_marker marker ks
  have names := repeated_reading_of_some contextName_reading applies
  fun_cases contextual rules (k :: ks) with
  | case1 found rest opens body =>
      have block := group_reading reads .contextBlock rest
      rw [show Group.contextBlock.opener = .openBrace from rfl, ← opens] at block
      have parts := (names.append block).node .contextBlock
      exact (parts.nodeOf _ (by decide)).widen fun _ word => Or.inl (Or.inl word)
  | case2 found body rest notBrace answer =>
      have statement := (statement_reading reads _ _ answer).orRight (Schema.gap .statement)
      have parts := (names.append statement).node .contextualStatement
      exact (parts.nodeOf _ (by decide)).widen fun _ word => Or.inl (Or.inr word)
  | case3 found notBrace answer =>
      have statement := (Reading.gap .statement found.2 (Sentence.statement constructs)).orLeft
        Schema.statement
      have parts := (names.append statement).node .contextualStatement
      exact (parts.nodeOf _ (by decide)).widen fun _ word => Or.inl (Or.inr word)

theorem element_reading :
    Rule.Reads (element rules) (Schema.nodeOf Kind.objectElements)
      (Sentence.element constructs) := by
  intro ks read
  fun_cases element rules ks with
  | case1 => nofun
  | case2 k ks marker =>
      intro answer
      rw [← Option.some.inj answer]
      exact contextual_reading reads marker ks
  | case3 k ks notMarker =>
      intro answer
      refine (statement_reading reads _ _ answer).mono (fun w member => ?_) fun _ => Or.inr
      obtain ⟨k, known, c, rfl⟩ := member
      refine ⟨k, ?_, c, rfl⟩
      revert k
      decide

end

theorem nested_zero {c : Construct} {ks : List Kind} {read : Read}
    (answer : nested 0 c ks = some read) :
    ∃ k ks', ks = k :: ks' ∧ k ∈ c.first ∧ read = tooDeep (k :: ks') := by
  cases ks with
  | nil => cases answer
  | cons k ks =>
      obtain ⟨first, deep⟩ := Option.ite_none_right_eq_some.mp answer
      exact ⟨k, ks, rfl, List.contains_iff_mem.mp first, (Option.some.inj deep).symm⟩

theorem nested_succ {depth : Nat} {c : Construct} {ks : List Kind} {read : Read}
    (answer : nested (depth + 1) c ks = some read) :
    ∃ k ks', ks = k :: ks' ∧ k ∈ c.first ∧
      construct (nested depth) c (k :: ks') = some read := by
  cases ks with
  | nil => cases answer
  | cons k ks =>
      obtain ⟨first, answer⟩ := Option.ite_none_right_eq_some.mp answer
      exact ⟨k, ks, rfl, List.contains_iff_mem.mp first, answer⟩

theorem nested_reading (depth : Nat) (c : Construct) :
    Rule.Reads (nested depth c) (Schema.construct c) (Sentence.construct depth c) := by
  induction depth generalizing c with
  | zero =>
      intro ks read answer
      obtain ⟨k, ks, rfl, -, rfl⟩ := nested_zero answer
      exact (Reading.skip _ _ _ _).mono (skipped_mem_construct c) fun _ word => word
  | succ depth ih =>
      intro ks read answer
      obtain ⟨k, ks, rfl, -, answer⟩ := nested_succ answer
      cases c with
      | element => exact (element_reading ih (k :: ks) read answer).orRight _
      | value => exact (value_reading ih (k :: ks) read answer).orRight _

theorem fileItem_reading (depth : Nat) (ks : List Kind) (out : List Outline × List Kind)
    (applies : fileItem (nested depth .element) ks = some out) :
    Reading ks (Schema.construct .element) (Sentence.construct depth .element) out := by
  obtain ⟨k, ks, rfl, rfl⟩ := fileItem_some applies
  exact getD_recover_reading (nested_reading depth .element) .topLevel (k :: ks)

theorem items_reading (depth : Nat) (ks : List Kind) :
    Reading ks (Schema.production Schema.gap .file) (Sentence.file depth)
      (repeated (fileItem (nested depth .element)) ks) :=
  steps_reading (fileItem_reading depth) _ ks

end ConfigSyntax.Grammar
