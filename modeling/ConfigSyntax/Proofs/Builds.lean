import ConfigSyntax.Proofs.Delimiters
import ConfigSyntax.Proofs.Progress

/-! How outlines are built, whatever the text: the few steps that every rule of the grammar is made
of. What each of them preserves holds of all outlines. Main statement: `file_builds`. -/

namespace ConfigSyntax.Grammar

open Outline (kindsOfAll kindsOfAll_append)

/-- With the kinds `ks` ahead, the reader in the context `c` builds `parts` and leaves `rest`. -/
inductive Builds : Context → List Kind → List Outline → List Kind → Prop
  | nil {c ks} : Builds c ks [] ks
  | token {c k ks} (plain : k.isDelimiter = false) : Builds c (k :: ks) [.token k] ks
  | gap {c g ks} (other : ∀ group, g ≠ .closer group) : Builds c ks [.gap g] ks
  | append {c ks mid rest front back} (first : Builds c ks front mid)
    (second : Builds c mid back rest) : Builds c ks (front ++ back) rest
  | node {c k ks rest parts} (other : k ≠ .error ∧ k ≠ .file) (inside : Builds c ks parts rest) :
    Builds c ks [.node k parts] rest
  | group {c ks mid items} (g : Group) (inside : Builds g.context ks items mid)
    (ends : ∀ k ∈ mid.head?, k ∈ g.ends) :
    Builds c (g.opener :: ks) (.token g.opener :: items ++ (closing g mid).1) (closing g mid).2
  | recover {c k ks} (inside : c.stopsAt k = true → k.isCloser = false) :
    Builds c (k :: ks) [(recover c (k :: ks)).1] (recover c (k :: ks)).2
  | slot {c ks} (c' : Context) (assigned : c' ∈ [.propertyValue, .variableDeclaration]) :
    Builds c ks [(slot c' ks).1] (slot c' ks).2
  | tooDeep {c k ks} (construct : Construct) (first : k ∈ construct.first) :
    Builds c (k :: ks) [(tooDeep (k :: ks)).1] (tooDeep (k :: ks)).2

def Rule.Built (rule : Rule) : Prop :=
  ∀ c ks read, rule ks = some read → Builds c ks [read.1] read.2

namespace Builds

variable {c : Context} {ks rest : List Kind} {parts : List Outline}

theorem cons {k : Kind} (plain : k.isDelimiter = false) (builds : Builds c ks parts rest) :
    Builds c (k :: ks) (.token k :: parts) rest :=
  (Builds.token plain).append builds

theorem split (builds : Builds c ks parts rest) : kindsOfAll parts ++ rest = ks := by
  have skipped (why : Skip) (n : Nat) (ks : List Kind) :
      kindsOfAll [(skip why n ks).1] ++ (skip why n ks).2 = ks := by
    simp [skip, Outline.kinds]
  induction builds with
  | nil => rfl
  | token => rfl
  | gap => rfl
  | append _ _ first second => rw [kindsOfAll_append, List.append_assoc, second, first]
  | node _ _ inside => simpa [Outline.kinds] using inside
  | @group c ks mid items g _ _ inside =>
      have closes := (closing_reading g mid).split
      rw [kindsOfAll_append, List.append_assoc, closes]
      simp [kindsOfAll, Outline.kinds, inside]
  | recover => exact skipped _ _ _
  | slot => exact skipped _ _ _
  | tooDeep => exact skipped _ _ _

end Builds

section

variable {step : List Kind → Option (List Outline × List Kind)} {c : Context}

theorem steps_builds (each : ∀ ks out, step ks = some out → Builds c ks out.1 out.2) (n : Nat)
    (ks : List Kind) : Builds c ks (steps step n ks).1 (steps step n ks).2 := by
  induction n generalizing ks with
  | zero => exact .nil
  | succ n ih =>
      rw [steps]
      cases answer : step ks with
      | none => exact .nil
      | some out => exact (each ks out answer).append (ih out.2)

theorem comma?_builds (ks : List Kind) : Builds c ks (comma? ks).1 (comma? ks).2 := by
  unfold comma?
  split
  · exact .token rfl
  · exact .nil

theorem getD_recover_builds {rule : Rule} (built : rule.Built) {k : Kind} (ks : List Kind)
    (inside : c.stopsAt k = true → k.isCloser = false) :
    Builds c (k :: ks) [((rule (k :: ks)).getD (recover c (k :: ks))).1]
      ((rule (k :: ks)).getD (recover c (k :: ks))).2 := by
  cases answer : rule (k :: ks) with
  | none => exact .recover inside
  | some read => exact built c _ read answer

theorem inside_of_not_end (g : Group) (k : Kind) (notEnd : k ∉ g.ends)
    (stops : g.context.stopsAt k = true) : k.isCloser = false := by
  revert notEnd stops
  cases g <;> cases k <;> decide

end

section

variable {rules : Construct → Rule} (built : ∀ construct, (rules construct).Built)

include built

theorem groupItem_builds (g : Group) (ks : List Kind) (out : List Outline × List Kind)
    (applies : groupItem g (rules g.holds) ks = some out) : Builds g.context ks out.1 out.2 := by
  obtain ⟨k, ks, rfl, notEnd, rfl⟩ := groupItem_some applies
  have item := getD_recover_builds (built g.holds) (c := g.context) (k := k) ks
    (inside_of_not_end g k (by simpa using notEnd))
  exact item.append (comma?_builds _)

theorem group_builds (advances : ∀ construct, (rules construct).Advances) {c : Context} (g : Group)
    (ks : List Kind) : Builds c (g.opener :: ks) (group g rules ks).1 (group g rules ks).2 := by
  have items := steps_builds (groupItem_builds built g) ks.length ks
  have stuck := repeated_stuck (groupItem_advances g (advances g.holds)) ks
  refine .group g items fun k first => ?_
  obtain ⟨rest, left⟩ := List.head?_eq_some_iff.mp first
  rw [left, groupItem] at stuck
  split at stuck
  case isTrue ends => exact List.contains_iff_mem.mp ends
  case isFalse => cases stuck

end

section

variable {c : Context}

theorem segments_builds (ks : List Kind) : Builds c ks (segments ks).1 (segments ks).2 := by
  fun_induction segments ks with
  | case1 ks more ih => exact (ih.cons rfl).cons rfl
  | case2 ks => exact .nil

theorem reference_builds (ks : List Kind) :
    Builds c (.identifier :: ks) [(reference ks).1] (reference ks).2 :=
  ((segments_builds ks).cons rfl).node (by decide)

theorem literal?_builds {k : Kind} {name : Outline} (known : literal? k = some name)
    (ks : List Kind) : Builds c (k :: ks) [name] ks := by
  obtain ⟨kind, found, rfl⟩ := literal?_eq_some known
  have plain : k.isDelimiter = false ∧ kind ≠ .error ∧ kind ≠ .file := by
    cases k <;> cases found <;> exact ⟨rfl, by decide⟩
  exact (Builds.token plain.1).node plain.2

theorem contextName_builds (ks : List Kind) (out : List Outline × List Kind)
    (applies : contextName ks = some out) : Builds c ks out.1 out.2 := by
  have plain : ∀ k ∈ Kind.contextMarkers, k.isDelimiter = false := by decide
  revert applies
  fun_cases contextName ks with
  | case1 => rintro ⟨⟩
  | case2 k marker ks comma =>
      intro applies
      rw [← Option.some.inj applies]
      have name : Builds c (k :: .identifier :: ks)
          [.node .contextName [.token k, .token .identifier]] ks :=
        ((Builds.token rfl).cons (plain k (List.contains_iff_mem.mp marker))).node (by decide)
      exact name.append (comma?_builds ks)
  | case3 k marker ks none comma =>
      intro applies
      rw [← Option.some.inj applies]
      have name : Builds c (k :: ks) [.node .contextName [.token k, .gap .contextName]] ks :=
        ((Builds.gap (g := .contextName) (by simp)).cons
          (plain k (List.contains_iff_mem.mp marker))).node (by decide)
      exact name.append (comma?_builds ks)
  | case4 => rintro ⟨⟩

end

section

variable {rules : Construct → Rule} {c : Context}
  (built : ∀ construct, (rules construct).Built)
  (advances : ∀ construct, (rules construct).Advances)

include built advances

theorem invocation_builds {callee : Outline} {ks rest : List Kind}
    (name : Builds c ks [callee] (.openParen :: rest)) :
    Builds c ks [(invocation rules callee rest).1] (invocation rules callee rest).2 :=
  (name.append (group_builds built advances .arguments rest)).node (by decide)

theorem constructed_builds {name : Outline} {ks rest : List Kind}
    (named : Builds c ks [name] rest) :
    Builds c ks [(constructed rules name rest).1] (constructed rules name rest).2 := by
  unfold constructed
  split
  case h_1 rest =>
    have constructor := named.node (k := .constructorReference) (by decide)
    exact (constructor.append (group_builds built advances .object rest)).node (by decide)
  case h_2 => exact named

theorem value_built : Rule.Built (value rules) := by
  intro c ks read
  fun_cases value rules ks with
  | case1 ks body =>
      intro answer
      rw [← Option.some.inj answer]
      exact (group_builds built advances .object ks).node (by decide)
  | case2 ks name =>
      intro answer
      rw [← Option.some.inj answer]
      exact ((reference_builds ks).cons rfl).node (by decide)
  | case3 ks name rest opens call =>
      intro answer
      rw [← Option.some.inj answer]
      have callee := reference_builds (c := c) ks
      rw [show (reference ks).2 = .openParen :: rest from opens] at callee
      exact constructed_builds built advances (invocation_builds built advances callee)
  | case4 ks name closed =>
      intro answer
      rw [← Option.some.inj answer]
      exact constructed_builds built advances (reference_builds ks)
  | case5 k ks notBrace notDot notName =>
      intro answer
      obtain ⟨name, found, rfl⟩ := Option.map_eq_some_iff.mp answer
      split
      · exact constructed_builds built advances (literal?_builds found ks)
      · exact literal?_builds found ks
  | case6 => rintro ⟨⟩

omit advances in
theorem assigned_builds (c' : Context) (assigned : c' ∈ [.propertyValue, .variableDeclaration])
    (ks : List Kind) :
    Builds c ks [(Grammar.assigned rules c' ks).1] (Grammar.assigned rules c' ks).2 := by
  unfold Grammar.assigned
  cases answer : rules .value ks with
  | none => exact .slot c' assigned
  | some read => exact built .value c ks read answer

theorem property_builds {name : Outline} {ks rest : List Kind} (named : Builds c ks [name] rest) :
    Builds c ks [(property rules name rest).1] (property rules name rest).2 := by
  fun_cases property rules name rest with
  | case1 rest value =>
      have value := (assigned_builds built (c := c) .propertyValue (by decide) rest).cons
        (k := .equals) rfl
      exact (named.append value).node (by decide)
  | case2 rest body =>
      have object := (group_builds built advances (c := c) .object rest).node (k := .object)
        (by decide)
      exact (named.append object).node (by decide)
  | case3 => exact named.node (by decide)

omit advances in
theorem declaration_builds (ks : List Kind) :
    Builds c (.valWord :: ks) [(declaration rules ks).1] (declaration rules ks).2 := by
  fun_cases declaration rules ks with
  | case1 ks value =>
      have value := assigned_builds built (c := c) .variableDeclaration (by decide) ks
      exact (((value.cons rfl).cons rfl).cons rfl).node (by decide)
  | case2 ks notAssigned =>
      exact (((Builds.gap (g := .assignment) (by simp)).cons rfl).cons rfl).node (by decide)
  | case3 ks notAssigned notNamed =>
      exact ((Builds.gap (g := .variableName) (by simp)).cons rfl).node (by decide)

theorem statement_built : Rule.Built (statement rules) := by
  intro c ks read
  fun_cases statement rules ks with
  | case1 ks =>
      intro answer
      rw [← Option.some.inj answer]
      exact declaration_builds built ks
  | case2 ks name rest opens call =>
      intro answer
      rw [← Option.some.inj answer]
      have callee := reference_builds (c := c) ks
      rw [show (reference ks).2 = .openParen :: rest from opens] at callee
      exact (invocation_builds built advances callee).node (by decide)
  | case3 ks name closed =>
      intro answer
      rw [← Option.some.inj answer]
      exact property_builds built advances (reference_builds ks)
  | case4 k ks notVal notName =>
      intro answer
      obtain ⟨name, found, rfl⟩ := Option.map_eq_some_iff.mp answer
      exact property_builds built advances (literal?_builds found ks)
  | case5 => rintro ⟨⟩

theorem contextual_builds (ks : List Kind) :
    Builds c ks [(contextual rules ks).1] (contextual rules ks).2 := by
  have names := steps_builds (contextName_builds (c := c)) ks.length ks
  fun_cases contextual rules ks with
  | case1 found rest opens body =>
      rw [show (steps contextName ks.length ks).2 = .openBrace :: rest from opens] at names
      exact (names.append (group_builds built advances .contextBlock rest)).node (by decide)
  | case2 found body rest notBrace answer =>
      exact (names.append (statement_built built advances c _ _ answer)).node (by decide)
  | case3 found notBrace answer =>
      exact (names.append (.gap (g := .statement) (by simp))).node (by decide)

theorem element_built : Rule.Built (element rules) := by
  intro c ks read
  fun_cases element rules ks with
  | case1 => rintro ⟨⟩
  | case2 k ks marker =>
      intro answer
      rw [← Option.some.inj answer]
      exact contextual_builds built advances (k :: ks)
  | case3 k ks notMarker => exact statement_built built advances c (k :: ks) read

end

theorem nested_built (depth : Nat) (construct : Construct) :
    Rule.Built (nested depth construct) := by
  induction depth generalizing construct with
  | zero =>
      intro c ks read answer
      obtain ⟨k, ks, rfl, first, rfl⟩ := nested_zero answer
      exact .tooDeep construct first
  | succ depth ih =>
      intro c ks read answer
      obtain ⟨k, ks, rfl, -, answer⟩ := nested_succ answer
      cases construct with
      | element => exact element_built ih (nested_advances depth) c _ read answer
      | value => exact value_built ih (nested_advances depth) c _ read answer

theorem file_builds (depth : Nat) (ks : List Kind) : Builds .topLevel ks (file depth ks) [] := by
  have each : ∀ ks out, fileItem (nested depth .element) ks = some out →
      Builds .topLevel ks out.1 out.2 := by
    intro ks out applies
    obtain ⟨k, ks, rfl, rfl⟩ := fileItem_some applies
    apply getD_recover_builds (nested_built depth .element) ks
    cases k <;> decide
  have whole := steps_builds each ks.length ks
  rwa [show (steps _ _ ks).2 = [] from items_rest depth ks] at whole

end ConfigSyntax.Grammar
