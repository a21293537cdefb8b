import ConfigSyntax.Proofs.Builds

/-! In which nodes tokens are skipped: a skip is a part of the node whose context it is told of.
Main statement: `file_suits`. -/

namespace ConfigSyntax

def Kind.context? : Kind → Option Context
  | file => some .topLevel
  | object => some .objectBody
  | contextBlock => some .contextBlockBody
  | invocationExpression => some .argumentList
  | property => some .propertyValue
  | variableDeclaration => some .variableDeclaration
  | _ => none

def Kind.takesValue : Kind → Bool
  | property | variableDeclaration => true
  | _ => false

/-- What is unexpected is a part of a list, and what is skipped for a value is that value. -/
def Skip.Suits (parent : Kind) : Skip → Prop
  | .unexpected c => parent.context? = some c ∧ parent.takesValue = false
  | .noValue c => parent.context? = some c ∧ parent.takesValue = true
  | .tooDeep => True

namespace Outline

mutual

def Suits (parent : Kind) : Outline → Prop
  | .token _ => True
  | .gap _ => True
  | .skipped why _ => why.Suits parent
  | .node k parts => k ≠ .error ∧ SuitsAll k parts

def SuitsAll (parent : Kind) : List Outline → Prop
  | [] => True
  | p :: ps => Suits parent p ∧ SuitsAll parent ps

end

theorem suitsAll_append {parent : Kind} {front back : List Outline}
    (first : SuitsAll parent front) (second : SuitsAll parent back) :
    SuitsAll parent (front ++ back) := by
  induction front with
  | nil => exact second
  | cons p ps ih => exact ⟨first.1, ih first.2⟩

end Outline

namespace Grammar

open Outline (Suits SuitsAll suitsAll_append)

def Rule.Suits (rule : Rule) : Prop :=
  ∀ parent ks read, rule ks = some read → read.1.Suits parent

section

variable {parent : Kind}

theorem steps_suits {step : List Kind → Option (List Outline × List Kind)}
    (each : ∀ ks out, step ks = some out → SuitsAll parent out.1) (n : Nat) (ks : List Kind) :
    SuitsAll parent (steps step n ks).1 := by
  induction n generalizing ks with
  | zero => trivial
  | succ n ih =>
      rw [steps]
      cases answer : step ks with
      | none => trivial
      | some out => exact suitsAll_append (each ks out answer) (ih out.2)

theorem comma?_suits (ks : List Kind) : SuitsAll parent (comma? ks).1 := by
  unfold comma?
  split
  · exact ⟨trivial, trivial⟩
  · trivial

theorem closing_suits (g : Group) (ks : List Kind) : SuitsAll parent (closing g ks).1 := by
  cases ks with
  | nil => exact ⟨trivial, trivial⟩
  | cons k ks =>
      rw [closing]
      split <;> exact ⟨trivial, trivial⟩

theorem getD_recover_suits {rule : Rule} (suits : rule.Suits) {c : Context}
    (list : parent.context? = some c ∧ parent.takesValue = false) (k : Kind) (ks : List Kind) :
    ((rule (k :: ks)).getD (recover c (k :: ks))).1.Suits parent := by
  cases answer : rule (k :: ks) with
  | none => exact list
  | some read => exact suits parent _ read answer

theorem group_suits {rules : Construct → Rule} (suits : ∀ construct, (rules construct).Suits)
    {g : Group} (list : parent.context? = some g.context ∧ parent.takesValue = false)
    (ks : List Kind) : SuitsAll parent (group g rules ks).1 := by
  have each : ∀ ks out, groupItem g (rules g.holds) ks = some out → SuitsAll parent out.1 := by
    intro ks out applies
    obtain ⟨k, ks, rfl, -, rfl⟩ := groupItem_some applies
    exact ⟨getD_recover_suits (suits g.holds) list k ks, comma?_suits _⟩
  exact ⟨trivial, suitsAll_append (steps_suits each ks.length ks) (closing_suits g _)⟩

theorem segments_suits (ks : List Kind) : SuitsAll parent (segments ks).1 := by
  fun_induction segments ks with
  | case1 ks more ih => exact ⟨trivial, trivial, ih⟩
  | case2 ks => trivial

theorem reference_suits (ks : List Kind) : (reference ks).1.Suits parent :=
  ⟨by decide, trivial, segments_suits ks⟩

theorem literal?_suits {k : Kind} {name : Outline} (known : literal? k = some name) :
    name.Suits parent := by
  obtain ⟨kind, found, rfl⟩ := literal?_eq_some known
  refine ⟨?_, trivial, trivial⟩
  cases k <;> cases found <;> decide

theorem contextName_suits (ks : List Kind) (out : List Outline × List Kind)
    (applies : contextName ks = some out) : SuitsAll parent out.1 := by
  revert applies
  fun_cases contextName ks with
  | case1 => rintro ⟨⟩
  | case2 k marker ks comma =>
      intro applies
      rw [← Option.some.inj applies]
      exact ⟨⟨by decide, trivial, trivial, trivial⟩, comma?_suits ks⟩
  | case3 k marker ks none comma =>
      intro applies
      rw [← Option.some.inj applies]
      exact ⟨⟨by decide, trivial, trivial, trivial⟩, comma?_suits ks⟩
  | case4 => rintro ⟨⟩

end

section

variable {rules : Construct → Rule} (suits : ∀ construct, (rules construct).Suits)

include suits

theorem invocation_suits {callee : Outline} (named : ∀ parent, callee.Suits parent)
    (parent : Kind) (ks : List Kind) : (invocation rules callee ks).1.Suits parent :=
  ⟨by decide, named _, group_suits suits ⟨rfl, rfl⟩ ks⟩

theorem constructed_suits {name : Outline} (named : ∀ parent, name.Suits parent)
    (parent : Kind) (ks : List Kind) : (constructed rules name ks).1.Suits parent := by
  unfold constructed
  split
  · exact ⟨by decide, ⟨by decide, named _, trivial⟩, group_suits suits ⟨rfl, rfl⟩ _⟩
  · exact named parent

theorem value_suits : Rule.Suits (value rules) := by
  intro parent ks read
  fun_cases value rules ks with
  | case1 ks body =>
      intro answer
      rw [← Option.some.inj answer]
      exact ⟨by decide, group_suits suits ⟨rfl, rfl⟩ ks⟩
  | case2 ks name =>
      intro answer
      rw [← Option.some.inj answer]
      exact ⟨by decide, trivial, reference_suits ks, trivial⟩
  | case3 ks name rest opens call =>
      intro answer
      rw [← Option.some.inj answer]
      have callee := invocation_suits suits (fun _ => reference_suits ks)
      exact constructed_suits suits (callee · rest) parent _
  | case4 ks name closed =>
      intro answer
      rw [← Option.some.inj answer]
      exact constructed_suits suits (fun _ => reference_suits ks) parent _
  | case5 k ks notBrace notDot notName =>
      intro answer
      obtain ⟨name, found, rfl⟩ := Option.map_eq_some_iff.mp answer
      split
      · exact constructed_suits suits (fun _ => literal?_suits found) parent ks
      · exact literal?_suits found
  | case6 => rintro ⟨⟩

theorem assigned_suits {parent : Kind} {c : Context}
    (slot : parent.context? = some c ∧ parent.takesValue = true) (ks : List Kind) :
    (assigned rules c ks).1.Suits parent := by
  unfold assigned
  cases answer : rules .value ks with
  | none => exact slot
  | some read => exact suits .value parent ks read answer

theorem property_suits {name : Outline} (named : ∀ parent, name.Suits parent) (parent : Kind)
    (ks : List Kind) : (property rules name ks).1.Suits parent := by
  fun_cases property rules name ks with
  | case1 ks value =>
      exact ⟨by decide, named _, trivial, assigned_suits suits ⟨rfl, rfl⟩ ks, trivial⟩
  | case2 ks body =>
      exact ⟨by decide, named _, ⟨by decide, group_suits suits ⟨rfl, rfl⟩ ks⟩, trivial⟩
  | case3 => exact ⟨by decide, named _, trivial⟩

theorem declaration_suits (parent : Kind) (ks : List Kind) :
    (declaration rules ks).1.Suits parent := by
  fun_cases declaration rules ks with
  | case1 ks value =>
      exact ⟨by decide, trivial, trivial, trivial, assigned_suits suits ⟨rfl, rfl⟩ ks, trivial⟩
  | case2 ks notAssigned => exact ⟨by decide, trivial, trivial, trivial, trivial⟩
  | case3 ks notAssigned notNamed => exact ⟨by decide, trivial, trivial, trivial⟩

theorem statement_suits : Rule.Suits (statement rules) := by
  intro parent ks read
  fun_cases statement rules ks with
  | case1 ks =>
      intro answer
      rw [← Option.some.inj answer]
      exact declaration_suits suits parent ks
  | case2 ks name rest opens call =>
      intro answer
      rw [← Option.some.inj answer]
      exact ⟨by decide, invocation_suits suits (fun _ => reference_suits ks) _ rest, trivial⟩
  | case3 ks name closed =>
      intro answer
      rw [← Option.some.inj answer]
      exact property_suits suits (fun _ => reference_suits ks) parent _
  | case4 k ks notVal notName =>
      intro answer
      obtain ⟨name, found, rfl⟩ := Option.map_eq_some_iff.mp answer
      exact property_suits suits (fun _ => literal?_suits found) parent ks
  | case5 => rintro ⟨⟩

theorem contextual_suits (parent : Kind) (ks : List Kind) :
    (contextual rules ks).1.Suits parent := by
  have names (k : Kind) : SuitsAll k (repeated contextName ks).1 :=
    steps_suits contextName_suits ks.length ks
  fun_cases contextual rules ks with
  | case1 found rest opens body =>
      exact ⟨by decide, suitsAll_append (names _) (group_suits suits ⟨rfl, rfl⟩ rest)⟩
  | case2 found body rest notBrace answer =>
      exact ⟨by decide, suitsAll_append (names _)
        ⟨statement_suits suits _ _ (body, rest) answer, trivial⟩⟩
  | case3 found notBrace answer => exact ⟨by decide, suitsAll_append (names _) ⟨trivial, trivial⟩⟩

theorem element_suits : Rule.Suits (element rules) := by
  intro parent ks read
  fun_cases element rules ks with
  | case1 => rintro ⟨⟩
  | case2 k ks marker =>
      intro answer
      rw [← Option.some.inj answer]
      exact contextual_suits suits parent (k :: ks)
  | case3 k ks notMarker => exact statement_suits suits parent (k :: ks) read

end

theorem nested_suits (depth : Nat) (construct : Construct) :
    Rule.Suits (nested depth construct) := by
  induction depth generalizing construct with
  | zero =>
      intro parent ks read answer
      obtain ⟨k, ks, rfl, -, rfl⟩ := nested_zero answer
      exact trivial
  | succ depth ih =>
      intro parent ks read answer
      obtain ⟨k, ks, rfl, -, answer⟩ := nested_succ answer
      cases construct with
      | element => exact element_suits ih parent (k :: ks) read answer
      | value => exact value_suits ih parent (k :: ks) read answer

theorem file_suits (depth : Nat) (ks : List Kind) : SuitsAll .file (file depth ks) := by
  refine steps_suits (fun ks out applies => ?_) ks.length ks
  obtain ⟨k, ks, rfl, rfl⟩ := fileItem_some applies
  exact ⟨getD_recover_suits (nested_suits depth .element) ⟨rfl, rfl⟩ k ks, trivial⟩

end Grammar
end ConfigSyntax
