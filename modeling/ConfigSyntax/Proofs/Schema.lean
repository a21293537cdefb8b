import ConfigSyntax.Tree
import ConfigSyntax.Proofs.Sentence

/-! What may stand in a node of each kind, as languages over its parts. -/

namespace ConfigSyntax

/-- What the schema sees of a part. Of a node it is the kind, and whether a constructor reference
is among its own parts. -/
inductive Symbol where
  | token (kind : Kind)
  | node (kind : Kind) (constructed : Bool)
  | gap (gap : Gap)
  deriving DecidableEq, Repr

namespace Symbol

def isNode (k : Kind) : Symbol → Bool
  | .node k' _ => k' = k
  | _ => false

def gap? : Symbol → Option Gap
  | .gap g => some g
  | _ => none

def opener? : Symbol → Option Kind
  | .token k => if k.isOpener then some k else none
  | _ => none

end Symbol

def Kind.statements : List Kind := [invocationElement, variableDeclaration, property]

namespace Construct

def kinds : Construct → List Kind
  | element => .error :: Kind.objectElements
  | value => .error :: Kind.values

end Construct

def Tree.symbol : Tree → Symbol
  | .token k _ => .token k
  | .node k parts => .node k (parts.any fun t => t.isNode && t.kind = .constructorReference)

def Tree.isTrivia : Tree → Bool
  | .token k _ => k.isTrivia
  | .node .. => false

namespace Outline

def isNode (k : Kind) : Outline → Bool
  | .node k' _ => k' = k
  | _ => false

def symbol : Outline → Symbol
  | .token k => .token k
  | .gap g => .gap g
  | .skipped .. => .node .error false
  | .node k parts => .node k (parts.any (·.isNode .constructorReference))

end Outline

namespace Schema

open scoped Computability

def token (k : Kind) : Language Symbol := {[.token k]}

def tokenOf (ks : List Kind) : Language Symbol := {w | ∃ k ∈ ks, w = [.token k]}

def nodeOf (ks : List Kind) : Language Symbol := {w | ∃ k ∈ ks, ∃ c, w = [.node k c]}

def node (k : Kind) : Language Symbol := nodeOf [k]

def plainObject : Language Symbol := {[.node .object false]}

def gap (g : Gap) : Language Symbol := {[.gap g]}

def skipped : Language Symbol := node .error

def statement : Language Symbol := nodeOf Kind.statements

/-- A construct, or what was skipped in its place. -/
def construct : Construct → Language Symbol
  | .element => nodeOf Kind.objectElements + skipped
  | .value => nodeOf Kind.values + skipped

theorem nodeOf_of_construct {c : Construct} {w : List Symbol} (word : w ∈ construct c) :
    w ∈ nodeOf c.kinds := by
  cases c with
  | element | value =>
      rcases word with ⟨k, known, word⟩ | ⟨k, known, word⟩
      · exact ⟨k, List.mem_cons_of_mem _ known, word⟩
      · exact ⟨k, List.mem_cons.mpr (Or.inl (List.mem_singleton.mp known)), word⟩

def name : Language Symbol := nodeOf (.referenceExpression :: Kind.literals)

def content : Language Symbol := 1 + token .equals * construct .value + plainObject

def contextName : Language Symbol := node .contextName * (1 + token .comma)

def contextNames : Language Symbol := contextName * contextName∗

section

variable (missing : Gap → Language Symbol)

def group (g : Group) : Language Symbol :=
  token g.opener * (construct g.holds * (1 + token .comma))∗ *
    (token g.closer + missing (.closer g))

def production : Kind → Language Symbol
  | .file => (construct .element)∗
  | .object => (1 + node .constructorReference) * group missing .object
  | .contextBlock => contextNames * group missing .contextBlock
  | .contextualStatement => contextNames * (statement + missing .statement)
  | .contextName => tokenOf [.atSign, .bangAt] * (token .identifier + missing .contextName)
  | .invocationElement => node .invocationExpression
  | .invocationExpression => node .referenceExpression * group missing .arguments
  | .variableDeclaration =>
    token .valWord * (missing .variableName +
      token .identifier * (missing .assignment + token .equals * construct .value))
  | .property => name * content
  | .constructorReference => nodeOf [.invocationExpression, .referenceExpression, .stringLiteral]
  | .referenceExpression => token .identifier * (token .dot * token .identifier)∗
  | .contextualPropertyReference => token .dot * node .referenceExpression
  | .stringLiteral => tokenOf [.singleQuoted, .doubleQuoted]
  | .numberLiteral => token .number
  | .booleanLiteral => tokenOf [.trueWord, .falseWord]
  | .nullLiteral => token .nullWord
  | .error => {w | ∀ s ∈ w, ∃ k, s = .token k}
  | _ => 0

end

def parts : Kind → Language Symbol := production fun _ => 1

def Over (p : Symbol → Prop) (l : Language Symbol) : Prop := ∀ w ∈ l, ∀ s ∈ w, p s

section

variable {p : Symbol → Prop} {l m : Language Symbol}

theorem over_one : Over p 1 := by
  intro w member s present
  rw [(Language.mem_one w).mp member] at present
  cases present

theorem over_add (first : Over p l) (second : Over p m) : Over p (l + m) := by
  intro w member
  rcases member with member | member
  · exact first w member
  · exact second w member

theorem over_mul (first : Over p l) (second : Over p m) : Over p (l * m) := by
  intro w member s present
  obtain ⟨a, left, b, right, rfl⟩ := member
  rcases List.mem_append.mp present with present | present
  · exact first a left s present
  · exact second b right s present

theorem over_star (each : Over p l) : Over p l∗ := by
  intro w member s present
  obtain ⟨words, rfl, items⟩ := member
  obtain ⟨word, within, inside⟩ := List.mem_flatten.mp present
  exact each word (items word within) s inside

theorem over_token {k : Kind} (known : p (.token k)) : Over p (token k) := by
  intro w member s present
  rw [show w = [.token k] from member] at present
  rw [List.mem_singleton.mp present]
  exact known

theorem over_tokenOf {ks : List Kind} (known : ∀ k ∈ ks, p (.token k)) : Over p (tokenOf ks) := by
  intro w member s present
  obtain ⟨k, within, rfl⟩ := member
  rw [List.mem_singleton.mp present]
  exact known k within

theorem over_nodeOf {ks : List Kind} (known : ∀ k ∈ ks, ∀ c, p (.node k c)) :
    Over p (nodeOf ks) := by
  intro w member s present
  obtain ⟨k, within, c, rfl⟩ := member
  rw [List.mem_singleton.mp present]
  exact known k within c

theorem over_gap {g : Gap} (known : p (.gap g)) : Over p (gap g) := by
  intro w member s present
  rw [show w = [.gap g] from member] at present
  rw [List.mem_singleton.mp present]
  exact known

theorem over_construct (c : Construct) (known : ∀ k c, k ≠ .constructorReference → p (.node k c)) :
    Over p (construct c) := by
  have failed : Over p skipped := over_nodeOf fun k member c => known k c (by
    rw [List.mem_singleton.mp member]
    decide)
  cases c with
  | element =>
      refine over_add (over_nodeOf fun k member c => known k c ?_) failed
      revert k
      decide
  | value =>
      refine over_add (over_nodeOf fun k member c => known k c ?_) failed
      revert k
      decide

theorem whole_construct (c : Construct) : Over (·.gap? = none) (construct c) :=
  over_construct c fun _ _ _ => rfl

theorem over_contextNames (node : ∀ c, p (.node .contextName c)) (comma : p (.token .comma)) :
    Over p contextNames := by
  have name : Over p contextName := by
    refine over_mul (over_nodeOf fun k same c => ?_) (over_add over_one (over_token comma))
    rw [List.mem_singleton.mp same]
    exact node c
  exact over_mul name (over_star name)

theorem over_items (c : Construct) (known : ∀ k c, k ≠ .constructorReference → p (.node k c))
    (comma : p (.token .comma)) : Over p (construct c * (1 + token .comma))∗ :=
  over_star (over_mul (over_construct c known) (over_add over_one (over_token comma)))

theorem over_group (g : Group) :
    Over (fun s => s.isNode .constructorReference = false) (group gap g) := by
  have items : Over (fun s => s.isNode .constructorReference = false)
      (construct g.holds * (1 + token .comma))∗ :=
    over_items _ (fun k c different => by simpa [Symbol.isNode] using different) rfl
  exact over_mul (over_mul (over_token rfl) items) (over_add (over_token rfl) (over_gap rfl))

end

end Schema
end ConfigSyntax
