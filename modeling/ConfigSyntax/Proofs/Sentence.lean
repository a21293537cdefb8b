import ConfigSyntax.Outline
import Mathlib.Computability.Language

/-! The grammar as languages over the kinds of significant tokens. -/

namespace ConfigSyntax.Sentence

open scoped Computability

def word (k : Kind) : Language Kind := {[k]}

def wordOf (ks : List Kind) : Language Kind := {w | ∃ k ∈ ks, w = [k]}

def string : Language Kind := wordOf [.singleQuoted, .doubleQuoted]

def literal : Language Kind := string + wordOf [.number, .trueWord, .falseWord, .nullWord]

def reference : Language Kind := word .identifier * (word .dot * word .identifier)∗

def name : Language Kind := literal + reference

def contextName : Language Kind := wordOf [.atSign, .bangAt] * word .identifier * (1 + word .comma)

def contextNames : Language Kind := contextName * contextName∗

section

variable (constructs : Construct → Language Kind)

/-- A delimited list in which commas are optional. -/
def group (g : Group) : Language Kind :=
  word g.opener * (constructs g.holds * (1 + word .comma))∗ * word g.closer

def invocation : Language Kind := reference * group constructs .arguments

def declaration : Language Kind :=
  word .valWord * word .identifier * word .equals * constructs .value

def content : Language Kind :=
  1 + word .equals * constructs .value + group constructs .object

def property : Language Kind := name * content constructs

def statement : Language Kind :=
  invocation constructs + declaration constructs + property constructs

def element : Language Kind :=
  contextNames * group constructs .contextBlock + contextNames * statement constructs +
    statement constructs

def value : Language Kind :=
  (1 + invocation constructs + reference + string) * group constructs .object + literal +
    invocation constructs + word .dot * reference + reference

end

/-- What is derived with elements and values nested at most so deep. -/
def construct : Nat → Construct → Language Kind
  | 0, _ => 0
  | depth + 1, .element => element (construct depth)
  | depth + 1, .value => value (construct depth)

def file (depth : Nat) : Language Kind := (construct depth .element)∗

def Starts (first : List Kind) (l : Language Kind) : Prop :=
  ∀ w ∈ l, ∃ k ks, w = k :: ks ∧ k ∈ first

section

variable {first : List Kind} {l m : Language Kind}

theorem Starts.mono {more : List Kind} (starts : Starts first l)
    (included : ∀ k ∈ first, k ∈ more) : Starts more l := by
  intro w word
  obtain ⟨k, ks, same, member⟩ := starts w word
  exact ⟨k, ks, same, included k member⟩

theorem Starts.mul (starts : Starts first l) (m : Language Kind) : Starts first (l * m) := by
  intro w word
  obtain ⟨a, left, b, -, rfl⟩ := word
  obtain ⟨k, ks, rfl, member⟩ := starts a left
  exact ⟨k, ks ++ b, rfl, member⟩

theorem Starts.add (one : Starts first l) (other : Starts first m) : Starts first (l + m) := by
  intro w word
  rcases word with word | word
  · exact one w word
  · exact other w word

theorem starts_word {k : Kind} (member : k ∈ first) : Starts first (word k) :=
  fun _ same => ⟨k, [], same, member⟩

theorem starts_wordOf (ks : List Kind) : Starts ks (wordOf ks) := by
  intro w word
  obtain ⟨k, member, rfl⟩ := word
  exact ⟨k, [], rfl, member⟩

theorem starts_literal : Starts Kind.propertyNameFirst literal :=
  ((starts_wordOf _).mono (by decide)).add ((starts_wordOf _).mono (by decide))

theorem starts_reference : Starts Kind.propertyNameFirst reference :=
  (starts_word (by decide)).mul _

theorem starts_contextNames : Starts Kind.contextMarkers contextNames :=
  (((starts_wordOf _).mul _).mul _).mul _

variable (constructs : Construct → Language Kind)

theorem starts_group {g : Group} (opener : g.opener ∈ first) :
    Starts first (group constructs g) :=
  ((starts_word opener).mul _).mul _

theorem starts_invocation : Starts Kind.propertyNameFirst (invocation constructs) :=
  starts_reference.mul _

theorem starts_statement :
    Starts (.valWord :: Kind.propertyNameFirst) (statement constructs) := by
  have names : ∀ k ∈ Kind.propertyNameFirst, k ∈ .valWord :: Kind.propertyNameFirst := by decide
  have name : Starts Kind.propertyNameFirst name := starts_literal.add starts_reference
  exact (((starts_invocation constructs).mono names).add
    ((((starts_word (by decide)).mul _).mul _).mul _)).add ((name.mul _).mono names)

theorem starts_element : Starts Kind.objectElementFirst (element constructs) := by
  have names : Starts Kind.objectElementFirst contextNames := starts_contextNames.mono (by decide)
  exact ((names.mul _).add (names.mul _)).add ((starts_statement constructs).mono (by decide))

/-- A value starts as a property does, or it is an object or a name behind a dot. -/
theorem starts_value (w : List Kind) (word : w ∈ value constructs) :
    (∃ k ks, w = k :: ks ∧ k ∈ Kind.propertyNameFirst) ∨ w ∈ group constructs .object ∨
      w ∈ Sentence.word .dot * reference := by
  have quoted : Starts Kind.propertyNameFirst string := (starts_wordOf _).mono (by decide)
  rcases word with (((object | literal) | call) | dotted) | name
  · obtain ⟨name, first, body, second, rfl⟩ := object
    rcases first with ((empty | call) | reference) | string
    · rw [(Language.mem_one name).mp empty]
      exact Or.inr (Or.inl second)
    · exact Or.inl ((starts_invocation constructs).mul _ _ (Language.append_mem_mul call second))
    · exact Or.inl (starts_reference.mul _ _ (Language.append_mem_mul reference second))
    · exact Or.inl (quoted.mul _ _ (Language.append_mem_mul string second))
  · exact Or.inl (starts_literal w literal)
  · exact Or.inl (starts_invocation constructs w call)
  · exact Or.inr (Or.inr dotted)
  · exact Or.inl (starts_reference w name)

end

end ConfigSyntax.Sentence
