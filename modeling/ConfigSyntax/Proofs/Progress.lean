import ConfigSyntax.Proofs.Rules

/-! Each step of a repetition takes a kind away, so that no repetition runs out of steps. Main
statements: `repeated_of_some`, `repeated_stuck`, `items_rest`. -/

namespace ConfigSyntax

namespace Schema

def Firm : Symbol → Prop
  | .token _ => True
  | .node k _ => k ≠ .error ∧ k ≠ .file
  | .gap _ => False

def Holds (l : Language Symbol) : Prop := ∀ w ∈ l, ∃ s ∈ w, Firm s

theorem holds_mul_left {l : Language Symbol} (first : Holds l) (m : Language Symbol) :
    Holds (l * m) := by
  intro w member
  obtain ⟨a, left, b, -, rfl⟩ := member
  obtain ⟨s, present, firm⟩ := first a left
  exact ⟨s, List.mem_append_left b present, firm⟩

theorem holds_mul_right {m : Language Symbol} (second : Holds m) (l : Language Symbol) :
    Holds (l * m) := by
  intro w member
  obtain ⟨a, -, b, right, rfl⟩ := member
  obtain ⟨s, present, firm⟩ := second b right
  exact ⟨s, List.mem_append_right a present, firm⟩

theorem holds_token (k : Kind) : Holds (token k) := by
  intro w member
  rw [show w = [.token k] from member]
  exact ⟨_, List.mem_singleton_self _, trivial⟩

theorem holds_tokenOf (ks : List Kind) : Holds (tokenOf ks) := by
  intro w member
  obtain ⟨k, -, rfl⟩ := member
  exact ⟨_, List.mem_singleton_self _, trivial⟩

theorem holds_nodeOf {ks : List Kind} (firm : ∀ k ∈ ks, k ≠ .error ∧ k ≠ .file) :
    Holds (nodeOf ks) := by
  intro w member
  obtain ⟨k, within, c, rfl⟩ := member
  exact ⟨_, List.mem_singleton_self _, firm k within⟩

theorem holds_group (missing : Gap → Language Symbol) (g : Group) : Holds (group missing g) :=
  holds_mul_left (holds_mul_left (holds_token _) _) _

theorem holds_contextNames : Holds contextNames :=
  holds_mul_left (holds_mul_left (holds_nodeOf (by decide)) _) _

theorem holds_production (missing : Gap → Language Symbol) {k : Kind} (notError : k ≠ .error)
    (notFile : k ≠ .file) : Holds (production missing k) := by
  cases k with
  | object => exact holds_mul_right (holds_group missing _) _
  | contextBlock => exact holds_mul_left holds_contextNames _
  | contextualStatement => exact holds_mul_left holds_contextNames _
  | contextName => exact holds_mul_left (holds_tokenOf _) _
  | invocationElement => exact holds_nodeOf (by decide)
  | invocationExpression => exact holds_mul_left (holds_nodeOf (by decide)) _
  | variableDeclaration => exact holds_mul_left (holds_token _) _
  | property => exact holds_mul_left (holds_nodeOf (by decide)) _
  | constructorReference => exact holds_nodeOf (by decide)
  | referenceExpression => exact holds_mul_left (holds_token _) _
  | contextualPropertyReference => exact holds_mul_left (holds_token _) _
  | stringLiteral => exact holds_tokenOf _
  | numberLiteral => exact holds_token _
  | booleanLiteral => exact holds_tokenOf _
  | nullLiteral => exact holds_token _
  | file => exact absurd rfl notFile
  | error => exact absurd rfl notError
  | _ => exact fun w none => absurd none (Language.notMem_zero w)

end Schema

namespace Outline

theorem kinds_ne_nil_of_mem {o : Outline} {parts : List Outline} (member : o ∈ parts)
    (filled : o.kinds ≠ []) : kindsOfAll parts ≠ [] := by
  obtain ⟨front, back, rfl⟩ := List.append_of_mem member
  rw [kindsOfAll_append, kindsOfAll]
  simp [filled]

/-- The schema leaves no node but a file or an error without a token. -/
theorem Shaped.kinds_ne_nil {o : Outline} (shaped : o.Shaped) (firm : Schema.Firm o.symbol) :
    o.kinds ≠ [] := by
  induction shaped with
  | token k => simp [kinds]
  | gap g => exact absurd firm id
  | skipped why ks => exact absurd rfl firm.1
  | node k parts symbols within ih =>
      obtain ⟨s, present, solid⟩ := Schema.holds_production _ firm.1 firm.2 _ symbols
      obtain ⟨o, member, rfl⟩ := List.mem_map.mp present
      rw [kinds]
      exact kinds_ne_nil_of_mem member (ih o member solid)

end Outline

namespace Grammar

open Outline (kindsOfAll)

section

variable {step : List Kind → Option (List Outline × List Kind)}
  (advances : ∀ ks out, step ks = some out → out.2.length < ks.length)

include advances

theorem steps_eq_repeated (n : Nat) (ks : List Kind) (enough : ks.length ≤ n) :
    steps step n ks = repeated step ks := by
  rw [repeated]
  induction n using Nat.strong_induction_on generalizing ks with
  | _ n ih =>
      cases n with
      | zero => rw [Nat.le_zero.mp enough]
      | succ n =>
          cases length : ks.length with
          | zero =>
              have stuck : step ks = none := by
                cases answer : step ks with
                | none => rfl
                | some out =>
                    have := advances ks out answer
                    omega
              simp only [steps, stuck]
          | succ m =>
              rw [steps, steps]
              cases answer : step ks with
              | none => rfl
              | some out =>
                  have shorter := advances ks out answer
                  -- Both counts are enough for the rest, which is shorter.
                  have more : steps step n out.2 = steps step m out.2 := by
                    rw [ih n (Nat.lt_succ_self n) out.2 (by omega),
                      ih m (by omega) out.2 (by omega)]
                  simp only [more]

omit advances in
theorem repeated_of_none {ks : List Kind} (stuck : step ks = none) :
    repeated step ks = ([], ks) := by
  rw [repeated]
  cases ks.length with
  | zero => rfl
  | succ n => simp only [steps, stuck]

theorem repeated_of_some {ks : List Kind} {out : List Outline × List Kind}
    (applies : step ks = some out) :
    repeated step ks = (out.1 ++ (repeated step out.2).1, (repeated step out.2).2) := by
  have shorter := advances ks out applies
  obtain ⟨n, length⟩ := Nat.exists_eq_succ_of_ne_zero (Nat.ne_of_gt (Nat.zero_lt_of_lt shorter))
  rw [repeated, length, steps, applies]
  simp only [steps_eq_repeated advances n out.2 (by omega)]

theorem repeated_stuck (ks : List Kind) : step (repeated step ks).2 = none := by
  induction length : ks.length using Nat.strong_induction_on generalizing ks with
  | _ n ih =>
      cases answer : step ks with
      | none => rw [repeated_of_none answer, answer]
      | some out =>
          rw [repeated_of_some advances answer]
          exact ih out.2.length (length ▸ advances ks out answer) out.2 rfl

end

theorem Reading.length_lt {ks : List Kind} {shape : Language Symbol} {words : Language Kind}
    {out : List Outline × List Kind} (reading : Reading ks shape words out)
    (filled : kindsOfAll out.1 ≠ []) : out.2.length < ks.length := by
  have split := congrArg List.length reading.split
  have positive := List.length_pos_iff.mpr filled
  rw [List.length_append] at split
  omega

theorem Reading.length_lt_of_holds {ks : List Kind} {shape : Language Symbol}
    {words : Language Kind} {out : List Outline × List Kind} (reading : Reading ks shape words out)
    (holds : Schema.Holds shape) : out.2.length < ks.length := by
  obtain ⟨s, present, firm⟩ := holds _ reading.symbols
  obtain ⟨o, member, rfl⟩ := List.mem_map.mp present
  exact reading.length_lt
    (Outline.kinds_ne_nil_of_mem member ((reading.shaped o member).kinds_ne_nil firm))

def Rule.Advances (rule : Rule) : Prop :=
  ∀ ks read, rule ks = some read → read.2.length < ks.length

theorem constructLength_pos {k : Kind} {c : Construct} (first : k ∈ c.first)
    (ks : List Kind) : 0 < constructLength (k :: ks) := by
  have starts : ∀ c : Construct, ∀ k ∈ c.first, (k = .comma || k.isCloser) = false := by
    intro c
    cases c <;> decide
  rw [constructLength, starts c k first, if_neg Bool.false_ne_true]
  split <;> omega

theorem nested_advances (depth : Nat) (c : Construct) : Rule.Advances (nested depth c) := by
  intro ks read answer
  cases depth with
  | zero =>
      obtain ⟨k, ks, rfl, first, rfl⟩ := nested_zero answer
      have := constructLength_pos first ks
      simp only [tooDeep, skip, List.length_drop, List.length_cons]
      omega
  | succ depth =>
      obtain ⟨k, ks, rfl, -, answer⟩ := nested_succ answer
      cases c with
      | element =>
          have reading := element_reading (nested_reading depth) (k :: ks) read answer
          exact reading.length_lt_of_holds (Schema.holds_nodeOf (by decide))
      | value =>
          have reading := value_reading (nested_reading depth) (k :: ks) read answer
          exact reading.length_lt_of_holds (Schema.holds_nodeOf (by decide))

theorem getD_recover_advances {rule : Rule} (advances : rule.Advances) (c : Context) (k : Kind)
    (ks : List Kind) :
    ((rule (k :: ks)).getD (recover c (k :: ks))).2.length < (k :: ks).length := by
  cases answer : rule (k :: ks) with
  | none =>
      simp only [Option.getD_none, recover, skip, List.length_drop, List.length_cons]
      omega
  | some read => exact advances _ _ answer

theorem fileItem_advances {rule : Rule} (advances : rule.Advances) (ks : List Kind)
    (out : List Outline × List Kind) (applies : fileItem rule ks = some out) :
    out.2.length < ks.length := by
  obtain ⟨k, ks, rfl, rfl⟩ := fileItem_some applies
  exact getD_recover_advances advances .topLevel k ks

theorem groupItem_advances (g : Group) {rule : Rule} (advances : rule.Advances) (ks : List Kind)
    (out : List Outline × List Kind) (applies : groupItem g rule ks = some out) :
    out.2.length < ks.length := by
  obtain ⟨k, ks, rfl, -, rfl⟩ := groupItem_some applies
  have item := getD_recover_advances advances g.context k ks
  exact Nat.lt_of_le_of_lt (comma?_reading _).length_le item

theorem contextName_advances (ks : List Kind) (out : List Outline × List Kind)
    (applies : contextName ks = some out) : out.2.length < ks.length :=
  (contextName_reading ks out applies).length_lt_of_holds
    (Schema.holds_mul_left (Schema.holds_nodeOf (by decide)) _)

theorem items_rest (depth : Nat) (ks : List Kind) :
    (repeated (fileItem (nested depth .element)) ks).2 = [] := by
  have stuck := repeated_stuck (fileItem_advances (nested_advances depth .element)) ks
  rw [fileItem] at stuck
  split at stuck
  case isTrue empty => exact List.isEmpty_iff.mp empty
  case isFalse => cases stuck

end Grammar
end ConfigSyntax
