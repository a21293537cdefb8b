import ConfigSyntax.Diagnostic.Code
import ConfigSyntax.Proofs.Schema

/-! What a node lacks, by the parts it has. Of a production only the last piece can be missing. -/

namespace ConfigSyntax

open scoped Computability

def Kind.isStatement (k : Kind) : Bool := statements.contains k

/-- The piece that a node of a kind lacks, by the tokens it has, and by whether it has a
statement. -/
def Gap.of? (k : Kind) (has : Kind → Bool) (stated : Bool) : Option Gap :=
  match k with
  | .object => if has .closeBrace then none else some (.closer .object)
  | .contextBlock => if has .closeBrace then none else some (.closer .contextBlock)
  | .invocationExpression => if has .closeParen then none else some (.closer .arguments)
  | .variableDeclaration =>
    if has .identifier then if has .equals then none else some .assignment
    else some .variableName
  | .contextualStatement => if stated then none else some .statement
  | .contextName => if has .identifier then none else some .contextName
  | _ => none

def Gap.code : Gap → Code
  | .closer .object | .closer .contextBlock => .unclosedBrace
  | .closer .arguments => .unclosedParen
  | .variableName => .missingName
  | .assignment => .missingAssignment
  | .statement => .missingStatement
  | .contextName => .missingContextName

theorem Gap.of?_congr (k : Kind) {has has' : Kind → Bool} (stated : Bool)
    (same : ∀ t ∈ [Kind.closeBrace, .closeParen, .identifier, .equals], has t = has' t) :
    of? k has stated = of? k has' stated := by
  simp only [List.forall_mem_cons] at same
  obtain ⟨brace, paren, name, sign, -⟩ := same
  unfold of?
  rw [brace, paren, name, sign]

namespace Symbol

def isToken (k : Kind) (s : Symbol) : Bool := s = .token k

def isStatement : Symbol → Bool
  | .node k _ => k.isStatement
  | _ => false

end Symbol

namespace Schema

def gap? (k : Kind) (w : List Symbol) : Option Gap :=
  Gap.of? k (fun t => w.any (·.isToken t)) (w.any (·.isStatement))

theorem any_filter_gap {p : Symbol → Bool} (silent : ∀ g, p (.gap g) = false) (w : List Symbol) :
    (w.filter (·.gap?.isNone)).any p = w.any p := by
  rw [List.any_filter]
  congr 1
  funext s
  cases s with
  | gap g => exact (silent g).symm
  | _ => rfl

theorem gap?_filter (k : Kind) (w : List Symbol) :
    gap? k (w.filter (·.gap?.isNone)) = gap? k w := by
  have tokens (t : Kind) : (w.filter (·.gap?.isNone)).any (·.isToken t) = w.any (·.isToken t) :=
    any_filter_gap (fun _ => rfl) w
  have statements : (w.filter (·.gap?.isNone)).any (·.isStatement) = w.any (·.isStatement) :=
    any_filter_gap (fun _ => rfl) w
  simp only [gap?, tokens, statements]

/-- `w` ends with a gap if one is given, and has none in front of that. -/
def EndsWith (w : List Symbol) (g : Option Gap) : Prop :=
  ∃ front, w = front ++ (g.map Symbol.gap).toList ∧ ∀ s ∈ front, s.gap? = none

section

variable {l piece : Language Symbol} {p : Symbol → Bool}

theorem any_eq_false (absent : Over (p · = false) l) {w : List Symbol} (member : w ∈ l) :
    w.any p = false := by
  rw [List.any_eq_false]
  intro s present
  rw [absent w member s present]
  exact Bool.false_ne_true

theorem endsWith_choice {g : Gap} (front : Over (·.gap? = none) l) (absent : Over (p · = false) l)
    (whole : Over (·.gap? = none) piece) (shows : ∀ w ∈ piece, w.any p = true)
    (silent : p (.gap g) = false) {w : List Symbol} (member : w ∈ l * (piece + gap g)) :
    EndsWith w (if w.any p then none else some g) := by
  obtain ⟨before, first, last, second, rfl⟩ := member
  rcases second with present | missing
  · rw [List.any_append, shows last present, Bool.or_true, if_pos rfl]
    refine ⟨before ++ last, (List.append_nil _).symm, ?_⟩
    exact over_mul front whole _ (Language.append_mem_mul first present)
  · obtain rfl : last = [.gap g] := missing
    have none : (before ++ [Symbol.gap g]).any p = false := by
      simp [any_eq_false absent first, silent]
    rw [none, if_neg Bool.false_ne_true]
    exact ⟨before, rfl, front before first⟩

theorem any_token (k : Kind) : ∀ w ∈ token k, w.any (·.isToken k) = true := by
  intro w same
  rw [show w = [.token k] from same]
  simp [Symbol.isToken]

theorem endsWith_group {g : Group} (front : Over (·.gap? = none) l)
    (absent : Over (fun s => s.isToken g.closer = false) l) {w : List Symbol}
    (member : w ∈ l * group gap g) :
    EndsWith w (if w.any (·.isToken g.closer) then none else some (.closer g)) := by
  have opener : (Symbol.token g.opener).isToken g.closer = false := by cases g <;> rfl
  have comma : (Symbol.token .comma).isToken g.closer = false := by cases g <;> rfl
  rw [group, ← mul_assoc] at member
  apply endsWith_choice _ _ (over_token rfl) (any_token _) rfl member
  · exact over_mul front (over_mul (over_token rfl) (over_items _ (fun _ _ _ => rfl) rfl))
  · exact over_mul absent (over_mul (over_token opener) (over_items _ (fun _ _ _ => rfl) comma))

theorem endsWith_none {w : List Symbol} (whole : Over (·.gap? = none) l) (member : w ∈ l) :
    EndsWith w none := ⟨w, (List.append_nil w).symm, whole w member⟩

end

theorem endsWith_production {k : Kind} {w : List Symbol} (member : w ∈ production gap k) :
    EndsWith w (gap? k w) := by
  cases k with
  | object =>
      have front {q : Symbol → Prop} (nodes : ∀ k c, q (.node k c)) :
          Over q (1 + node .constructorReference) :=
        over_add over_one (over_nodeOf fun k _ c => nodes k c)
      exact endsWith_group (front fun _ _ => rfl) (front fun _ _ => rfl) member
  | contextBlock =>
      exact endsWith_group (over_contextNames (fun _ => rfl) rfl)
        (over_contextNames (fun _ => rfl) rfl) member
  | contextualStatement =>
      have shows : ∀ w ∈ statement, w.any (·.isStatement) = true := by
        intro w one
        obtain ⟨k, within, c, rfl⟩ := one
        simpa [Symbol.isStatement, Kind.isStatement] using within
      exact endsWith_choice (over_contextNames (fun _ => rfl) rfl)
        (over_contextNames (fun _ => rfl) rfl) (over_nodeOf fun _ _ _ => rfl) shows rfl member
  | contextName =>
      refine endsWith_choice (over_tokenOf fun _ _ => rfl) (over_tokenOf fun k within => ?_)
        (over_token rfl) (any_token _) rfl member
      revert k
      decide
  | invocationExpression =>
      exact endsWith_group (over_nodeOf fun _ _ _ => rfl) (over_nodeOf fun _ _ _ => rfl) member
  | variableDeclaration =>
      obtain ⟨val, first, rest, second, rfl⟩ := member
      obtain rfl : val = [.token .valWord] := first
      rcases second with missing | named
      · obtain rfl : rest = [.gap .variableName] := missing
        exact ⟨[.token .valWord], rfl, by decide⟩
      · obtain ⟨name, third, rest, fourth, rfl⟩ := named
        obtain rfl : name = [.token .identifier] := third
        rcases fourth with missing | assigned
        · obtain rfl : rest = [.gap .assignment] := missing
          exact ⟨[.token .valWord, .token .identifier], rfl, by decide⟩
        · obtain ⟨sign, fifth, value, last, rfl⟩ := assigned
          obtain rfl : sign = [.token .equals] := fifth
          have found : gap? .variableDeclaration ([.token .valWord] ++ ([.token .identifier] ++
              ([.token .equals] ++ value))) = none := rfl
          rw [found]
          refine ⟨_, (List.append_nil _).symm, fun s present => ?_⟩
          simp only [List.cons_append, List.nil_append, List.mem_cons] at present
          rcases present with rfl | rfl | rfl | present
          · rfl
          · rfl
          · rfl
          · exact whole_construct .value value last s present
  | file => exact endsWith_none (over_star (whole_construct _)) member
  | invocationElement => exact endsWith_none (over_nodeOf fun _ _ _ => rfl) member
  | property =>
      have object : Over (·.gap? = none) plainObject := by
        intro w same s present
        rw [show w = [.node .object false] from same] at present
        rw [List.mem_singleton.mp present]
        rfl
      exact endsWith_none (over_mul (over_nodeOf fun _ _ _ => rfl) (over_add (over_add over_one
        (over_mul (over_token rfl) (whole_construct _))) object)) member
  | constructorReference => exact endsWith_none (over_nodeOf fun _ _ _ => rfl) member
  | referenceExpression =>
      exact endsWith_none (over_mul (over_token rfl) (over_star (over_mul (over_token rfl)
        (over_token rfl)))) member
  | contextualPropertyReference =>
      exact endsWith_none (over_mul (over_token rfl) (over_nodeOf fun _ _ _ => rfl)) member
  | stringLiteral => exact endsWith_none (over_tokenOf fun _ _ => rfl) member
  | numberLiteral => exact endsWith_none (over_token rfl) member
  | booleanLiteral => exact endsWith_none (over_tokenOf fun _ _ => rfl) member
  | nullLiteral => exact endsWith_none (over_token rfl) member
  | error =>
      refine ⟨w, (List.append_nil w).symm, fun s present => ?_⟩
      obtain ⟨k, rfl⟩ := member s present
      rfl
  | _ => exact absurd member (Language.notMem_zero w)

theorem no_openers {l : Language Symbol} (plain : Over (·.opener? = none) l) {w : List Symbol}
    (member : w ∈ l) : w.filterMap Symbol.opener? = [] :=
  List.filterMap_eq_nil_iff.mpr fun s present => plain w member s present

theorem opener_of_group {l : Language Symbol} {g : Group} (plain : Over (·.opener? = none) l)
    {w : List Symbol} (member : w ∈ l * group gap g) :
    w.filterMap Symbol.opener? = [g.opener] := by
  have items : Over (·.opener? = none) (construct g.holds * (1 + token .comma))∗ :=
    over_items _ (fun _ _ _ => rfl) rfl
  have closer : Over (·.opener? = none) (token g.closer + gap (.closer g)) :=
    over_add (over_token (by cases g <;> rfl)) (over_gap rfl)
  have opener : (Symbol.token g.opener).opener? = some g.opener := by cases g <;> rfl
  obtain ⟨front, first, rest, ⟨middle, ⟨o, same, inner, second, rfl⟩, last, third, rfl⟩, rfl⟩ :=
    member
  obtain rfl : o = [.token g.opener] := same
  simp [no_openers plain first, no_openers items second, no_openers closer third, opener]

/-- Where a closer is missing, the opener is there, and no other one beside it. -/
theorem opener_of_production {k : Kind} {w : List Symbol} {g : Group}
    (member : w ∈ production gap k) (lacks : gap? k w = some (.closer g)) :
    w.filterMap Symbol.opener? = [g.opener] := by
  have nodes (ks : List Kind) : Over (·.opener? = none) (nodeOf ks) := over_nodeOf fun _ _ _ => rfl
  cases k with
  | object =>
      cases (Option.ite_none_left_eq_some.mp lacks).2
      exact opener_of_group (over_add over_one (nodes _)) member
  | contextBlock =>
      cases (Option.ite_none_left_eq_some.mp lacks).2
      exact opener_of_group (over_contextNames (fun _ => rfl) rfl) member
  | invocationExpression =>
      cases (Option.ite_none_left_eq_some.mp lacks).2
      exact opener_of_group (nodes _) member
  | variableDeclaration =>
      simp only [gap?, Gap.of?] at lacks
      split at lacks
      · cases (Option.ite_none_left_eq_some.mp lacks).2
      · cases lacks
  | contextualStatement => cases (Option.ite_none_left_eq_some.mp lacks).2
  | contextName => cases (Option.ite_none_left_eq_some.mp lacks).2
  | _ => cases lacks

end Schema
end ConfigSyntax
