import ConfigSyntax.Proofs.Exact.Element
import ConfigSyntax.Proofs.Limited.Words
import ConfigSyntax.Proofs.Skips

/-! What the rules of the grammar make of kinds that are read cleanly where more nesting is allowed.
A rule goes the same way in both readings, and comes to the same end where the groups and the values
inside do. Main statements: `value_follows`, `element_follows`. -/

namespace ConfigSyntax.Grammar

open Outline (Law ObeysAll kindsOfAll)

/-- Where less nesting is allowed, constructs are skipped that are too deep, and braced groups that
are cut off from such a construct: behind a comma, or behind arguments. All kinds there are end with
those where a skip starts. -/
def limited (all : List Kind) : Law where
  node _ _ := True
  gap _ := False
  skip why _ ks := why = .tooDeep ∨
    ∃ c, why = .unexpected c ∧ c ≠ .argumentList ∧ ks.head? = some .openBrace ∧
      ∃ k ∈ [Kind.comma, .closeParen], k :: ks <:+ all

theorem closed_of_clean {g : Group} {ks : List Kind} (clean : ∀ p ∈ (closing g ks).1, p.Clean) :
    ∃ rest, ks = g.closer :: rest := by
  have missing := Outline.not_clean_gap (.closer g)
  cases ks with
  | nil => exact absurd (clean _ (List.mem_singleton_self _)) missing
  | cons k ks =>
      rw [closing] at clean
      split at clean
      case isTrue same => exact ⟨ks, by rw [same]⟩
      case isFalse => exact absurd (clean _ (List.mem_singleton_self _)) missing

theorem not_clean_recover (c : Context) (ks : List Kind) : ¬ (recover c ks).1.Clean := by
  cases ks <;> exact Outline.not_clean_skipped _ _

theorem some_of_clean {c : Context} {answer : Option Read} {ks : List Kind}
    (clean : (answer.getD (recover c ks)).1.Clean) : ∃ read, answer = some read ∧ read.1.Clean := by
  cases answer with
  | some read => exact ⟨read, rfl, clean⟩
  | none => exact absurd clean (not_clean_recover c ks)

theorem Builds.obeys_of_clean {all : List Kind} {c : Context} {ks rest : List Kind}
    {parts : List Outline} (builds : Builds c ks parts rest) (clean : ∀ p ∈ parts, p.Clean) :
    ObeysAll (limited all) parts ks := by
  have skipped (why : Skip) (n : Nat) (ks : List Kind)
      (clean : ∀ p ∈ [(skip why n ks).1], p.Clean) :
      ObeysAll (limited all) [(skip why n ks).1] ks :=
    absurd (clean _ (List.mem_singleton_self _)) (Outline.not_clean_skipped why _)
  induction builds with
  | nil => trivial
  | token => exact Outline.obeysAll_singleton.mpr trivial
  | gap => exact absurd (clean _ (List.mem_singleton_self _)) (Outline.not_clean_gap _)
  | append first _ front back =>
      exact Outline.obeysAll_append first.split
        (front fun p member => clean p (List.mem_append_left _ member))
        (back fun p member => clean p (List.mem_append_right _ member))
  | node other _ inside =>
      have within := Outline.clean_node.mp (clean _ (List.mem_singleton_self _))
      exact Outline.obeysAll_singleton.mpr ⟨other.1, trivial, inside within⟩
  | @group c ks mid items g inside _ within =>
      have split : kindsOfAll (.token g.opener :: items) ++ mid = g.opener :: ks := by
        rw [← inside.split]
        rfl
      have front := within fun p member =>
        clean p (List.mem_append_left _ (List.mem_cons_of_mem _ member))
      refine Outline.obeysAll_append split ⟨trivial, front⟩ ?_
      have closes : ∀ p ∈ (closing g mid).1, p.Clean :=
        fun p member => clean p (List.mem_append_right _ member)
      obtain ⟨rest, rfl⟩ := closed_of_clean closes
      rw [closing, if_pos rfl]
      exact Outline.obeysAll_singleton.mpr trivial
  | recover => exact skipped _ _ _ clean
  | slot => exact skipped _ _ _ clean
  | tooDeep => exact skipped _ _ _ clean

/-- What a rule makes of `ks`, which are the end of all kinds: parts that are lawful there, up to
`rest`. -/
structure Lawful (all ks : List Kind) (out : List Outline × List Kind) (rest : List Kind) :
    Prop where
  split : kindsOfAll out.1 ++ rest = ks
  lawful : ks <:+ all → ObeysAll (limited all) out.1 ks
  rest : out.2 = rest

namespace Lawful

variable {all ks mid rest : List Kind} {out out' : List Outline × List Kind}

theorem nil (ks : List Kind) : Lawful all ks ([], ks) ks := ⟨rfl, fun _ => trivial, rfl⟩

theorem append (first : Lawful all ks out mid) (second : Lawful all mid out' rest) :
    Lawful all ks (out.1 ++ out'.1, out'.2) rest where
  rest := second.rest
  split := by rw [Outline.kindsOfAll_append, List.append_assoc, second.split, first.split]
  lawful := by
    intro suffix
    have behind : mid <:+ ks := ⟨_, first.split⟩
    exact Outline.obeysAll_append first.split (first.lawful suffix)
      (second.lawful (behind.trans suffix))

theorem token (k : Kind) (ks : List Kind) : Lawful all (k :: ks) ([.token k], ks) ks :=
  ⟨rfl, fun _ => Outline.obeysAll_singleton.mpr trivial, rfl⟩

theorem cons (k : Kind) (lawful : Lawful all ks out rest) :
    Lawful all (k :: ks) (.token k :: out.1, out.2) rest := (token k ks).append lawful

theorem node (k : Kind) (other : k ≠ .error) (lawful : Lawful all ks out rest) :
    Lawful all ks ([.node k out.1], out.2) rest where
  rest := lawful.rest
  split := by
    rw [Outline.kindsOfAll_singleton]
    exact lawful.split
  lawful := fun suffix => Outline.obeysAll_singleton.mpr ⟨other, trivial, lawful.lawful suffix⟩

theorem skip {why : Skip} (front rest : List Kind)
    (lawful : front ++ rest <:+ all → (limited all).skip why front (front ++ rest)) :
    Lawful all (front ++ rest) ([(Grammar.skip why front.length (front ++ rest)).1],
      (Grammar.skip why front.length (front ++ rest)).2) rest := by
  rw [Grammar.skip, List.take_left, List.drop_left]
  refine ⟨?_, fun suffix => Outline.obeysAll_singleton.mpr (lawful suffix), rfl⟩
  rw [Outline.kindsOfAll_singleton]
  rfl

theorem of_clean {c : Context} {parts : List Outline} (builds : Builds c ks parts rest)
    (clean : ∀ p ∈ parts, p.Clean) : Lawful all ks (parts, rest) rest :=
  ⟨builds.split, fun _ => builds.obeys_of_clean clean, rfl⟩

theorem of_one {c : Context} {o : Outline} (builds : Builds c ks [o] rest) (clean : o.Clean) :
    Lawful all ks ([o], rest) rest :=
  of_clean builds fun p member => by
    rw [List.mem_singleton.mp member]
    exact clean

end Lawful

theorem clean_parts {k : Kind} {parts : List Outline} (clean : Outline.Clean (.node k parts))
    {p : Outline} (member : p ∈ parts) : p.Clean := Outline.clean_node.mp clean p member

theorem reference_lawful (all : List Kind) {ks rest : List Kind} (ends : (reference ks).2 = rest)
    (clean : (reference ks).1.Clean) :
    Lawful all (.identifier :: ks) ([(reference ks).1], rest) rest := by
  rw [← ends]
  exact .of_one (reference_builds (c := .topLevel) ks) clean

section

variable {all : List Kind} {rules deep : Construct → Rule}
  (groups : ∀ g ks, (∀ p ∈ (group g deep ks).1, p.Clean) →
    Lawful all (g.opener :: ks) (group g rules ks) (group g deep ks).2)

include groups

theorem invocation_follows {ks rest : List Kind} (opens : (reference ks).2 = .openParen :: rest)
    (clean : (invocation deep (reference ks).1 rest).1.Clean) :
    Lawful all (.identifier :: ks)
      ([(invocation rules (reference ks).1 rest).1], (invocation rules (reference ks).1 rest).2)
      (invocation deep (reference ks).1 rest).2 := by
  have callee := reference_lawful all opens (clean_parts clean List.mem_cons_self)
  have arguments := groups .arguments rest fun p member =>
    clean_parts clean (List.mem_cons_of_mem _ member)
  exact (callee.append arguments).node .invocationExpression (by decide)

theorem constructed_follows {name name' : Outline} {ks rest : List Kind}
    (named : Lawful all ks ([name], rest) rest) (clean : (constructed deep name' rest).1.Clean) :
    Lawful all ks ([(constructed rules name rest).1], (constructed rules name rest).2)
      (constructed deep name' rest).2 := by
  revert clean
  unfold constructed
  split
  case h_1 rest =>
    intro clean
    have body := groups .object rest fun p member =>
      clean_parts clean (List.mem_cons_of_mem _ member)
    exact ((named.node .constructorReference (by decide)).append body).node .object (by decide)
  case h_2 => exact fun _ => named

omit groups in
theorem clean_of_constructed {name : Outline} {rest : List Kind}
    (clean : (constructed deep name rest).1.Clean) : name.Clean := by
  revert clean
  unfold constructed
  split
  · exact fun clean => clean_parts (clean_parts clean List.mem_cons_self) List.mem_cons_self
  · exact id

theorem value_follows {ks : List Kind} {read : Read} (answer : value deep ks = some read)
    (clean : read.1.Clean) :
    ∃ read', value rules ks = some read' ∧ Lawful all ks ([read'.1], read'.2) read.2 := by
  revert answer
  fun_cases value deep ks with
  | case1 ks body =>
      rintro ⟨⟩
      have body := groups .object ks fun p member => clean_parts clean member
      exact ⟨_, rfl, body.node .object (by decide)⟩
  | case2 ks name =>
      rintro ⟨⟩
      have builds : Builds .topLevel (.dot :: .identifier :: ks)
          [.node .contextualPropertyReference [.token .dot, (reference ks).1]] (reference ks).2 :=
        ((reference_builds ks).cons rfl).node (by decide)
      exact ⟨_, rfl, .of_one builds clean⟩
  | case3 ks name rest opens call =>
      rintro ⟨⟩
      have called := clean_of_constructed clean
      have call' := invocation_follows groups opens called
      have rest' : (invocation rules name.1 rest).2 = call.2 := call'.rest
      refine ⟨_, value_of_call opens, ?_⟩
      change Lawful all _ ([(constructed rules _ (invocation rules name.1 rest).2).1],
        (constructed rules _ (invocation rules name.1 rest).2).2) _
      rw [rest'] at call' ⊢
      exact constructed_follows groups call' clean
  | case4 ks name closed =>
      rintro ⟨⟩
      have callee := reference_lawful all rfl (clean_of_constructed clean)
      exact ⟨_, value_of_name (avoids_of_ne closed), constructed_follows groups callee clean⟩
  | case5 k ks notBrace notDot notName =>
      intro answer
      obtain ⟨name, found, same⟩ := Option.map_eq_some_iff.mp answer
      obtain ⟨kind, known, rfl⟩ := literal?_eq_some found
      have builds := literal?_builds (c := .topLevel) found ks
      have clean' : Outline.Clean (.node kind [.token k]) := by
        rw [← same] at clean
        split at clean
        · exact clean_of_constructed clean
        · exact clean
      have named : Lawful all (k :: ks) ([.node kind [.token k]], ks) ks := .of_one builds clean'
      refine ⟨if k.isString then constructed rules (.node kind [.token k]) ks
        else (.node kind [.token k], ks), value_of_literal known ks, ?_⟩
      rw [← same] at clean ⊢
      split
      case isTrue quoted =>
        rw [if_pos quoted] at clean
        exact constructed_follows groups named clean
      case isFalse => exact named
  | case6 => rintro ⟨⟩

/-- Up to `rest`, or as far from it as `left` allows for what is made of `ks`. -/
def Leaves (all : List Kind) (left : List Kind → List Kind → List Kind → Prop) (ks : List Kind)
    (read : Read) (rest : List Kind) : Prop :=
  ∃ rest', Lawful all ks ([read.1], read.2) rest' ∧ left ks rest rest'

variable {left : List Kind → List Kind → List Kind → Prop} (same : ∀ ks rest, left ks rest rest)
  (wider : ∀ ks ks' rest rest', ks <:+ ks' → left ks rest rest' → left ks' rest rest')
  (values : ∀ ks read, deep .value ks = some read → read.1.Clean →
    ∃ read', rules .value ks = some read' ∧ Leaves all left ks read' read.2)

include same wider values

omit groups same wider in
theorem assigned_follows {c : Context} {ks : List Kind} (clean : (assigned deep c ks).1.Clean) :
    Leaves all left ks (assigned rules c ks) (assigned deep c ks).2 := by
  revert clean
  unfold assigned
  cases answer : deep .value ks with
  | none => exact fun clean => absurd clean (Outline.not_clean_skipped _ _)
  | some read =>
      intro clean
      obtain ⟨read', answer', leaves⟩ := values ks read answer clean
      rw [answer']
      exact leaves

theorem property_follows {name : Outline} {ks rest : List Kind}
    (named : Lawful all ks ([name], rest) rest) (clean : (property deep name rest).1.Clean) :
    Leaves all left ks (property rules name rest) (property deep name rest).2 := by
  revert clean
  unfold property
  split
  case h_1 ks' =>
    intro clean
    obtain ⟨rest', lawful, near⟩ := assigned_follows values
      (clean_parts clean (p := (assigned deep .propertyValue ks').1) (by simp))
    have behind : ks' <:+ ks := (List.suffix_cons _ _).trans ⟨_, named.split⟩
    exact ⟨rest', (named.append (lawful.cons .equals)).node .property (by decide),
      wider _ _ _ _ behind near⟩
  case h_2 ks' =>
    intro clean
    have object := clean_parts clean (p := .node .object (group .object deep ks').1) (by simp)
    have items := groups .object ks' fun p member => clean_parts object member
    have body := items.node .object (by decide)
    exact ⟨_, (named.append body).node .property (by decide), same _ _⟩
  case h_3 => exact fun _ => ⟨_, named.node .property (by decide), same _ _⟩

omit groups same wider values in
theorem clean_of_property {name : Outline} {rest : List Kind}
    (clean : (property deep name rest).1.Clean) : name.Clean := by
  revert clean
  unfold property
  split <;> exact fun clean => clean_parts clean List.mem_cons_self

omit groups same in
theorem declaration_follows {ks : List Kind} (clean : (declaration deep ks).1.Clean) :
    Leaves all left (.valWord :: ks) (declaration rules ks) (declaration deep ks).2 := by
  revert clean
  fun_cases declaration deep ks with
  | case1 ks value =>
      intro clean
      obtain ⟨rest', lawful, near⟩ := assigned_follows values
        (clean_parts clean (p := value.1) (by simp))
      have behind : ks <:+ .valWord :: .identifier :: .equals :: ks :=
        ⟨[.valWord, .identifier, .equals], rfl⟩
      exact ⟨rest', (((lawful.cons .equals).cons .identifier).cons .valWord).node
        .variableDeclaration (by decide), wider _ _ _ _ behind near⟩
  | case2 ks notAssigned =>
      exact fun clean => absurd (clean_parts clean (p := .gap .assignment) (by simp))
        (Outline.not_clean_gap _)
  | case3 ks notAssigned notNamed =>
      exact fun clean => absurd (clean_parts clean (p := .gap .variableName) (by simp))
        (Outline.not_clean_gap _)

theorem statement_follows {ks : List Kind} {read : Read} (answer : statement deep ks = some read)
    (clean : read.1.Clean) :
    ∃ read', statement rules ks = some read' ∧ Leaves all left ks read' read.2 := by
  revert answer
  fun_cases statement deep ks with
  | case1 ks =>
      rintro ⟨⟩
      exact ⟨_, rfl, declaration_follows wider values clean⟩
  | case2 ks name rest opens call =>
      rintro ⟨⟩
      have called := clean_parts clean (p := call.1) (by simp)
      have call' := invocation_follows groups opens called
      exact ⟨_, statement_of_call opens, _, call'.node .invocationElement (by decide), same _ _⟩
  | case3 ks name closed =>
      rintro ⟨⟩
      have callee := reference_lawful all rfl (clean_of_property clean)
      exact ⟨_, statement_of_name (avoids_of_ne closed),
        property_follows groups same wider values callee clean⟩
  | case4 k ks notVal notName =>
      intro answer
      obtain ⟨name, found, rfl⟩ := Option.map_eq_some_iff.mp answer
      obtain ⟨kind, known, rfl⟩ := literal?_eq_some found
      have named : Lawful all (k :: ks) ([.node kind [.token k]], ks) ks :=
        .of_one (literal?_builds (c := .topLevel) found ks) (clean_of_property clean)
      exact ⟨_, statement_of_literal known ks,
        property_follows groups same wider values named clean⟩
  | case5 => rintro ⟨⟩

theorem contextual_follows {ks : List Kind} (clean : (contextual deep ks).1.Clean) :
    Leaves all left ks (contextual rules ks) (contextual deep ks).2 := by
  have builds := steps_builds (contextName_builds (c := .topLevel)) ks.length ks
  have named (clean : ∀ p ∈ (repeated contextName ks).1, p.Clean) :
      Lawful all ks (repeated contextName ks) (repeated contextName ks).2 := .of_clean builds clean
  revert clean
  fun_cases contextual deep ks with
  | case1 found rest opens body =>
      intro clean
      have body' := groups .contextBlock rest fun p member =>
        clean_parts clean (List.mem_append_right _ member)
      have names := named fun p member => clean_parts clean (List.mem_append_left _ member)
      rw [show (repeated contextName ks).2 = .openBrace :: rest from opens] at names
      rw [contextual_block opens]
      exact ⟨_, (names.append body').node .contextBlock (by decide), same _ _⟩
  | case2 found body rest notBrace answer =>
      intro clean
      obtain ⟨read', answer', rest', lawful, near⟩ := statement_follows groups same wider values
        answer (clean_parts clean (p := body) (by simp))
      have names := named fun p member => clean_parts clean (List.mem_append_left _ member)
      rw [contextual_statement rfl (avoids_of_ne notBrace) answer']
      exact ⟨rest', (names.append lawful).node .contextualStatement (by decide),
        wider _ _ _ _ ⟨_, names.split⟩ near⟩
  | case3 found notBrace answer =>
      exact fun clean => absurd (clean_parts clean (p := .gap .statement) (by simp))
        (Outline.not_clean_gap _)

theorem element_follows {ks : List Kind} {read : Read} (answer : element deep ks = some read)
    (clean : read.1.Clean) :
    ∃ read', element rules ks = some read' ∧ Leaves all left ks read' read.2 := by
  cases ks with
  | nil => cases answer
  | cons k ks =>
      rw [element] at answer ⊢
      split at answer
      case isTrue marker =>
        cases answer
        rw [if_pos marker]
        exact ⟨_, rfl, contextual_follows groups same wider values clean⟩
      case isFalse other =>
        rw [if_neg other]
        exact statement_follows groups same wider values answer clean

end

end ConfigSyntax.Grammar
