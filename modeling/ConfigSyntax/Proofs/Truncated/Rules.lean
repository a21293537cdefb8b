import ConfigSyntax.Proofs.Stable.Rules
import ConfigSyntax.Proofs.Truncated.Lists

/-! What the grammar makes of the front of kinds that it reads cleanly: the rules one by one. Main
statements: `nested_cuts`, `late_file`. -/

namespace ConfigSyntax.Grammar

open Outline (kindsOfAll)

section

variable {t ks : List Kind}

theorem segments_cut (ks : List Kind) :
    Truncated stumps t ks (segments (ks ++ t)) (segments ks) := by
  fun_induction segments ks with
  | case1 ks more ih => exact (ih.token .identifier).token .dot
  | case2 ks stops =>
      refine ⟨rfl, trivial, ?_⟩
      by_cases goes : ∃ rest, ks ++ t = .dot :: .identifier :: rest
      · obtain ⟨rest, whole⟩ := goes
        have beyond : 2 ≤ (kindsOfAll (segments (ks ++ t)).1).length := by
          rw [whole, segments]
          simp [kindsOfAll, Outline.kinds]
        rcases ks with _ | ⟨k, _ | ⟨k', ks⟩⟩
        · exact Or.inr ⟨by rw [List.length_nil]; omega, by decide⟩
        · obtain ⟨rfl, -⟩ := List.cons.inj whole
          exact Or.inr ⟨by rw [List.length_singleton]; omega, by decide⟩
        · obtain ⟨rfl, rest⟩ := List.cons.inj whole
          obtain ⟨rfl, -⟩ := List.cons.inj rest
          exact absurd rfl (stops ks)
      · left
        unfold segments
        split
        · exact absurd ⟨_, by assumption⟩ goes
        · rfl

theorem reference_cut (ks : List Kind) :
    Truncated stumps t (.identifier :: ks) (single (reference (ks ++ t))) (single (reference ks)) :=
  ((segments_cut ks).token .identifier).node .referenceExpression

/-- A rule that goes on from what has been read of a construct. -/
structure Tails (t : List Kind) (tail : Outline → List Kind → Read) : Prop where
  cut : ∀ name ks, (tail name (ks ++ t)).1.Clean →
    Truncated stumps t (name.kinds ++ ks) (single (tail name (ks ++ t))) (single (tail name ks))
  idle : ∀ name left ks, left ∈ stumps → name.kinds ++ left = ks → name.Late ks →
    Idle stumps ks (single (tail name left))
  within : ∀ name ks, (tail name ks).1.Clean → name.Clean
  longer : ∀ name ks, name.kinds.length ≤ (tail name ks).1.kinds.length

structure Takes (t : List Kind) (k : Kind) (tail : Outline → List Kind → Read) : Prop where
  cut : ∀ name ks, (tail name (ks ++ t)).1.Clean →
    Truncated stumps t (name.kinds ++ k :: ks) (single (tail name (ks ++ t)))
      (single (tail name ks))
  within : ∀ name ks, (tail name ks).1.Clean → name.Clean
  longer : ∀ name ks, name.kinds.length < (tail name ks).1.kinds.length

theorem Tails.after {tail : Outline → List Kind → Read} (tails : Tails t tail) {read read' : Read}
    (cut : Truncated stumps t ks (single read) (single read'))
    (clean : (tail read.1 read.2).1.Clean) :
    Truncated stumps t ks (single (tail read.1 read.2)) (single (tail read'.1 read'.2)) := by
  have split := cut.split
  rw [single, Outline.kindsOfAll_singleton] at split
  rcases cut.outcome with same | ⟨beyond, left⟩
  · obtain ⟨name, rest⟩ : read.1 = read'.1 ∧ read.2 = read'.2 ++ t := by
      simpa [single, followed] using same
    rw [name, rest] at clean ⊢
    have behind := tails.cut _ _ clean
    rwa [split] at behind
  · have behind := tails.idle _ _ ks left split (Outline.lateAll_singleton.mp cut.late)
    refine ⟨behind.split, behind.late, Or.inr ⟨?_, behind.left⟩⟩
    rw [single, Outline.kindsOfAll_singleton] at beyond ⊢
    exact Nat.lt_of_lt_of_le beyond (tails.longer _ _)

theorem tails_end {wrap : Outline → Outline} (kinds : ∀ o, (wrap o).kinds = o.kinds)
    (late : ∀ o ks, o.Late ks → (wrap o).Late ks) (clean : ∀ o, (wrap o).Clean ↔ o.Clean) :
    Tails t fun name ks => (wrap name, ks) where
  cut name ks whole := by
    refine .same ?_ (List.forall_mem_singleton.mpr whole)
    rw [Outline.kindsOfAll_singleton, kinds]
  idle name left ks stump split early := by
    refine ⟨?_, Outline.lateAll_singleton.mpr (late name ks early), stump⟩
    rw [single, Outline.kindsOfAll_singleton, kinds, split]
  within name ks := (clean name).mp
  longer name ks := Nat.le_of_eq (by rw [kinds])

def branch (k : Kind) (here other : Outline → List Kind → Read) (name : Outline) :
    List Kind → Read
  | [] => other name []
  | k' :: ks => if k' = k then here name ks else other name (k' :: ks)

theorem Tails.branch {k : Kind} {here other : Outline → List Kind → Read} (plain : k ≠ .dot)
    (takes : Takes t k here) (tails : Tails t other) : Tails t (branch k here other) where
  cut name ks clean := by
    cases ks with
    | cons k' ks =>
        rw [List.cons_append, Grammar.branch] at clean ⊢
        rw [Grammar.branch]
        split
        case isTrue same =>
          rw [if_pos same] at clean
          rw [same]
          exact takes.cut name ks clean
        case isFalse different =>
          rw [if_neg different] at clean
          exact tails.cut name (k' :: ks) clean
    | nil =>
        by_cases next : ∃ rest, t = k :: rest
        · obtain ⟨rest, rfl⟩ := next
          rw [List.nil_append, Grammar.branch, if_pos rfl] at clean ⊢
          have late := (takes.within _ _ clean).late
          have behind := tails.idle name [] _ List.mem_cons_self rfl (late _)
          refine ⟨behind.split, behind.late, Or.inr ⟨?_, behind.left⟩⟩
          rw [single, Outline.kindsOfAll_singleton, List.append_nil]
          exact takes.longer name rest
        · have same : Grammar.branch k here other name ([] ++ t) = other name ([] ++ t) := by
            cases t with
            | nil => rfl
            | cons k' rest => exact if_neg fun same => next ⟨rest, by rw [same]⟩
          rw [same] at clean ⊢
          exact tails.cut name [] clean
  idle name left ks stump split late := by
    have same : Grammar.branch k here other name left = other name left := by
      simp only [stumps, List.mem_cons, List.not_mem_nil, or_false] at stump
      rcases stump with rfl | rfl
      · rfl
      · exact if_neg plain.symm
    rw [same]
    exact tails.idle name left ks stump split late
  within name ks clean := by
    cases ks with
    | nil => exact tails.within name [] clean
    | cons k' ks =>
        rw [Grammar.branch] at clean
        split at clean
        · exact takes.within name ks clean
        · exact tails.within name (k' :: ks) clean
  longer name ks := by
    cases ks with
    | nil => exact tails.longer name []
    | cons k' ks =>
        rw [Grammar.branch]
        split
        · exact Nat.le_of_lt (takes.longer name ks)
        · exact tails.longer name (k' :: ks)

theorem branch_next (k : Kind) (here other : Outline → List Kind → Read) (name : Outline)
    (ks : List Kind) : branch k here other name (k :: ks) = here name ks := if_pos rfl

theorem branch_other {k : Kind} {ks : List Kind} (closed : Avoids [k] ks)
    (here other : Outline → List Kind → Read) (name : Outline) :
    branch k here other name ks = other name ks := by
  cases ks with
  | nil => rfl
  | cons k' ks => exact if_neg (closed.head_ne k List.mem_cons_self)

theorem branch_eq {k : Kind} {here other tail : Outline → List Kind → Read}
    (next : ∀ name ks, tail name (k :: ks) = here name ks)
    (alone : ∀ name ks, Avoids [k] ks → tail name ks = other name ks) :
    tail = branch k here other := by
  funext name ks
  by_cases starts : ∃ rest, ks = k :: rest
  · obtain ⟨rest, rfl⟩ := starts
    rw [next, branch_next]
  · have closed : Avoids [k] ks := avoids_of_ne fun rest same => starts ⟨rest, same⟩
    rw [alone name ks closed, branch_other closed]

theorem kinds_wrap (k : Kind) (o : Outline) : (Outline.node k [o]).kinds = o.kinds := by
  rw [Outline.kinds, Outline.kindsOfAll_singleton]

theorem clean_wrap (k : Kind) (o : Outline) : (Outline.node k [o]).Clean ↔ o.Clean := by
  rw [Outline.clean_node, List.forall_mem_singleton]

theorem tails_name : Tails t fun name ks => (name, ks) :=
  tails_end (fun _ => rfl) (fun _ _ => id) fun _ => Iff.rfl

theorem tails_wrap (k : Kind) : Tails t fun name ks => (.node k [name], ks) :=
  tails_end (kinds_wrap k) (fun _ _ => Outline.lateAll_singleton.mpr) (clean_wrap k)

variable {rules : Construct → Rule} (cuts : Cuts t rules)

theorem length_group (rules : Construct → Rule) (g : Group) (ks : List Kind) :
    0 < (kindsOfAll (group g rules ks).1).length := by
  simp [group, kindsOfAll, Outline.kinds]

include cuts

theorem takes_group {wrap : Outline → Outline} (kinds : ∀ o, (wrap o).kinds = o.kinds)
    (clean : ∀ o, (wrap o).Clean ↔ o.Clean) (g : Group) (k : Kind) :
    Takes t g.opener fun name ks =>
      (.node k (wrap name :: (group g rules ks).1), (group g rules ks).2) where
  cut name ks whole := by
    have named := clean_parts whole List.mem_cons_self
    have body := group_cut cuts fun p member => clean_parts whole (List.mem_cons_of_mem _ member)
    rw [← kinds name]
    exact ((body.mono (by decide)).lead named).node k
  within name ks whole := (clean name).mp (clean_parts whole List.mem_cons_self)
  longer name ks := by
    have positive := length_group rules g ks
    rw [Outline.kinds, kindsOfAll, List.length_append, kinds]
    omega

theorem takes_arguments : Takes t .openParen (invocation rules) :=
  takes_group cuts (fun _ => rfl) (fun _ => Iff.rfl) .arguments .invocationExpression

def called (rules : Construct → Rule) : Outline → List Kind → Read :=
  branch .openParen (invocation rules) fun name ks => (name, ks)

theorem tails_called : Tails t (called rules) :=
  tails_name.branch (by decide) (takes_arguments cuts)

omit cuts in
theorem constructed_eq : constructed rules = branch .openBrace
    (fun name ks => (.node .object
      (.node .constructorReference [name] :: (group .object rules ks).1),
      (group .object rules ks).2)) fun name ks => (name, ks) :=
  branch_eq (fun _ _ => rfl) fun name _ closed => constructed_alone closed name

theorem tails_constructed : Tails t (constructed rules) := by
  rw [constructed_eq]
  exact tails_name.branch (by decide)
    (takes_group cuts (kinds_wrap _) (clean_wrap _) .object .object)

omit cuts in
theorem value_identifier (ks : List Kind) : value rules (.identifier :: ks) =
    some (constructed rules (called rules (reference ks).1 (reference ks).2).1
      (called rules (reference ks).1 (reference ks).2).2) := by
  by_cases opens : ∃ rest, (reference ks).2 = .openParen :: rest
  · obtain ⟨rest, opens⟩ := opens
    rw [value_of_call opens, called, opens, branch_next]
  · have closed : Avoids [.openParen] (reference ks).2 :=
      avoids_of_ne fun rest same => opens ⟨rest, same⟩
    rw [value_of_name closed, called, branch_other closed]

theorem value_cut {k : Kind} {ks : List Kind} {read : Read}
    (answer : value rules (k :: ks ++ t) = some read) (clean : read.1.Clean) :
    (∃ read', value rules (k :: ks) = some read' ∧
      Truncated stumps t (k :: ks) (single read) (single read')) ∨
      value rules (k :: ks) = none ∧ k :: ks ∈ stumps ∧
        (k :: ks).length < read.1.kinds.length := by
  generalize whole : k :: ks ++ t = all at answer
  by_cases name : k = .identifier
  · subst name
    rw [← whole, List.cons_append, value_identifier] at answer
    cases answer
    have within := (tails_constructed cuts).within _ _ clean
    exact Or.inl ⟨_, value_identifier ks, (tails_constructed cuts).after
      ((tails_called cuts).after (reference_cut ks) within) clean⟩
  revert answer
  fun_cases value rules all with
  | case1 all body =>
      rintro ⟨⟩
      obtain ⟨rfl, rfl⟩ := List.cons.inj whole
      have body := group_cut cuts fun p member => clean_parts clean member
      exact Or.inl ⟨_, rfl, (body.mono (by decide)).node .object⟩
  | case2 all reference =>
      rintro ⟨⟩
      obtain ⟨rfl, rest⟩ := List.cons.inj whole
      cases ks with
      | nil =>
          refine Or.inr ⟨rfl, by decide, ?_⟩
          simp [Outline.kinds, kindsOfAll, reference, Grammar.reference]
      | cons k ks =>
          obtain ⟨rfl, rfl⟩ := List.cons.inj rest
          exact Or.inl ⟨_, rfl, ((reference_cut ks).token .dot).node .contextualPropertyReference⟩
  | case3 | case4 => exact absurd (List.cons.inj whole).1 name
  | case5 k all notBrace notDot notName =>
      intro answer
      obtain ⟨rfl, rfl⟩ := List.cons.inj whole
      obtain ⟨name, found, rfl⟩ := Option.map_eq_some_iff.mp answer
      obtain ⟨kind, known, rfl⟩ := literal?_eq_some found
      refine Or.inl ⟨_, value_of_literal known ks, ?_⟩
      split at clean
      case isTrue quoted =>
        rw [if_pos quoted, if_pos quoted]
        exact (tails_constructed cuts).cut _ ks clean
      case isFalse plain =>
        rw [if_neg plain, if_neg plain]
        exact .same rfl (List.forall_mem_singleton.mpr clean)
  | case6 => rintro ⟨⟩

theorem assigned_cut {c : Context} (stops : c.stopsAt .dot = false) (ks : List Kind)
    (clean : (assigned rules c (ks ++ t)).1.Clean) :
    Truncated stumps t ks (single (assigned rules c (ks ++ t))) (single (assigned rules c ks)) := by
  unfold assigned at clean ⊢
  cases answer : rules .value (ks ++ t) with
  | none =>
      rw [answer] at clean
      exact absurd clean (Outline.not_clean_skipped _ _)
  | some read =>
      rw [answer] at clean
      rcases (cuts.rule .value).some ks read answer clean with
        ⟨read', alone, cut⟩ | ⟨alone, left, beyond⟩
      · rw [alone]
        exact cut
      · rw [alone, Option.getD_none, Option.getD_some]
        rw [← Outline.kindsOfAll_singleton] at beyond
        simp only [stumps, List.mem_cons, List.not_mem_nil, or_false] at left
        rcases left with rfl | rfl
        · exact ⟨rfl, ⟨⟨nofun, Or.inl rfl⟩, trivial⟩, Or.inr ⟨beyond, List.mem_cons_self⟩⟩
        · have dot : slot c [.dot] = (.skipped (.noValue c) [.dot], []) := by
            simp [slot, skip, skipLength, stops]
          rw [dot]
          exact ⟨rfl, ⟨⟨nofun, Or.inr rfl⟩, trivial⟩, Or.inr ⟨beyond, List.mem_cons_self⟩⟩

theorem takes_value : Takes t .equals fun name ks =>
    (.node .property [name, .token .equals, (assigned rules .propertyValue ks).1],
      (assigned rules .propertyValue ks).2) where
  cut name ks clean := by
    have value := assigned_cut cuts (c := .propertyValue) rfl ks
      (clean_parts clean (by simp))
    exact ((value.token .equals).lead (clean_parts clean (by simp))).node .property
  within name ks clean := clean_parts clean List.mem_cons_self
  longer name ks := by simp [Outline.kinds, kindsOfAll]

theorem takes_object : Takes t .openBrace fun name ks =>
    (.node .property [name, .node .object (group .object rules ks).1],
      (group .object rules ks).2) where
  cut name ks clean := by
    have object := clean_parts clean (p := .node .object (group .object rules (ks ++ t)).1)
      (by simp)
    have body := group_cut cuts fun p member => clean_parts object member
    exact (((body.mono (by decide)).node .object).lead (clean_parts clean (by simp))).node .property
  within name ks clean := clean_parts clean List.mem_cons_self
  longer name ks := by
    have positive := length_group rules .object ks
    simp only [Outline.kinds, kindsOfAll, List.length_append, List.append_nil]
    omega

omit cuts in
theorem property_eq : property rules = branch .equals
    (fun name ks => (.node .property [name, .token .equals, (assigned rules .propertyValue ks).1],
      (assigned rules .propertyValue ks).2))
    (branch .openBrace (fun name ks => (.node .property [name,
      .node .object (group .object rules ks).1], (group .object rules ks).2))
      fun name ks => (.node .property [name], ks)) := by
  refine branch_eq (fun _ _ => rfl) fun name ks unassigned => ?_
  by_cases opens : ∃ rest, ks = .openBrace :: rest
  · obtain ⟨rest, rfl⟩ := opens
    rfl
  · have closed : Avoids [.openBrace] ks := avoids_of_ne fun rest same => opens ⟨rest, same⟩
    rw [property_alone unassigned closed, branch_other closed]

theorem tails_property : Tails t (property rules) := by
  rw [property_eq]
  exact ((tails_wrap .property).branch (by decide) (takes_object cuts)).branch (by decide)
    (takes_value cuts)

def named (rules : Construct → Rule) : Outline → List Kind → Read :=
  branch .openParen (fun name ks => (.node .invocationElement [(invocation rules name ks).1],
    (invocation rules name ks).2)) (property rules)

theorem tails_named : Tails t (named rules) := by
  refine (tails_property cuts).branch (by decide) ⟨fun name ks clean => ?_, ?_, ?_⟩
  · exact ((takes_arguments cuts).cut name ks ((clean_wrap _ _).mp clean)).node .invocationElement
  · exact fun name ks clean => (takes_arguments cuts).within name ks ((clean_wrap _ _).mp clean)
  · intro name ks
    rw [kinds_wrap]
    exact (takes_arguments cuts).longer name ks

omit cuts in
theorem statement_identifier (ks : List Kind) : statement rules (.identifier :: ks) =
    some (named rules (reference ks).1 (reference ks).2) := by
  by_cases opens : ∃ rest, (reference ks).2 = .openParen :: rest
  · obtain ⟨rest, opens⟩ := opens
    rw [statement_of_call opens, named, opens, branch_next]
  · have closed : Avoids [.openParen] (reference ks).2 :=
      avoids_of_ne fun rest same => opens ⟨rest, same⟩
    rw [statement_of_name closed, named, branch_other closed]

omit cuts in
theorem declaration_of_clean {ks : List Kind} (clean : (declaration rules ks).1.Clean) :
    ∃ rest, ks = .identifier :: .equals :: rest := by
  revert clean
  fun_cases declaration rules ks with
  | case1 rest value => exact fun _ => ⟨rest, rfl⟩
  | case2 =>
      exact fun clean => absurd (clean_parts clean (p := .gap .assignment) (by simp))
        (Outline.not_clean_gap _)
  | case3 =>
      exact fun clean => absurd (clean_parts clean (p := .gap .variableName) (by simp))
        (Outline.not_clean_gap _)

theorem declaration_cut {ks : List Kind} (clean : (declaration rules (ks ++ t)).1.Clean) :
    Truncated stumps t (.valWord :: ks) (single (declaration rules (ks ++ t)))
      (single (declaration rules ks)) := by
  obtain ⟨rest, whole⟩ := declaration_of_clean clean
  rcases ks with _ | ⟨k, _ | ⟨k', ks⟩⟩
  · refine ⟨rfl, ⟨⟨trivial, rfl, trivial⟩, trivial⟩, Or.inr ⟨?_, List.mem_cons_self⟩⟩
    rw [whole]
    simp [single, declaration, Outline.kinds, kindsOfAll]
  · obtain ⟨rfl, -⟩ := List.cons.inj whole
    refine ⟨rfl, ⟨⟨trivial, trivial, rfl, trivial⟩, trivial⟩, Or.inr ⟨?_, List.mem_cons_self⟩⟩
    rw [whole]
    simp [single, declaration, Outline.kinds, kindsOfAll]
  · obtain ⟨rfl, behind⟩ := List.cons.inj whole
    obtain ⟨rfl, -⟩ := List.cons.inj behind
    have value := assigned_cut cuts (c := .variableDeclaration) rfl ks
      (clean_parts clean (by simp))
    exact (((value.token .equals).token .identifier).token .valWord).node .variableDeclaration

theorem statement_cut {k : Kind} {ks : List Kind} {read : Read}
    (answer : statement rules (k :: ks ++ t) = some read) (clean : read.1.Clean) :
    ∃ read', statement rules (k :: ks) = some read' ∧
      Truncated stumps t (k :: ks) (single read) (single read') := by
  generalize whole : k :: ks ++ t = all at answer
  by_cases name : k = .identifier
  · subst name
    rw [← whole, List.cons_append, statement_identifier] at answer
    cases answer
    exact ⟨_, statement_identifier ks, (tails_named cuts).after (reference_cut ks) clean⟩
  revert answer
  fun_cases statement rules all with
  | case1 all =>
      rintro ⟨⟩
      obtain ⟨rfl, rfl⟩ := List.cons.inj whole
      exact ⟨_, rfl, declaration_cut cuts clean⟩
  | case2 | case3 => exact absurd (List.cons.inj whole).1 name
  | case4 k all notVal notName =>
      intro answer
      obtain ⟨rfl, rfl⟩ := List.cons.inj whole
      obtain ⟨name, found, rfl⟩ := Option.map_eq_some_iff.mp answer
      obtain ⟨kind, known, rfl⟩ := literal?_eq_some found
      exact ⟨_, statement_of_literal known ks, (tails_property cuts).cut _ ks clean⟩
  | case5 => rintro ⟨⟩

theorem length_statement {ks : List Kind} {read : Read} (answer : statement rules ks = some read) :
    0 < read.1.kinds.length := by
  by_cases name : ∃ rest, ks = .identifier :: rest
  · obtain ⟨rest, rfl⟩ := name
    rw [statement_identifier] at answer
    cases answer
    have filled : 0 < (reference rest).1.kinds.length := by
      simp [reference, Outline.kinds, kindsOfAll]
    exact Nat.lt_of_lt_of_le filled ((tails_named cuts).longer _ _)
  revert answer
  fun_cases statement rules ks with
  | case1 rest =>
      rintro ⟨⟩
      unfold declaration
      split <;> simp [Outline.kinds, kindsOfAll]
  | case2 rest | case3 rest => exact absurd ⟨rest, rfl⟩ name
  | case4 k rest =>
      intro answer
      obtain ⟨name, found, rfl⟩ := Option.map_eq_some_iff.mp answer
      obtain ⟨kind, known, rfl⟩ := literal?_eq_some found
      exact Nat.lt_of_lt_of_le Nat.zero_lt_one
        ((tails_property cuts).longer (.node kind [.token k]) _)
  | case5 => rintro ⟨⟩

omit cuts in
theorem contextName_cut (k : Kind) (ks : List Kind) (out : List Outline × List Kind)
    (applies : contextName (k :: ks ++ t) = some out) (clean : ∀ p ∈ out.1, p.Clean) :
    ∃ out', contextName (k :: ks) = some out' ∧ Truncated [[]] t (k :: ks) out out' ∧
      ∀ left ∈ [[]], Idle [[]] left (repeated contextName left) := by
  have idle : ∀ left ∈ [[]], Idle [[]] left (repeated contextName left) := by
    intro left empty
    rw [List.mem_singleton.mp empty]
    exact .pass (List.mem_singleton_self _)
  generalize whole : k :: ks ++ t = all at applies
  revert applies
  fun_cases contextName all with
  | case1 => rintro ⟨⟩
  | case2 k' marker all comma =>
      rintro ⟨⟩
      obtain ⟨rfl, rest⟩ := List.cons.inj whole
      cases ks with
      | nil =>
          have late : Outline.LateAll [.node .contextName [.token k, .gap .contextName]] [k] :=
            ⟨⟨trivial, rfl, trivial⟩, trivial⟩
          refine ⟨_, if_pos marker, ⟨rfl, late, Or.inr ⟨?_, ?_⟩⟩, idle⟩
          · simp [kindsOfAll, Outline.kinds]
          · exact List.mem_singleton_self _
      | cons k' ks =>
          obtain ⟨rfl, rfl⟩ := List.cons.inj rest
          have name : Truncated [[]] t (k :: .identifier :: ks)
              ([.node .contextName [.token k, .token .identifier]], ks ++ t)
              ([.node .contextName [.token k, .token .identifier]], ks) :=
            .same rfl (List.forall_mem_singleton.mpr (clean _ List.mem_cons_self))
          exact ⟨_, if_pos marker, name.comma (List.mem_singleton_self _) (by decide), idle⟩
  | case3 k' marker all none comma =>
      rintro ⟨⟩
      have missing := clean_parts (clean _ List.mem_cons_self) (p := .gap .contextName) (by simp)
      cases missing
  | case4 => rintro ⟨⟩

omit cuts in
theorem contextNames_cut {ks : List Kind}
    (clean : ∀ p ∈ (repeated contextName (ks ++ t)).1, p.Clean) :
    Truncated [[]] t ks (repeated contextName (ks ++ t)) (repeated contextName ks) := by
  refine repeated_cut contextName_advances
    (fun ks out applies => (contextName_builds (c := .topLevel) ks out applies).split) rfl
    (fun k ks stuck => ?_) contextName_cut clean
  have other : Kind.contextMarkers.contains k ≠ true := by
    intro marker
    obtain ⟨out, applies⟩ := contextName_of_marker marker (ks ++ t)
    rw [List.cons_append, applies] at stuck
    cases stuck
  exact if_neg other

def body (rules : Construct → Rule) : List Kind → Kind × List Outline × List Kind
  | .openBrace :: ks => (.contextBlock, group .contextBlock rules ks)
  | ks => (.contextualStatement, ((statement rules ks).map single).getD ([.gap .statement], ks))

omit cuts in
theorem contextual_eq (ks : List Kind) : contextual rules ks =
    (.node (body rules (repeated contextName ks).2).1
      ((repeated contextName ks).1 ++ (body rules (repeated contextName ks).2).2.1),
      (body rules (repeated contextName ks).2).2.2) := by
  by_cases opens : ∃ rest, (repeated contextName ks).2 = .openBrace :: rest
  · obtain ⟨rest, opens⟩ := opens
    rw [contextual_block opens, opens]
    rfl
  · have closed : Avoids [.openBrace] (repeated contextName ks).2 :=
      avoids_of_ne fun rest same => opens ⟨rest, same⟩
    rw [body]
    · cases answer : statement rules (repeated contextName ks).2 with
      | none => rw [contextual_alone rfl closed answer]; rfl
      | some read => rw [contextual_statement rfl closed answer]; rfl
    · exact fun rest same => opens ⟨rest, same⟩

theorem length_body {ks : List Kind} (clean : ∀ p ∈ (body rules ks).2.1, p.Clean) :
    0 < (kindsOfAll (body rules ks).2.1).length := by
  revert clean
  fun_cases body rules ks with
  | case1 ks => exact fun _ => length_group rules .contextBlock ks
  | case2 ks =>
      intro clean
      cases answer : statement rules ks with
      | none =>
          rw [answer] at clean
          exact absurd (clean _ (List.mem_singleton_self _)) (Outline.not_clean_gap _)
      | some read =>
          rw [Option.map_some, Option.getD_some, single, Outline.kindsOfAll_singleton]
          exact length_statement cuts answer

theorem body_cut {k : Kind} {ks : List Kind}
    (clean : ∀ p ∈ (body rules (k :: ks ++ t)).2.1, p.Clean) :
    (body rules (k :: ks ++ t)).1 = (body rules (k :: ks)).1 ∧
      Truncated stumps t (k :: ks) (body rules (k :: ks ++ t)).2 (body rules (k :: ks)).2 := by
  by_cases opens : k = .openBrace
  · subst opens
    exact ⟨rfl, (group_cut cuts clean).mono (by decide)⟩
  · have other (ks : List Kind) : body rules (k :: ks) = (.contextualStatement,
        ((statement rules (k :: ks)).map single).getD ([.gap .statement], k :: ks)) := by
      rw [body]
      exact fun rest same => opens (List.cons.inj same).1
    rw [List.cons_append, other] at clean ⊢
    rw [other]
    refine ⟨rfl, ?_⟩
    cases answer : statement rules (k :: (ks ++ t)) with
    | none =>
        rw [answer] at clean
        exact absurd (clean _ (List.mem_singleton_self _)) (Outline.not_clean_gap _)
    | some read =>
        rw [answer] at clean
        obtain ⟨read', alone, cut⟩ :=
          statement_cut cuts answer (clean _ (List.mem_singleton_self _))
        rw [alone]
        exact cut

theorem contextual_cut {ks : List Kind} (clean : (contextual rules (ks ++ t)).1.Clean) :
    Truncated stumps t ks (single (contextual rules (ks ++ t))) (single (contextual rules ks)) := by
  rw [contextual_eq] at clean ⊢
  rw [contextual_eq]
  have whole := fun p member => clean_parts clean (p := p) member
  have names := contextNames_cut fun p member => whole p (List.mem_append_left _ member)
  have behind := fun p member => whole p (List.mem_append_right _ member)
  generalize repeated contextName (ks ++ t) = front at *
  generalize repeated contextName ks = front' at *
  -- Where the names end at the cut, the statement is missing there.
  have missing (short : front'.2 = []) :
      body rules front'.2 = (.contextualStatement, [.gap .statement], []) := by
    rw [short]
    rfl
  refine (names.append (fun same => ?_) fun left => ?_).nodes fun same => ?_
  · rw [show front.2 = front'.2 ++ t from congrArg Prod.snd same] at behind ⊢
    cases short : front'.2 with
    | nil =>
        rw [short] at behind
        exact ⟨rfl, ⟨rfl, trivial⟩, Or.inr ⟨length_body cuts behind, List.mem_cons_self⟩⟩
    | cons k rest =>
        rw [short] at behind
        exact (body_cut cuts behind).2
  · rw [missing (List.mem_singleton.mp left), List.mem_singleton.mp left]
    exact ⟨rfl, ⟨rfl, trivial⟩, List.mem_cons_self⟩
  · have filled : front'.2 ≠ [] := by
      intro short
      have parts : front.1 ++ _ = front'.1 ++ _ := congrArg Prod.fst same
      rw [parts, missing short] at whole
      exact absurd (whole _ (List.mem_append_right _ (List.mem_singleton_self _)))
        (Outline.not_clean_gap _)
    rcases names.outcome with alike | ⟨-, left⟩
    · rw [show front.2 = front'.2 ++ t from congrArg Prod.snd alike] at behind ⊢
      obtain ⟨k, rest, short⟩ := List.exists_cons_of_ne_nil filled
      rw [short] at behind ⊢
      exact (body_cut cuts behind).1
    · exact absurd (List.mem_singleton.mp left) filled

theorem construct_cut (c : Construct) {k : Kind} {ks : List Kind} {read : Read}
    (answer : construct rules c (k :: ks ++ t) = some read) (clean : read.1.Clean) :
    (∃ read', construct rules c (k :: ks) = some read' ∧
      Truncated stumps t (k :: ks) (single read) (single read')) ∨
      construct rules c (k :: ks) = none ∧ k :: ks ∈ stumps ∧
        (k :: ks).length < read.1.kinds.length := by
  cases c with
  | value => exact value_cut cuts answer clean
  | element =>
      refine Or.inl ?_
      rw [construct, List.cons_append, element] at answer
      rw [construct, element]
      split at answer
      case isTrue marker =>
        cases answer
        rw [if_pos marker]
        exact ⟨_, rfl, contextual_cut cuts clean⟩
      case isFalse other =>
        rw [if_neg other]
        exact statement_cut cuts answer clean

end

theorem nested_lone (depth : Nat) (c : Construct) : nested (depth + 1) c [.dot] = none := by
  cases c <;> rfl

theorem nested_cuts (t : List Kind) (depth : Nat) : Cuts t (nested depth) := by
  refine ⟨fun c => ?_, nested_advances depth, nested_built depth⟩
  induction depth generalizing c with
  | zero =>
      have unclean {ks : List Kind} {read : Read} (answer : nested 0 c ks = some read) :
          ¬ read.1.Clean := by
        obtain ⟨k, ks, -, -, rfl⟩ := nested_zero answer
        exact Outline.not_clean_skipped _ _
      exact ⟨fun ks read answer clean => absurd clean (unclean answer),
        fun ks read answer clean => absurd clean (unclean answer)⟩
  | succ depth ih =>
      have cuts : Cuts t (nested depth) := ⟨ih, nested_advances depth, nested_built depth⟩
      refine ⟨fun ks read answer clean => ?_, fun _ _ _ _ => nested_lone depth c⟩
      cases ks with
      | nil =>
          have shorter := nested_advances _ _ _ _ answer
          have split := congrArg List.length (nested_built _ _ .topLevel _ _ answer).split
          rw [List.length_append, Outline.kindsOfAll_singleton] at split
          exact Or.inr ⟨rfl, List.mem_cons_self, by rw [List.length_nil]; omega⟩
      | cons k ks =>
          obtain ⟨k', ks', same, first, answer⟩ := nested_succ answer
          rw [← same] at answer
          obtain ⟨rfl, -⟩ := List.cons.inj same
          rw [nested, if_pos (List.contains_iff_mem.mpr first)]
          exact construct_cut cuts c answer clean

/-- What is wrong with the front of kinds that are read cleanly is wrong at the cut. -/
theorem late_file {depth : Nat} {t ks : List Kind}
    (clean : ∀ p ∈ file depth (ks ++ t), p.Clean) : Outline.LateAll (file depth ks) ks := by
  have cuts := nested_cuts t depth
  have advances := fileItem_advances (nested_advances depth .element)
  have each (k : Kind) (ks : List Kind) (out : List Outline × List Kind)
      (applies : fileItem (nested depth .element) (k :: ks ++ t) = some out)
      (clean : ∀ p ∈ out.1, p.Clean) :
      ∃ out', fileItem (nested depth .element) (k :: ks) = some out' ∧
        Truncated stumps t (k :: ks) out out' ∧
        ∀ left ∈ stumps, Idle [[]] left (repeated (fileItem (nested depth .element)) left) := by
    cases applies
    obtain ⟨item, lone⟩ := item_cut (cuts.rule .element) .topLevel
      (clean _ (List.mem_singleton_self _))
    refine ⟨_, rfl, item, stumps_idle (c := .topLevel) advances rfl ?_⟩
    rw [fileItem, lone]
    rfl
  have split (ks : List Kind) (out : List Outline × List Kind)
      (applies : fileItem (nested depth .element) ks = some out) :
      kindsOfAll out.1 ++ out.2 = ks := by
    obtain ⟨k, ks, rfl, rfl⟩ := fileItem_some applies
    exact (getD_recover_builds (nested_built depth .element) (c := .topLevel) ks
      (by cases k <;> decide)).split
  have stuck (k : Kind) (ks : List Kind)
      (none : fileItem (nested depth .element) (k :: ks ++ t) = none) :
      fileItem (nested depth .element) (k :: ks) = Option.none := by cases none
  exact (repeated_cut advances split rfl stuck each clean).late

end ConfigSyntax.Grammar
