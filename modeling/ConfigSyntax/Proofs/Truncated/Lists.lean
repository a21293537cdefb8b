import ConfigSyntax.Proofs.Stable.Groups

/-! What the grammar makes of the front of kinds that it reads cleanly: what is missing is missing
at the cut, and a dot in front of it may be too much. Here of lists, and of what stands between
delimiters. Main statements: `repeated_cut`, `group_cut`. -/

namespace ConfigSyntax

namespace Outline

mutual

/-- With the kinds `ks` ahead, what is missing is missing behind all of them, and of them nothing is
skipped but a dot at the end. -/
def Late : Outline → List Kind → Prop
  | .token _, _ => True
  | .gap _, ks => ks = []
  | .skipped why _, ks => why ≠ .tooDeep ∧ (ks = [] ∨ ks = [.dot])
  | .node _ parts, ks => LateAll parts ks

def LateAll : List Outline → List Kind → Prop
  | [], _ => True
  | p :: ps, ks => Late p ks ∧ LateAll ps (ks.drop p.kinds.length)

end

theorem lateAll_of_forall {ps : List Outline} (each : ∀ p ∈ ps, ∀ ks, p.Late ks)
    (ks : List Kind) : LateAll ps ks := by
  induction ps generalizing ks with
  | nil => trivial
  | cons p ps ih =>
      exact ⟨each p List.mem_cons_self ks,
        ih (fun q member => each q (List.mem_cons_of_mem p member)) _⟩

theorem Clean.late {o : Outline} (clean : o.Clean) (ks : List Kind) : o.Late ks := by
  induction clean generalizing ks with
  | token => trivial
  | node k parts _ ih => exact lateAll_of_forall ih ks

theorem lateAll_of_clean {ps : List Outline} (clean : ∀ p ∈ ps, p.Clean) (ks : List Kind) :
    LateAll ps ks :=
  lateAll_of_forall (fun p member => (clean p member).late) ks

theorem lateAll_append {front back : List Outline} {ks rest : List Kind}
    (split : kindsOfAll front ++ rest = ks) (first : LateAll front ks)
    (second : LateAll back rest) : LateAll (front ++ back) ks := by
  induction front generalizing ks with
  | nil =>
      rw [← split]
      exact second
  | cons p ps ih =>
      refine ⟨first.1, ih ?_ first.2⟩
      rw [← split, kindsOfAll, List.append_assoc, List.drop_left]

@[simp] theorem lateAll_singleton {o : Outline} {ks : List Kind} : LateAll [o] ks ↔ o.Late ks := by
  simp only [LateAll, and_true]

end Outline

namespace Grammar

open Outline (kindsOfAll LateAll)

def single (read : Read) : List Outline × List Kind := ([read.1], read.2)

def stumps : List (List Kind) := [[], [.dot]]

/-- Of the kinds `ks`, with `t` behind them, a rule makes `out`, and of `ks` alone `out'`: the same
with `t` left over, or else `out` reaches behind the cut. -/
structure Truncated (lefts : List (List Kind)) (t ks : List Kind)
    (out out' : List Outline × List Kind) : Prop where
  split : kindsOfAll out'.1 ++ out'.2 = ks
  late : LateAll out'.1 ks
  outcome : out = followed t out' ∨ ks.length < (kindsOfAll out.1).length ∧ out'.2 ∈ lefts

structure Idle (lefts : List (List Kind)) (ks : List Kind) (out : List Outline × List Kind) :
    Prop where
  split : kindsOfAll out.1 ++ out.2 = ks
  late : LateAll out.1 ks
  left : out.2 ∈ lefts

section

variable {lefts lefts' : List (List Kind)} {t ks rest rest' : List Kind}
  {out out' : List Outline × List Kind} {parts parts' : List Outline}

theorem Idle.pass (left : ks ∈ lefts) : Idle lefts ks ([], ks) := ⟨rfl, trivial, left⟩

theorem Truncated.same (split : kindsOfAll parts ++ rest = ks) (clean : ∀ p ∈ parts, p.Clean) :
    Truncated lefts t ks (parts, rest ++ t) (parts, rest) :=
  ⟨split, Outline.lateAll_of_clean clean ks, Or.inl rfl⟩

theorem Truncated.mono (cut : Truncated lefts t ks out out') (within : lefts ⊆ lefts') :
    Truncated lefts' t ks out out' :=
  ⟨cut.split, cut.late, cut.outcome.imp_right fun beyond => ⟨beyond.1, within beyond.2⟩⟩

/-- Two rules, one after the other: where the first one reads to the cut or less, the second one is
cut, and else it is idle. -/
theorem Truncated.append {first first' second second' : List Outline × List Kind}
    (front : Truncated lefts t ks first first')
    (back : first = followed t first' → Truncated lefts' t first'.2 second second')
    (idle : first'.2 ∈ lefts → Idle lefts' first'.2 second') :
    Truncated lefts' t ks (first.1 ++ second.1, second.2) (first'.1 ++ second'.1, second'.2) := by
  rcases front.outcome with same | ⟨beyond, left⟩
  · have behind := back same
    refine ⟨?_, Outline.lateAll_append front.split front.late behind.late, ?_⟩
    · rw [Outline.kindsOfAll_append, List.append_assoc, behind.split, front.split]
    · rcases behind.outcome with same' | ⟨beyond, left⟩
      · left
        rw [same, same']
        rfl
      · refine Or.inr ⟨?_, left⟩
        have size := congrArg List.length front.split
        rw [List.length_append] at size
        rw [same, Outline.kindsOfAll_append, List.length_append]
        change ks.length < (kindsOfAll first'.1).length + _
        omega
  · have behind := idle left
    refine ⟨?_, Outline.lateAll_append front.split front.late behind.late, Or.inr ⟨?_, behind.left⟩⟩
    · rw [Outline.kindsOfAll_append, List.append_assoc, behind.split, front.split]
    · rw [Outline.kindsOfAll_append, List.length_append]
      omega

theorem Truncated.lead {o : Outline} (clean : o.Clean) (cut : Truncated lefts t ks out out') :
    Truncated lefts t (o.kinds ++ ks) (o :: out.1, out.2) (o :: out'.1, out'.2) := by
  have first : Truncated [] t (o.kinds ++ ks) ([o], ks ++ t) ([o], ks) :=
    .same (by rw [Outline.kindsOfAll_singleton]) (List.forall_mem_singleton.mpr clean)
  exact first.append (fun _ => cut) nofun

theorem Truncated.token (k : Kind) (cut : Truncated lefts t ks out out') :
    Truncated lefts t (k :: ks) (.token k :: out.1, out.2) (.token k :: out'.1, out'.2) :=
  cut.lead (.token k)

/-- The kinds of the nodes may differ where one reaches behind the cut. -/
theorem Truncated.nodes {k k' : Kind} (cut : Truncated lefts t ks out out')
    (kind : out = followed t out' → k = k') :
    Truncated lefts t ks ([.node k out.1], out.2) ([.node k' out'.1], out'.2) where
  split := by
    rw [Outline.kindsOfAll_singleton]
    exact cut.split
  late := Outline.lateAll_singleton.mpr cut.late
  outcome := by
    rcases cut.outcome with same | ⟨beyond, left⟩
    · left
      rw [kind same, same]
      rfl
    · right
      rw [Outline.kindsOfAll_singleton]
      exact ⟨beyond, left⟩

theorem Truncated.node (k : Kind) (cut : Truncated lefts t ks out out') :
    Truncated lefts t ks ([.node k out.1], out.2) ([.node k out'.1], out'.2) :=
  cut.nodes fun _ => rfl

theorem comma?_stump (left : ks ∈ stumps) : comma? ks = ([], ks) := by
  simp only [stumps, List.mem_cons, List.not_mem_nil, or_false] at left
  rcases left with rfl | rfl <;> rfl

theorem comma?_cut (ks : List Kind) : Truncated [[]] t ks (comma? (ks ++ t)) (comma? ks) := by
  rcases ks with _ | ⟨k, ks⟩
  · refine ⟨rfl, trivial, ?_⟩
    by_cases comma : ∃ rest, t = .comma :: rest
    · obtain ⟨rest, rfl⟩ := comma
      exact Or.inr ⟨Nat.zero_lt_one, List.mem_singleton_self _⟩
    · left
      unfold comma?
      split
      · exact absurd ⟨_, by assumption⟩ comma
      · rfl
  · rw [comma?_followed fun _ => List.cons_ne_nil k ks]
    refine .same (comma?_builds (c := .topLevel) (k :: ks)).split ?_
    unfold comma?
    split
    · exact List.forall_mem_singleton.mpr (.token _)
    · nofun

theorem Truncated.comma (cut : Truncated lefts t ks out out') (nil : [] ∈ lefts)
    (within : lefts ⊆ stumps) :
    Truncated lefts t ks (out.1 ++ (comma? out.2).1, (comma? out.2).2)
      (out'.1 ++ (comma? out'.2).1, (comma? out'.2).2) := by
  refine cut.append (fun same => ?_) fun left => ?_
  · rw [same]
    exact (comma?_cut out'.2).mono (List.cons_subset.mpr ⟨nil, List.nil_subset _⟩)
  · rw [comma?_stump (within left)]
    exact .pass left

/-- A list of steps that are cut is cut. Where a step reaches behind the cut, the steps go on with
what that leaves. -/
theorem repeated_cut {step : List Kind → Option (List Outline × List Kind)}
    (advances : ∀ ks out, step ks = some out → out.2.length < ks.length)
    (split : ∀ ks out, step ks = some out → kindsOfAll out.1 ++ out.2 = ks)
    (none : step [] = none)
    (stuck : ∀ k ks, step (k :: ks ++ t) = Option.none → step (k :: ks) = Option.none)
    (each : ∀ k ks out, step (k :: ks ++ t) = some out → (∀ p ∈ out.1, p.Clean) →
      ∃ out', step (k :: ks) = some out' ∧ Truncated lefts t (k :: ks) out out' ∧
        ∀ left ∈ lefts, Idle [[]] left (repeated step left))
    {ks : List Kind} (clean : ∀ p ∈ (repeated step (ks ++ t)).1, p.Clean) :
    Truncated [[]] t ks (repeated step (ks ++ t)) (repeated step ks) := by
  induction length : ks.length using Nat.strong_induction_on generalizing ks with
  | _ n ih =>
      cases answer : step (ks ++ t) with
      | none =>
          have alone : step ks = Option.none := by
            cases ks with
            | nil => exact none
            | cons k ks => exact stuck k ks answer
          rw [repeated_of_none answer, repeated_of_none alone]
          exact .same rfl nofun
      | some out =>
          rw [repeated_of_some advances answer] at clean ⊢
          have first := fun p member => clean p (List.mem_append_left _ member)
          have others := fun p member => clean p (List.mem_append_right _ member)
          cases ks with
          | nil =>
              rw [repeated_of_none none]
              refine ⟨rfl, trivial, Or.inr ⟨?_, List.mem_singleton_self _⟩⟩
              have whole := congrArg List.length (split _ _ answer)
              have shorter := advances _ _ answer
              rw [List.length_append] at whole
              rw [Outline.kindsOfAll_append, List.length_append, List.length_nil]
              omega
          | cons k ks =>
              obtain ⟨out', alone, cut, idle⟩ := each k ks out answer first
              rw [repeated_of_some advances alone]
              have shorter := advances _ _ alone
              refine cut.append (fun same => ?_) (idle _)
              rw [same] at others ⊢
              exact ih _ (length ▸ shorter) others rfl

/-- Where a rule reads cleanly over the cut, it answers in front of it too, or there is not even
its first name. -/
structure Rule.Cuts (t : List Kind) (rule : Rule) : Prop where
  some : ∀ ks read, rule (ks ++ t) = some read → read.1.Clean →
    (∃ read', rule ks = Option.some read' ∧ Truncated stumps t ks (single read) (single read')) ∨
      rule ks = none ∧ ks ∈ stumps ∧ ks.length < read.1.kinds.length
  lone : ∀ ks read, rule ks = Option.some read → read.1.Clean → rule [.dot] = none

structure Cuts (t : List Kind) (rules : Construct → Rule) : Prop where
  rule : ∀ c, (rules c).Cuts t
  advances : ∀ c, (rules c).Advances
  built : ∀ c, (rules c).Built

theorem item_cut {rule : Rule} (cuts : rule.Cuts t) (c : Context) {k : Kind} {ks : List Kind}
    (clean : ((rule (k :: ks ++ t)).getD (recover c (k :: ks ++ t))).1.Clean) :
    Truncated stumps t (k :: ks) (single ((rule (k :: ks ++ t)).getD (recover c (k :: ks ++ t))))
      (single ((rule (k :: ks)).getD (recover c (k :: ks)))) ∧ rule [.dot] = none := by
  obtain ⟨read, answer, whole⟩ := some_of_clean clean
  refine ⟨?_, cuts.lone _ read answer whole⟩
  rw [answer, Option.getD_some]
  rcases cuts.some _ read answer whole with ⟨read', alone, cut⟩ | ⟨alone, left, beyond⟩
  · rw [alone]
    exact cut
  · simp only [stumps, List.mem_cons, List.not_mem_nil, or_false, false_or, reduceCtorEq] at left
    rw [alone, left, Option.getD_none]
    rw [left] at beyond
    have other : Skip.unexpected c ≠ .tooDeep := by simp
    refine ⟨rfl, ⟨⟨other, Or.inr rfl⟩, trivial⟩, Or.inr ⟨?_, List.mem_cons_self⟩⟩
    simpa [single] using beyond

theorem stumps_idle {step : List Kind → Option (List Outline × List Kind)} {c : Context}
    (advances : ∀ ks out, step ks = some out → out.2.length < ks.length) (none : step [] = none)
    (dot : step [.dot] = some ([.skipped (.unexpected c) [.dot]], [])) :
    ∀ left ∈ stumps, Idle [[]] left (repeated step left) := by
  simp only [stumps, List.forall_mem_cons, List.not_mem_nil, false_imp_iff, implies_true, and_true]
  constructor
  · rw [repeated_of_none none]
    exact .pass (List.mem_singleton_self _)
  · rw [repeated_of_some advances dot, repeated_of_none none]
    exact ⟨rfl, ⟨⟨nofun, Or.inr rfl⟩, trivial⟩, List.mem_singleton_self _⟩

variable {rules : Construct → Rule} (cuts : Cuts t rules)

include cuts

theorem groupItem_cut (g : Group) (k : Kind) (ks : List Kind) (out : List Outline × List Kind)
    (applies : groupItem g (rules g.holds) (k :: ks ++ t) = some out)
    (clean : ∀ p ∈ out.1, p.Clean) :
    ∃ out', groupItem g (rules g.holds) (k :: ks) = some out' ∧
      Truncated stumps t (k :: ks) out out' ∧
      ∀ left ∈ stumps, Idle [[]] left (repeated (groupItem g (rules g.holds)) left) := by
  obtain ⟨k, ks', same, notEnd, rfl⟩ := groupItem_some applies
  rw [← same] at clean ⊢
  obtain ⟨rfl, -⟩ := List.cons.inj same
  obtain ⟨item, lone⟩ := item_cut (cuts.rule g.holds) g.context (clean _ List.mem_cons_self)
  refine ⟨_, if_neg notEnd, item.comma List.mem_cons_self (List.Subset.refl _), ?_⟩
  refine stumps_idle (c := g.context) (groupItem_advances g (cuts.advances g.holds)) rfl ?_
  rw [groupItem, if_neg (by cases g <;> decide), lone]
  cases g <;> rfl

omit cuts in
theorem closing_cut {g : Group} {ks : List Kind}
    (clean : ∀ p ∈ (closing g (ks ++ t)).1, p.Clean) :
    Truncated [[]] t ks (closing g (ks ++ t)) (closing g ks) := by
  obtain ⟨rest, closes⟩ := closed_of_clean clean
  cases ks with
  | nil =>
      refine ⟨rfl, ⟨rfl, trivial⟩, Or.inr ⟨?_, List.mem_singleton_self _⟩⟩
      rw [closes, closing, if_pos rfl]
      exact Nat.zero_lt_one
  | cons k ks =>
      obtain ⟨rfl, -⟩ := List.cons.inj closes
      rw [List.cons_append, closing, closing, if_pos rfl, if_pos rfl]
      exact .same rfl (List.forall_mem_singleton.mpr (.token _))

theorem group_cut {g : Group} {ks : List Kind}
    (clean : ∀ p ∈ (group g rules (ks ++ t)).1, p.Clean) :
    Truncated [[]] t (g.opener :: ks) (group g rules (ks ++ t)) (group g rules ks) := by
  have stuck (k : Kind) (ks : List Kind)
      (ended : groupItem g (rules g.holds) (k :: ks ++ t) = none) :
      groupItem g (rules g.holds) (k :: ks) = none := by
    rw [List.cons_append, groupItem] at ended
    split at ended
    case isTrue ends => exact if_pos ends
    case isFalse => cases ended
  have items : Truncated [[]] t ks _ _ := repeated_cut
    (groupItem_advances g (cuts.advances g.holds))
    (fun ks out applies => (groupItem_builds cuts.built g ks out applies).split) rfl stuck
    (groupItem_cut cuts g)
    (fun p member => clean p (List.mem_append_left _ (List.mem_cons_of_mem _ member)))
  have closes := fun p member => clean p (List.mem_append_right _ member)
  refine (items.token g.opener).append (fun same => ?_) fun left => ?_
  · have rest := congrArg Prod.snd same
    change (repeated (groupItem g (rules g.holds)) (ks ++ t)).2 = _ ++ t at rest
    rw [rest] at closes ⊢
    exact closing_cut closes
  · rw [List.mem_singleton.mp left]
    exact ⟨rfl, ⟨rfl, trivial⟩, List.mem_singleton_self _⟩

end

end Grammar
end ConfigSyntax
