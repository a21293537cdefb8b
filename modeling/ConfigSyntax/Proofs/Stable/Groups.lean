import ConfigSyntax.Proofs.Limited.Rules
import ConfigSyntax.Proofs.Nesting

/-! What stays as it is read where more nesting is allowed, or where more text follows: lists, and
what stands between delimiters. Main statements: `contextNames_followed`, `group_followed`. -/

namespace ConfigSyntax

/-- Nothing is too deep, and nothing is wrong at all where `t` is to follow. -/
def Outline.Stable (t : List Kind) (o : Outline) : Prop := o.Shallow ∧ (t ≠ [] → o.Clean)

namespace Outline

variable {t : List Kind}

theorem Clean.shallow {o : Outline} (clean : o.Clean) : o.Shallow := by
  induction clean with
  | token k => exact .token k
  | node k parts _ ih => exact .node k ih

theorem Clean.stable {o : Outline} (clean : o.Clean) : o.Stable t := ⟨clean.shallow, fun _ => clean⟩

theorem Stable.part {k : Kind} {parts : List Outline} (stable : Stable t (.node k parts))
    {p : Outline} (member : p ∈ parts) : p.Stable t :=
  ⟨shallow_node.mp stable.1 p member, fun more => clean_node.mp (stable.2 more) p member⟩

end Outline

namespace Grammar

open Outline (Stable kindsOfAll)

def followed {α : Type} (t : List Kind) (out : α × List Kind) : α × List Kind :=
  (out.1, out.2 ++ t)

/-- What follows cannot turn the rest into more of a name. -/
def Settled (t rest : List Kind) : Prop := t ≠ [] → rest ≠ [.dot]

structure Rule.Extends (t : List Kind) (rule rule' : Rule) : Prop where
  some : ∀ ks read, rule ks = some read → read.1.Stable t → Settled t read.2 →
    rule' (ks ++ t) = some (followed t read)
  none : t = [] → ∀ ks, rule ks = none → rule' ks = none

structure Extends (t : List Kind) (rules rules' : Construct → Rule) : Prop where
  ends : Avoids extenders t
  rule : ∀ c, (rules c).Extends t (rules' c)
  advances : ∀ c, (rules c).Advances
  advances' : ∀ c, (rules' c).Advances
  built : ∀ c, (rules c).Built

section

variable {t : List Kind}

@[simp] theorem followed_nil {α : Type} (out : α × List Kind) : followed [] out = out := by
  simp [followed]

theorem settled_of_mem {k : Kind} {rest : List Kind} (other : k ≠ .dot)
    (within : t ≠ [] → k ∈ rest) : Settled t rest := by
  intro more same
  have only := within more
  rw [same] at only
  exact other (List.mem_singleton.mp only)

/-- Where no step takes anything of what follows, the list does not. `keeps` is what a step asks of
the kinds it leaves. -/
theorem repeated_followed {step step' : List Kind → Option (List Outline × List Kind)}
    (keeps : List Kind → Prop)
    (advances : ∀ ks out, step ks = some out → out.2.length < ks.length)
    (advances' : ∀ ks out, step' ks = some out → out.2.length < ks.length)
    (each : ∀ ks out, step ks = some out → (∀ p ∈ out.1, p.Stable t) → keeps out.2 →
      keeps ks ∧ step' (ks ++ t) = some (followed t out))
    {ks : List Kind} (stable : ∀ p ∈ (repeated step ks).1, p.Stable t)
    (last : keeps (repeated step ks).2) :
    keeps ks ∧ repeated step' (ks ++ t) =
      ((repeated step ks).1 ++ (repeated step' ((repeated step ks).2 ++ t)).1,
        (repeated step' ((repeated step ks).2 ++ t)).2) := by
  induction length : ks.length using Nat.strong_induction_on generalizing ks with
  | _ n ih =>
      cases answer : step ks with
      | none =>
          rw [repeated_of_none answer] at last ⊢
          exact ⟨last, rfl⟩
      | some out =>
          rw [repeated_of_some advances answer] at stable last ⊢
          have shorter := advances ks out answer
          obtain ⟨kept, others⟩ := ih out.2.length (length ▸ shorter)
            (fun p member => stable p (List.mem_append_right _ member)) last rfl
          obtain ⟨kept, first⟩ := each ks out answer
            (fun p member => stable p (List.mem_append_left _ member)) kept
          rw [repeated_of_some advances' first, followed, others, List.append_assoc]
          exact ⟨kept, rfl⟩

theorem eq_nil_of_filled (filled : t ≠ [] → ([] : List Kind) ≠ []) : t = [] := by
  by_contra more
  exact filled more rfl

theorem eq_nil_of_gap {g : Gap} (stable : Stable t (.gap g)) : t = [] := by
  by_contra more
  exact Outline.not_clean_gap g (stable.2 more)

theorem comma?_followed {ks : List Kind} (filled : t ≠ [] → ks ≠ []) :
    comma? (ks ++ t) = followed t (comma? ks) := by
  cases ks with
  | nil =>
      rw [eq_nil_of_filled filled]
      rfl
  | cons k ks => cases k <;> rfl

theorem mem_of_comma? {k : Kind} {ks : List Kind} (within : k ∈ (comma? ks).2) : k ∈ ks := by
  unfold comma? at within
  split at within
  · exact List.mem_cons_of_mem _ within
  · exact within

theorem contextName_followed {ks : List Kind} {out : List Outline × List Kind}
    (applies : contextName ks = some out) (stable : ∀ p ∈ out.1, p.Stable t)
    (filled : t ≠ [] → out.2 ≠ []) : contextName (ks ++ t) = some (followed t out) := by
  revert applies
  fun_cases contextName ks with
  | case1 => rintro ⟨⟩
  | case2 k marker ks comma =>
      rintro ⟨⟩
      have behind : t ≠ [] → ks ≠ [] := by
        rintro more rfl
        exact filled more rfl
      rw [List.cons_append, List.cons_append, contextName, if_pos marker]
      simp only [comma?_followed behind]
      rfl
  | case3 k marker ks none comma =>
      intro applies
      rw [← Option.some.inj applies] at stable
      have name := stable _ List.mem_cons_self
      obtain rfl := eq_nil_of_gap (name.part (p := .gap .contextName) (by simp))
      rw [List.append_nil, followed_nil, ← applies, contextName, if_pos marker]
      exact none
  | case4 => rintro ⟨⟩

theorem contextName_stuck {ks : List Kind} (stuck : contextName ks = none)
    (filled : t ≠ [] → ks ≠ []) : contextName (ks ++ t) = none := by
  cases ks with
  | nil =>
      rw [eq_nil_of_filled filled]
      rfl
  | cons k ks =>
      have other : Kind.contextMarkers.contains k ≠ true := by
        intro marker
        obtain ⟨out, applies⟩ := contextName_of_marker marker ks
        rw [applies] at stuck
        cases stuck
      rw [List.cons_append]
      exact if_neg other

theorem contextNames_followed {ks : List Kind}
    (stable : ∀ p ∈ (repeated contextName ks).1, p.Stable t)
    (filled : t ≠ [] → (repeated contextName ks).2 ≠ []) :
    repeated contextName (ks ++ t) = followed t (repeated contextName ks) := by
  have stuck := repeated_stuck contextName_advances ks
  have each : ∀ ks out, contextName ks = some out → (∀ p ∈ out.1, p.Stable t) →
      (t ≠ [] → out.2 ≠ []) →
      (t ≠ [] → ks ≠ []) ∧ contextName (ks ++ t) = some (followed t out) := by
    intro ks out applies stable filled
    refine ⟨?_, contextName_followed applies stable filled⟩
    rintro - rfl
    cases applies
  have names := (repeated_followed (fun rest => t ≠ [] → rest ≠ []) contextName_advances
    contextName_advances each stable filled).2
  rw [repeated_of_none (contextName_stuck stuck filled), List.append_nil] at names
  exact names

theorem getD_followed {rule rule' : Rule} (ext : rule.Extends t rule') {other : List Kind → Read}
    (unclean : ∀ ks, ¬ (other ks).1.Clean) {ks : List Kind}
    (stable : ((rule ks).getD (other ks)).1.Stable t)
    (settled : Settled t ((rule ks).getD (other ks)).2) :
    (rule' (ks ++ t)).getD (other (ks ++ t)) = followed t ((rule ks).getD (other ks)) := by
  cases answer : rule ks with
  | some read =>
      rw [answer] at stable settled
      rw [ext.some ks read answer stable settled]
      rfl
  | none =>
      by_cases more : t = []
      · rw [more, List.append_nil, ext.none more ks answer, followed_nil]
      · rw [answer] at stable
        exact absurd (stable.2 more) (unclean ks)

section

variable {rules rules' : Construct → Rule} (ext : Extends t rules rules')

include ext

theorem groupItem_followed {g : Group} {ks : List Kind} {out : List Outline × List Kind}
    (applies : groupItem g (rules g.holds) ks = some out) (stable : ∀ p ∈ out.1, p.Stable t)
    (closed : t ≠ [] → g.closer ∈ out.2) :
    groupItem g (rules' g.holds) (ks ++ t) = some (followed t out) := by
  obtain ⟨k, ks, rfl, notEnd, rfl⟩ := groupItem_some applies
  have within := fun more => mem_of_comma? (closed more)
  have item := getD_followed (ext.rule g.holds) (not_clean_recover g.context)
    (stable _ List.mem_cons_self)
    (settled_of_mem (k := g.closer) (by cases g <;> decide) within)
  rw [List.cons_append] at item ⊢
  rw [groupItem, if_neg notEnd]
  simp only [item, followed]
  rw [comma?_followed fun more => List.ne_nil_of_mem (within more)]
  rfl

end

theorem groupItem_stuck {g : Group} {rule : Rule} (rule' : Rule) {ks : List Kind}
    (stuck : groupItem g rule ks = none) (filled : t ≠ [] → ks ≠ []) :
    groupItem g rule' (ks ++ t) = none := by
  cases ks with
  | nil =>
      rw [eq_nil_of_filled filled]
      rfl
  | cons k ks =>
      rw [groupItem] at stuck
      split at stuck
      case isTrue ends => rw [List.cons_append, groupItem, if_pos ends]
      case isFalse => cases stuck

theorem closing_followed (g : Group) {ks : List Kind} (filled : t ≠ [] → ks ≠ []) :
    closing g (ks ++ t) = followed t (closing g ks) := by
  cases ks with
  | nil => rw [eq_nil_of_filled filled, List.append_nil, followed_nil]
  | cons k ks =>
      rw [List.cons_append, closing, closing]
      split <;> rfl

section

variable {rules rules' : Construct → Rule} (ext : Extends t rules rules')

include ext

/-- A group ends with its closer, so that nothing is added to it by what follows. -/
theorem group_followed {g : Group} {ks : List Kind}
    (stable : ∀ p ∈ (group g rules ks).1, p.Stable t) :
    group g rules' (ks ++ t) = followed t (group g rules ks) := by
  have stuck := repeated_stuck (groupItem_advances g (ext.advances g.holds)) ks
  have closed : t ≠ [] → g.closer ∈ (repeated (groupItem g (rules g.holds)) ks).2 := by
    intro more
    obtain ⟨rest, same⟩ := closed_of_clean fun p member =>
      (stable p (List.mem_append_right _ member)).2 more
    rw [same]
    exact List.mem_cons_self
  have filled := fun more => List.ne_nil_of_mem (closed more)
  have each : ∀ ks out, groupItem g (rules g.holds) ks = some out →
      (∀ p ∈ out.1, p.Stable t) → (t ≠ [] → g.closer ∈ out.2) →
      (t ≠ [] → g.closer ∈ ks) ∧
        groupItem g (rules' g.holds) (ks ++ t) = some (followed t out) := by
    intro ks out applies stable closed
    refine ⟨fun more => ?_, groupItem_followed ext applies stable closed⟩
    rw [← (groupItem_builds ext.built g ks out applies).split]
    exact List.mem_append_right _ (closed more)
  have items := (repeated_followed (fun rest => t ≠ [] → g.closer ∈ rest)
    (groupItem_advances g (ext.advances g.holds)) (groupItem_advances g (ext.advances' g.holds))
    each (fun p member => stable p (List.mem_append_left _ (List.mem_cons_of_mem _ member)))
    closed).2
  rw [repeated_of_none (groupItem_stuck (rules' g.holds) stuck filled), List.append_nil] at items
  simp only [group, items, closing_followed g filled]
  rfl

end

end

end Grammar
end ConfigSyntax
