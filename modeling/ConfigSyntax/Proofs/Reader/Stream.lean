import ConfigSyntax.Proofs.Reading
import ConfigSyntax.Reader.Entry

/-! The stream that a reader leaves of an outline: which nodes are opened around their first part,
and where their starts are. Main statement: `Outline.linked_entriesOfAll`. -/

namespace ConfigSyntax

namespace Entry

def isStart : Entry → Bool
  | .start .. => true
  | _ => false

@[simp] theorem isStart_start (k : Kind) (parent : Option Nat) : (start k parent).isStart = true :=
  rfl

@[simp] theorem isStart_token : token.isStart = false := rfl

@[simp] theorem isStart_finish : finish.isStart = false := rfl

/-- Each link leads forward to a start, and no two lead to the same one. -/
structure Linked (es : List Entry) : Prop where
  forward : ∀ i k d, es[i]? = some (Entry.start k (some d)) →
    0 < d ∧ ∃ k' parent, es[i + d]? = some (Entry.start k' parent)
  apart : ∀ i j k k' d d', es[i]? = some (Entry.start k (some d)) →
    es[j]? = some (Entry.start k' (some d')) → i + d = j + d' → i = j

namespace Linked

variable {es fs : List Entry}

theorem target_lt (linked : Linked es) {i d : Nat} {k : Kind}
    (link : es[i]? = some (Entry.start k (some d))) : i + d < es.length := by
  obtain ⟨-, k', parent, target⟩ := linked.forward i k d link
  exact (List.getElem?_eq_some_iff.mp target).1

theorem of_plain (plain : ∀ k d, .start k (some d) ∉ es) : Linked es where
  forward _ k d link := absurd (List.mem_of_getElem? link) (plain k d)
  apart _ _ k _ d _ link _ _ := absurd (List.mem_of_getElem? link) (plain k d)

theorem append (first : Linked es) (second : Linked fs) : Linked (es ++ fs) where
  forward i k d link := by
    by_cases front : i < es.length
    · rw [List.getElem?_append_left front] at link
      rw [List.getElem?_append_left (first.target_lt link)]
      exact first.forward i k d link
    · rw [List.getElem?_append_right (by omega)] at link
      rw [List.getElem?_append_right (by omega), Nat.sub_add_comm (by omega)]
      exact second.forward _ k d link
  apart i j k k' d d' link link' same := by
    -- The links of the two streams lead to different sides of the seam.
    by_cases front : i < es.length <;> by_cases front' : j < es.length
    · rw [List.getElem?_append_left front] at link
      rw [List.getElem?_append_left front'] at link'
      exact first.apart i j k k' d d' link link' same
    · rw [List.getElem?_append_left front] at link
      have := first.target_lt link
      omega
    · rw [List.getElem?_append_left front'] at link'
      have := first.target_lt link'
      omega
    · rw [List.getElem?_append_right (by omega)] at link link'
      have := second.apart _ _ k k' d d' link link' (by omega)
      omega

/-- A start at the end of a stream that a start in it is linked to. -/
theorem wrap (linked : Linked es) {i : Nat} {k : Kind} (free : es[i]? = some (.start k none))
    (k' : Kind) :
    Linked (es.set i (.start k (some (es.length - i))) ++ [.start k' none]) := by
  have bound : i < es.length := (List.getElem?_eq_some_iff.mp free).1
  -- The new link is the only one that leads to the end.
  have cases_of_link {j d : Nat} {k₁ : Kind}
      (link : (es.set i (.start k (some (es.length - i))) ++ [.start k' none])[j]? =
        some (.start k₁ (some d))) :
      (j = i ∧ d = es.length - i) ∨ (j ≠ i ∧ es[j]? = some (.start k₁ (some d))) := by
    by_cases same : j = i
    · subst same
      rw [List.getElem?_append_left (by simpa using bound), List.getElem?_set_self bound] at link
      simp_all
    · by_cases front : j < es.length
      · rw [List.getElem?_append_left (by simpa using front),
          List.getElem?_set_ne (Ne.symm same)] at link
        exact Or.inr ⟨same, link⟩
      · rw [List.getElem?_append_right (by simpa using front)] at link
        simp [List.getElem?_singleton] at link
  constructor
  · intro j k₁ d link
    rcases cases_of_link link with ⟨rfl, rfl⟩ | ⟨-, link⟩
    · refine ⟨by omega, k', none, ?_⟩
      rw [Nat.add_sub_cancel' (by omega), List.getElem?_append_right (by simp)]
      simp
    · obtain ⟨positive, k₂, parent, target⟩ := linked.forward j k₁ d link
      refine ⟨positive, k₂, ?_⟩
      rw [List.getElem?_append_left (by simpa using linked.target_lt link)]
      by_cases here : j + d = i
      · rw [here, free] at target
        cases target
        exact ⟨_, by rw [here, List.getElem?_set_self bound]⟩
      · exact ⟨parent, by rw [List.getElem?_set_ne (Ne.symm here), target]⟩
  · intro j j' k₁ k₂ d d' link link' same
    rcases cases_of_link link with ⟨here, length⟩ | ⟨-, old⟩ <;>
      rcases cases_of_link link' with ⟨here', length'⟩ | ⟨-, old'⟩
    · rw [here, here']
    · have := linked.target_lt old'
      omega
    · have := linked.target_lt old
      omega
    · exact linked.apart j j' k₁ k₂ d d' old old' same

end Linked
end Entry

namespace Outline

/-- A node that is opened around its first part when that is finished. -/
def wraps (k : Kind) : Outline → Bool
  | .node .. =>
    [.invocationExpression, .invocationElement, .constructorReference, .object].contains k
  | _ => false

theorem wraps_plain {k : Kind} (p : Outline)
    (plain : [.invocationExpression, .invocationElement, .constructorReference,
      .object].contains k = false) : wraps k p = false := by
  cases p with
  | node => exact plain
  | _ => rfl

def kind? : Outline → Option Kind
  | .skipped .. => some .error
  | .node k _ => some k
  | _ => none

mutual

def size : Outline → Nat
  | .token _ => 1
  | .gap _ => 0
  | .skipped _ ks => ks.length + 2
  | .node _ parts => sizeOfAll parts + 2

def sizeOfAll : List Outline → Nat
  | [] => 0
  | p :: ps => size p + sizeOfAll ps

end

/-- How many entries come in front of the start of the node itself. -/
def head : Outline → Nat
  | .node k (p :: _) => if wraps k p then size p else 0
  | _ => 0

/-- How far the end of an outline is from its start: that is where a node around it is opened. -/
def distance (o : Outline) : Nat := o.size - o.head

mutual

/-- The entries of an outline. `parent` is the distance to the start of a node around it. -/
def entries (parent : Option Nat) : Outline → List Entry
  | .token _ => [.token]
  | .gap _ => []
  | .skipped _ ks => .start .error parent :: ks.map (fun _ => .token) ++ [.finish]
  | .node k parts => entriesWithin k parent parts ++ [.finish]

def entriesWithin (k : Kind) (parent : Option Nat) : List Outline → List Entry
  | [] => [.start k parent]
  | p :: ps =>
    if wraps k p then entries (some p.distance) p ++ .start k parent :: entriesOfAll ps
    else .start k parent :: entries none p ++ entriesOfAll ps

def entriesOfAll : List Outline → List Entry
  | [] => []
  | p :: ps => entries none p ++ entriesOfAll ps

end

theorem entriesOfAll_append (front back : List Outline) :
    entriesOfAll (front ++ back) = entriesOfAll front ++ entriesOfAll back := by
  induction front with
  | nil => rfl
  | cons p ps ih => simp [entriesOfAll, ih]

theorem entriesWithin_plain {k : Kind} {parts : List Outline}
    (plain : ∀ p ∈ parts.head?, wraps k p = false) (parent : Option Nat) :
    entriesWithin k parent parts = .start k parent :: entriesOfAll parts := by
  cases parts with
  | nil => rfl
  | cons p ps => simp [entriesWithin, entriesOfAll, plain p rfl]

theorem head_plain {k : Kind} {parts : List Outline}
    (plain : ∀ p ∈ parts.head?, wraps k p = false) : (Outline.node k parts).head = 0 := by
  cases parts with
  | nil => rfl
  | cons p ps => simp [head, plain p rfl]

mutual

theorem length_entries (parent : Option Nat) : ∀ o : Outline, (o.entries parent).length = o.size
  | .token _ => rfl
  | .gap _ => rfl
  | .skipped _ ks => by simp [entries, size]
  | .node k parts => by simp [entries, size, length_entriesWithin k parent parts]

theorem length_entriesWithin (k : Kind) (parent : Option Nat) :
    ∀ ps : List Outline, (entriesWithin k parent ps).length = sizeOfAll ps + 1
  | [] => rfl
  | p :: ps => by
      have first := length_entries none p
      have inner := length_entries (some p.distance) p
      have more := length_entriesOfAll ps
      rw [entriesWithin, sizeOfAll]
      split <;> simp <;> omega

theorem length_entriesOfAll : ∀ ps : List Outline, (entriesOfAll ps).length = sizeOfAll ps
  | [] => rfl
  | p :: ps => by
      simp [entriesOfAll, sizeOfAll, length_entries none p, length_entriesOfAll ps]

end

theorem head_lt_size {o : Outline} {k : Kind} (node : o.kind? = some k) : o.head < o.size := by
  cases o with
  | token | gap => cases node
  | skipped => simp [head, size]
  | node k' parts =>
      cases parts with
      | nil => simp [head, size]
      | cons p ps =>
          rw [head, size, sizeOfAll]
          split <;> omega

/-- A link from an outline changes the start of its node only. -/
theorem entries_eq_set {o : Outline} {k : Kind} (node : o.kind? = some k)
    (parent parent' : Option Nat) :
    o.entries parent = (o.entries parent').set o.head (.start k parent) := by
  cases o with
  | token | gap => cases node
  | skipped => cases node; rfl
  | node k' parts =>
      cases node
      cases parts with
      | nil => rfl
      | cons p ps =>
          rw [entries, entries, entriesWithin, entriesWithin, head]
          split
          · simp [length_entries]
          · simp

theorem start_entries {o : Outline} {k : Kind} (node : o.kind? = some k) (parent : Option Nat) :
    (o.entries parent)[o.head]? = some (.start k parent) := by
  rw [entries_eq_set node parent none]
  exact List.getElem?_set_self (by simpa [length_entries] using head_lt_size node)

theorem kind?_of_wraps {k : Kind} {p : Outline} (around : wraps k p = true) :
    ∃ k', p.kind? = some k' := by
  cases p with
  | node k' _ => exact ⟨k', rfl⟩
  | _ => cases around

mutual

theorem linked_entries : ∀ o : Outline, Entry.Linked (o.entries none)
  | .token _ => .of_plain (by simp [entries])
  | .gap _ => .of_plain (by simp [entries])
  | .skipped _ ks => .of_plain (by simp [entries])
  | .node k parts => (linked_entriesWithin k parts).append (.of_plain (by simp))

theorem linked_entriesWithin (k : Kind) :
    ∀ ps : List Outline, Entry.Linked (entriesWithin k none ps)
  | [] => .of_plain (by simp [entriesWithin])
  | p :: ps => by
      have more := linked_entriesOfAll ps
      have first := linked_entries p
      rw [entriesWithin]
      split
      case isTrue around =>
        obtain ⟨k', node⟩ := kind?_of_wraps around
        have inner := (first.wrap (start_entries node none) k).append more
        rw [length_entries, ← distance, ← entries_eq_set node] at inner
        simpa using inner
      case isFalse =>
        have opened : Entry.Linked [.start k none] := .of_plain (by simp)
        exact (opened.append first).append more

theorem linked_entriesOfAll : ∀ ps : List Outline, Entry.Linked (entriesOfAll ps)
  | [] => .of_plain (by simp [entriesOfAll])
  | p :: ps => (linked_entries p).append (linked_entriesOfAll ps)

end

mutual

theorem starts_entries (parent : Option Nat) : ∀ o : Outline,
    (o.entries parent).countP (·.isStart) = (o.entries parent).count .finish
  | .token _ => rfl
  | .gap _ => rfl
  | .skipped _ ks => by
      simp [entries, List.countP_cons, List.countP_replicate, List.count_replicate, List.map_const']
  | .node k parts => by
      simp [entries, starts_entriesWithin k parent parts]

theorem starts_entriesWithin (k : Kind) (parent : Option Nat) : ∀ ps : List Outline,
    (entriesWithin k parent ps).countP (·.isStart) =
      (entriesWithin k parent ps).count .finish + 1
  | [] => rfl
  | p :: ps => by
      have first := starts_entries none p
      have inner := starts_entries (some p.distance) p
      have more := starts_entriesOfAll ps
      rw [entriesWithin]
      split <;> simp [List.countP_cons] <;> omega

theorem starts_entriesOfAll : ∀ ps : List Outline,
    (entriesOfAll ps).countP (·.isStart) = (entriesOfAll ps).count .finish
  | [] => rfl
  | p :: ps => by
      simp [entriesOfAll, starts_entries none p, starts_entriesOfAll ps]

end

mutual

theorem tokens_entries (parent : Option Nat) : ∀ o : Outline,
    (o.entries parent).count .token = o.kinds.length
  | .token _ => rfl
  | .gap _ => rfl
  | .skipped _ ks => by simp [entries, kinds, List.map_const']
  | .node k parts => by simp [entries, kinds, tokens_entriesWithin k parent parts]

theorem tokens_entriesWithin (k : Kind) (parent : Option Nat) : ∀ ps : List Outline,
    (entriesWithin k parent ps).count .token = (kindsOfAll ps).length
  | [] => rfl
  | p :: ps => by
      have more := tokens_entriesOfAll ps
      rw [entriesWithin, kindsOfAll]
      split
      · simp [tokens_entries (some p.distance) p, more]
      · simp [tokens_entries none p, more]

theorem tokens_entriesOfAll : ∀ ps : List Outline,
    (entriesOfAll ps).count .token = (kindsOfAll ps).length
  | [] => rfl
  | p :: ps => by simp [entriesOfAll, kindsOfAll, tokens_entries none p, tokens_entriesOfAll ps]

end

theorem mem_entriesWithin {k : Kind} {parent : Option Nat} {ps : List Outline} {e : Entry}
    (member : e ∈ entriesWithin k parent ps) :
    e = .start k parent ∨ ∃ p ∈ ps, ∃ parent', e ∈ p.entries parent' := by
  have among : ∀ qs : List Outline, e ∈ entriesOfAll qs → ∃ p ∈ qs, e ∈ p.entries none := by
    intro qs
    induction qs with
    | nil => simp [entriesOfAll]
    | cons q qs ih =>
        intro member
        rcases List.mem_append.mp member with member | member
        · exact ⟨q, List.mem_cons_self, member⟩
        · obtain ⟨p, within, member⟩ := ih member
          exact ⟨p, List.mem_cons_of_mem q within, member⟩
  cases ps with
  | nil => exact Or.inl (List.mem_singleton.mp member)
  | cons p ps =>
      have behind : e ∈ entriesOfAll ps → ∃ q ∈ p :: ps, ∃ parent', e ∈ q.entries parent' := by
        intro member
        obtain ⟨q, within, member⟩ := among ps member
        exact ⟨q, List.mem_cons_of_mem p within, none, member⟩
      rw [entriesWithin] at member
      split at member <;> simp only [List.cons_append, List.mem_append, List.mem_cons] at member
      · rcases member with member | rfl | member
        · exact Or.inr ⟨p, List.mem_cons_self, _, member⟩
        · exact Or.inl rfl
        · exact Or.inr (behind member)
      · rcases member with rfl | member | member
        · exact Or.inl rfl
        · exact Or.inr ⟨p, List.mem_cons_self, _, member⟩
        · exact Or.inr (behind member)

theorem Shaped.real {k : Kind} {parts : List Outline} (shaped : Shaped (.node k parts)) :
    k ≠ .tombstone := by
  rintro rfl
  cases shaped with
  | node _ _ symbols => exact absurd symbols (Language.notMem_zero _)

theorem Shaped.parts {k : Kind} {parts : List Outline} (shaped : Shaped (.node k parts)) :
    ∀ p ∈ parts, p.Shaped := by
  cases shaped with
  | node _ _ _ within => exact within

/-- The schema knows no node without a kind. -/
theorem Shaped.starts_real {o : Outline} (shaped : o.Shaped) {parent parent' : Option Nat}
    {k : Kind} (member : .start k parent' ∈ o.entries parent) : k ≠ .tombstone := by
  induction shaped generalizing parent with
  | token => simp [entries] at member
  | gap => simp [entries] at member
  | skipped why ks =>
      simp only [entries, List.cons_append, List.mem_cons, List.mem_append, List.mem_map] at member
      rcases member with same | ⟨-, -, different⟩ | different
      · cases same
        decide
      · cases different
      · simp at different
  | node k' parts symbols within ih =>
      rw [entries, List.mem_append] at member
      rcases member with member | different
      · rcases mem_entriesWithin member with same | ⟨p, inside, parent, member⟩
        · cases same
          exact (Shaped.node _ parts symbols within).real
        · exact ih p inside member
      · simp at different

end Outline
end ConfigSyntax
