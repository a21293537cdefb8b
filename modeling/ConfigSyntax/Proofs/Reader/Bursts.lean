import ConfigSyntax.Proofs.Reader.Stream

/-! What the entries of an outline amount to one by one when they are assembled: the plain events of
the outline, in the same order. Main statements: `amounts_of_node`, `flatten_bursts`. -/

namespace ConfigSyntax

namespace Outline

mutual

/-- The events that each entry of an outline amounts to, where nodes of the kinds `above` are opened
around the outline, the outermost first. -/
def bursts (above : List Kind) : Outline → List (List Event)
  | .token _ => [[.token]]
  | .gap _ => []
  | .skipped _ ks => (above ++ [Kind.error]).map .start :: ks.map (fun _ => [.token]) ++ [[.finish]]
  | .node k parts => burstsWithin k above parts ++ [[.finish]]

/-- The start of a node that is opened around its first part amounts to nothing by itself. -/
def burstsWithin (k : Kind) (above : List Kind) : List Outline → List (List Event)
  | [] => [(above ++ [k]).map .start]
  | p :: ps =>
    if wraps k p then bursts (above ++ [k]) p ++ [] :: burstsOfAll ps
    else (above ++ [k]).map .start :: bursts [] p ++ burstsOfAll ps

def burstsOfAll : List Outline → List (List Event)
  | [] => []
  | p :: ps => bursts [] p ++ burstsOfAll ps

end

theorem burstsWithin_plain {k : Kind} {parts : List Outline}
    (plain : ∀ p ∈ parts.head?, wraps k p = false) (above : List Kind) :
    burstsWithin k above parts = (above ++ [k]).map .start :: burstsOfAll parts := by
  cases parts with
  | nil => rfl
  | cons p ps => simp [burstsWithin, burstsOfAll, plain p rfl]

mutual

theorem flatten_bursts : ∀ (o : Outline) (above : List Kind), (above ≠ [] → o.kind?.isSome) →
    (o.bursts above).flatten = above.map Event.start ++ o.events
  | .token _, [], _ => rfl
  | .token _, k :: ks, around => absurd (around (List.cons_ne_nil k ks)) Bool.false_ne_true
  | .gap _, [], _ => rfl
  | .gap _, k :: ks, around => absurd (around (List.cons_ne_nil k ks)) Bool.false_ne_true
  | .skipped _ ks, above, _ => by
      simp [bursts, events]
  | .node k parts, above, _ => by
      simp [bursts, events, flatten_burstsWithin k above parts]

theorem flatten_burstsWithin (k : Kind) (above : List Kind) : ∀ ps : List Outline,
    (burstsWithin k above ps).flatten = above.map .start ++ .start k :: eventsOfAll ps
  | [] => by simp [burstsWithin, eventsOfAll]
  | p :: ps => by
      have more := flatten_burstsOfAll ps
      rw [burstsWithin]
      split
      case isTrue around =>
        obtain ⟨k', node⟩ := kind?_of_wraps around
        have inner := flatten_bursts p (above ++ [k]) fun _ => by simp [node]
        simp [inner, more, eventsOfAll]
      case isFalse =>
        have first := flatten_bursts p [] nofun
        simp [first, more, eventsOfAll]

theorem flatten_burstsOfAll : ∀ ps : List Outline, (burstsOfAll ps).flatten = eventsOfAll ps
  | [] => rfl
  | p :: ps => by
      have first := flatten_bursts p [] nofun
      simp [burstsOfAll, eventsOfAll, first, flatten_burstsOfAll ps]

end

mutual

theorem tokens_events : ∀ o : Outline, o.events.count .token = o.kinds.length
  | .token _ => rfl
  | .gap _ => rfl
  | .skipped _ ks => by simp [events, kinds, List.map_const']
  | .node k parts => by simp [events, kinds, tokens_eventsOfAll parts]

theorem tokens_eventsOfAll :
    ∀ ps : List Outline, (eventsOfAll ps).count .token = (kindsOfAll ps).length
  | [] => rfl
  | p :: ps => by simp [eventsOfAll, kindsOfAll, tokens_events p, tokens_eventsOfAll ps]

end

end Outline

namespace Assembly

open Outline (kindsOfAll)

/-- What the `n` entries from `idx` on amount to one by one, and the stream after them. -/
def fire : Nat → Nat → List Entry → Option (List (List Event) × List Entry)
  | _, 0, es => some ([], es)
  | idx, n + 1, es => do
    let now ← events es idx
    let more ← fire (idx + 1) n now.2
    some (now.1 :: more.1, more.2)

theorem fire_add (idx m n : Nat) (es : List Entry) : fire idx (m + n) es =
    (fire idx m es).bind fun front => (fire (idx + m) n front.2).map fun back =>
      (front.1 ++ back.1, back.2) := by
  induction m generalizing idx es with
  | zero => simp [fire]
  | succ m ih =>
      rw [Nat.add_right_comm, fire, fire]
      cases events es idx with
      | none => rfl
      | some now =>
          have next : idx + 1 + m = idx + (m + 1) := by omega
          simp only [Option.bind_eq_bind, Option.bind_some, ih, Option.bind_assoc, next]
          cases fire (idx + 1) m now.2 with
          | none => rfl
          | some front => cases h : fire (idx + (m + 1)) n front.2 <;> simp [h]

theorem length_fire {idx n : Nat} {es es' : List Entry} {bs : List (List Event)}
    (fired : fire idx n es = some (bs, es')) : bs.length = n := by
  induction n generalizing idx es bs with
  | zero =>
      cases fired
      rfl
  | succ n ih =>
      simp only [fire, Option.bind_eq_bind, Option.bind_eq_some_iff] at fired
      obtain ⟨now, -, more, fired, same⟩ := fired
      cases same
      simp [ih fired]

theorem foldlM_step (idx n : Nat) (a : Assembly) (es : List Entry) :
    (List.range' idx n).foldlM step (a, es) =
      (fire idx n es).bind fun fired =>
        (fired.1.flatten.foldlM apply a).map fun a' => (a', fired.2) := by
  induction n generalizing idx a es with
  | zero => rfl
  | succ n ih =>
      rw [List.range'_succ, List.foldlM_cons, step, fire]
      cases events es idx with
      | none => rfl
      | some now =>
          simp only [Option.bind_eq_bind, Option.bind_some]
          cases applied : now.1.foldlM apply a with
          | none => cases fire (idx + 1) n now.2 <;> simp [applied]
          | some a' => cases rest : fire (idx + 1) n now.2 <;> simp [ih, applied, rest]

/-- The entries behind `pre` amount to `bs`, and afterwards what follows them is `post'`. -/
def Fires (pre es post : List Entry) (bs : List (List Event)) (post' : List Entry) : Prop :=
  fire pre.length es.length (pre ++ es ++ post) =
    some (bs, pre ++ List.replicate es.length .blank ++ post')

namespace Fires

variable {pre a b b' post post' post'' : List Entry} {bs cs : List (List Event)}

theorem nil (pre post : List Entry) : Fires pre [] post [] post := by simp [Fires, fire]

/-- The entries that follow may be opened before it is their turn. -/
theorem append (first : Fires pre a (b ++ post) bs (b' ++ post')) (same : b'.length = b.length)
    (second : Fires (pre ++ List.replicate a.length .blank) b' post' cs post'') :
    Fires pre (a ++ b) post (bs ++ cs) post'' := by
  unfold Fires at first second ⊢
  rw [List.length_append, List.length_replicate] at second
  rw [List.length_append, fire_add, ← List.append_assoc, List.append_assoc (pre ++ a), first,
    ← same, Option.bind_some]
  simp only [← List.append_assoc] at second ⊢
  rw [second]
  simp

theorem one {e : Entry} {now : List Event} (fired : events (pre ++ e :: post) pre.length =
    some (now, pre ++ .blank :: post')) : Fires pre [e] post [now] post' := by
  simp [Fires, fire, fired]

end Fires

section

variable (pre post : List Entry)

theorem getElem?_middle (e : Entry) : (pre ++ e :: post)[pre.length]? = some e := by simp

theorem set_middle (e e' : Entry) : (pre ++ e :: post).set pre.length e' = pre ++ e' :: post := by
  simp

theorem fires_token : Fires pre [.token] post [[.token]] post :=
  .one (by simp [events])

theorem fires_finish : Fires pre [.finish] post [[.finish]] post :=
  .one (by simp [events])

theorem fires_blank : Fires pre [.blank] post [[]] post :=
  .one (by simp [events, Entry.blank])

/-- The nodes around a start are opened in front of it, the outermost first. -/
theorem fires_start {k : Kind} {parent : Option Nat} {above : List Kind} {post' : List Entry}
    (real : k ≠ .tombstone) (reals : ∀ k ∈ above, k ≠ .tombstone)
    (climbs : Entry.parents pre.length parent (pre ++ .blank :: post) =
      some (above.reverse, pre ++ .blank :: post')) :
    Fires pre [.start k parent] post [(above ++ [k]).map .start] post' := by
  have known : (above ++ [k]).filter (· ≠ .tombstone) = above ++ [k] := by
    rw [List.filter_eq_self]
    intro k' member
    rcases List.mem_append.mp member with member | same
    · exact decide_eq_true (reals k' member)
    · rw [List.mem_singleton.mp same]
      exact decide_eq_true real
  apply Fires.one
  simp only [events, getElem?_middle, set_middle, Option.bind_eq_bind, Option.bind_some, real,
    false_and, if_false, climbs, List.reverse_cons, List.reverse_reverse, known]

end

/-- The nodes around the start at `head` among `n` entries behind `pre` are of the kinds `above`,
the outermost first, and their starts are in `post`. -/
def Climbs (pre : List Entry) (n head : Nat) (parent : Option Nat) (post : List Entry)
    (above : List Kind) (post' : List Entry) : Prop :=
  ∀ mid : List Entry, mid.length = n →
    Entry.parents (pre.length + head) parent (pre ++ mid ++ post) =
      some (above.reverse, pre ++ mid ++ post')

theorem climbs_none (pre : List Entry) (n head : Nat) (post : List Entry) :
    Climbs pre n head none post [] post := by
  intro mid _
  rw [Entry.parents_none]
  rfl

/-- From the first part of a node that is opened around it, the way up goes through its start. -/
theorem Climbs.inner {pre : List Entry} {p : Outline} {k k' : Kind} {parent : Option Nat}
    {inside post post' : List Entry} {above : List Kind} (node : p.kind? = some k')
    (climbs : Climbs pre (p.size + 1 + inside.length) p.size parent post above post') :
    Climbs pre p.size p.head (some p.distance) (.start k parent :: inside ++ post) (above ++ [k])
      (.blank :: inside ++ post') := by
  intro mid length
  have there : pre.length + p.head + p.distance = (pre ++ mid).length := by
    have := Outline.head_lt_size node
    rw [List.length_append, length, Outline.distance]
    omega
  have up := climbs (mid ++ .blank :: inside) (by simp [length]; omega)
  rw [← length, ← List.length_append, ← List.append_assoc, List.append_assoc _ _ post,
    List.append_assoc _ _ post'] at up
  have start :
      (pre ++ mid ++ (.start k parent :: inside ++ post))[pre.length + p.head + p.distance]? =
        some (.start k parent) := by
    rw [there]
    exact getElem?_middle ..
  rw [Entry.parents_some start, there, List.cons_append, set_middle]
  simp only [List.cons_append] at up
  rw [up]
  simp

open Outline (bursts burstsWithin burstsOfAll entries entriesWithin entriesOfAll Shaped)

theorem fires_tokens (pre post : List Entry) (n : Nat) :
    Fires pre (List.replicate n .token) post (List.replicate n [.token]) post := by
  induction n generalizing pre with
  | zero => exact .nil pre post
  | succ n ih => exact (fires_token pre _).append rfl (ih _)

/-- At the first of some entries there is no way to climb but through those behind them. -/
theorem Climbs.first {pre post post' : List Entry} {parent : Option Nat} {above : List Kind}
    {n : Nat} (climbs : Climbs pre n 0 parent post above post') (rest : List Entry)
    (length : rest.length + 1 = n) :
    Entry.parents pre.length parent (pre ++ .blank :: (rest ++ post)) =
      some (above.reverse, pre ++ .blank :: (rest ++ post')) := by
  have up := climbs (.blank :: rest) length
  simpa using up

def Amounts (o : Outline) : Prop :=
  ∀ (parent : Option Nat) (above : List Kind) (pre post post' : List Entry),
    (∀ k ∈ above, k ≠ .tombstone) → Climbs pre o.size o.head parent post above post' →
      Fires pre (o.entries parent) post (o.bursts above) post'

theorem amounts_skipped (why : Skip) (ks : List Kind) : Amounts (.skipped why ks) := by
  intro parent above pre post post' reals climbs
  have opened := fires_start (k := .error) pre _ (by decide) reals
    (climbs.first (List.replicate ks.length .token ++ [.finish]) (by simp [Outline.size]))
  have inside := (fires_tokens (pre ++ [.blank]) ([.finish] ++ post') ks.length).append rfl
    (fires_finish _ post')
  simpa [Outline.entries, Outline.bursts, List.map_const'] using opened.append rfl inside

section

variable {k : Kind} (real : k ≠ .tombstone)

include real

theorem amounts_plain {parts : List Outline}
    (plain : ∀ p ∈ parts.head?, Outline.wraps k p = false)
    (inside : ∀ pre post, Fires pre (entriesOfAll parts) post (burstsOfAll parts) post) :
    Amounts (.node k parts) := by
  intro parent above pre post post' reals climbs
  rw [Outline.head_plain plain] at climbs
  have opened := fires_start pre _ real reals
    (climbs.first (entriesOfAll parts ++ [.finish])
      (by simp [Outline.size, Outline.length_entriesOfAll]))
  have rest (pre : List Entry) := (inside pre _).append rfl (fires_finish _ post')
  have all := opened.append rfl (rest _)
  simpa [Outline.entries, Outline.bursts, Outline.entriesWithin_plain plain,
    Outline.burstsWithin_plain plain] using all

theorem amounts_around {p : Outline} {ps : List Outline} (around : Outline.wraps k p = true)
    (inner : Amounts p)
    (inside : ∀ pre post, Fires pre (entriesOfAll ps) post (burstsOfAll ps) post) :
    Amounts (.node k (p :: ps)) := by
  intro parent above pre post post' reals climbs
  obtain ⟨k', node⟩ := Outline.kind?_of_wraps around
  have known : ∀ k' ∈ above ++ [k], k' ≠ .tombstone := by
    intro k' member
    rcases List.mem_append.mp member with member | same
    · exact reals k' member
    · exact List.mem_singleton.mp same ▸ real
  have size : (Outline.node k (p :: ps)).size =
      p.size + 1 + (entriesOfAll ps ++ [Entry.finish]).length := by
    simp [Outline.size, Outline.sizeOfAll, Outline.length_entriesOfAll]
    omega
  rw [size, Outline.head, if_pos around] at climbs
  have first := inner _ _ pre _ _ known (climbs.inner node)
  have more (pre : List Entry) := (inside pre _).append rfl (fires_finish _ post')
  have rest (pre : List Entry) := (fires_blank pre _).append rfl (more _)
  have all := first.append (by simp) (rest _)
  simpa [Outline.entries, Outline.bursts, entriesWithin, burstsWithin, around] using all

end

mutual

theorem amounts_of_node : ∀ (o : Outline), o.Shaped → o.kind?.isSome → Amounts o
  | .token _, _, node => absurd node Bool.false_ne_true
  | .gap _, _, node => absurd node Bool.false_ne_true
  | .skipped why ks, _, _ => amounts_skipped why ks
  | .node k [], shaped, _ => amounts_plain shaped.real (by simp) fun pre post => .nil pre post
  | .node k (p :: ps), shaped, _ => by
      have parts := fires_entriesOfAll (p :: ps) shaped.parts
      by_cases around : Outline.wraps k p = true
      · obtain ⟨k', node⟩ := Outline.kind?_of_wraps around
        have inner := amounts_of_node p (shaped.parts p List.mem_cons_self) (by simp [node])
        have rest := fires_entriesOfAll ps fun q member =>
          shaped.parts q (List.mem_cons_of_mem p member)
        exact amounts_around shaped.real around inner rest
      · exact amounts_plain shaped.real (by simpa using around) parts

theorem fires_entriesOfAll : ∀ (ps : List Outline), (∀ p ∈ ps, p.Shaped) →
    ∀ (pre post : List Entry), Fires pre (entriesOfAll ps) post (burstsOfAll ps) post
  | [], _, pre, post => .nil pre post
  | p :: ps, shaped, pre, post => by
      have more := fires_entriesOfAll ps fun q member => shaped q (List.mem_cons_of_mem p member)
      have first : Fires pre (p.entries none) (entriesOfAll ps ++ post) (p.bursts [])
          (entriesOfAll ps ++ post) := by
        cases node : p.kind? with
        | some k =>
            have amounts := amounts_of_node p (shaped p List.mem_cons_self) (by simp [node])
            exact amounts none [] pre _ _ (by simp) (climbs_none _ _ _ _)
        | none =>
            cases p with
            | token k => exact fires_token ..
            | gap g => exact .nil ..
            | _ => cases node
      exact first.append rfl (more _ post)

end

end Assembly
end ConfigSyntax
