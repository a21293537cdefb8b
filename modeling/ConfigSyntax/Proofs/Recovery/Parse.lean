import ConfigSyntax.Proofs.Comments.Siblings
import ConfigSyntax.Proofs.Recovery.Omissions
import ConfigSyntax.Proofs.Recovery.Runs
import ConfigSyntax.Proofs.Targets
import ConfigSyntax.Proofs.Unlimited

/-! Where reading goes on after an error: an error ends in front of the first token that its context
can be resumed at, groups apart. Main statement: `parse_resumes`. -/

namespace ConfigSyntax

open Grammar (resumes Halts)
open Outline (Lawful kindsBefore)
open Token (significant)

/-- The error holds tokens only, up to a token that its context can be resumed at or to the end of
the text. What it holds of such tokens is in a group, but for the first one where that is taken in
any case. A group that is not closed in it goes on to the end of the text. -/
structure Node.Resumes (text : String) (c : Context) (forced : Bool) (n : Node) : Prop where
  flat : n.children = []
  stops : ∃ t, tokenAt? text n.range.stop = some t ∧ (t.kind = .eof ∨ c.stopsAt t.kind = true)
  inside : ∀ front k back, kindsBefore n.tokens = front ++ k :: back → c.stopsAt k = true →
    front = [] ∧ forced = true ∨
      ∃ before opener middle, front = before ++ opener :: middle ∧ Unclosed opener middle ∧
        (c.stopsAt opener = false ∨ before = [] ∧ forced = true)
  whole : ∀ before opener middle, kindsBefore n.tokens = before ++ opener :: middle →
    Unclosed opener middle → ∀ t ∈ tokenAt? text n.range.stop, t.kind = .eof
  filled : forced = true → kindsBefore n.tokens ≠ []

def Node.OpenedBy (n : Node) (d : Diagnostic) : Prop :=
  ∃ t, (significant n.tokens).head? = some t ∧ d.range = t.range

namespace Grammar.Halts

variable {c : Context} {forced : Bool} {run rest : List Kind}

/-- The group that a token is in is opened by a token that the skip does not stop at. -/
theorem opener_of_inside (halts : Halts c forced run rest) {front back : List Kind} {k : Kind}
    (split : run = front ++ k :: back) (stops : c.stopsAt k = true) :
    front = [] ∧ forced = true ∨
      ∃ before opener middle, front = before ++ opener :: middle ∧ Unclosed opener middle ∧
        (c.stopsAt opener = false ∨ before = [] ∧ forced = true) := by
  refine (halts.inside front k back split stops).imp_right fun inside => ?_
  obtain ⟨before, opener, middle, rfl, start, unclosed, -⟩ := exists_opener inside
  refine ⟨before, opener, middle, rfl, unclosed, ?_⟩
  cases first : c.stopsAt opener with
  | false => exact Or.inl rfl
  | true =>
      -- No group is open where this one starts, so the skip would have stopped at its opener.
      rw [List.append_assoc, List.cons_append] at split
      rcases halts.inside before opener _ split first with lead | positive
      · exact Or.inr lead
      · omega

theorem rest_of_unclosed (halts : Halts c forced run rest) {before middle : List Kind}
    {opener : Kind} (split : run = before ++ opener :: middle)
    (unclosed : Unclosed opener middle) : rest = [] := by
  have positive := unclosed.openGroups_pos before
  rw [← split] at positive
  cases rest with
  | nil => rfl
  | cons k ks =>
      have closed := (halts.stops k rfl).2
      omega

end Grammar.Halts

section

variable {text : String} {n : Node} {m : Omission}

theorem kinds_of_kept (kept : m.Kept text.utf8ByteSize n)
    (taken : m.run <+: kindsBefore m.tokens) : kindsBefore n.tokens = m.run := by
  have own := Outline.tokens_of_stem kept.stem
  rw [Omission.origin, Outline.own_tokens] at own
  rw [kindsBefore, significant, own, List.map_take]
  exact (List.prefix_iff_eq_take.mp taken).symm

theorem stops_of_kept (kept : m.Kept text.utf8ByteSize n) (suffix : m.tokens <:+ lex text) :
    tokenAt? text n.range.stop = some (((significant m.tokens).drop m.run.length).headD
      (.endAt text.utf8ByteSize)) := by
  have place := Outline.place_of_stem kept.stem suffix
  rwa [Omission.origin, Outline.kindsOfAll_tokens] at place

/-- The kinds behind a skip are those of the tokens behind its error. -/
theorem kind_behind (kept : m.Kept text.utf8ByteSize n) (suffix : m.tokens <:+ lex text) :
    ∃ t, tokenAt? text n.range.stop = some t ∧
      t.kind = ((kindsBefore m.tokens).drop m.run.length).headD .eof := by
  refine ⟨_, stops_of_kept kept suffix, ?_⟩
  rw [kindsBefore, ← List.map_drop]
  cases (significant m.tokens).drop m.run.length <;> rfl

theorem resumes_of_halts {c : Context} {forced : Bool} (kept : m.Kept text.utf8ByteSize n)
    (suffix : m.tokens <:+ lex text) (taken : m.run <+: kindsBefore m.tokens)
    (halts : Halts c forced m.run ((kindsBefore m.tokens).drop m.run.length)) :
    n.Resumes text c forced := by
  have kinds := kinds_of_kept kept taken
  obtain ⟨t, behind, kind⟩ := kind_behind kept suffix
  refine ⟨?_, ⟨t, behind, ?_⟩, ?_, ?_, ?_⟩
  · rw [Node.children, Node.parts, kept.stem.trees, Omission.origin, Outline.growAll_tokens]
    exact Part.nodes_leaves _ _ _ _
  · cases rest : (kindsBefore m.tokens).drop m.run.length with
    | nil =>
        rw [rest] at kind
        exact Or.inl kind
    | cons k ks =>
        rw [rest] at kind halts
        rw [kind]
        exact Or.inr (halts.stops k rfl).1
  · rw [kinds]
    exact fun front k back split stops => halts.opener_of_inside split stops
  · rw [kinds]
    intro before opener middle split unclosed u same
    rw [halts.rest_of_unclosed split unclosed] at kind
    rw [behind] at same
    rw [← Option.some.inj same]
    exact kind
  · rw [kinds]
    exact halts.filled

theorem parent_of_kept (kept : m.Kept text.utf8ByteSize n) :
    ∃ p, n.parent? = some p ∧ p.kind = m.parent := by
  obtain ⟨f, first, kind⟩ := Option.map_eq_some_iff.mp kept.parent
  obtain ⟨above, list⟩ := List.head?_eq_some_iff.mp first
  refine ⟨⟨f, above⟩, ?_, kind⟩
  rw [Node.parent?, list]

/-- An error stops where its parent can go on, if it is not for the depth. -/
theorem resumes_of_kept (kept : m.Kept text.utf8ByteSize n) (lawful : Lawful resumes m)
    (suffix : m.tokens <:+ lex text) (shallow : m.why ≠ .tooDeep) :
    ∃ p c, n.parent? = some p ∧ p.kind.context? = some c ∧
      n.Resumes text c (!p.kind.takesValue) := by
  obtain ⟨p, parent, kind⟩ := parent_of_kept kept
  obtain ⟨suits, ⟨taken, halts⟩, -⟩ := lawful
  cases why : m.why with
  | unexpected c =>
      rw [why] at suits halts
      refine ⟨p, c, parent, by rw [kind]; exact suits.1, ?_⟩
      rw [kind, suits.2]
      exact resumes_of_halts kept suffix taken halts
  | noValue c =>
      rw [why] at suits halts
      refine ⟨p, c, parent, by rw [kind]; exact suits.1, ?_⟩
      rw [kind, suits.2]
      exact resumes_of_halts kept suffix taken halts
  | tooDeep => exact absurd why shallow

/-- What is told of a skip that takes some tokens is told at the first of them. -/
theorem first_of_kept (kept : m.Kept text.utf8ByteSize n)
    (taken : m.run <+: kindsBefore m.tokens) (filled : m.run ≠ []) :
    (significant n.tokens).head? = some (m.fault (.endAt text.utf8ByteSize)).token := by
  have own : significant n.tokens = (significant m.tokens).take m.run.length := by
    have own := Outline.tokens_of_stem kept.stem
    rwa [Omission.origin, Outline.own_tokens] at own
  rw [own, List.head?_take, if_neg (by simpa using filled)]
  cases tokens : significant m.tokens with
  | nil =>
      rw [kindsBefore, tokens] at taken
      exact absurd (List.prefix_nil.mp taken) filled
  | cons t ts =>
      rw [Omission.fault, tokens]
      rfl

end

section

variable {limits : Limits} {text : String} {n : Node} {m : Omission}

theorem fault_of_omission (member : m ∈ omissions limits text) :
    m.fault (.endAt text.utf8ByteSize) ∈ faults limits text := by
  have skips := List.mem_map_of_mem (f := (·.fault (.endAt text.utf8ByteSize))) member
  rw [← skips_of_faults] at skips
  exact List.mem_of_mem_filter skips

theorem exists_omission {f : Fault} (member : f ∈ faults limits text) (skip : f.isSkip = true) :
    ∃ m ∈ omissions limits text, m.fault (.endAt text.utf8ByteSize) = f := by
  have skips := List.mem_filter.mpr ⟨member, skip⟩
  rw [skips_of_faults] at skips
  exact List.mem_map.mp skips

theorem opened_of_deep (member : m ∈ omissions limits text) (kept : m.Kept text.utf8ByteSize n)
    (lawful : Lawful resumes m) (deep : m.why = .tooDeep) :
    ∃ d ∈ (parse limits text).diagnostics, d.code = .tooDeep ∧ n.OpenedBy d := by
  have cause : (m.fault (.endAt text.utf8ByteSize)).cause = .skipped .tooDeep := by
    rw [Omission.fault, deep]
  have told := Fault.diagnostic?_of_deep cause
  obtain ⟨taken, filled⟩ := lawful.skip
  rw [deep] at filled
  refine ⟨_, List.mem_filterMap.mpr ⟨_, fault_of_omission member, told⟩,
    Fault.code_eq_tooDeep.mpr cause, _, first_of_kept kept taken filled, rfl⟩

theorem exists_opened (obeys : ∀ m ∈ omissions limits text, Lawful resumes m) {d : Diagnostic}
    (member : d ∈ (parse limits text).diagnostics) (deep : d.code = .tooDeep) :
    ∃ n ∈ (fileNode limits text).descendants, n.kind = .error ∧ n.OpenedBy d := by
  obtain ⟨f, fault, told⟩ := List.mem_filterMap.mp member
  rw [Fault.diagnostic?_code told, Fault.code_eq_tooDeep] at deep
  obtain ⟨m, omitted, rfl⟩ := exists_omission fault (by rw [Fault.isSkip, deep])
  obtain ⟨n, error, kept⟩ := exists_of_mem_right (errors_of_text limits text) omitted
  obtain ⟨present, kind⟩ := List.mem_filter.mp error
  obtain ⟨taken, filled⟩ := (obeys m omitted).skip
  rw [Fault.Cause.skipped.inj deep] at filled
  exact ⟨n, present, of_decide_eq_true kind, _, first_of_kept kept taken filled,
    Fault.diagnostic?_range told⟩

theorem eq_of_opened {n' : Node} {d : Diagnostic} (present : n ∈ (fileNode limits text).descendants)
    (present' : n' ∈ (fileNode limits text).descendants) (opened : n.OpenedBy d)
    (opened' : n'.OpenedBy d) : n = n' := by
  obtain ⟨t, first, range⟩ := opened
  obtain ⟨t', first', range'⟩ := opened'
  have inside := List.mem_of_mem_filter (List.mem_of_head? first)
  have inside' := List.mem_of_mem_filter (List.mem_of_head? first')
  have offset : t.offset = t'.offset := congrArg Range.start (range.symm.trans range')
  obtain rfl := token_of_offset (List.mem_append_left _ (mem_lex present inside))
    (List.mem_append_left _ (mem_lex present' inside')) offset
  exact eq_of_mem_tokens present present' inside inside'

end

/-- Each error that no diagnostic for the depth opens stops where the context of its parent can be
resumed. A diagnostic for the depth opens one error. -/
theorem parse_resumes (limits : Limits) (text : String) :
    ∃ root : Node, Node.ofTree? (parse limits text).tree = some root ∧
      (∀ n ∈ root.descendants, n.kind = .error →
        (∀ d ∈ (parse limits text).diagnostics, d.code = .tooDeep → ¬ n.OpenedBy d) →
        ∃ p c, n.parent? = some p ∧ p.kind.context? = some c ∧
          n.Resumes text c (!p.kind.takesValue)) ∧
      ∀ d ∈ (parse limits text).diagnostics, d.code = .tooDeep →
        ∃! n, n ∈ root.descendants ∧ n.kind = .error ∧ n.OpenedBy d := by
  have lawful := lawful_of_text limits text (Grammar.resumes_outline limits (lex text))
  refine ⟨fileNode limits text, ofTree?_parse limits text, ?_, ?_⟩
  · intro n present error unopened
    obtain ⟨m, omitted, kept⟩ := exists_of_mem_left (errors_of_text limits text)
      (List.mem_filter.mpr ⟨present, decide_eq_true error⟩)
    obtain ⟨obeys, suffix⟩ := lawful m omitted
    apply resumes_of_kept kept obeys suffix
    intro deep
    obtain ⟨d, told, code, opened⟩ := opened_of_deep omitted kept obeys deep
    exact unopened d told code opened
  · intro d told deep
    obtain ⟨n, present, error, opened⟩ :=
      exists_opened (fun m omitted => (lawful m omitted).1) told deep
    exact ⟨n, ⟨present, error, opened⟩,
      fun n' others => eq_of_opened others.1 present others.2.2 opened⟩

end ConfigSyntax
