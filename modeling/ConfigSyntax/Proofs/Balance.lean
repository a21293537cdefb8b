import ConfigSyntax.Proofs.Lossless
import ConfigSyntax.Proofs.Skips

/-! Where the braces and parentheses of a text are properly nested, reading keeps them together,
whatever else is wrong. Main statement: `parse_respects_delimiters`. -/

namespace ConfigSyntax

open Outline (Law ObeysAll Skips Stems originsOfAll kindsOfAll kindsBefore)
open Token (significant)

theorem pending_filter {p : Kind → Bool} (plain : ∀ k, p k = false → k.isDelimiter = false)
    (stack ks : List Kind) : pending stack (ks.filter p) = pending stack ks := by
  induction ks generalizing stack with
  | nil => rfl
  | cons k ks ih =>
      cases kept : p k with
      | false => rw [List.filter_cons_of_neg (by simp [kept]), ih, pending_plain (plain k kept)]
      | true =>
          rw [List.filter_cons_of_pos kept]
          simp only [pending, ih]

theorem Kind.plain_of_trivia {k : Kind} (blank : (!k.isTrivia) = false) :
    k.isDelimiter = false := by
  cases k <;> first | rfl | cases blank

theorem nested_filter (ks : List Kind) : Nested (ks.filter (!·.isTrivia)) ↔ Nested ks := by
  rw [Nested, pending_filter fun _ => Kind.plain_of_trivia, Nested]

def Outline.Settled : Outline → Prop
  | .token _ => True
  | .gap g => ∀ group, g ≠ .closer group
  | .skipped _ run => Nested run
  | .node _ parts => Nested (kindsOfAll parts)

def settles : Law where
  node _ parts := Nested (kindsOfAll parts) ∧ ∀ p ∈ parts, p.Settled
  gap g := ∀ group, g ≠ .closer group
  skip why run _ := Nested run ∧ ∀ c, why = .unexpected c → run ≠ []

namespace Outline

theorem settled_of_obeys {ps : List Outline} {ks : List Kind} (obeys : ObeysAll settles ps ks) :
    ∀ p ∈ ps, p.Settled := by
  induction ps generalizing ks with
  | nil => nofun
  | cons p ps ih =>
      intro q member
      rcases List.mem_cons.mp member with rfl | member
      · have first := obeys.1
        cases q with
        | token k => trivial
        | gap g => exact first
        | skipped why run => exact first.1
        | node k parts => exact first.2.1.1
      · exact ih obeys.2 q member

/-- No part is a delimiter, so that what is inside the parts closes all that it opens. -/
theorem nested_of_settled {ps : List Outline} (settled : ∀ p ∈ ps, p.Settled)
    (plain : ∀ k, .token k ∈ ps → k.isDelimiter = false) : Nested (kindsOfAll ps) := by
  induction ps with
  | nil => exact .nil
  | cons p ps ih =>
      have first : Nested p.kinds := by
        have settled := settled p List.mem_cons_self
        cases p with
        | token k => exact .plain (plain k List.mem_cons_self)
        | gap g => exact .nil
        | skipped why run => exact settled
        | node k parts => exact settled
      exact first.append (ih (fun q member => settled q (List.mem_cons_of_mem p member))
        fun k member => plain k (List.mem_cons_of_mem p member))

end Outline

namespace Grammar

/-- The closer that is awaited next, if one is, stops the skips of the context. -/
def Awaits (c : Context) (stack : List Kind) : Prop :=
  ∀ k ∈ stack.head?, k.isCloser = true ∧ c.stopsAt k = true

theorem awaits_nil (c : Context) : Awaits c [] := nofun

theorem awaits_closer (g : Group) (stack : List Kind) : Awaits g.context (g.closer :: stack) := by
  intro k first
  rw [← Option.some.inj first]
  exact ⟨g.isCloser_closer, by cases g <;> rfl⟩

/-- A skip starts at no closer: the awaited one would have ended the list before it. -/
theorem not_closer_of_awaits {c : Context} {k : Kind} {stack ks : List Kind}
    (inside : c.stopsAt k = true → k.isCloser = false) (awaits : Awaits c stack)
    (closed : pending stack (k :: ks) = some []) : k.isCloser = false := by
  cases closes : k.isCloser with
  | false => rfl
  | true =>
      obtain ⟨below, rfl, -⟩ := pending_closer_eq_some closes closed
      rw [← closes]
      exact inside (awaits k rfl).2

theorem stops_of_assigned {c : Context} (assigned : c ∈ [.propertyValue, .variableDeclaration])
    {k : Kind} (closes : k.isCloser = true) : c.stopsAt k = true := by
  simp only [List.mem_cons, List.not_mem_nil, or_false] at assigned
  revert closes
  rcases assigned with rfl | rfl <;> cases k <;> decide

theorem closing_of_awaited {g : Group} {stack mid : List Kind}
    (ends : ∀ k ∈ mid.head?, k ∈ g.ends) (awaited : pending (g.closer :: stack) mid = some []) :
    ∃ rest, mid = g.closer :: rest ∧ closing g mid = ([.token g.closer], rest) := by
  cases mid with
  | nil => cases awaited
  | cons k rest =>
      have closes : ∀ k ∈ g.ends, k.isCloser = true := by cases g <;> decide
      obtain ⟨below, top, -⟩ := pending_closer_eq_some (closes k (ends k rfl)) awaited
      obtain ⟨rfl, -⟩ := List.cons.inj top
      exact ⟨rest, rfl, if_pos rfl⟩

/-- Whatever the grammar builds of kinds where all that is awaited is closed closes what it opens,
and leaves the rest to what awaits it. -/
theorem Builds.settles {c : Context} {ks rest : List Kind} {parts : List Outline}
    (builds : Builds c ks parts rest) {stack : List Kind} (awaits : Awaits c stack)
    (closed : pending stack ks = some []) :
    Nested (kindsOfAll parts) ∧ ObeysAll settles parts ks := by
  induction builds generalizing stack with
  | nil => exact ⟨.nil, trivial⟩
  | token plain => exact ⟨.plain plain, Outline.obeysAll_singleton.mpr trivial⟩
  | gap other => exact ⟨.nil, Outline.obeysAll_singleton.mpr other⟩
  | append first _ front back =>
      obtain ⟨nested, lawful⟩ := front awaits closed
      rw [← first.split, nested.pending_append] at closed
      obtain ⟨nested', lawful'⟩ := back awaits closed
      rw [Outline.kindsOfAll_append]
      exact ⟨nested.append nested', Outline.obeysAll_append first.split lawful lawful'⟩
  | node other _ inside =>
      obtain ⟨nested, lawful⟩ := inside awaits closed
      rw [Outline.kindsOfAll_singleton]
      exact ⟨nested, Outline.obeysAll_singleton.mpr
        ⟨other.1, ⟨nested, Outline.settled_of_obeys lawful⟩, lawful⟩⟩
  | @group c ks mid items g inside ends within =>
      rw [pending_opener g.partner?_opener] at closed
      obtain ⟨nested, lawful⟩ := within (awaits_closer g stack) closed
      rw [← inside.split, nested.pending_append] at closed
      obtain ⟨rest, rfl, close⟩ := closing_of_awaited ends closed
      have split : kindsOfAll (.token g.opener :: items) ++ g.closer :: rest = g.opener :: ks := by
        rw [← inside.split]
        rfl
      rw [close]
      constructor
      · rw [Outline.kindsOfAll_append]
        exact nested.group g
      · exact Outline.obeysAll_append split ⟨trivial, lawful⟩
          (Outline.obeysAll_singleton.mpr trivial)
  | @recover c k ks inside =>
      have inner := not_closer_of_awaits inside awaits closed
      have nested := nested_recover c.stopsAt inner (fun k first => (awaits k first).2) closed
      rw [Outline.kindsOfAll_singleton]
      exact ⟨nested, Outline.obeysAll_singleton.mpr ⟨nested, fun _ _ => nofun⟩⟩
  | @slot c ks c' assigned =>
      have nested : Nested (ks.take (skipLength c'.stopsAt 0 ks)) :=
        pending_skip [] (fun k first => stops_of_assigned assigned (awaits k first).1) closed
      rw [Outline.kindsOfAll_singleton]
      exact ⟨nested, Outline.obeysAll_singleton.mpr ⟨nested, nofun⟩⟩
  | tooDeep =>
      have nested := nested_construct closed
      rw [Outline.kindsOfAll_singleton]
      exact ⟨nested, Outline.obeysAll_singleton.mpr ⟨nested, nofun⟩⟩

end Grammar

theorem settles_outline (limits : Limits) {tokens : List Token}
    (nested : Nested (kindsBefore tokens)) :
    ObeysAll settles (outline limits tokens) (kindsBefore tokens) :=
  ((Grammar.file_builds limits.maxDepth (kindsBefore tokens)).settles
    (Grammar.awaits_nil _) nested).2

namespace Symbol

def isDelimiter : Symbol → Bool
  | .token k => k.isDelimiter
  | _ => false

end Symbol

namespace Schema

open scoped Computability

theorem split_group {l : Language Symbol} {g : Group} (plain : Over (·.isDelimiter = false) l)
    {w : List Symbol} (member : w ∈ l * group gap g) (closed : .gap (.closer g) ∉ w) :
    ∃ front items, w = front ++ .token g.opener :: items ++ [.token g.closer] ∧
      (∀ s ∈ front, s.isDelimiter = false) ∧ ∀ s ∈ items, s.isDelimiter = false := by
  have between : Over (·.isDelimiter = false) (construct g.holds * (1 + token .comma))∗ :=
    over_items _ (fun _ _ _ => rfl) rfl
  obtain ⟨front, first, rest, ⟨middle, ⟨o, same, items, second, rfl⟩, last, third, rfl⟩, rfl⟩ :=
    member
  obtain rfl : o = [.token g.opener] := same
  rcases third with closer | missing
  · obtain rfl : last = [.token g.closer] := closer
    exact ⟨front, items, by simp, plain front first, between items second⟩
  · obtain rfl : last = [.gap (.closer g)] := missing
    exact absurd (by simp) closed

def grouped : List Kind := [.object, .contextBlock, .invocationExpression]

theorem split_production {k : Kind} {w : List Symbol} (member : w ∈ production gap k)
    (holds : k ∈ grouped) (closed : ∀ g, .gap (.closer g) ∉ w) :
    ∃ (g : Group) (front items : List Symbol),
      w = front ++ .token g.opener :: items ++ [.token g.closer] ∧
      (∀ s ∈ front, s.isDelimiter = false) ∧ ∀ s ∈ items, s.isDelimiter = false := by
  have nodes (ks : List Kind) : Over (·.isDelimiter = false) (nodeOf ks) :=
    over_nodeOf fun _ _ _ => rfl
  simp only [grouped, List.mem_cons, List.not_mem_nil, or_false] at holds
  rcases holds with rfl | rfl | rfl
  · exact ⟨.object, split_group (over_add over_one (nodes _)) member (closed _)⟩
  · exact ⟨.contextBlock, split_group (over_contextNames (fun _ => rfl) rfl) member (closed _)⟩
  · exact ⟨.arguments, split_group (nodes _) member (closed _)⟩

end Schema

namespace Outline

theorem eq_token_of_symbol {o : Outline} {k : Kind} (same : o.symbol = .token k) :
    o = .token k := by
  cases o with
  | token k' =>
      cases same
      rfl
  | _ => cases same

theorem plain_of_symbols {ps : List Outline}
    (plain : ∀ s ∈ ps.map symbol, s.isDelimiter = false) {k : Kind} (member : .token k ∈ ps) :
    k.isDelimiter = false := plain _ (List.mem_map_of_mem member)

theorem own_plain {ps : List Outline} {ts : List Token}
    (plain : ∀ s ∈ ps.map symbol, s.isDelimiter = false)
    (fits : kindsOfAll ps <+: ts.map (·.kind)) :
    (own ps ts).filter (·.kind.isDelimiter) = [] := by
  rw [List.filter_eq_nil_iff]
  intro t member
  rw [plain_of_symbols plain (mem_own fits member)]
  exact Bool.false_ne_true

theorem parts_of_grouped {parts : List Outline} {k : Kind}
    (symbols : parts.map symbol ∈ Schema.production Schema.gap k)
    (settled : ∀ p ∈ parts, p.Settled) (holds : k ∈ Schema.grouped) :
    ∃ (g : Group) (front items : List Outline),
      parts = front ++ .token g.opener :: items ++ [.token g.closer] ∧
      (∀ s ∈ front.map symbol, s.isDelimiter = false) ∧
      ∀ s ∈ items.map symbol, s.isDelimiter = false := by
  have closed : ∀ g, .gap (.closer g) ∉ parts.map symbol := by
    intro g missing
    obtain ⟨p, member, same⟩ := List.mem_map.mp missing
    cases p with
    | gap g' =>
        cases same
        exact settled _ member g rfl
    | _ => cases same
  obtain ⟨g, _, _, word, before, between⟩ := Schema.split_production symbols holds closed
  obtain ⟨_, last, rfl, word', isCloser⟩ := List.map_eq_append_iff.mp word
  obtain ⟨front, _, rfl, rfl, word''⟩ := List.map_eq_append_iff.mp word'
  obtain ⟨o, items, rfl, isOpener, rfl⟩ := List.map_eq_cons_iff.mp word''
  obtain ⟨c, rfl, closes⟩ := List.map_eq_singleton_iff.mp isCloser
  obtain rfl := eq_token_of_symbol isOpener
  obtain rfl := eq_token_of_symbol closes
  exact ⟨g, front, items, rfl, before, between⟩

/-- The tokens fall apart as the parts do. -/
theorem tokens_of_group {g : Group} {front items : List Outline} {ts : List Token}
    (fits : kindsOfAll (front ++ .token g.opener :: items ++ [.token g.closer]) <+:
      ts.map (·.kind)) :
    ∃ before opener inner closer back, ts = before ++ opener :: (inner ++ closer :: back) ∧
      before.map (·.kind) = kindsOfAll front ∧ opener.kind = g.opener ∧
      inner.map (·.kind) = kindsOfAll items ∧ closer.kind = g.closer := by
  obtain ⟨more, kinds⟩ := fits
  simp only [kindsOfAll_append, kindsOfAll, Outline.kinds, List.append_assoc, List.cons_append,
    List.nil_append] at kinds
  obtain ⟨before, _, rfl, first, kinds⟩ := List.map_eq_append_iff.mp kinds.symm
  obtain ⟨opener, _, rfl, opens, kinds⟩ := List.map_eq_cons_iff.mp kinds
  obtain ⟨inner, _, rfl, second, kinds⟩ := List.map_eq_append_iff.mp kinds
  obtain ⟨closer, back, rfl, closes, -⟩ := List.map_eq_cons_iff.mp kinds
  exact ⟨before, opener, inner, closer, back, rfl, first, opens, second, closes⟩

/-- The delimiters of a node that holds a group are the first and the last of that group. -/
theorem own_group {parts : List Outline} {k : Kind} {ts : List Token}
    (symbols : parts.map symbol ∈ Schema.production Schema.gap k)
    (fits : kindsOfAll parts <+: ts.map (·.kind)) (settled : ∀ p ∈ parts, p.Settled)
    (holds : k ∈ Schema.grouped) :
    ∃ opener closer front inner back, ts = front ++ opener :: (inner ++ closer :: back) ∧
      (own parts ts).filter (·.kind.isDelimiter) = [opener, closer] ∧
      opener.kind.partner? = some closer.kind ∧ Nested (inner.map (·.kind)) := by
  obtain ⟨g, front, items, rfl, before, between⟩ := parts_of_grouped symbols settled holds
  obtain ⟨lead, opener, inner, closer, back, rfl, first, opens, second, closes⟩ :=
    tokens_of_group fits
  have nested : Nested (kindsOfAll items) := by
    refine nested_of_settled (fun p member => settled p (by simp [member])) fun k member => ?_
    exact plain_of_symbols between member
  refine ⟨opener, closer, lead, inner, back, rfl, ?_, ?_, second ▸ nested⟩
  · have own : own (front ++ .token g.opener :: items ++ [.token g.closer])
        (lead ++ opener :: (inner ++ closer :: back)) =
          own front (lead ++ opener :: (inner ++ closer :: back)) ++
            (opener :: own items (inner ++ closer :: back) ++ [closer]) := by
      rw [List.append_assoc, own_append, ← first, List.length_map, List.drop_left]
      change _ ++ (opener :: own (items ++ [.token g.closer]) (inner ++ closer :: back)) = _
      rw [own_append, ← second, List.length_map, List.drop_left]
      rfl
    have delimiters (g : Group) : g.opener.isDelimiter = true ∧ g.closer.isDelimiter = true := by
      cases g <;> decide
    rw [own, List.filter_append, own_plain before ⟨_, by rw [List.map_append, first]⟩,
      List.nil_append, List.filter_append, List.filter_cons_of_pos (by simp [opens, delimiters]),
      own_plain between ⟨_, by rw [List.map_append, second]⟩,
      List.filter_cons_of_pos (by simp [closes, delimiters])]
    rfl
  · rw [opens, closes, g.partner?_opener]

/-- The leaves of the trees that parts grow are their tokens, with blanks between them. -/
theorem leaves_of_fits {ps : List Outline} {ts : List Token}
    (fits : kindsOfAll ps <+: kindsBefore ts) :
    ((Tree.leavesOfAll (growAll ps ts).1).map (·.1)).filter (!·.isTrivia) = kindsOfAll ps := by
  have kinds (ts : List Token) :
      ((Tree.leavesOfAll (Token.leaves ts)).map (·.1)).filter (!·.isTrivia) = kindsBefore ts := by
    rw [Tree.leavesOfAll_leaves, List.map_map, List.filter_map]
    rfl
  have whole := congrArg (fun leaves => (leaves.map (·.1)).filter (!·.isTrivia))
    (leaves_growAll ps ts)
  simp only [List.map_append, List.filter_append, kinds] at whole
  obtain ⟨more, split⟩ := fits
  have rest : kindsBefore (growAll ps ts).2 = more := by
    rw [kindsBefore, significant_growAll, List.map_drop]
    change (kindsBefore ts).drop _ = more
    rw [← split, List.drop_left]
  rw [rest, ← split] at whole
  exact List.append_cancel_right whole

end Outline

/-- The two tokens belong together: what is between them closes all that it opens. -/
structure Partners (text : String) (opener closer : Token) : Prop where
  kinds : opener.kind.partner? = some closer.kind
  between : ∃ front inner back, tokenize text = front ++ opener :: inner ++ closer :: back ∧
    Nested (inner.map (·.kind))

theorem split_of_significant {ts front inner back : List Token} {t u : Token}
    (split : significant ts = front ++ t :: (inner ++ u :: back)) :
    ∃ front inner' back, ts = front ++ t :: inner' ++ u :: back ∧ significant inner' = inner := by
  obtain ⟨first, _, rfl, -, split⟩ := List.filter_eq_append_iff.mp split
  obtain ⟨lead, _, rfl, -, -, split⟩ := List.filter_eq_cons_iff.mp split
  obtain ⟨second, _, rfl, same, split⟩ := List.filter_eq_append_iff.mp split
  obtain ⟨blanks, behind, rfl, blank, -, -⟩ := List.filter_eq_cons_iff.mp split
  refine ⟨first ++ lead, second ++ blanks, behind, by simp, ?_⟩
  have none : significant blanks = [] := List.filter_eq_nil_iff.mpr blank
  rw [Token.significant_append, none, List.append_nil]
  exact same

theorem nested_kinds (ts : List Token) : Nested (kindsBefore ts) ↔ Nested (ts.map (·.kind)) := by
  rw [← nested_filter (ts.map (·.kind)), List.filter_map]
  rfl

theorem nested_lex {text : String} (nested : Nested ((tokenize text).map (·.kind))) :
    Nested (kindsBefore (lex text)) := by
  have plain : ∀ k : Kind, decide (k ≠ .eof) = false → k.isDelimiter = false := by
    intro k
    cases k <;> first | exact fun _ => rfl | nofun
  have same : ((tokenize text).map (·.kind)).filter (· ≠ .eof) = (lex text).map (·.kind) := by
    rw [tokenize, List.map_append, List.filter_append, List.filter_eq_self.mpr]
    · exact List.append_nil _
    · intro k member
      obtain ⟨t, inside, rfl⟩ := List.mem_map.mp member
      exact decide_eq_true (lex_ne_eof text t inside)
  rw [nested_kinds, ← same, Nested, pending_filter plain]
  exact nested

namespace Outline

theorem partners_of_stem {text : String} {n : Node} {o : Origin}
    (stem : Stems text.utf8ByteSize n o) (sound : o.Sound) (settled : ∀ p ∈ o.parts, p.Settled)
    (suffix : o.tokens <:+ lex text) (holds : n.kind ∈ Schema.grouped) :
    ∃ opener closer, n.tokens.filter (·.kind.isDelimiter) = [opener, closer] ∧
      Partners text opener closer := by
  rw [stem.kind] at holds
  obtain ⟨opener, closer, front, inner, back, split, own, partner, nested⟩ :=
    own_group sound.symbols sound.fits settled holds
  refine ⟨opener, closer, ?_, partner, ?_⟩
  · have visible : n.tokens.filter (·.kind.isDelimiter) =
        (n.tokens.filter (!·.isTrivia)).filter (·.kind.isDelimiter) := by
      rw [List.filter_filter]
      apply List.filter_congr
      intro t _
      cases blank : !t.isTrivia with
      | true => rw [Bool.and_true]
      | false => rw [Kind.plain_of_trivia blank, Bool.and_false]
    rw [visible, tokens_of_stem stem, own]
  · obtain ⟨before, whole⟩ := suffix
    obtain ⟨front', inner', back', tokens, same⟩ := split_of_significant split
    refine ⟨before ++ front', inner', back' ++ [.endAt text.utf8ByteSize], ?_, ?_⟩
    · rw [tokenize, ← whole, tokens]
      simp
    · rw [← nested_kinds, kindsBefore, same]
      exact nested

end Outline

section

variable {limits : Limits} {text : String} (nested : Nested (kindsBefore (lex text)))

include nested

theorem nested_of_origin {o : Outline.Origin}
    (origin : o ∈ originsOfAll (outline limits (lex text)) (lex text)) :
    Nested (kindsOfAll o.parts) := by
  have lawful := settles_outline limits nested
  by_cases error : o.kind = .error
  · obtain ⟨fs, -, skips⟩ := skips_of_text limits text lawful
    obtain ⟨f, -, skip⟩ := exists_of_mem_right skips
      (List.mem_filter.mpr ⟨origin, decide_eq_true error⟩)
    obtain ⟨why, run, -, -, parts, inside, -⟩ := skip.lawful
    rw [parts, Outline.kindsOfAll_tokens]
    exact inside
  · exact (Outline.node_of_origin error _ lawful origin).1

theorem leaves_nested {n : Node} (member : n ∈ (fileNode limits text).descendants) :
    Nested ((Tree.leavesOfAll n.trees).map (·.1)) := by
  obtain ⟨nodes, list, stems⟩ := descendants_fileNode limits text
  rw [list] at member
  rcases List.mem_cons.mp member with rfl | member
  · rw [fileNode, Tree.leavesOfAll_append, Outline.leaves_growAll, Tree.leavesOfAll_leaves,
      List.map_map]
    exact (nested_kinds (lex text)).mp nested
  · obtain ⟨o, origin, stem⟩ := Outline.exists_origin stems member
    rw [← nested_filter, stem.trees,
      Outline.leaves_of_fits (sound_outline limits text o origin).fits]
    exact nested_of_origin nested origin

theorem partners_of_mem {n : Node} (member : n ∈ (fileNode limits text).descendants)
    (holds : n.kind ∈ Schema.grouped) :
    ∃ opener closer, n.tokens.filter (·.kind.isDelimiter) = [opener, closer] ∧
      Partners text opener closer := by
  obtain ⟨nodes, list, stems⟩ := descendants_fileNode limits text
  rw [list] at member
  rcases List.mem_cons.mp member with rfl | member
  · change Kind.file ∈ Schema.grouped at holds
    exact absurd holds (by decide)
  · obtain ⟨o, origin, stem⟩ := Outline.exists_origin stems member
    have other : o.kind ≠ .error := by
      intro error
      rw [stem.kind, error] at holds
      exact absurd holds (by decide)
    have settled := Outline.node_of_origin other _ (settles_outline limits nested) origin
    exact Outline.partners_of_stem stem (sound_outline limits text o origin) settled.2
      (Outline.originsOfAll_suffix _ _ o origin) holds

theorem not_unclosed {f : Fault} (fault : f ∈ faults limits text) :
    f.report.code ≠ .unclosedBrace ∧ f.report.code ≠ .unclosedParen := by
  cases gap : f.isGap with
  | false =>
      have present := (Fault.report_code f).1
      rw [gap] at present
      constructor <;> intro same <;> rw [same] at present <;> cases present
  | true =>
      obtain ⟨cause, t⟩ := f
      cases cause with
      | gap g opener =>
          have lawful := Outline.gap_of_fault _ none _ (settles_outline limits nested)
            (mem_faults_of_outline fault rfl)
          rw [Fault.report, Fault.gapDiagnostic_code]
          cases g with
          | closer group => exact absurd rfl (lawful group)
          | _ => decide
      | _ => cases gap

theorem not_closer {f : Fault} (fault : f ∈ faults limits text)
    (code : f.report.code = .unexpectedCloser) :
    f.token ∈ tokenize text ∧ f.token.kind.isCloser = false := by
  have skip : f.isSkip = true := by
    rw [← Fault.report_isRecovery, code]
    rfl
  obtain ⟨o, origin, pair⟩ := origin_of_skip (settles_outline limits nested) fault skip
  refine ⟨pair.token_mem (Outline.originsOfAll_suffix _ _ o origin), ?_⟩
  obtain ⟨why, run, cause, -, parts, inside, filled⟩ := pair.lawful
  have unexpected : ∃ c, why = .unexpected c := by
    obtain ⟨cause', t⟩ := f
    cases cause
    cases why with
    | unexpected c => exact ⟨c, rfl⟩
    | noValue c => cases code
    | tooDeep => cases code
  obtain ⟨c, rfl⟩ := unexpected
  obtain ⟨k, ks, rfl⟩ := List.exists_cons_of_ne_nil (filled c rfl)
  obtain ⟨more, split⟩ := (sound_outline limits text o origin).fits
  rw [parts, Outline.kindsOfAll_tokens] at split
  obtain ⟨t, ts, tokens, kind, -⟩ := List.map_eq_cons_iff.mp split.symm
  rw [pair.shown, tokens]
  change t.kind.isCloser = false
  rw [kind]
  exact inside.head_not_closer

end

/-- Where braces and parentheses are properly nested, none is missed and none is refused. A node
that holds a group holds the two that belong together, and what is inside any node, an error too, is
properly nested. -/
theorem parse_respects_delimiters (limits : Limits) {text : String}
    (nested : Nested ((tokenize text).map (·.kind))) :
    (∀ d ∈ (parse limits text).diagnostics,
      d.code ≠ .unclosedBrace ∧ d.code ≠ .unclosedParen ∧
        (d.code = .unexpectedCloser →
          ∀ t ∈ tokenize text, t.kind.isCloser = true → d.range.start ≠ t.offset)) ∧
      ∃ root : Node, Node.ofTree? (parse limits text).tree = some root ∧
        ∀ n ∈ root.descendants,
          (n.kind ∈ [.object, .contextBlock, .invocationExpression] →
            ∃ opener closer, n.tokens.filter (·.kind.isDelimiter) = [opener, closer] ∧
              Partners text opener closer) ∧
          Nested ((Tree.leavesOfAll n.trees).map (·.1)) := by
  have inside := nested_lex nested
  refine ⟨?_, fileNode limits text, ofTree?_parse limits text, fun n member =>
    ⟨partners_of_mem inside member, leaves_nested inside member⟩⟩
  intro d member
  obtain ⟨f, fault, told⟩ := List.mem_filterMap.mp member
  have code := Fault.diagnostic?_code told
  obtain ⟨brace, paren⟩ := not_unclosed inside fault
  refine ⟨code ▸ brace, code ▸ paren, fun unexpected t present closes place => ?_⟩
  obtain ⟨known, other⟩ := not_closer inside fault (code ▸ unexpected)
  rw [Fault.diagnostic?_range told] at place
  obtain rfl := token_of_offset known present place
  rw [other] at closes
  cases closes

theorem respects_delimiters_among_errors :
    Nested ((tokenize "a { b = ] f(1, !) }").map (·.kind)) ∧
      ∀ d ∈ (parse {} "a { b = ] f(1, !) }").diagnostics,
        d.code ≠ .unclosedBrace ∧ d.code ≠ .unclosedParen := by
  have nested : Nested ((tokenize "a { b = ] f(1, !) }").map (·.kind)) := by decide
  refine ⟨nested, fun d member => ?_⟩
  obtain ⟨brace, paren, -⟩ := (parse_respects_delimiters {} nested).1 d member
  exact ⟨brace, paren⟩

end ConfigSyntax
