import ConfigSyntax.Proofs.Conformance
import ConfigSyntax.Proofs.Gaps

/-! Each missing piece is told once, at the token behind the node that lacks it. -/

namespace ConfigSyntax

open Event (triviaLength)

namespace Part

open Token (Tiled leaves significant)

theorem ofTrees_append (above : List Frame) (start : Nat) (before front back : List Tree) :
    ofTrees above start before (front ++ back) = ofTrees above start before front ++
      ofTrees above (start + Tree.widthOfAll front) (front.reverse ++ before) back := by
  induction front generalizing start before with
  | nil => rfl
  | cons t ts ih =>
      simp only [List.cons_append, ofTrees, ih, Tree.widthOfAll, Nat.add_assoc,
        List.reverse_cons, List.append_assoc, List.nil_append]

theorem tokens_leaves {start stop : Nat} {ts : List Token} (tiled : Tiled start stop ts)
    (above : List Frame) (before : List Tree) :
    (ofTrees above start before (leaves ts)).filterMap token? = ts := by
  induction ts generalizing start before with
  | nil => rfl
  | cons t ts ih =>
      obtain ⟨rfl, -, rest⟩ := tiled
      have more := ih rest (t.leaf :: before)
      rw [Token.leaves_cons]
      exact congrArg (t :: ·) more

theorem tokens_lead {start stop : Nat} {ts : List Token} (tiled : Tiled start stop ts)
    (above : List Frame) (before : List Tree) (k : Kind) (inner : List Tree) :
    significant ((ofTrees above start before
      (leaves (ts.take (triviaLength ts)) ++ [.node k inner])).filterMap token?) = [] := by
  have lead : Tiled start stop (ts.take (triviaLength ts) ++ ts.drop (triviaLength ts)) := by
    rwa [List.take_append_drop]
  rw [ofTrees_append, List.filterMap_append, tokens_leaves lead.initial, Token.significant_append,
    Token.significant_lead]
  rfl

theorem tokens_grow (o : Outline) {start stop : Nat} {ts : List Token}
    (tiled : Tiled start stop ts) (above : List Frame) (before : List Tree) :
    significant ((ofTrees above start before (o.grow ts).1).filterMap token?) =
      o.mine (significant ts) := by
  cases o with
  | token k =>
      have taken : Tiled start stop (ts.take (Outline.reach 1 ts) ++
          ts.drop (Outline.reach 1 ts)) := by
        rwa [List.take_append_drop]
      rw [Outline.grow, tokens_leaves taken.initial, Token.significant_take_one]
      rfl
  | gap g => rfl
  | skipped why ks => exact tokens_lead tiled above before _ _
  | node k parts => exact tokens_lead tiled above before _ _

theorem tokens_growAll (ps : List Outline) {start stop : Nat} {ts : List Token}
    (tiled : Tiled start stop ts) (above : List Frame) (before : List Tree) :
    significant ((ofTrees above start before (Outline.growAll ps ts).1).filterMap token?) =
      Outline.own ps (significant ts) := by
  induction ps generalizing start ts before with
  | nil => rfl
  | cons p ps ih =>
      rw [Outline.growAll, ofTrees_append, List.filterMap_append, Token.significant_append,
        tokens_grow p tiled, ih (Outline.tiled_grow p tiled), Outline.significant_grow]
      rfl

theorem any_token (above : List Frame) (start : Nat) (before ts : List Tree) {k : Kind}
    (visible : k.isTrivia = false) :
    ((ofTrees above start before ts).filterMap token?).any (·.kind = k) =
      ((ts.filter (!·.isTrivia)).map Tree.symbol).any (·.isToken k) := by
  induction ts generalizing start before with
  | nil => rfl
  | cons t ts ih =>
      cases t with
      | node k' parts =>
          rw [List.filter_cons_of_pos rfl]
          exact ih _ _
      | token k' s =>
          have here : decide (k' = k) = (Symbol.token k').isToken k := by simp [Symbol.isToken]
          change (decide (k' = k) || ((ofTrees above _ _ ts).filterMap token?).any _) = _
          rw [ih]
          by_cases blank : k'.isTrivia = true
          · have other : decide (k' = k) = false := by
              rw [decide_eq_false_iff_not]
              intro same
              rw [same, visible] at blank
              cases blank
            rw [List.filter_cons_of_neg (by simp [Tree.isTrivia, blank]), other, Bool.false_or]
          · rw [List.filter_cons_of_pos (by simp [Tree.isTrivia, blank]), here]
            rfl

theorem any_statement (above : List Frame) (start : Nat) (before ts : List Tree) :
    ((ofTrees above start before ts).filterMap node?).any (·.kind.isStatement) =
      ((ts.filter (!·.isTrivia)).map Tree.symbol).any (·.isStatement) := by
  induction ts generalizing start before with
  | nil => rfl
  | cons t ts ih =>
      cases t with
      | node k parts =>
          rw [List.filter_cons_of_pos rfl, List.map_cons, List.any_cons, ← ih]
          rfl
      | token k s =>
          by_cases blank : k.isTrivia = true
          · rw [List.filter_cons_of_neg (by simp [Tree.isTrivia, blank])]
            exact ih _ _
          · rw [List.filter_cons_of_pos (by simp [Tree.isTrivia, blank])]
            exact ih _ _

end Part

namespace Node

def gap? (n : Node) : Option Gap :=
  Gap.of? n.kind n.hasToken (n.children.any (·.kind.isStatement))

def symbols (n : Node) : List Symbol := (n.trees.filter (!·.isTrivia)).map Tree.symbol

theorem gap?_eq (n : Node) : n.gap? = Schema.gap? n.kind n.symbols := by
  have stated : n.children.any (·.kind.isStatement) = n.symbols.any (·.isStatement) :=
    Part.any_statement ..
  have visible : ∀ k ∈ [Kind.closeBrace, .closeParen, .identifier, .equals],
      k.isTrivia = false := by decide
  rw [gap?, stated]
  exact Gap.of?_congr _ _ fun k member => Part.any_token _ _ _ _ (visible k member)

/-- The opener that is the only one among the tokens of a node is found by its kind. -/
theorem token?_of_opener {n : Node} {t : Token}
    (only : (n.tokens.filter (!·.isTrivia)).filter (·.kind.isOpener) = [t]) :
    n.token? t.kind = some t := by
  have member : t ∈ (n.tokens.filter (!·.isTrivia)).filter (·.kind.isOpener) := by
    rw [only]
    exact List.mem_singleton_self t
  have opens : t.kind.isOpener = true := (List.mem_filter.mp member).2
  have visible : ∀ k : Kind, k.isOpener = true → k.isTrivia = false := by
    intro k
    cases k <;> decide
  have same : n.tokens.filter (·.kind = t.kind) =
      ((n.tokens.filter (!·.isTrivia)).filter (·.kind.isOpener)).filter (·.kind = t.kind) := by
    rw [List.filter_filter, List.filter_filter]
    apply List.filter_congr
    intro u _
    by_cases kind : u.kind = t.kind
    · simp [Token.isTrivia, kind, opens, visible t.kind opens]
    · simp [kind]
  rw [token?, ← List.head?_filter, same, only]
  simp

end Node

namespace Outline

open Token (Tiled significant)

mutual

theorem grow_suffix : ∀ (o : Outline) (ts : List Token), (o.grow ts).2 <:+ ts
  | .token _, ts => List.drop_suffix _ ts
  | .gap _, ts => List.suffix_refl ts
  | .skipped _ _, ts => (List.drop_suffix _ _).trans (List.drop_suffix _ ts)
  | .node _ parts, ts => (growAll_suffix parts _).trans (List.drop_suffix _ ts)

theorem growAll_suffix : ∀ (ps : List Outline) (ts : List Token), (growAll ps ts).2 <:+ ts
  | [], ts => List.suffix_refl ts
  | p :: ps, ts => (growAll_suffix ps _).trans (grow_suffix p ts)

end

mutual

theorem origins_suffix : ∀ (o : Outline) (ts : List Token),
    ∀ origin ∈ o.origins ts, origin.tokens <:+ ts
  | .token _, _, _, member => by cases member
  | .gap _, _, _, member => by cases member
  | .skipped _ _, ts, origin, member => by
      rw [List.mem_singleton.mp member]
      exact List.drop_suffix _ ts
  | .node _ parts, ts, origin, member => by
      rcases List.mem_cons.mp member with rfl | member
      · exact List.drop_suffix _ ts
      · exact (originsOfAll_suffix parts _ origin member).trans (List.drop_suffix _ ts)

theorem originsOfAll_suffix : ∀ (ps : List Outline) (ts : List Token),
    ∀ origin ∈ originsOfAll ps ts, origin.tokens <:+ ts
  | [], _, _, member => by cases member
  | p :: ps, ts, origin, member => by
      rcases List.mem_append.mp member with member | member
      · exact origins_suffix p ts origin member
      · exact (originsOfAll_suffix ps _ origin member).trans (grow_suffix p ts)

end

end Outline

/-- The first token that does not start before `place`, blanks apart. -/
def tokenAt? (text : String) (place : Nat) : Option Token :=
  (tokenize text).find? fun t => !t.isTrivia && place ≤ t.offset

theorem tokenAt?_eq {text : String} {ts : List Token} {place : Nat} (suffix : ts <:+ lex text)
    (tiled : Token.Tiled place text.utf8ByteSize ts) :
    tokenAt? text place =
      some ((Token.significant ts).headD (.endAt text.utf8ByteSize)) := by
  obtain ⟨front, whole⟩ := suffix
  have all := lex_tiled text
  rw [← whole] at all
  -- Both tilings go on to the end of the text, so they start at one place.
  have start : place = 0 + Tree.widthOfAll (Token.leaves front) := by
    have first := tiled.stop_eq
    have second := all.suffix.stop_eq
    omega
  have before : front.find? (fun t => !t.isTrivia && place ≤ t.offset) = none := by
    rw [List.find?_eq_none]
    intro t member
    have := all.offset_lt member
    simp
    omega
  have behind : ts.find? (fun t => !t.isTrivia && place ≤ t.offset) =
      (Token.significant ts).head? := by
    rw [← List.head?_filter, Token.significant]
    congr 1
    apply List.filter_congr
    intro t member
    simp [tiled.le_offset member]
  have ends : place ≤ text.utf8ByteSize := by
    have := tiled.stop_eq
    omega
  rw [tokenAt?, tokenize, ← whole, List.find?_append, List.find?_append, before, behind]
  cases Token.significant ts with
  | nil => simp [Token.endAt, Token.isTrivia, Kind.isTrivia, ends]
  | cons t ts => rfl

def Code.isMissing (c : Code) : Bool :=
  [unclosedBrace, unclosedParen, missingName, missingAssignment, missingStatement,
    missingContextName].contains c

namespace Fault

theorem gapDiagnostic_code (g : Gap) (opener : Option Token) :
    (gapDiagnostic g opener).code = g.code := by
  cases g with
  | closer group => cases group <;> rfl
  | _ => rfl

theorem gapCode_isMissing (g : Gap) : g.code.isMissing = true := by
  cases g with
  | closer group => cases group <;> rfl
  | _ => rfl

theorem skipDiagnostic_code (why : Skip) (t : Token) :
    (skipDiagnostic why t).code ∈
      [.unexpectedCloser, .invalidArgument, .unexpectedToken, .missingValue, .tooDeep] := by
  cases why with
  | unexpected c =>
      simp only [skipDiagnostic, unexpectedDiagnostic]
      split
      · exact List.mem_cons_self
      · split
        · exact List.mem_cons_of_mem _ List.mem_cons_self
        · exact List.mem_cons_of_mem _ (List.mem_cons_of_mem _ List.mem_cons_self)
  | noValue c =>
      change Code.missingValue ∈ _
      decide
  | tooDeep =>
      change Code.tooDeep ∈ _
      decide

theorem report_code (f : Fault) :
    f.report.code.isMissing = f.isGap ∧ f.report.code ≠ .expectedToken ∧
      f.report.code ≠ .internal := by
  have others : ∀ c ∈ [Code.unexpectedCloser, .invalidArgument, .unexpectedToken, .missingValue,
      .tooDeep], c.isMissing = false ∧ c ≠ .expectedToken ∧ c ≠ .internal := by decide
  have gaps : ∀ c : Code, c.isMissing = true → c ≠ .expectedToken ∧ c ≠ .internal := by
    intro c
    cases c <;> decide
  obtain ⟨cause, t⟩ := f
  cases cause with
  | gap g opener =>
      have missing := gapCode_isMissing g
      rw [report, gapDiagnostic_code]
      exact ⟨missing, gaps _ missing⟩
  | skipped why => exact others _ (skipDiagnostic_code why t)
  | invalidCharacter => exact ⟨rfl, nofun, nofun⟩
  | unterminatedString => exact ⟨rfl, nofun, nofun⟩
  | unterminatedComment => exact ⟨rfl, nofun, nofun⟩

theorem diagnostic?_code {f : Fault} {d : Diagnostic} (told : f.diagnostic? = some d) :
    d.code = f.report.code := by
  rw [diagnostic?] at told
  rw [← Option.some.inj (Option.ite_none_left_eq_some.mp told).2]

theorem filter_missing (fs : List Fault) :
    (fs.filterMap (·.diagnostic?)).filter (·.code.isMissing) =
      (fs.filter (·.isGap)).filterMap (·.diagnostic?) := by
  rw [List.filter_filterMap, List.filterMap_filter]
  congr 1
  funext f
  cases told : f.diagnostic? with
  | none => simp
  | some d => rw [Option.filter_some, diagnostic?_code told, (report_code f).1]

end Fault

/-- The diagnostic says of the node what it lacks, at the token behind it. Of a closer it shows the
opener that the node has. -/
structure Tells (text : String) (d : Diagnostic) (n : Node) : Prop where
  code : n.gap?.map Gap.code = some d.code
  opener : ∀ group, n.gap? = some (.closer group) →
    ∃ t, n.token? group.opener = some t ∧ d.related.map (·.range) = [t.range]
  place : ∃ t, tokenAt? text n.range.stop = some t ∧ d.range = t.range

namespace Outline

open Token (significant)

theorem gap?_of_stem {stop : Nat} {n : Node} {o : Origin} (stem : Stems stop n o)
    (sound : o.Sound) : n.gap? = Schema.gap? o.kind (o.parts.map symbol) := by
  rw [Node.gap?_eq, Node.symbols, stem.kind, stem.trees, symbols_growAll _ sound.fits,
    Schema.gap?_filter]

theorem tokens_of_stem {stop : Nat} {n : Node} {o : Origin} (stem : Stems stop n o) :
    n.tokens.filter (!·.isTrivia) = own o.parts (significant o.tokens) := by
  rw [Node.tokens, Node.parts, stem.trees]
  exact Part.tokens_growAll o.parts stem.tiled _ _

theorem opener_of_stem {stop : Nat} {n : Node} {o : Origin} (stem : Stems stop n o)
    (sound : o.Sound) {g : Group} (lacks : n.gap? = some (.closer g)) :
    ∃ t, n.token? g.opener = some t ∧ openerOf none o.parts (significant o.tokens) = some t := by
  rw [gap?_of_stem stem sound] at lacks
  have kinds := kinds_own sound.fits
  rw [Schema.opener_of_production sound.symbols lacks] at kinds
  obtain ⟨t, only, kind⟩ := List.map_eq_singleton_iff.mp kinds
  refine ⟨t, ?_, ?_⟩
  · rw [← kind]
    apply Node.token?_of_opener
    rw [tokens_of_stem stem, only]
  · rw [openerOf_eq sound.fits, only]
    rfl

theorem place_of_stem {text : String} {n : Node} {o : Origin}
    (stem : Stems text.utf8ByteSize n o) (suffix : o.tokens <:+ lex text) :
    tokenAt? text n.range.stop = some (((significant o.tokens).drop
      (kindsOfAll o.parts).length).headD (.endAt text.utf8ByteSize)) := by
  have behind := tiled_growAll o.parts stem.tiled
  rw [← significant_growAll]
  apply tokenAt?_eq ((growAll_suffix o.parts o.tokens).trans suffix)
  change Token.Tiled (n.start + Tree.widthOfAll n.trees) _ _
  rwa [stem.trees]

theorem tells_of_stem {text : String} {n : Node} {o : Origin}
    (stem : Stems text.utf8ByteSize n o) (sound : o.Sound) (suffix : o.tokens <:+ lex text) :
    List.Forall₂ (Tells text)
      ((gaps (.endAt text.utf8ByteSize) none o.parts (significant o.tokens)).filterMap
        (·.diagnostic?))
      ([n].filter (·.gap?.isSome)) := by
  have ends := Schema.endsWith_production sound.symbols
  rw [← gap?_of_stem stem sound] at ends
  rw [gaps_of_endsWith _ _ ends]
  cases lacks : n.gap? with
  | none => simp [lacks]
  | some g =>
      have place := place_of_stem stem suffix
      rw [List.filter_cons_of_pos (by rw [lacks]; rfl)]
      refine .cons ⟨?_, ?_, _, place, rfl⟩ .nil
      · rw [lacks, Option.map_some]
        exact congrArg some (Fault.gapDiagnostic_code g _).symm
      · intro group closes
        rw [lacks] at closes
        cases closes
        obtain ⟨t, found, opener⟩ := opener_of_stem stem sound lacks
        refine ⟨t, found, ?_⟩
        change (Fault.gapDiagnostic _
          (openerOf none o.parts (significant o.tokens))).related.map _ = _
        rw [opener]
        rfl

theorem tells_of_stems {text : String} {nodes : List Node} {origins : List Origin}
    (stems : List.Forall₂ (Stems text.utf8ByteSize) nodes origins)
    (sound : ∀ o ∈ origins, o.Sound) (suffix : ∀ o ∈ origins, o.tokens <:+ lex text) :
    List.Forall₂ (Tells text)
      ((gapsOfAll (.endAt text.utf8ByteSize) origins).filterMap (·.diagnostic?))
      (nodes.filter (·.gap?.isSome)) := by
  induction stems with
  | nil => exact .nil
  | @cons n o nodes origins stem _ ih =>
      have first := tells_of_stem stem (sound o List.mem_cons_self) (suffix o List.mem_cons_self)
      have more := ih (fun o member => sound o (List.mem_cons_of_mem _ member))
        fun o member => suffix o (List.mem_cons_of_mem _ member)
      rw [gapsOfAll, List.flatMap_cons, List.filterMap_append, ← List.singleton_append,
        List.filter_append]
      exact List.rel_append first more

end Outline

open Outline (originsOfAll gapsOfAll)

theorem filter_faults (limits : Limits) (text : String) :
    ((faults limits text).filter (·.isGap)).Perm
      (gapsOfAll (.endAt text.utf8ByteSize)
        (originsOfAll (outline limits (lex text)) (lex text))) := by
  have all := (Fault.ofParts_perm (outline limits (lex text)) (lex text)
    (.endAt text.utf8ByteSize)).filter (·.isGap)
  have inside := Outline.gaps_faultsOfAll (.endAt text.utf8ByteSize) none
    (outline limits (lex text)) (lex text)
  have file := Schema.endsWith_production (outline_reading limits (lex text)).symbols
  rw [List.filter_append, Outline.filter_token_faults, List.nil_append] at all
  rw [show Schema.gap? .file _ = none from rfl] at file
  rw [Outline.gaps_of_endsWith _ _ file, Option.map_none, Option.toList_none,
    List.nil_append] at inside
  exact all.trans inside

/-- What is missing is told once for each node that lacks it, and for no other. -/
theorem parse_tells_missing (limits : Limits) (text : String) :
    ∃ root : Node, Node.ofTree? (parse limits text).tree = some root ∧
      (∃ ds, ds.Perm ((parse limits text).diagnostics.filter (·.code.isMissing)) ∧
        List.Forall₂ (Tells text) ds (root.descendants.filter (·.gap?.isSome))) ∧
      ∀ d ∈ (parse limits text).diagnostics, d.code ≠ .expectedToken ∧ d.code ≠ .internal := by
  let gaps := gapsOfAll (.endAt text.utf8ByteSize)
    (originsOfAll (outline limits (lex text)) (lex text))
  refine ⟨fileNode limits text, ofTree?_parse limits text,
    ⟨gaps.filterMap (·.diagnostic?), ?_, ?_⟩, ?_⟩
  · rw [parse_diagnostics, Fault.filter_missing]
    exact (filter_faults limits text).symm.filterMap _
  · obtain ⟨nodes, list, stems⟩ := descendants_fileNode limits text
    have whole : (fileNode limits text).gap?.isSome = false := rfl
    rw [list, List.filter_cons_of_neg (by rw [whole]; exact Bool.false_ne_true)]
    exact Outline.tells_of_stems stems (sound_outline limits text)
      (Outline.originsOfAll_suffix _ _)
  · intro d member
    obtain ⟨f, -, told⟩ := List.mem_filterMap.mp member
    rw [Fault.diagnostic?_code told]
    exact (Fault.report_code f).2

end ConfigSyntax
