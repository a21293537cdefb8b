import ConfigSyntax.Proofs.Origin
import ConfigSyntax.Proofs.Progress

/-! Every tree that is read conforms to the schema. -/

namespace ConfigSyntax

open scoped Computability

namespace Schema

/-- Without its gaps, a word of `l` is one of `m`. -/
def Erases (l m : Language Symbol) : Prop := ∀ w ∈ l, w.filter (·.gap?.isNone) ∈ m

section

variable {l l' m m' : Language Symbol}

theorem Erases.add (first : Erases l l') (second : Erases m m') : Erases (l + m) (l' + m') := by
  intro w member
  rcases member with member | member
  · exact Or.inl (first w member)
  · exact Or.inr (second w member)

theorem Erases.mul (first : Erases l l') (second : Erases m m') : Erases (l * m) (l' * m') := by
  intro w member
  obtain ⟨a, left, b, right, rfl⟩ := member
  rw [List.filter_append]
  exact Language.append_mem_mul (first a left) (second b right)

theorem erases_gap (g : Gap) : Erases (gap g) 1 := by
  intro w member
  rw [show w = [.gap g] from member]
  exact Language.nil_mem_one

theorem erases_self (whole : Over (·.gap? = none) l) : Erases l l := by
  intro w member
  have same : w.filter (·.gap?.isNone) = w := by
    rw [List.filter_eq_self]
    intro s present
    rw [whole w member s present]
    rfl
  rwa [same]

theorem erases_contextNames : Erases contextNames contextNames :=
  erases_self (over_contextNames (fun _ => rfl) rfl)

theorem erases_group (g : Group) : Erases (group gap g) (group (fun _ => 1) g) := by
  have items : Over (·.gap? = none) (token g.opener * (construct g.holds * (1 + token .comma))∗) :=
    over_mul (over_token rfl) (over_items _ (fun _ _ _ => rfl) rfl)
  have closer : Erases (token g.closer) (token g.closer) := erases_self (over_token rfl)
  exact (erases_self items).mul (closer.add (erases_gap _))

end

/-- Pieces that are missing leave the parts of a node as a tree has them. -/
theorem erases_production (k : Kind) : Erases (production gap k) (parts k) := by
  have tokens (k : Kind) : Erases (token k) (token k) := erases_self (over_token rfl)
  have choices (ks : List Kind) : Erases (tokenOf ks) (tokenOf ks) :=
    erases_self (over_tokenOf fun _ _ => rfl)
  have nodes (ks : List Kind) : Erases (nodeOf ks) (nodeOf ks) :=
    erases_self (over_nodeOf fun _ _ _ => rfl)
  have empty : Erases 1 1 := erases_self over_one
  have constructs (c : Construct) : Erases (construct c) (construct c) :=
    erases_self (whole_construct c)
  cases k with
  | file => exact erases_self (over_star (whole_construct _))
  | object => exact (empty.add (nodes _)).mul (erases_group _)
  | contextBlock => exact erases_contextNames.mul (erases_group _)
  | contextualStatement => exact erases_contextNames.mul ((nodes _).add (erases_gap _))
  | contextName => exact (choices _).mul ((tokens _).add (erases_gap _))
  | invocationElement => exact nodes _
  | invocationExpression => exact (nodes _).mul (erases_group _)
  | variableDeclaration =>
      exact (tokens _).mul ((erases_gap _).add ((tokens _).mul
        ((erases_gap _).add ((tokens _).mul (constructs _)))))
  | property =>
      have object : Erases plainObject plainObject := by
        intro w member
        rw [show w = [.node .object false] from member]
        rfl
      exact (nodes _).mul ((empty.add ((tokens _).mul (constructs _))).add object)
  | constructorReference => exact nodes _
  | referenceExpression =>
      exact (tokens _).mul (erases_self (over_star (over_mul (over_token rfl) (over_token rfl))))
  | contextualPropertyReference => exact (tokens _).mul (nodes _)
  | stringLiteral => exact choices _
  | numberLiteral => exact tokens _
  | booleanLiteral => exact choices _
  | nullLiteral => exact tokens _
  | error =>
      intro w member s present
      exact member s (List.mem_of_mem_filter present)
  | _ => exact fun w none => absurd none (Language.notMem_zero w)

end Schema

namespace Outline

open Token (significant leaves)
open Event (triviaLength)

def kindsBefore (ts : List Token) : List Kind := (significant ts).map (·.kind)

structure Origin.Sound (o : Origin) : Prop where
  symbols : o.parts.map symbol ∈ Schema.production Schema.gap o.kind
  shaped : ∀ p ∈ o.parts, p.Shaped
  fits : kindsOfAll o.parts <+: kindsBefore o.tokens

theorem fits_behind {ks : List Kind} {ts : List Token} (fits : ks <+: kindsBefore ts) :
    ks <+: kindsBefore (ts.drop (triviaLength ts)) := by
  rwa [kindsBefore, Token.significant_behind]

theorem fits_split {p : Outline} {ps : List Outline} {ts : List Token}
    (fits : kindsOfAll (p :: ps) <+: kindsBefore ts) :
    p.kinds <+: kindsBefore ts ∧ kindsOfAll ps <+: kindsBefore (p.grow ts).2 := by
  constructor
  · exact fits_head fits
  · rw [kindsBefore, significant_grow]
    exact fits_tail fits

theorem kindsOfAll_tokens (ks : List Kind) : kindsOfAll (ks.map .token) = ks := by
  induction ks with
  | nil => rfl
  | cons k ks ih => simp [kindsOfAll, kinds, ih]

mutual

theorem sound_origins : ∀ (o : Outline) {ts : List Token} (_ : o.Shaped)
    (_ : o.kinds <+: kindsBefore ts), ∀ origin ∈ o.origins ts, origin.Sound
  | .token _, ts, shaped, fits, origin, member => by cases member
  | .gap _, ts, shaped, fits, origin, member => by cases member
  | .skipped _ ks, ts, shaped, fits, origin, member => by
      rw [List.mem_singleton.mp member]
      refine ⟨?_, ?_, ?_⟩
      · intro s present
        obtain ⟨o, inside, rfl⟩ := List.mem_map.mp present
        obtain ⟨k, -, rfl⟩ := List.mem_map.mp inside
        exact ⟨k, rfl⟩
      · intro p inside
        obtain ⟨k, -, rfl⟩ := List.mem_map.mp inside
        exact .token k
      · rw [kindsOfAll_tokens]
        exact fits_behind fits
  | .node k parts, ts, shaped, fits, origin, member => by
      cases shaped with
      | node _ _ symbols within =>
          rcases List.mem_cons.mp member with rfl | member
          · exact ⟨symbols, within, fits_behind fits⟩
          · exact sound_originsOfAll parts within (fits_behind fits) origin member

theorem sound_originsOfAll : ∀ (ps : List Outline) {ts : List Token} (_ : ∀ p ∈ ps, p.Shaped)
    (_ : kindsOfAll ps <+: kindsBefore ts), ∀ origin ∈ originsOfAll ps ts, origin.Sound
  | [], ts, shaped, fits, origin, member => by cases member
  | p :: ps, ts, shaped, fits, origin, member => by
      obtain ⟨first, rest⟩ := fits_split fits
      rcases List.mem_append.mp member with member | member
      · exact sound_origins p (shaped p List.mem_cons_self) first origin member
      · exact sound_originsOfAll ps (fun q inside => shaped q (List.mem_cons_of_mem _ inside)) rest
          origin member

end

theorem constructed_leaves (ts : List Token) :
    (leaves ts).any (fun t => t.isNode && t.kind = .constructorReference) = false := by
  induction ts with
  | nil => rfl
  | cons t ts ih => simpa [Token.leaf, Tree.isNode] using ih

theorem constructed_growAll (ps : List Outline) (ts : List Token) :
    (growAll ps ts).1.any (fun t => t.isNode && t.kind = .constructorReference) =
      ps.any (·.isNode .constructorReference) := by
  induction ps generalizing ts with
  | nil => rfl
  | cons p ps ih =>
      rw [growAll, List.any_append, List.any_cons, ih]
      congr 1
      cases p with
      | token k => rw [grow, constructed_leaves]; rfl
      | gap g => rfl
      | skipped why ks => rw [grow, List.any_append, constructed_leaves]; rfl
      | node k parts =>
          rw [grow, List.any_append, constructed_leaves, Bool.false_or, List.any_cons,
            List.any_nil, Bool.or_false]
          rfl

theorem filter_leaves (ts : List Token) :
    (leaves ts).filter (!·.isTrivia) = leaves (significant ts) := by
  rw [leaves, List.filter_map]
  rfl

theorem symbol_leaves (ts : List Token) :
    (leaves ts).map Tree.symbol = ts.map fun t => .token t.kind := by
  rw [leaves, List.map_map]
  rfl

theorem filter_lead (ts : List Token) :
    (leaves (ts.take (triviaLength ts))).filter (!·.isTrivia) = [] := by
  rw [filter_leaves, Token.significant_lead]
  rfl

theorem symbols_grow (o : Outline) {ts : List Token} (fits : o.kinds <+: kindsBefore ts) :
    ((o.grow ts).1.filter (!·.isTrivia)).map Tree.symbol =
      [o.symbol].filter (·.gap?.isNone) := by
  cases o with
  | token k =>
      obtain ⟨more, split⟩ := fits
      rw [grow, filter_leaves, Token.significant_take_one, symbol_leaves]
      change _ = [Symbol.token k]
      change [k] ++ more = (significant ts).map _ at split
      obtain ⟨t, rest, tokens, kind, -⟩ := List.map_eq_cons_iff.mp split.symm
      rw [tokens, ← kind]
      rfl
  | gap g => rfl
  | skipped why ks =>
      have inner := constructed_leaves
        ((ts.drop (triviaLength ts)).take (reach ks.length (ts.drop (triviaLength ts))))
      rw [grow, List.filter_append, filter_lead, List.nil_append]
      change [Tree.symbol _] = [Symbol.node .error false]
      rw [Tree.symbol, inner]
  | node k parts =>
      have inner := constructed_growAll parts (ts.drop (triviaLength ts))
      rw [grow, List.filter_append, filter_lead, List.nil_append]
      change [Tree.symbol _] = [Symbol.node k _]
      rw [Tree.symbol, inner]

/-- The parts of a tree show the symbols of the outline, but for the gaps. -/
theorem symbols_growAll (ps : List Outline) {ts : List Token}
    (fits : kindsOfAll ps <+: kindsBefore ts) :
    ((growAll ps ts).1.filter (!·.isTrivia)).map Tree.symbol =
      (ps.map symbol).filter (·.gap?.isNone) := by
  induction ps generalizing ts with
  | nil => rfl
  | cons p ps ih =>
      obtain ⟨first, rest⟩ := fits_split fits
      rw [growAll, List.filter_append, List.map_append, symbols_grow p first, ih rest,
        ← List.filter_append]
      rfl

end Outline

open Outline (growAll originsOfAll kindsOfAll kindsBefore)
open Token (significant leaves)

theorem outline_reading (limits : Limits) (tokens : List Token) :
    Grammar.Reading (kindsBefore tokens) (Schema.production Schema.gap .file)
      (Sentence.file limits.maxDepth) (outline limits tokens, []) := by
  have reading := Grammar.items_reading limits.maxDepth (kindsBefore tokens)
  have rest := Grammar.items_rest limits.maxDepth (kindsBefore tokens)
  rwa [← Prod.eta (Grammar.repeated _ _), rest] at reading

theorem kinds_outline (limits : Limits) (tokens : List Token) :
    kindsOfAll (outline limits tokens) = kindsBefore tokens := by
  have split := (outline_reading limits tokens).split
  rwa [List.append_nil] at split

def fileNode (limits : Limits) (text : String) : Node :=
  let read := growAll (outline limits (lex text)) (lex text)
  ⟨⟨.file, read.1 ++ leaves read.2, 0, []⟩, []⟩

theorem ofTree?_parse (limits : Limits) (text : String) :
    Node.ofTree? (parse limits text).tree = some (fileNode limits text) := by
  rw [parse_tree, Tree.ofParts_eq]
  rfl

theorem descendants_fileNode (limits : Limits) (text : String) :
    ∃ nodes, (fileNode limits text).descendants = fileNode limits text :: nodes ∧
      List.Forall₂ (Outline.Stems text.utf8ByteSize) nodes
        (originsOfAll (outline limits (lex text)) (lex text)) := by
  refine ⟨_, rfl, ?_⟩
  rw [Node.below, fileNode, Node.preorderOfAll_append, Node.preorderOfAll_leaves, List.append_nil]
  exact Outline.stems_growAll _ (lex_tiled text) _ _

theorem sound_outline (limits : Limits) (text : String) :
    ∀ origin ∈ originsOfAll (outline limits (lex text)) (lex text), origin.Sound := by
  apply Outline.sound_originsOfAll _ (outline_reading limits _).shaped
  rw [kinds_outline]

theorem significant_rest (limits : Limits) (text : String) :
    significant (growAll (outline limits (lex text)) (lex text)).2 = [] := by
  have length := congrArg List.length (kinds_outline limits (lex text))
  rw [kindsBefore, List.length_map] at length
  rw [Outline.significant_growAll, length, List.drop_length]

theorem fileNode_parts (limits : Limits) (text : String) :
    ((fileNode limits text).trees.filter (!·.isTrivia)).map Tree.symbol ∈ Schema.parts .file := by
  have fits : kindsOfAll (outline limits (lex text)) <+: kindsBefore (lex text) := by
    rw [kinds_outline]
  have rest : (leaves (growAll (outline limits (lex text)) (lex text)).2).filter
      (!·.isTrivia) = [] := by
    rw [Outline.filter_leaves, significant_rest]
    rfl
  rw [fileNode, List.filter_append, rest, List.append_nil, Outline.symbols_growAll _ fits]
  exact Schema.erases_production .file _ (outline_reading limits (lex text)).symbols

/-- Whatever the text and the limit, the parts of every node but for the blanks are as the schema
has them for its kind. -/
theorem parse_conforms (limits : Limits) (text : String) :
    ∃ root : Node, Node.ofTree? (parse limits text).tree = some root ∧ root.kind = .file ∧
      ∀ n ∈ root.descendants,
        (n.trees.filter (!·.isTrivia)).map Tree.symbol ∈ Schema.parts n.kind := by
  refine ⟨fileNode limits text, ofTree?_parse limits text, rfl, ?_⟩
  intro n member
  obtain ⟨nodes, list, stems⟩ := descendants_fileNode limits text
  rw [list] at member
  rcases List.mem_cons.mp member with rfl | member
  · exact fileNode_parts limits text
  · obtain ⟨origin, present, stem⟩ := Outline.exists_origin stems member
    have sound := sound_outline limits text origin present
    rw [stem.kind, stem.trees, Outline.symbols_growAll _ sound.fits]
    exact Schema.erases_production origin.kind _ sound.symbols

end ConfigSyntax
