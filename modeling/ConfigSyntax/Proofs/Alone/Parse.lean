import ConfigSyntax.Proofs.Alone.Elements
import ConfigSyntax.Proofs.Join.Parse
import ConfigSyntax.Proofs.Lossless
import ConfigSyntax.Proofs.Patterns.Slices

/-! The elements of a text without errors, each parsed by itself. Main statement: `parse_alone`. -/

namespace ConfigSyntax

open Event (triviaLength)
open Token (leaves significant)

namespace Outline

structure Spans (ps : List Outline) (ts : List Token) : Prop where
  kinds : kindsBefore ts = kindsOfAll ps
  rest : (growAll ps ts).2 = []

section

variable {ps : List Outline} {ts : List Token}

/-- What the parts take is a span of tokens, and they are made of it wherever it stands. -/
theorem exists_span (filled : ∀ p ∈ ps, p.Filled) (fits : kindsOfAll ps <+: kindsBefore ts) :
    ∃ span rest, ts = span ++ rest ∧ Spans ps span ∧ (growAll ps ts).1 = (growAll ps span).1 := by
  obtain ⟨span, split⟩ := growAll_suffix ps ts
  generalize left : (growAll ps ts).2 = rest at split
  have behind := congrArg List.length (significant_growAll ps ts)
  have pieces := congrArg List.length (congrArg significant split)
  have enough := fits.length_le
  rw [left, List.length_drop] at behind
  rw [Token.significant_append, List.length_append] at pieces
  rw [kindsBefore, List.length_map] at enough
  have length : (significant span).length = (kindsOfAll ps).length := by omega
  have kinds : kindsBefore span = kindsOfAll ps := by
    have initial : kindsBefore span <+: kindsBefore ts := by
      rw [← split, kindsBefore, kindsBefore, Token.significant_append, List.map_append]
      exact List.prefix_append _ _
    have same : (kindsBefore span).length = (kindsOfAll ps).length := by
      rw [kindsBefore, List.length_map, length]
    exact (List.prefix_of_prefix_length_le initial fits same.le).eq_of_length same
  have grown := growAll_front ps rest filled length.ge
  rw [split] at grown
  have none : (growAll ps span).2 ++ rest = rest := (congrArg Prod.snd grown).symm.trans left
  refine ⟨span, rest, split.symm, ⟨kinds, List.append_left_eq_self.mp none⟩, ?_⟩
  rw [grown]

theorem Spans.text (spans : Spans ps ts) :
    Tree.textOfAll (growAll ps ts).1 = Tree.textOfAll (leaves ts) := by
  have kept := leaves_growAll ps ts
  rw [spans.rest, Token.leaves_nil, show Tree.leavesOfAll [] = [] from rfl,
    List.append_nil] at kept
  rw [← Tree.joined_leavesOfAll, ← Tree.joined_leavesOfAll, kept]

theorem Spans.unshift {d : Nat} (spans : Spans ps (ts.map (·.shift d))) : Spans ps ts where
  kinds := by
    rw [← spans.kinds, kindsBefore, kindsBefore, Token.significant_shift, List.map_map]
    rfl
  rest := by
    have rest := (growAll_alike ps (Token.map_shift_alike d ts)).2
    rw [spans.rest] at rest
    exact List.forall₂_nil_right_iff.mp rest

theorem Led.unshift {d : Nat} {rest : List Token} (led : Led (ts.map (·.shift d) ++ rest)) :
    Led ts := by
  cases ts with
  | nil => nofun
  | cons t ts =>
      intro u same
      obtain rfl : t = u := Option.some.inj same
      exact led (t.shift d) rfl

theorem triviaLength_of_led (led : Led ts) : triviaLength ts = 0 := by
  cases ts with
  | nil => rfl
  | cons t ts => simp [triviaLength, led t rfl]

end

/-- The text of a node, by itself, has the tokens that its origin takes. -/
structure Retold (text : String) (n : Node) (o : Origin) : Prop where
  spans : Spans o.parts (lex n.text)
  led : Led (lex n.text)
  trees : n.trees = (growAll o.parts (lex n.text)).1
  tokens : ∃ d, ∀ t ∈ lex n.text, t.shift d ∈ lex text

theorem retold_of_stem {text : String} {stop : Nat} {n : Node} {o : Origin} (stem : Stems stop n o)
    (filled : ∀ p ∈ o.parts, p.Filled) (fits : kindsOfAll o.parts <+: kindsBefore o.tokens)
    (led : Led o.tokens) (suffix : o.tokens <:+ lex text) : Retold text n o := by
  obtain ⟨span, rest, tokens, spans, grown⟩ := exists_span filled fits
  obtain ⟨front, split⟩ := suffix
  rw [tokens, ← List.append_assoc] at split
  have slice := lex_slice split.symm
  have own : n.text = Tree.textOfAll (leaves span) := by
    rw [Node.text, stem.trees, grown, spans.text]
  rw [← own] at slice
  generalize Tree.widthOfAll (leaves front) = d at slice
  subst slice
  rw [tokens] at led
  refine ⟨spans.unshift, led.unshift, ?_, d, fun t member => ?_⟩
  · rw [stem.trees, grown]
    exact (growAll_alike o.parts (Token.map_shift_alike d _)).1.symm
  · rw [← split]
    exact List.mem_append_left _ (List.mem_append_right _ (List.mem_map_of_mem member))

theorem Retold.sound {text : String} {n : Node} {o : Origin} (retold : Retold text n o)
    (sound : ∀ t ∈ lex text, t.fault? = none) : ∀ t ∈ lex n.text, t.fault? = none := by
  obtain ⟨d, tokens⟩ := retold.tokens
  intro t member
  have same := Token.fault?_alike (Token.shift_alike d t)
  rw [sound _ (tokens t member)] at same
  cases fault : t.fault? with
  | none => rfl
  | some f =>
      rw [fault] at same
      cases same

end Outline

open Outline (Led Spans growAll originsOfAll)

section

variable {limits : Limits} {text : String} {k : Kind} {parts : List Outline}
  (alone : Grammar.Alone limits.maxDepth (.node k parts)) (spans : Spans parts (lex text))

include alone spans

theorem outline_alone : outline limits (lex text) = [.node k parts] := by
  have kinds : Outline.kindsBefore (lex text) = (Outline.node k parts).kinds := spans.kinds
  change Grammar.file limits.maxDepth (Outline.kindsBefore (lex text)) = _
  rw [kinds]
  exact alone.file

/-- Where the tokens of a text are those of an element, the element is all there is. -/
theorem tree_alone (led : Led (lex text)) :
    (parse limits text).tree = .node .file [.node k (growAll parts (lex text)).1] := by
  rw [parse_tree, Tree.ofParts_eq, outline_alone alone spans]
  simp [growAll, Outline.grow, Outline.triviaLength_of_led led, spans.rest]

end

/-- The text of a node, by itself, is a file without errors that holds the same node and nothing
else, at its start. -/
structure Node.StandsAlone (limits : Limits) (n : Node) : Prop where
  accepted : (parse limits n.text).diagnostics = []
  tree : (parse limits n.text).tree = .node .file [.node n.kind n.trees]
  child : ∃ file m, Node.ofTree? (parse limits n.text).tree = some file ∧ file.children = [m] ∧
    m.start = 0 ∧ Node.Moved n.start m n

/-- In a text without errors every element stands alone, whatever it is in. -/
theorem parse_alone {limits : Limits} {text : String}
    (accepted : (parse limits text).diagnostics = []) :
    ∃ root, Node.ofTree? (parse limits text).tree = some root ∧
      ∀ n ∈ root.descendants, n.kind ∈ Kind.objectElements → n.StandsAlone limits := by
  refine ⟨fileNode limits text, ofTree?_parse limits text, ?_⟩
  intro n member element
  have clean := clean_of_accepted accepted
  obtain ⟨nodes, list, stems⟩ := descendants_fileNode limits text
  rw [list] at member
  rcases List.mem_cons.mp member with rfl | member
  · change Kind.file ∈ Kind.objectElements at element
    exact absurd element (by decide)
  obtain ⟨o, present, stem⟩ := Outline.exists_origin stems member
  have shape := sound_outline limits text o present
  obtain ⟨whole, reads⟩ := Outline.elements_originsOfAll _
    (Grammar.file_elements limits.maxDepth _) clean present
  rw [stem.kind] at element
  have node : Outline.Clean (.node o.kind o.parts) := Outline.clean_node.mpr whole
  have alone := reads element node
  have filled : ∀ p ∈ o.parts, p.Filled :=
    alone.filled (.node _ _ shape.symbols shape.shaped) node
  have retold := Outline.retold_of_stem stem filled shape.fits
    (Outline.originsOfAll_led _ _ o present) (Outline.originsOfAll_suffix _ _ o present)
  have tree : (parse limits n.text).tree = .node .file [.node n.kind n.trees] := by
    rw [tree_alone alone retold.spans retold.led, stem.kind, ← retold.trees]
  refine ⟨accepted_of_clean ?_ ?_, tree, ?_⟩
  · exact retold.sound (sound_of_accepted accepted)
  · rw [outline_alone alone retold.spans]
    exact List.forall_mem_singleton.mpr node
  · rw [tree]
    exact ⟨_, _, rfl, rfl, rfl, rfl, rfl, (Nat.zero_add _).symm⟩

theorem alone_in_object :
    (parse {} "o { @a, b = 1 }").diagnostics = [] ∧
      ∃ root, Node.ofTree? (parse {} "o { @a, b = 1 }").tree = some root ∧
        ∀ n ∈ root.descendants, n.kind ∈ Kind.objectElements → n.StandsAlone {} := by
  have accepted : (parse {} "o { @a, b = 1 }").diagnostics = [] := by decide +kernel
  exact ⟨accepted, parse_alone accepted⟩

end ConfigSyntax
