import ConfigSyntax.Proofs.Preorder
import ConfigSyntax.Proofs.Trivia.Runs

/-! What stands in front of a node: the parts of the node above it that come before, and the tokens
that those are made of. Main statement: `exists_before`. -/

namespace ConfigSyntax

open Event (triviaLength)
open Token (Tiled leaves)

namespace Schema

open scoped Computability

/-- The symbol is of a token, or of a node with tokens that is no element. -/
def Leads (s : Symbol) : Prop := Firm s ∧ ∀ k ∈ Kind.objectElements, s.isNode k = false

def Led (l : Language Symbol) : Prop := ∀ w ∈ l, ∃ s rest, w = s :: rest ∧ Leads s

section

variable {l : Language Symbol}

theorem led_token (k : Kind) : Led (token k) := by
  intro w word
  exact ⟨_, [], word, trivial, fun _ _ => rfl⟩

theorem led_tokenOf (ks : List Kind) : Led (tokenOf ks) := by
  rintro w ⟨k, -, rfl⟩
  exact ⟨_, [], rfl, trivial, fun _ _ => rfl⟩

theorem led_nodeOf {ks : List Kind} (firm : ∀ k ∈ ks, k ≠ .error ∧ k ≠ .file)
    (others : ∀ k ∈ ks, k ∉ Kind.objectElements) : Led (nodeOf ks) := by
  rintro w ⟨k, known, c, rfl⟩
  refine ⟨_, [], rfl, firm k known, fun k' element => ?_⟩
  have different : k ≠ k' := fun same => others k known (same ▸ element)
  simpa [Symbol.isNode] using different

theorem led_mul (first : Led l) (m : Language Symbol) : Led (l * m) := by
  rintro w ⟨a, left, b, -, rfl⟩
  obtain ⟨s, rest, rfl, leads⟩ := first a left
  exact ⟨s, rest ++ b, rfl, leads⟩

theorem led_maybe_mul {m : Language Symbol} (first : Led l) (second : Led m) :
    Led ((1 + l) * m) := by
  rintro w ⟨a, none | left, b, right, rfl⟩
  · rw [(Language.mem_one a).mp none]
    exact second b right
  · exact led_mul first m _ ⟨a, left, b, right, rfl⟩

theorem led_group (missing : Gap → Language Symbol) (g : Group) : Led (group missing g) :=
  led_mul (led_mul (led_token _) _) _

theorem led_contextNames : Led contextNames :=
  led_mul (led_mul (led_nodeOf (by decide) (by decide)) _) _

/-- An element comes first in no node but a file. -/
theorem led_production (missing : Gap → Language Symbol) {k : Kind} (notError : k ≠ .error)
    (notFile : k ≠ .file) : Led (production missing k) := by
  cases k with
  | object => exact led_maybe_mul (led_nodeOf (by decide) (by decide)) (led_group missing _)
  | contextBlock => exact led_mul led_contextNames _
  | contextualStatement => exact led_mul led_contextNames _
  | contextName => exact led_mul (led_tokenOf _) _
  | invocationElement => exact led_nodeOf (by decide) (by decide)
  | invocationExpression => exact led_mul (led_nodeOf (by decide) (by decide)) _
  | variableDeclaration => exact led_mul (led_token _) _
  | property => exact led_mul (led_nodeOf (by decide) (by decide)) _
  | constructorReference => exact led_nodeOf (by decide) (by decide)
  | referenceExpression => exact led_mul (led_token _) _
  | contextualPropertyReference => exact led_mul (led_token _) _
  | stringLiteral => exact led_tokenOf _
  | numberLiteral => exact led_token _
  | booleanLiteral => exact led_tokenOf _
  | nullLiteral => exact led_token _
  | file => exact absurd rfl notFile
  | error => exact absurd rfl notError
  | _ => exact fun w none => absurd none (Language.notMem_zero w)

end

end Schema

theorem Token.isTrivia_of_lead (ts : List Token) :
    ∀ t ∈ ts.take (triviaLength ts), t.isTrivia = true := by
  intro t lead
  by_contra visible
  have seen : t ∈ significant (ts.take (triviaLength ts)) :=
    List.mem_filter.mpr ⟨lead, by simpa using visible⟩
  rw [significant_lead] at seen
  cases seen

namespace Part

theorem nodes_leaves (above : List Frame) (start : Nat) (before : List Tree) (ts : List Token) :
    (ofTrees above start before (leaves ts)).filterMap (·.node?) = [] := by
  induction ts generalizing start before with
  | nil => rfl
  | cons t ts ih => exact ih (start + t.text.utf8ByteSize) (t.leaf :: before)

theorem nodes_wrapped (k : Kind) (inner : List Tree) (lead : List Token) (above : List Frame)
    (start : Nat) (before : List Tree) :
    (ofTrees above start before (leaves lead ++ [.node k inner])).filterMap (·.node?) =
      [⟨⟨k, inner, start + Tree.widthOfAll (leaves lead), (leaves lead).reverse ++ before⟩,
        above⟩] := by
  rw [ofTrees_append, List.filterMap_append, nodes_leaves]
  rfl

end Part

namespace Outline

theorem child_grow {o : Outline} {ts : List Token} {above : List Frame} {start stop : Nat}
    {before : List Tree} (tiled : Tiled start stop ts) {n : Node}
    (child : n ∈ (Part.ofTrees above start before (o.grow ts).1).filterMap (·.node?)) :
    o.symbol.isNode n.kind = true ∧
      n.before = (leaves (ts.take (triviaLength ts))).reverse ++ before ∧
      ∃ origin ∈ o.origins ts, origin.tokens = ts.drop (triviaLength ts) ∧
        Stems stop n origin := by
  have inside := tiled_drop tiled (triviaLength ts)
  cases o with
  | token k =>
      rw [grow, Part.nodes_leaves] at child
      cases child
  | gap g => cases child
  | skipped why ks =>
      rw [grow, Part.nodes_wrapped] at child
      rw [List.mem_singleton.mp child]
      exact ⟨rfl, rfl, _, List.mem_cons_self, rfl, rfl, by rw [growAll_tokens], inside⟩
  | node k parts =>
      rw [grow, Part.nodes_wrapped] at child
      rw [List.mem_singleton.mp child]
      exact ⟨by simp [symbol, Symbol.isNode], rfl, _, List.mem_cons_self, rfl, rfl, rfl, inside⟩

/-- A child among those of some outlines stems from one of them, and the others in front are grown
in front of it. -/
theorem child_growAll {ps : List Outline} {ts : List Token} {above : List Frame} {start stop : Nat}
    {before : List Tree} (tiled : Tiled start stop ts) {n : Node}
    (child : n ∈ (Part.ofTrees above start before (growAll ps ts).1).filterMap (·.node?)) :
    ∃ front p back, ps = front ++ p :: back ∧ p.symbol.isNode n.kind = true ∧
      ∃ left, left = (growAll front ts).2 ∧
        n.before = (leaves (left.take (triviaLength left))).reverse ++
          ((growAll front ts).1.reverse ++ before) ∧
        ∃ origin ∈ p.origins left, origin.tokens = left.drop (triviaLength left) ∧
          Stems stop n origin := by
  induction ps generalizing ts start before with
  | nil => cases child
  | cons p ps ih =>
      rw [growAll, Part.ofTrees_append, List.filterMap_append] at child
      rcases List.mem_append.mp child with first | later
      · obtain ⟨kind, place, stems⟩ := child_grow tiled first
        exact ⟨[], p, ps, rfl, kind, ts, rfl, place, stems⟩
      · obtain ⟨front, q, back, rfl, kind, left, rest, place, stems⟩ :=
          ih (tiled_grow p tiled) later
        refine ⟨p :: front, q, back, rfl, kind, left, rest, ?_, stems⟩
        rw [place, growAll, List.reverse_append, List.append_assoc]

theorem fits_append {front back : List Outline} {ts : List Token}
    (fits : kindsOfAll (front ++ back) <+: kindsBefore ts) :
    kindsOfAll front <+: kindsBefore ts ∧ kindsOfAll back <+: kindsBefore (growAll front ts).2 := by
  rw [kindsOfAll_append] at fits
  refine ⟨(List.prefix_append _ _).trans fits, ?_⟩
  rw [kindsBefore, significant_growAll, List.map_drop]
  exact prefix_drop fits

/-- Some tokens are in front of an element, but in a file. -/
theorem filled_front {k k' : Kind} {front back : List Outline} {p : Outline}
    (symbols : (front ++ p :: back).map symbol ∈ Schema.production Schema.gap k)
    (shaped : ∀ o ∈ front, o.Shaped) (notFile : k ≠ .file)
    (element : k' ∈ Kind.objectElements) (kind : p.symbol.isNode k' = true) :
    kindsOfAll front ≠ [] := by
  have notError : k ≠ .error := by
    rintro rfl
    obtain ⟨j, token⟩ := symbols p.symbol (by simp)
    rw [token] at kind
    cases kind
  obtain ⟨s, rest, list, firm, others⟩ :=
    Schema.led_production Schema.gap notError notFile _ symbols
  cases front with
  | nil =>
      obtain ⟨same, -⟩ := List.cons.inj list
      rw [same, others k' element] at kind
      cases kind
  | cons o front =>
      obtain ⟨rfl, -⟩ := List.cons.inj list
      exact kinds_ne_nil_of_mem List.mem_cons_self
        ((shaped o List.mem_cons_self).kinds_ne_nil firm)

theorem first_of_stem {stop : Nat} {n : Node} {o : Origin} (stem : Stems stop n o)
    (sound : o.Sound) (led : Led o.tokens) (firm : o.kind ≠ .error ∧ o.kind ≠ .file) :
    ∃ t more, o.tokens = t :: more ∧ t.isTrivia = false ∧ t.offset = n.start ∧
      (Tree.leavesOfAll n.trees).head? = some (t.kind, t.text) := by
  obtain ⟨front, split, -, leaves⟩ :=
    taken_growAll sound.shaped (no_file_of_symbols sound.symbols) sound.fits
  cases front with
  | nil =>
      have filled : kindsOfAll o.parts ≠ [] :=
        Shaped.kinds_ne_nil (.node o.kind o.parts sound.symbols sound.shaped) firm
      exact absurd (kinds_eq_nil sound.fits split) filled
  | cons t front =>
      have tiled := stem.tiled
      rw [split] at tiled led
      refine ⟨t, _, split, led t rfl, tiled.1, ?_⟩
      rw [stem.trees, leaves]
      rfl

theorem Ends.extend {before front back : List Token} {trees : List Tree}
    (ends : Ends front back trees) (first : front = [] → before = []) :
    Ends (before ++ front) back trees := by
  cases ends with
  | seen t last visible =>
      exact .seen t (List.mem_getLast?_append_of_mem_getLast? last) visible
  | nothing none empty =>
      rw [first none, none]
      exact .nothing rfl empty
  | bare led t last bare => exact .bare led t last bare

theorem last_of_taken {front back : List Token} {trees : List Tree} (ends : Ends front back trees)
    (leaves : Tree.leavesOfAll trees = front.map fun t => (t.kind, t.text)) :
    ∀ u ∈ trees.getLast?, u.isTrivia = false := by
  intro u last
  cases u with
  | node k us => rfl
  | token k s =>
      cases ends with
      | seen t found visible =>
          obtain ⟨before, rfl⟩ := List.getLast?_eq_some_iff.mp last
          have final := congrArg List.getLast? leaves
          rw [Tree.leavesOfAll_append, List.getLast?_map, found] at final
          have same : (k, s) = (t.kind, t.text) := by
            simpa [Tree.leavesOfAll, Tree.leaves] using final
          rw [Tree.isTrivia, (Prod.mk.inj same).1]
          exact visible
      | nothing none empty =>
          rw [empty] at last
          cases last
      | bare led v found bare =>
          rw [found] at last
          rw [Option.some.inj last] at bare
          cases bare

end Outline

open Outline (growAll kindsOfAll kindsBefore Ends)

structure Node.Grown (p : Node) (text : String) (ps : List Outline) (ts : List Token) : Prop where
  children : p.children =
    (Part.ofTrees (p.toFrame :: p.above) p.start [] (growAll ps ts).1).filterMap (·.node?)
  tiled : Tiled p.start text.utf8ByteSize ts
  suffix : ts <:+ lex text
  sound : Outline.Origin.Sound ⟨p.kind, ps, ts⟩

section

variable {limits : Limits} {text : String} {n p : Node}

theorem grown_fileNode (limits : Limits) (text : String) :
    (fileNode limits text).Grown text (outline limits (lex text)) (lex text) where
  children := by
    have others (ts : List Token) : (ts.map Part.token).filterMap (·.node?) = [] := by
      simp [Part.node?]
    rw [Node.children, parts_fileNode, List.filterMap_append, others, List.append_nil]
    rfl
  tiled := lex_tiled text
  suffix := List.suffix_rfl
  sound := by
    have reading := outline_reading limits (lex text)
    exact ⟨reading.symbols, reading.shaped, by rw [kinds_outline]⟩

theorem exists_grown (member : p ∈ (fileNode limits text).descendants) :
    ∃ ps ts, p.Grown text ps ts ∧ (p = fileNode limits text → ts = lex text) := by
  by_cases top : p = fileNode limits text
  · exact ⟨_, _, top ▸ grown_fileNode limits text, fun _ => rfl⟩
  · obtain ⟨o, present, stem⟩ := (origin_of_descendant member).resolve_left top
    refine ⟨o.parts, o.tokens, ⟨?_, stem.tiled, ?_, ?_⟩, fun same => absurd same top⟩
    · rw [Node.children, Node.parts, stem.trees]
    · exact Outline.originsOfAll_suffix _ _ o present
    · rw [stem.kind]
      exact sound_outline limits text o present

theorem Node.Grown.kind_of_child {ps : List Outline} {ts : List Token} (grown : p.Grown text ps ts)
    (child : n ∈ p.children) : n.kind ≠ .file := by
  rw [grown.children] at child
  obtain ⟨front, q, back, rfl, kind, -⟩ := Outline.child_growAll grown.tiled child
  intro file
  have never := Outline.no_file_of_symbols grown.sound.symbols q (by simp)
  rw [file, never] at kind
  cases kind

theorem kind_of_below (member : p ∈ (fileNode limits text).descendants)
    (below : p ≠ fileNode limits text) : p.kind ≠ .file := by
  obtain ⟨q, inside, child⟩ := (Node.exists_parent member).resolve_left below
  obtain ⟨ps, ts, grown, -⟩ := exists_grown inside
  exact grown.kind_of_child child

/-- In front of an element are the tokens that the parts of the node above it are grown from, or the
start of the text. -/
theorem exists_before (member : n ∈ (fileNode limits text).descendants)
    (element : n.kind ∈ Kind.objectElements) :
    ∃ front lead t behind trees, lex text = front ++ (lead ++ t :: behind) ∧
      (∀ u ∈ lead, u.isTrivia = true) ∧ t.isTrivia = false ∧ t.offset = n.start ∧
      (Tree.leavesOfAll n.trees).head? = some (t.kind, t.text) ∧
      n.before = (leaves lead).reverse ++ trees.reverse ∧
      Ends front (lead ++ t :: behind) trees ∧ ∀ u ∈ trees.getLast?, u.isTrivia = false := by
  have below : n ≠ fileNode limits text := by
    rintro rfl
    have file : Kind.file ∈ Kind.objectElements := element
    exact absurd file (by decide)
  obtain ⟨p, inside, child⟩ := (Node.exists_parent member).resolve_left below
  obtain ⟨ps, ts, grown, whole⟩ := exists_grown inside
  have sound := grown.sound
  rw [grown.children] at child
  obtain ⟨first, q, last, rfl, kind, left, rest, place, origin, present, tokens, stem⟩ :=
    Outline.child_growAll grown.tiled child
  have shaped := fun o member => sound.shaped o (List.mem_append_left _ member)
  obtain ⟨fits, behind⟩ := Outline.fits_append sound.fits
  obtain ⟨taken, split, ends, leaves⟩ := Outline.taken_growAll shaped
    (fun o member => Outline.no_file_of_symbols sound.symbols o (List.mem_append_left _ member))
    fits
  rw [← rest] at behind
  have own : origin.Sound := Outline.sound_origins q (sound.shaped q (by simp))
    (Outline.fits_split behind).1 origin present
  have firm : origin.kind ≠ .error ∧ origin.kind ≠ .file := by
    have firm : ∀ k ∈ Kind.objectElements, k ≠ .error ∧ k ≠ .file := by decide
    rw [← stem.kind]
    exact firm _ element
  obtain ⟨t, behind, head, visible, offset, leaf⟩ :=
    Outline.first_of_stem stem own (tokens ▸ Outline.led_behind left) firm
  obtain ⟨before, suffix⟩ := grown.suffix
  have rest' : left = left.take (triviaLength left) ++ t :: behind := by
    rw [← head, tokens, List.take_append_drop]
  refine ⟨before ++ taken, left.take (triviaLength left), t, behind, (growAll first ts).1, ?_, ?_,
    visible, offset, leaf, ?_, ?_, ?_⟩
  · rw [← suffix, List.append_assoc, ← rest', rest, ← split]
  · exact Token.isTrivia_of_lead left
  · rw [place, List.append_nil]
  · rw [← rest', rest]
    refine ends.extend fun none => ?_
    -- An element comes first in a file only, and a file has all tokens.
    subst none
    have top : p = fileNode limits text := by
      by_contra below
      exact Outline.filled_front sound.symbols shaped (kind_of_below inside below) element kind
        (Outline.kinds_eq_nil fits split)
    rw [whole top] at suffix
    simpa using suffix
  · exact Outline.last_of_taken ends leaves

end

end ConfigSyntax
