import ConfigSyntax.Proofs.Missing

/-! Where tokens stand: no two at one place, and each in one node. Main statements:
`tokenize_sorted`, `tokens_descendants`. -/

namespace ConfigSyntax

open Event (triviaLength)

namespace Token

theorem Tiled.sorted {start stop : Nat} {ts : List Token} (tiled : Tiled start stop ts) :
    ts.Pairwise (·.offset < ·.offset) := by
  induction ts generalizing start with
  | nil => exact .nil
  | cons t ts ih =>
      obtain ⟨first, positive, rest⟩ := tiled
      refine .cons (fun u member => ?_) (ih rest)
      have := rest.le_offset member
      omega

end Token

theorem tokenize_sorted (text : String) : (tokenize text).Pairwise (·.offset < ·.offset) := by
  have tiled : Token.Tiled 0 text.utf8ByteSize (lex text ++ []) := by
    rw [List.append_nil]
    exact lex_tiled text
  refine List.pairwise_append.mpr ⟨(lex_tiled text).sorted, List.pairwise_singleton _ _, ?_⟩
  intro t member last same
  have before := tiled.offset_lt member
  rw [List.mem_singleton.mp same]
  rwa [← (lex_tiled text).stop_eq] at before

theorem token_of_offset {text : String} {t u : Token} (member : t ∈ tokenize text)
    (member' : u ∈ tokenize text) (same : t.offset = u.offset) : t = u := by
  obtain ⟨i, bound, rfl⟩ := List.mem_iff_getElem.mp member
  obtain ⟨j, bound', rfl⟩ := List.mem_iff_getElem.mp member'
  have sorted := List.pairwise_iff_getElem.mp (tokenize_sorted text)
  rcases Nat.lt_trichotomy i j with less | rfl | more
  · have := sorted i j bound bound' less
    omega
  · rfl
  · have := sorted j i bound' bound more
    omega

namespace Outline

open Token (significant)

theorem own_tokens (ks : List Kind) (ts : List Token) :
    own (ks.map .token) ts = ts.take ks.length := by
  induction ks generalizing ts with
  | nil => rfl
  | cons k ks ih =>
      rw [List.map_cons, own, ih, List.length_cons, Nat.add_comm, List.take_add]
      rfl

theorem own_append (front back : List Outline) (ts : List Token) :
    own (front ++ back) ts = own front ts ++ own back (ts.drop (kindsOfAll front).length) := by
  induction front generalizing ts with
  | nil => rfl
  | cons p ps ih =>
      rw [List.cons_append, own, ih, own, kindsOfAll, List.length_append, List.append_assoc,
        List.drop_drop]

def ownOfAll (origins : List Origin) : List Token :=
  origins.flatMap fun o => own o.parts (significant o.tokens)

theorem ownOfAll_append (front back : List Origin) :
    ownOfAll (front ++ back) = ownOfAll front ++ ownOfAll back := List.flatMap_append

mutual

theorem own_origins : ∀ (o : Outline) (ts : List Token),
    (mine o (significant ts) ++ ownOfAll (o.origins ts)).Perm
      ((significant ts).take o.kinds.length)
  | .token _, ts => by
      rw [origins, ownOfAll, List.flatMap_nil, List.append_nil]
      exact .refl _
  | .gap _, _ => .refl _
  | .skipped _ ks, ts => by
      rw [origins, ownOfAll, List.flatMap_singleton, own_tokens, Token.significant_behind]
      exact .refl _
  | .node _ parts, ts => by
      have inside := own_originsOfAll parts (ts.drop (triviaLength ts))
      rw [Token.significant_behind] at inside
      rw [origins, ownOfAll, List.flatMap_cons, Token.significant_behind]
      exact inside

/-- Each token that the parts take away is a token of the node itself, or of one below it. -/
theorem own_originsOfAll : ∀ (ps : List Outline) (ts : List Token),
    (own ps (significant ts) ++ ownOfAll (originsOfAll ps ts)).Perm
      ((significant ts).take (kindsOfAll ps).length)
  | [], _ => .refl _
  | p :: ps, ts => by
      have more := own_originsOfAll ps (p.grow ts).2
      rw [significant_grow] at more
      rw [own, originsOfAll, ownOfAll_append, kindsOfAll, List.length_append, List.take_add]
      exact (perm_halves (own_origins p ts).symm more.symm).symm

end

theorem mem_own {ps : List Outline} {ts : List Token} {t : Token}
    (fits : kindsOfAll ps <+: ts.map (·.kind)) (member : t ∈ own ps ts) : .token t.kind ∈ ps := by
  induction ps generalizing ts with
  | nil => cases member
  | cons p ps ih =>
      rcases List.mem_append.mp member with member | member
      · cases p with
        | token k =>
            obtain ⟨more, split⟩ := fits_head fits
            obtain ⟨u, rest, rfl, rfl, -⟩ := List.map_eq_cons_iff.mp split.symm
            rw [List.mem_singleton.mp member]
            exact List.mem_cons_self
        | _ => cases member
      · exact List.mem_cons_of_mem p (ih (fits_tail fits) member)

def Led (ts : List Token) : Prop := ∀ t ∈ ts.head?, t.isTrivia = false

theorem led_behind (ts : List Token) : Led (ts.drop (triviaLength ts)) := by
  induction ts with
  | nil => nofun
  | cons t ts ih =>
      by_cases blank : t.isTrivia = true
      · simpa [triviaLength, blank] using ih
      · simp [triviaLength, blank, Led]

mutual

theorem origins_led : ∀ (o : Outline) (ts : List Token), ∀ origin ∈ o.origins ts, Led origin.tokens
  | .token _, _, _, member => by cases member
  | .gap _, _, _, member => by cases member
  | .skipped _ _, ts, origin, member => by
      rw [List.mem_singleton.mp member]
      exact led_behind ts
  | .node _ parts, ts, origin, member => by
      rcases List.mem_cons.mp member with rfl | member
      · exact led_behind ts
      · exact originsOfAll_led parts _ origin member

theorem originsOfAll_led : ∀ (ps : List Outline) (ts : List Token),
    ∀ origin ∈ originsOfAll ps ts, Led origin.tokens
  | [], _, _, member => by cases member
  | p :: ps, ts, origin, member => by
      rcases List.mem_append.mp member with member | member
      · exact origins_led p ts origin member
      · exact originsOfAll_led ps _ origin member

end

/-- A node starts where its first token does, or at the end of the text. -/
theorem start_of_stem {stop : Nat} {n : Node} {o : Origin} (stem : Stems stop n o)
    (led : Led o.tokens) : n.start = ((significant o.tokens).headD (.endAt stop)).offset := by
  have tiled := stem.tiled
  cases start : o.tokens with
  | nil =>
      rw [start] at tiled
      exact tiled
  | cons t ts =>
      rw [start] at tiled led
      have first : significant (t :: ts) = t :: significant ts :=
        List.filter_cons_of_pos (by rw [led t rfl]; rfl)
      rw [first]
      exact tiled.1.symm

end Outline

open Outline (originsOfAll kindsOfAll kindsBefore Stems ownOfAll)
open Token (significant)

theorem significant_tokens_fileNode (limits : Limits) (text : String) :
    significant (fileNode limits text).tokens =
      Outline.own (outline limits (lex text)) (significant (lex text)) := by
  have tiled := Outline.tiled_growAll (outline limits (lex text)) (lex_tiled text)
  have rest : significant (Outline.growAll (outline limits (lex text)) (lex text)).2 = [] :=
    significant_rest limits text
  rw [Node.tokens, Node.parts, fileNode, Part.ofTrees_append, List.filterMap_append,
    Token.significant_append, Part.tokens_leaves tiled, rest, List.append_nil]
  exact Part.tokens_growAll _ (lex_tiled text) _ _

theorem tokens_of_stems {stop : Nat} {nodes : List Node} {origins : List Outline.Origin}
    (stems : List.Forall₂ (Stems stop) nodes origins) :
    nodes.flatMap (significant ·.tokens) = ownOfAll origins := by
  induction stems with
  | nil => rfl
  | @cons n o nodes origins stem _ ih =>
      have first : significant n.tokens = Outline.own o.parts (significant o.tokens) :=
        Outline.tokens_of_stem stem
      rw [List.flatMap_cons, ih, first]
      rfl

theorem tokens_descendants (limits : Limits) (text : String) :
    ((fileNode limits text).descendants.flatMap (significant ·.tokens)).Perm
      (significant (lex text)) := by
  obtain ⟨nodes, list, stems⟩ := descendants_fileNode limits text
  have whole := Outline.own_originsOfAll (outline limits (lex text)) (lex text)
  have all : (significant (lex text)).take (kindsOfAll (outline limits (lex text))).length =
      significant (lex text) := by
    rw [kinds_outline, kindsBefore, List.length_map, List.take_length]
  rw [all] at whole
  rw [list, List.flatMap_cons, significant_tokens_fileNode, tokens_of_stems stems]
  exact whole

end ConfigSyntax
