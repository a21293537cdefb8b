import ConfigSyntax.Proofs.Faults
import ConfigSyntax.Proofs.Lacks
import ConfigSyntax.Proofs.Origin

/-! The gaps among the faults: each belongs to the node whose part it is. Main statement:
`gaps_faultsOfAll`. -/

namespace ConfigSyntax

open scoped Computability

def Fault.isGap (f : Fault) : Bool :=
  match f.cause with
  | .gap .. => true
  | _ => false

theorem Token.not_gap_of_fault? {t : Token} {f : Fault} (fault : t.fault? = some f) :
    f.isGap = false := by
  have cause := Token.cause_of_fault? fault
  unfold Fault.isGap
  split
  · simp_all
  · rfl

namespace Outline

open Token (significant)
open Event (triviaLength)

def gaps (last : Token) : Option Token → List Outline → List Token → List Fault
  | _, [], _ => []
  | opener, .gap g :: ps, ts => ⟨.gap g opener, ts.headD last⟩ :: gaps last opener ps ts
  | opener, p :: ps, ts => gaps last (opener? opener p ts) ps (ts.drop p.kinds.length)

def openerOf : Option Token → List Outline → List Token → Option Token
  | opener, [], _ => opener
  | opener, p :: ps, ts => openerOf (opener? opener p ts) ps (ts.drop p.kinds.length)

theorem gaps_cons (last : Token) (opener : Option Token) (p : Outline) (ps : List Outline)
    (ts : List Token) : gaps last opener (p :: ps) ts =
      gaps last opener [p] ts ++
        gaps last (opener? opener p ts) ps (ts.drop p.kinds.length) := by
  cases p with
  | gap g => rfl
  | _ => simp [gaps]

theorem gaps_of_whole (last : Token) (opener : Option Token) {ps : List Outline}
    (whole : ∀ p ∈ ps, p.symbol.gap? = none) (ts : List Token) : gaps last opener ps ts = [] := by
  induction ps generalizing opener ts with
  | nil => rfl
  | cons p ps ih =>
      have none : gaps last opener [p] ts = [] := by
        cases p with
        | gap g => cases whole _ List.mem_cons_self
        | _ => simp [gaps]
      rw [gaps_cons, none, List.nil_append]
      exact ih _ (fun q member => whole q (List.mem_cons_of_mem p member)) _

theorem gaps_append (last : Token) (opener : Option Token) (front back : List Outline)
    (ts : List Token) : gaps last opener (front ++ back) ts =
      gaps last opener front ts ++
        gaps last (openerOf opener front ts) back (ts.drop (kindsOfAll front).length) := by
  induction front generalizing opener ts with
  | nil => rfl
  | cons p ps ih =>
      rw [List.cons_append, gaps_cons, ih, ← List.append_assoc, ← gaps_cons, List.drop_drop,
        kindsOfAll, List.length_append]
      rfl

theorem openerOf_gap (opener : Option Token) (ps : List Outline) (g : Gap) (ts : List Token) :
    openerOf opener (ps ++ [.gap g]) ts = openerOf opener ps ts := by
  induction ps generalizing opener ts with
  | nil => rfl
  | cons p ps ih => exact ih _ _

/-- A gap behind all other parts knows the opener among them. -/
theorem gaps_of_endsWith (last : Token) (opener : Option Token) {ps : List Outline}
    {g : Option Gap} (ends : Schema.EndsWith (ps.map symbol) g) (ts : List Token) :
    gaps last opener ps ts = (g.map fun g => (⟨.gap g (openerOf opener ps ts),
      (ts.drop (kindsOfAll ps).length).headD last⟩ : Fault)).toList := by
  obtain ⟨front, word, whole⟩ := ends
  obtain ⟨before, behind, rfl, rfl, symbols⟩ := List.map_eq_append_iff.mp word
  have quiet : ∀ p ∈ before, p.symbol.gap? = none :=
    fun p member => whole _ (List.mem_map_of_mem member)
  rw [gaps_append, gaps_of_whole last opener quiet, List.nil_append]
  cases g with
  | none =>
      rw [List.map_eq_nil_iff.mp symbols]
      rfl
  | some g =>
      obtain ⟨p, rfl, symbol⟩ := List.map_eq_singleton_iff.mp symbols
      cases p with
      | gap g' =>
          cases symbol
          rw [openerOf_gap, kindsOfAll_append]
          simp [gaps, kinds]
      | _ => cases symbol

def gapsOfAll (last : Token) (origins : List Origin) : List Fault :=
  origins.flatMap fun o => gaps last none o.parts (significant o.tokens)

theorem gapsOfAll_append (last : Token) (front back : List Origin) :
    gapsOfAll last (front ++ back) = gapsOfAll last front ++ gapsOfAll last back :=
  List.flatMap_append

theorem filter_token_faults (ts : List Token) :
    (ts.filterMap Token.fault?).filter (·.isGap) = [] := by
  rw [List.filter_eq_nil_iff]
  intro f member
  obtain ⟨t, -, fault⟩ := List.mem_filterMap.mp member
  rw [Token.not_gap_of_fault? fault]
  exact Bool.false_ne_true

theorem perm_halves {α : Type} {l l' first first' second second' : List α}
    (split : l.Perm (first ++ second)) (split' : l'.Perm (first' ++ second')) :
    (l ++ l').Perm ((first ++ first') ++ (second ++ second')) := by
  have swap : (second ++ first').Perm (first' ++ second) := List.perm_append_comm
  have moved := (swap.append_right second').append_left first
  simp only [List.append_assoc] at moved ⊢
  exact (split.append split').trans (by simpa only [List.append_assoc] using moved)

theorem gaps_tokens (last : Token) (ks : List Kind) (ts : List Token) :
    gaps last none (ks.map .token) ts = [] := by
  apply gaps_of_whole
  intro p member
  obtain ⟨k, -, rfl⟩ := List.mem_map.mp member
  rfl

mutual

theorem gaps_faults (last : Token) (opener : Option Token) : ∀ (o : Outline) (ts : List Token),
    ((faults last opener o (significant ts)).1.filter (·.isGap)).Perm
      (gaps last opener [o] (significant ts) ++ gapsOfAll last (o.origins ts))
  | .token k, ts => by
      rw [faults, Token.head?_faults, filter_token_faults]
      exact .refl _
  | .gap g, ts => .refl _
  | .skipped why ks, ts => by
      have quiet := filter_token_faults ((significant ts).take ks.length)
      rw [faults, List.filter_cons_of_neg Bool.false_ne_true, quiet, origins, gapsOfAll,
        List.flatMap_singleton, gaps_tokens]
      exact .refl _
  | .node k parts, ts => by
      have inside := gaps_faultsOfAll last none parts (ts.drop (triviaLength ts))
      rw [Token.significant_behind] at inside
      rw [faults, origins, gapsOfAll, List.flatMap_cons, Token.significant_behind]
      exact inside

theorem gaps_faultsOfAll (last : Token) (opener : Option Token) :
    ∀ (ps : List Outline) (ts : List Token),
    ((faultsOfAll last opener ps (significant ts)).1.filter (·.isGap)).Perm
      (gaps last opener ps (significant ts) ++ gapsOfAll last (originsOfAll ps ts))
  | [], _ => .refl _
  | p :: ps, ts => by
      have first := gaps_faults last opener p ts
      have more := gaps_faultsOfAll last (opener? opener p (significant ts)) ps (p.grow ts).2
      rw [significant_grow] at more
      rw [faultsOfAll, List.filter_append, faults_rest, originsOfAll, gapsOfAll_append,
        gaps_cons]
      exact perm_halves first more

end

def mine : Outline → List Token → List Token
  | .token _, ts => ts.take 1
  | _, _ => []

def own : List Outline → List Token → List Token
  | [], _ => []
  | p :: ps, ts => mine p ts ++ own ps (ts.drop p.kinds.length)

theorem kinds_mine {p : Outline} {ts : List Token} (fits : p.kinds <+: ts.map (·.kind)) :
    ((mine p ts).filter (·.kind.isOpener)).map (·.kind) = [p.symbol].filterMap Symbol.opener? := by
  cases p with
  | token k =>
      obtain ⟨more, split⟩ := fits
      obtain ⟨t, rest, rfl, rfl, -⟩ := List.map_eq_cons_iff.mp split.symm
      by_cases opens : t.kind.isOpener = true
      · simp [mine, symbol, Symbol.opener?, opens]
      · simp [mine, symbol, Symbol.opener?, opens]
  | _ => rfl

theorem kinds_own {ps : List Outline} {ts : List Token}
    (fits : kindsOfAll ps <+: ts.map (·.kind)) :
    ((own ps ts).filter (·.kind.isOpener)).map (·.kind) =
      (ps.map symbol).filterMap Symbol.opener? := by
  induction ps generalizing ts with
  | nil => rfl
  | cons p ps ih =>
      rw [own, List.filter_append, List.map_append, kinds_mine (fits_head fits),
        ih (fits_tail fits), ← List.filterMap_append]
      rfl

theorem opener?_eq {p : Outline} {ts : List Token} (fits : p.kinds <+: ts.map (·.kind))
    (opener : Option Token) :
    opener? opener p ts = ((mine p ts).filter (·.kind.isOpener)).getLast?.or opener := by
  cases p with
  | token k =>
      obtain ⟨more, split⟩ := fits
      obtain ⟨t, rest, rfl, rfl, -⟩ := List.map_eq_cons_iff.mp split.symm
      by_cases opens : t.kind.isOpener = true
      · simp [mine, opener?, opens]
      · simp [mine, opener?, opens]
  | _ => rfl

/-- The opener is the last one among the tokens of the node. -/
theorem openerOf_eq {ps : List Outline} {ts : List Token}
    (fits : kindsOfAll ps <+: ts.map (·.kind)) (opener : Option Token) :
    openerOf opener ps ts = ((own ps ts).filter (·.kind.isOpener)).getLast?.or opener := by
  induction ps generalizing opener ts with
  | nil => rfl
  | cons p ps ih =>
      rw [openerOf, ih (fits_tail fits), opener?_eq (fits_head fits), own, List.filter_append,
        List.getLast?_append, Option.or_assoc]

end Outline
end ConfigSyntax
