import ConfigSyntax.Proofs.Places
import ConfigSyntax.Proofs.Progress

/-! How what is read ends: with a token the grammar sees, or with an empty error in front of one.
Main statement: `ends_growAll`. -/

namespace ConfigSyntax

open Event (triviaLength)
open Token (significant leaves)

/-- The last trees lead to an error without tokens. -/
inductive Tree.EndsBare : Tree → Prop
  | error : EndsBare (.node .error [])
  | last {t : Tree} (k : Kind) (front : List Tree) (bare : EndsBare t) :
    EndsBare (.node k (front ++ [t]))

namespace Schema

open scoped Computability

theorem no_file (k : Kind) : Over (fun s => s.isNode .file = false) (production gap k) := by
  have nodes {ks : List Kind} (other : ∀ k ∈ ks, k ≠ .file) :
      Over (fun s => s.isNode .file = false) (nodeOf ks) :=
    over_nodeOf fun k known _ => by simpa [Symbol.isNode] using other k known
  have token (k : Kind) : Over (fun s => s.isNode .file = false) (token k) := over_token rfl
  have tokenOf (ks : List Kind) : Over (fun s => s.isNode .file = false) (tokenOf ks) :=
    over_tokenOf fun _ _ => rfl
  have gap (g : Gap) : Over (fun s => s.isNode .file = false) (gap g) := over_gap rfl
  have construct (c : Construct) : Over (fun s => s.isNode .file = false) (construct c) :=
    fun w word => by
      cases c <;> exact nodes (by decide) w (nodeOf_of_construct word)
  have object : Over (fun s => s.isNode .file = false) plainObject := by
    intro w member s present
    rw [show w = [.node .object false] from member] at present
    rw [List.mem_singleton.mp present]
    rfl
  have group (g : Group) : Over (fun s => s.isNode .file = false) (group Schema.gap g) :=
    over_mul (over_mul (token _) (over_star (over_mul (construct _) (over_add over_one (token _)))))
      (over_add (token _) (gap _))
  have names : Over (fun s => s.isNode .file = false) contextNames :=
    over_contextNames (fun _ => rfl) rfl
  cases k with
  | file => exact over_star (construct _)
  | object => exact over_mul (over_add over_one (nodes (by decide))) (group _)
  | contextBlock => exact over_mul names (group _)
  | contextualStatement => exact over_mul names (over_add (nodes (by decide)) (gap _))
  | contextName => exact over_mul (tokenOf _) (over_add (token _) (gap _))
  | invocationElement => exact nodes (by decide)
  | invocationExpression => exact over_mul (nodes (by decide)) (group _)
  | variableDeclaration =>
      exact over_mul (token _) (over_add (gap _) (over_mul (token _)
        (over_add (gap _) (over_mul (token _) (construct _)))))
  | property =>
      exact over_mul (nodes (by decide)) (over_add (over_add over_one
        (over_mul (token _) (construct _))) object)
  | constructorReference => exact nodes (by decide)
  | referenceExpression =>
      exact over_mul (token _) (over_star (over_mul (token _) (token _)))
  | contextualPropertyReference => exact over_mul (token _) (nodes (by decide))
  | stringLiteral => exact tokenOf _
  | numberLiteral => exact token _
  | booleanLiteral => exact tokenOf _
  | nullLiteral => exact token _
  | error =>
      intro w word s present
      obtain ⟨k, rfl⟩ := word s present
      rfl
  | _ => exact fun w none => absurd none (Language.notMem_zero w)

end Schema

namespace Outline

theorem no_file_of_symbols {k : Kind} {parts : List Outline}
    (symbols : parts.map symbol ∈ Schema.production Schema.gap k) :
    ∀ p ∈ parts, p.symbol.isNode .file = false :=
  fun _ member => Schema.no_file k _ symbols _ (List.mem_map_of_mem member)

theorem last_reach_one {ts : List Token} (seen : significant ts ≠ []) :
    ∃ t, (ts.take (reach 1 ts)).getLast? = some t ∧ t.isTrivia = false := by
  induction ts with
  | nil => exact absurd rfl seen
  | cons t ts ih =>
      by_cases blank : t.isTrivia = true
      · have rest : significant ts ≠ [] := by simpa [significant, blank] using seen
        obtain ⟨u, last, visible⟩ := ih rest
        have longer : reach 1 (t :: ts) = reach 1 ts + 1 := by
          simp [reach, triviaLength, blank]
        refine ⟨u, ?_, visible⟩
        rw [longer, List.take_succ_cons, List.getLast?_cons, last]
        rfl
      · exact ⟨t, by simp [reach, triviaLength, blank], by simpa using blank⟩

/-- Up to a token that the grammar sees, no blank comes last. -/
theorem last_reach (n : Nat) {ts : List Token} (enough : n < (significant ts).length) :
    ∃ t, (ts.take (reach (n + 1) ts)).getLast? = some t ∧ t.isTrivia = false := by
  induction n generalizing ts with
  | zero => exact last_reach_one (List.ne_nil_of_length_pos enough)
  | succ n ih =>
      have rest : n < (significant (ts.drop (reach 1 ts))).length := by
        rw [Token.significant_drop_one, List.length_drop]
        omega
      obtain ⟨t, last, visible⟩ := ih rest
      refine ⟨t, ?_, visible⟩
      rw [reach_succ (n + 1), List.take_add]
      exact List.mem_getLast?_append_of_mem_getLast? last

/-- How the tokens `front` end that some trees take, with the tokens `back` behind them. -/
inductive Ends (front back : List Token) (trees : List Tree) : Prop
  | seen (t : Token) (last : front.getLast? = some t) (visible : t.isTrivia = false)
  | nothing (none : front = []) (empty : trees = [])
  | bare (led : Led back) (t : Tree) (last : trees.getLast? = some t) (bare : t.EndsBare)

theorem Ends.append {front middle back : List Token} {trees trees' : List Tree}
    (first : Ends front (middle ++ back) trees) (second : Ends middle back trees') :
    Ends (front ++ middle) back (trees ++ trees') := by
  cases second with
  | seen t last visible =>
      exact .seen t (List.mem_getLast?_append_of_mem_getLast? last) visible
  | nothing none empty =>
      subst none empty
      simpa using first
  | bare led t last bare =>
      exact .bare led t (List.mem_getLast?_append_of_mem_getLast? last) bare

theorem Ends.lead {lead front back : List Token} {trees : List Tree} (ends : Ends front back trees)
    (k : Kind) (filled : front = [] → trees = [] → k = .error ∧ Led back) :
    Ends (lead ++ front) back (leaves lead ++ [.node k trees]) := by
  have last : (leaves lead ++ [Tree.node k trees]).getLast? = some (.node k trees) :=
    List.getLast?_concat
  cases ends with
  | seen t last visible =>
      exact .seen t (List.mem_getLast?_append_of_mem_getLast? last) visible
  | nothing none empty =>
      obtain ⟨rfl, led⟩ := filled none empty
      subst empty
      exact .bare led _ last .error
  | bare led t inner bare =>
      refine .bare led _ last ?_
      obtain ⟨before, rfl⟩ := List.getLast?_eq_some_iff.mp inner
      exact .last k before bare

theorem length_of_fits {ks : List Kind} {ts : List Token} (fits : ks <+: kindsBefore ts) :
    ks.length ≤ (significant ts).length := by
  have le := fits.length_le
  rwa [kindsBefore, List.length_map] at le

theorem kinds_eq_nil {ps : List Outline} {ts : List Token} (fits : kindsOfAll ps <+: kindsBefore ts)
    (none : ts = (growAll ps ts).2) : kindsOfAll ps = [] := by
  have taken := significant_growAll ps ts
  rw [← none] at taken
  have length := congrArg List.length taken
  rw [List.length_drop] at length
  have := length_of_fits fits
  exact List.length_eq_zero_iff.mp (by omega)

mutual

theorem ends_grow : ∀ (o : Outline) {ts : List Token} (_ : o.Shaped)
    (_ : o.symbol.isNode .file = false) (_ : o.kinds <+: kindsBefore ts),
    ∃ front, ts = front ++ (o.grow ts).2 ∧ Ends front (o.grow ts).2 (o.grow ts).1
  | .token k, ts, _, _, fits => by
      obtain ⟨t, last, visible⟩ := last_reach 0 (length_of_fits fits)
      exact ⟨_, (List.take_append_drop _ ts).symm, .seen t last visible⟩
  | .gap g, ts, _, _, _ => ⟨[], rfl, .nothing rfl rfl⟩
  | .skipped why [], ts, _, _, fits => by
      have led := led_behind ts
      refine ⟨ts.take (triviaLength ts) ++ [], ?_, Ends.lead (.nothing rfl rfl) .error fun _ _ =>
        ⟨rfl, led⟩⟩
      rw [List.append_nil]
      exact (List.take_append_drop _ ts).symm
  | .skipped why (k :: ks), ts, _, _, fits => by
      obtain ⟨t, last, visible⟩ := last_reach ks.length (length_of_fits (fits_behind fits))
      refine ⟨ts.take (triviaLength ts) ++ _, ?_, Ends.lead (.seen t last visible) .error
        fun none => ?_⟩
      · rw [List.append_assoc, grow, List.length_cons, List.take_append_drop,
          List.take_append_drop]
      · rw [none] at last
        cases last
  | .node k parts, ts, shaped, other, fits => by
      cases shaped with
      | node _ _ symbols within =>
          obtain ⟨front, split, ends⟩ := ends_growAll parts within (no_file_of_symbols symbols)
            (fits_behind fits)
          refine ⟨ts.take (triviaLength ts) ++ front, ?_, ends.lead k fun none _ => ?_⟩
          · rw [List.append_assoc, grow, ← split, List.take_append_drop]
          · rw [none, List.nil_append] at split
            have bare : kindsOfAll parts = [] := kinds_eq_nil (fits_behind fits) split
            have error : k = .error := by
              by_contra notError
              refine Shaped.kinds_ne_nil (.node k parts symbols within) ⟨notError, ?_⟩ bare
              simpa [symbol, Symbol.isNode] using other
            rw [← split]
            exact ⟨error, led_behind ts⟩

theorem ends_growAll : ∀ (ps : List Outline) {ts : List Token} (_ : ∀ p ∈ ps, p.Shaped)
    (_ : ∀ p ∈ ps, p.symbol.isNode .file = false) (_ : kindsOfAll ps <+: kindsBefore ts),
    ∃ front, ts = front ++ (growAll ps ts).2 ∧ Ends front (growAll ps ts).2 (growAll ps ts).1
  | [], ts, _, _, _ => ⟨[], rfl, .nothing rfl rfl⟩
  | p :: ps, ts, shaped, other, fits => by
      obtain ⟨first, rest⟩ := fits_split fits
      obtain ⟨front, split, ends⟩ := ends_grow p (shaped p List.mem_cons_self)
        (other p List.mem_cons_self) first
      obtain ⟨front', split', ends'⟩ := ends_growAll ps
        (fun q member => shaped q (List.mem_cons_of_mem _ member))
        (fun q member => other q (List.mem_cons_of_mem _ member)) rest
      refine ⟨front ++ front', ?_, ?_⟩
      · rw [List.append_assoc, growAll, ← split', ← split]
      · rw [split'] at ends
        exact ends.append ends'

end

end Outline

end ConfigSyntax
