import ConfigSyntax.Proofs.Acceptance
import ConfigSyntax.Proofs.Limited.Groups

/-! What is told of a text under a limit, where nothing is told of it with more nesting allowed.
Main statement: `parse_limited`. -/

namespace ConfigSyntax

open Grammar (limitedFile)
open Outline (ObeysAll Skips kindsBefore)
open Token (significant)

/-- `u` is the token after `t`, blanks apart. -/
def Adjacent (text : String) (t u : Token) : Prop := [t, u] <:+: significant (tokenize text)

instance (text : String) (t u : Token) : Decidable (Adjacent text t u) :=
  inferInstanceAs (Decidable (_ <:+: _))

example : Adjacent "f(1) { }" ⟨.closeParen, ")", 3⟩ ⟨.openBrace, "\x7b", 5⟩ := by decide +kernel

theorem adjacent_of_kinds {text : String} {ts us : List Token} {k : Kind} {u : Token}
    (suffix : ts <:+ lex text) (starts : significant ts = u :: us)
    (behind : k :: kindsBefore ts <:+ kindsBefore (lex text)) :
    ∃ t, t.kind = k ∧ Adjacent text t u := by
  obtain ⟨front, split⟩ := suffix
  obtain ⟨before, kinds⟩ := behind
  have whole : before ++ [k] ++ kindsBefore ts = kindsBefore front ++ kindsBefore ts := by
    rw [List.append_assoc, List.singleton_append, kinds, ← split]
    simp only [kindsBefore, Token.significant_append, List.map_append]
  obtain ⟨early, last, tokens, -, single⟩ :=
    List.map_eq_append_iff.mp (List.append_cancel_right whole).symm
  obtain ⟨t, rfl, kind⟩ := List.map_eq_singleton_iff.mp single
  refine ⟨t, kind, early, us ++ significant [.endAt text.utf8ByteSize], ?_⟩
  rw [tokenize, ← split, Token.significant_append, Token.significant_append, tokens, starts]
  simp

theorem Fault.code_of_unexpected {c : Context} {t : Token}
    (inside : Kind.closingDelimiters.contains t.kind = false) (other : c ≠ .argumentList) :
    (unexpectedDiagnostic c t).code = .unexpectedToken := by
  rw [unexpectedDiagnostic, inside, if_neg Bool.false_ne_true, if_neg other]
  rfl

/-- Where a token may be out of place under a limit, though nothing is with more nesting allowed: a
brace behind a comma or a parenthesis, and with less than two levels the comma of a context name. -/
def CutOff (limits : Limits) (text : String) (u : Token) : Prop :=
  ∃ t, Adjacent text t u ∧ (t.kind ∈ [.comma, .closeParen] ∧ u.kind = .openBrace ∨
    limits.maxDepth < Limits.leastDepth ∧ t.kind = .identifier ∧ u.kind = .comma)

section

variable {deeper : Limits} {text : String} (accepted : (parse deeper text).diagnostics = [])

include accepted

theorem clean_of_accepted : ∀ o ∈ outline deeper (lex text), o.Clean := by
  have silent := diagnostics_eq_nil.mp accepted
  refine Outline.clean_of_all_silent none (outline deeper (lex text)) (fun t member invalid => ?_)
    fun f present => silent f (mem_faults.mpr (Or.inr present))
  rcases List.mem_cons.mp member with rfl | member
  · cases invalid
  · exact diagnostics_of_invalid deeper (List.mem_of_mem_filter member) invalid accepted

/-- The faults that tokens have by themselves are the same under all limits. -/
theorem not_own_of_accepted {limits : Limits} {f : Fault} (fault : f ∈ faults limits text) :
    f.isOwn = false := by
  rw [← Bool.not_eq_true]
  intro own
  have lexical := (filter_own_faults limits text).mem_iff.mp (List.mem_filter.mpr ⟨fault, own⟩)
  have present := List.mem_of_mem_filter ((filter_own_faults deeper text).mem_iff.mpr lexical)
  obtain ⟨t, -, found⟩ := List.mem_filterMap.mp lexical
  have silent := diagnostics_eq_nil.mp accepted f present
  rw [Token.not_silent_of_fault? found] at silent
  cases silent

variable {limits : Limits}

theorem limited_outline :
    ObeysAll (limitedFile limits.maxDepth (kindsBefore (lex text))) (outline limits (lex text))
      (kindsBefore (lex text)) :=
  Grammar.file_follows (clean_of_accepted accepted)

theorem skip_of_accepted {f : Fault} (fault : f ∈ faults limits text) : f.isSkip = true := by
  have other := not_own_of_accepted accepted fault
  obtain ⟨cause, t⟩ := f
  cases cause with
  | skipped why => rfl
  | gap g opener =>
      exact absurd (mem_faults_of_outline fault rfl)
        (Outline.gap_of_fault _ none _ (limited_outline accepted))
  | _ => cases other

/-- What is skipped is too deep, or was cut off from a construct that is. -/
theorem code_of_accepted {f : Fault} (fault : f ∈ faults limits text) :
    f.report.code = .tooDeep ∨ f.report.code = .unexpectedToken ∧ CutOff limits text f.token := by
  obtain ⟨o, origin, pair⟩ := origin_of_skip (limited_outline accepted) fault
    (skip_of_accepted accepted fault)
  have suffix := Outline.originsOfAll_suffix _ _ o origin
  obtain ⟨why, run, same, -, -, lawful⟩ := pair.lawful
  obtain ⟨cause, t⟩ := f
  obtain rfl : cause = .skipped why := same
  have follows {k k' : Kind} (first : (kindsBefore o.tokens).head? = some k)
      (behind : k' :: kindsBefore o.tokens <:+ kindsBefore (lex text)) :
      t.kind = k ∧ ∃ before, before.kind = k' ∧ Adjacent text before t := by
    obtain ⟨ks, starts⟩ := List.head?_eq_some_iff.mp first
    obtain ⟨u, us, tokens, kind, -⟩ := List.map_eq_cons_iff.mp starts
    have shown := pair.shown
    rw [tokens] at shown
    obtain rfl : t = u := shown
    exact ⟨kind, adjacent_of_kinds suffix tokens behind⟩
  rcases lawful with (rfl | ⟨c, rfl, other, first, k, member, behind⟩) | ⟨flat, rfl, first, behind⟩
  · exact Or.inl rfl
  · obtain ⟨brace, before, rfl, adjacent⟩ := follows first behind
    have inside : Kind.closingDelimiters.contains t.kind = false := by
      rw [brace]
      rfl
    exact Or.inr ⟨Fault.code_of_unexpected inside other, before, adjacent, Or.inl ⟨member, brace⟩⟩
  · obtain ⟨comma, before, kind, adjacent⟩ := follows first behind
    have inside : Kind.closingDelimiters.contains t.kind = false := by
      rw [comma]
      rfl
    exact Or.inr ⟨Fault.code_of_unexpected inside (by decide), before, adjacent,
      Or.inr ⟨flat, kind, comma⟩⟩

end

/-- Where a text is read without a diagnostic under one limit, any other can only tell that it is
too deep, or that a token is unexpected which is cut off from a construct that is: what is skipped
ends behind its first group or in front of a comma. -/
theorem parse_limited {deeper limits : Limits} {text : String}
    (accepted : (parse deeper text).diagnostics = []) :
    ∀ d ∈ (parse limits text).diagnostics, d.code = .tooDeep ∨
      d.code = .unexpectedToken ∧ ∃ u, CutOff limits text u ∧ d.range = u.range := by
  intro d member
  obtain ⟨f, fault, told⟩ := List.mem_filterMap.mp member
  rw [Fault.diagnostic?_code told, Fault.diagnostic?_range told]
  rcases code_of_accepted accepted fault with deep | ⟨code, cut⟩
  · exact Or.inl deep
  · exact Or.inr ⟨code, f.token, cut, rfl⟩

theorem limited_to_two :
    (parse {} "o { a = f(1) { } }").diagnostics = [] ∧
      ∀ d ∈ (parse ⟨2⟩ "o { a = f(1) { } }").diagnostics, d.code = .tooDeep ∨
        d.code = .unexpectedToken ∧
          ∃ u, CutOff ⟨2⟩ "o { a = f(1) { } }" u ∧ d.range = u.range := by
  have accepted : (parse {} "o { a = f(1) { } }").diagnostics = [] := by decide +kernel
  exact ⟨accepted, parse_limited accepted⟩

/-- The body behind the arguments of a constructor that is too deep is left, and told of. -/
theorem limited_leaves_body :
    (parse {} "o { a = f(1) { } }").diagnostics = [] ∧
      ((parse ⟨2⟩ "o { a = f(1) { } }").diagnostics.map fun d => (d.code, d.range.start)) =
        [(.tooDeep, 8), (.unexpectedToken, 13)] := by
  decide +kernel

/-- So is the block behind the comma of a context name. -/
example : ((parse ⟨2⟩ "o { p { @a, { } } }").diagnostics.map fun d => (d.code, d.range.start)) =
    [(.tooDeep, 8), (.unexpectedToken, 12)] := by
  decide +kernel

/-- With one level the comma itself is left at the top of the file. -/
example : ((parse ⟨1⟩ "a = 1 @x, b").diagnostics.map fun d => (d.code, d.range.start)) =
    [(.tooDeep, 4), (.unexpectedToken, 8)] := by
  decide +kernel

end ConfigSyntax
