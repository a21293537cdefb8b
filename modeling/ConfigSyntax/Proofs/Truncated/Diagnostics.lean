import ConfigSyntax.Proofs.Join.Parse
import ConfigSyntax.Proofs.Limited.Diagnostics
import ConfigSyntax.Proofs.Patterns.Slices
import ConfigSyntax.Proofs.Truncated.Rules

/-! What is told of the front of a text that is read without a diagnostic. Main statement:
`parse_truncated`. -/

namespace ConfigSyntax

open Outline (kindsBefore)
open Token (significant)

/-- The fault is at the end, or a skip of the dot that is the last of the tokens. -/
def Fault.AtCut (last : Token) (ts : List Token) (f : Fault) : Prop :=
  f.token = last ∨ ∃ why, f.cause = .skipped why ∧ why ≠ .tooDeep ∧
    f.token.kind = .dot ∧ [f.token] <:+ ts

theorem Fault.AtCut.mono {last : Token} {ts ts' : List Token} {f : Fault} (at_ : f.AtCut last ts)
    (suffix : ts <:+ ts') : f.AtCut last ts' := by
  rcases at_ with same | ⟨why, skipped, shallow, dot, ends⟩
  · exact Or.inl same
  · exact Or.inr ⟨why, skipped, shallow, dot, ends.trans suffix⟩

namespace Outline

theorem sound_run {ts : List Token} (sound : ∀ t ∈ ts, t.fault? = none) (n : Nat) :
    (ts.take n).filterMap Token.fault? = [] :=
  List.filterMap_eq_nil_iff.mpr fun t member => sound t (List.mem_of_mem_take member)

mutual

theorem late_faults (last : Token) (opener : Option Token) : ∀ (o : Outline) {ts : List Token}
    (_ : ∀ t ∈ ts, t.fault? = none) (_ : o.Late (ts.map (·.kind))),
    ∀ f ∈ (faults last opener o ts).1, f.AtCut last ts
  | .token _, ts, sound, _, f, member => by
      obtain ⟨t, head, fault⟩ := Option.bind_eq_some_iff.mp (Option.mem_toList.mp member)
      rw [sound t (List.mem_of_mem_head? head)] at fault
      cases fault
  | .gap _, ts, _, late, f, member => by
      rw [List.mem_singleton.mp member, List.map_eq_nil_iff.mp late]
      exact Or.inl rfl
  | .skipped why ks, ts, sound, late, f, member => by
      rw [faults, sound_run sound, List.mem_singleton] at member
      rcases late with ⟨shallow, empty | dot⟩
      · rw [member, List.map_eq_nil_iff.mp empty]
        exact Or.inl rfl
      · obtain ⟨t, rfl, kind⟩ := List.map_eq_singleton_iff.mp dot
        rw [member]
        exact Or.inr ⟨why, rfl, shallow, kind, List.suffix_refl _⟩
  | .node _ parts, _, sound, late, f, member => late_faultsOfAll last none parts sound late f member

theorem late_faultsOfAll (last : Token) (opener : Option Token) :
    ∀ (ps : List Outline) {ts : List Token} (_ : ∀ t ∈ ts, t.fault? = none)
      (_ : LateAll ps (ts.map (·.kind))),
    ∀ f ∈ (faultsOfAll last opener ps ts).1, f.AtCut last ts
  | [], _, _, _, f, member => by cases member
  | p :: ps, ts, sound, late, f, member => by
      rcases List.mem_append.mp member with member | member
      · exact late_faults last opener p sound late.1 f member
      · rw [faults_rest] at member
        have rest := late.2
        rw [← List.map_drop] at rest
        exact (late_faultsOfAll last _ ps
          (fun t inside => sound t (List.mem_of_mem_drop inside)) rest f member).mono
          (List.drop_suffix _ ts)

end

end Outline

/-- A dot may be told of as a value that is missing, as no argument, or as out of place. -/
theorem Fault.code_of_dot {why : Skip} {t : Token} (dot : t.kind = .dot)
    (shallow : why ≠ .tooDeep) :
    (Fault.report ⟨.skipped why, t⟩).code ∈
      [Code.missingValue, .invalidArgument, .unexpectedToken] := by
  cases why with
  | tooDeep => exact absurd rfl shallow
  | noValue c => exact List.mem_cons_self
  | unexpected c =>
      rw [report, skipDiagnostic, unexpectedDiagnostic, dot, if_neg (by decide)]
      split
      · exact List.mem_cons_of_mem _ List.mem_cons_self
      · exact List.mem_cons_of_mem _ (List.mem_cons_of_mem _ List.mem_cons_self)

/-- Where a text is read without a diagnostic, its front up to a token boundary lacks something at
its end at most, or it ends with a dot that is too much there. -/
theorem parse_truncated {limits : Limits} {text front rest : String}
    (accepted : (parse limits text).diagnostics = []) (whole : text = front ++ rest)
    (boundary : ∃ t ∈ tokenize text, t.offset = front.utf8ByteSize) :
    ∀ d ∈ (parse limits front).diagnostics, d.range = .empty front.utf8ByteSize ∨
      d.code ∈ [Code.missingValue, .invalidArgument, .unexpectedToken] ∧
        ∃ t, (significant (lex front)).getLast? = some t ∧ t.kind = .dot ∧ d.range = t.range := by
  obtain ⟨back, split⟩ := lex_cut whole boundary
  have sound : ∀ t ∈ lex front, t.fault? = none := by
    intro t member
    refine sound_of_accepted accepted t ?_
    rw [split]
    exact List.mem_append_left _ member
  have late : Outline.LateAll (outline limits (lex front)) (kindsBefore (lex front)) := by
    have clean := clean_of_accepted accepted
    rw [outline, split, List.filter_append, List.map_append] at clean
    exact Grammar.late_file clean
  intro d member
  obtain ⟨f, fault, told⟩ := List.mem_filterMap.mp member
  rw [Fault.diagnostic?_range told, Fault.diagnostic?_code told]
  rcases mem_faults.mp fault with ⟨t, inside, -, own⟩ | fault
  · rw [sound t inside] at own
    cases own
  · rcases Outline.late_faultsOfAll _ none _
      (fun t member => sound t (List.mem_of_mem_filter member)) late f fault with
      ends | ⟨why, skipped, shallow, dot, ends⟩
    · left
      rw [Fault.range, ends]
      rfl
    · obtain ⟨cause, t⟩ := f
      obtain rfl : cause = .skipped why := skipped
      obtain ⟨before, same⟩ := ends
      change before ++ [t] = significant (lex front) at same
      have last : (significant (lex front)).getLast? = some t := by
        rw [← same, List.getLast?_concat]
      exact Or.inr ⟨Fault.code_of_dot dot shallow, t, last, dot, rfl⟩

theorem truncated_behind_dot :
    (parse {} "a = b.c").diagnostics = [] ∧ "a = b.c" = "a = b." ++ "c" ∧
      (∃ t ∈ tokenize "a = b.c", t.offset = "a = b.".utf8ByteSize) ∧
      ∀ d ∈ (parse {} "a = b.").diagnostics,
        d.range = .empty "a = b.".utf8ByteSize ∨
          d.code ∈ [Code.missingValue, .invalidArgument, .unexpectedToken] ∧
            ∃ t, (significant (lex "a = b.")).getLast? = some t ∧ t.kind = .dot ∧
              d.range = t.range := by
  have accepted : (parse {} "a = b.c").diagnostics = [] := by decide +kernel
  have whole : "a = b.c" = "a = b." ++ "c" := rfl
  have boundary : ∃ t ∈ tokenize "a = b.c", t.offset = "a = b.".utf8ByteSize := by
    decide +kernel
  exact ⟨accepted, whole, boundary, parse_truncated accepted whole boundary⟩

example : ((parse {} "o \x7b a = b.").diagnostics.map fun d => (d.code, d.range.start)) =
    [(.unexpectedToken, 9), (.unclosedBrace, 10)] := by
  decide +kernel

end ConfigSyntax
