import ConfigSyntax.Proofs.Acceptance
import ConfigSyntax.Proofs.Skips
import ConfigSyntax.Proofs.Stable.Rules

/-! A limit that is not reached is as good as none. Main statement: `parse_unlimited`. -/

namespace ConfigSyntax

theorem Token.fault?_shallow {t : Token} {f : Fault} (fault : t.fault? = some f) :
    f.cause ≠ .skipped .tooDeep := by
  have own := cause_of_fault? fault
  intro deep
  rw [deep] at own
  simp at own

namespace Outline

theorem ownFaults_shallow (ts : List Token) :
    ∀ f ∈ ts.filterMap Token.fault?, f.cause ≠ .skipped .tooDeep := by
  intro f member
  obtain ⟨t, -, fault⟩ := List.mem_filterMap.mp member
  exact Token.fault?_shallow fault

mutual

theorem shallow_iff_faults (last : Token) (opener : Option Token) : ∀ (o : Outline)
    (ts : List Token),
    o.Shallow ↔ ∀ f ∈ (faults last opener o ts).1, f.cause ≠ .skipped .tooDeep
  | .token k, ts => by
      refine iff_of_true (.token k) fun f member => ?_
      obtain ⟨t, -, own⟩ := Option.bind_eq_some_iff.mp (Option.mem_toList.mp member)
      exact Token.fault?_shallow own
  | .gap g, ts => by
      refine iff_of_true (.gap g) fun f member => ?_
      rw [List.mem_singleton.mp member]
      nofun
  | .skipped why ks, ts => by
      rw [faults, List.forall_mem_cons, and_iff_left (ownFaults_shallow _)]
      constructor
      · intro shallow deep
        cases shallow with
        | skipped other => exact other (Fault.Cause.skipped.inj deep)
      · exact fun other => .skipped (fun same => other (congrArg _ same)) ks
  | .node k parts, ts => by
      rw [shallow_node]
      exact shallow_iff_faultsOfAll last none parts ts

theorem shallow_iff_faultsOfAll (last : Token) (opener : Option Token) : ∀ (ps : List Outline)
    (ts : List Token),
    (∀ p ∈ ps, p.Shallow) ↔
      ∀ f ∈ (faultsOfAll last opener ps ts).1, f.cause ≠ .skipped .tooDeep
  | [], ts => by simp [faultsOfAll]
  | p :: ps, ts => by
      rw [faultsOfAll, List.forall_mem_cons, List.forall_mem_append,
        shallow_iff_faults last opener p ts, shallow_iff_faultsOfAll last _ ps]

end

end Outline

theorem Fault.code_eq_tooDeep {f : Fault} :
    f.report.code = .tooDeep ↔ f.cause = .skipped .tooDeep := by
  constructor
  · intro code
    have skip : f.isSkip = true := by
      rw [← report_isRecovery, code]
      rfl
    obtain ⟨cause, t⟩ := f
    cases cause with
    | skipped why =>
        cases why with
        | unexpected c =>
            revert code
            simp only [report, skipDiagnostic, unexpectedDiagnostic]
            split
            · intro code
              cases code
            · split <;> intro code <;> cases code
        | noValue c => cases code
        | tooDeep => rfl
    | _ => cases skip
  · intro cause
    obtain ⟨cause', t⟩ := f
    cases cause
    rfl

theorem Fault.diagnostic?_of_deep {f : Fault} (deep : f.cause = .skipped .tooDeep) :
    f.diagnostic? = some { f.report with range := f.range } := by
  obtain ⟨cause, t⟩ := f
  cases deep
  rfl

/-- The limit is not reached just if nothing in the outline is too deep. -/
theorem shallow_outline_iff (limits : Limits) (text : String) :
    (∀ p ∈ outline limits (lex text), p.Shallow) ↔
      ∀ d ∈ (parse limits text).diagnostics, d.code ≠ .tooDeep := by
  rw [Outline.shallow_iff_faultsOfAll (.endAt text.utf8ByteSize) none _
    (Token.significant (lex text))]
  constructor
  · intro shallow d member
    obtain ⟨f, fault, told⟩ := List.mem_filterMap.mp member
    rw [Fault.diagnostic?_code told, ne_eq, Fault.code_eq_tooDeep]
    rcases mem_faults.mp fault with ⟨t, -, -, own⟩ | fault
    · exact Token.fault?_shallow own
    · exact shallow f fault
  · intro untold f fault deep
    have told := Fault.diagnostic?_of_deep deep
    have member := List.mem_filterMap.mpr ⟨f, mem_faults.mpr (Or.inr fault), told⟩
    exact untold _ member (Fault.code_eq_tooDeep.mpr deep)

theorem parse_of_outline {limits deeper : Limits} {text : String}
    (same : outline deeper (lex text) = outline limits (lex text)) :
    parse deeper text = parse limits text := by
  rw [parse, parse, same]

/-- Where nothing is too deep, all that is read of a text is the same under each deeper limit,
whether there are errors in it or not. And a level for each significant token is always enough. -/
theorem parse_unlimited (text : String) :
    (∀ limits deeper : Limits, limits.maxDepth ≤ deeper.maxDepth →
      (∀ d ∈ (parse limits text).diagnostics, d.code ≠ .tooDeep) →
        (parse deeper text).tree = (parse limits text).tree ∧
          (parse deeper text).diagnostics = (parse limits text).diagnostics ∧
          (parse deeper text).log = (parse limits text).log) ∧
      ∀ limits : Limits, (Token.significant (lex text)).length ≤ limits.maxDepth →
        ∀ d ∈ (parse limits text).diagnostics, d.code ≠ .tooDeep := by
  constructor
  · intro limits deeper le shallow
    have same : parse deeper text = parse limits text :=
      parse_of_outline (Grammar.file_deeper le ((shallow_outline_iff limits text).mpr shallow))
    rw [same]
    exact ⟨rfl, rfl, rfl⟩
  · intro limits enough
    apply (shallow_outline_iff limits text).mp
    apply Grammar.shallow_file
    rwa [List.length_map]

theorem unlimited_above_three :
    (parse ⟨3⟩ "a = f(1").diagnostics ≠ [] ∧
      ((parse ⟨128⟩ "a = f(1").tree = (parse ⟨3⟩ "a = f(1").tree ∧
        (parse ⟨128⟩ "a = f(1").diagnostics = (parse ⟨3⟩ "a = f(1").diagnostics ∧
        (parse ⟨128⟩ "a = f(1").log = (parse ⟨3⟩ "a = f(1").log) ∧
      ∀ d ∈ (parse ⟨6⟩ "a = f(1").diagnostics, d.code ≠ .tooDeep := by
  refine ⟨by decide +kernel, ?_, ?_⟩
  · exact (parse_unlimited "a = f(1").1 ⟨3⟩ ⟨128⟩ (by decide) (by decide +kernel)
  · exact (parse_unlimited "a = f(1").2 ⟨6⟩ (by decide +kernel)

end ConfigSyntax
