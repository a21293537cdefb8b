import ConfigSyntax.Proofs.Conformance
import ConfigSyntax.Proofs.Exact.Element
import ConfigSyntax.Proofs.Faults

/-! A text is read without a diagnostic just if its tokens are sound and spell a sentence. -/

namespace ConfigSyntax

open Outline (kindsOfAll kindsBefore)

theorem diagnostics_eq_nil {limits : Limits} {text : String} :
    (parse limits text).diagnostics = [] ↔ ∀ f ∈ faults limits text, f.isSilent = true := by
  rw [parse_diagnostics, List.filterMap_eq_nil_iff]
  simp only [Fault.diagnostic?_eq_none]

theorem mem_faults {limits : Limits} {text : String} {f : Fault} :
    f ∈ faults limits text ↔
      (∃ t ∈ lex text, t.isTrivia = true ∧ t.fault? = some f) ∨
        f ∈ (Outline.faultsOfAll (.endAt text.utf8ByteSize) none (outline limits (lex text))
          (Token.significant (lex text))).1 := by
  rw [faults, (Fault.ofParts_perm _ _ _).mem_iff, List.mem_append, List.mem_filterMap]
  simp only [List.mem_filter, and_assoc]
  rfl

theorem accepted_of_clean {limits : Limits} {text : String}
    (sound : ∀ t ∈ lex text, t.fault? = none) (clean : ∀ o ∈ outline limits (lex text), o.Clean) :
    (parse limits text).diagnostics = [] := by
  rw [diagnostics_eq_nil]
  intro f fault
  rcases mem_faults.mp fault with ⟨t, member, -, own⟩ | inner
  · rw [sound t member] at own
    cases own
  · have quiet : ∀ t ∈ Token.significant (lex text), t.fault? = none :=
      fun t member => sound t (List.mem_of_mem_filter member)
    rw [Outline.faultsOfAll_of_clean _ _ _ clean quiet] at inner
    cases inner

theorem fault_mem_faults_of_token (limits : Limits) {text : String} {t : Token} {f : Fault}
    (member : t ∈ lex text) (fault : t.fault? = some f) : f ∈ faults limits text := by
  rw [mem_faults]
  by_cases blank : t.isTrivia = true
  · exact Or.inl ⟨t, member, blank, fault⟩
  · right
    apply Outline.fault_mem_faultsOfAll _ _ _ _ fault
    rw [kinds_outline, kindsBefore, List.length_map, List.take_length]
    exact List.mem_filter.mpr ⟨member, by simp [blank]⟩

theorem kinds_tokenize (text : String) :
    ((tokenize text).filter fun t => !t.isTrivia && t.kind ≠ .eof).map (·.kind) =
      kindsBefore (lex text) := by
  have ordinary : (lex text).filter (fun t => !t.isTrivia && t.kind ≠ .eof) =
      Token.significant (lex text) := by
    apply List.filter_congr
    intro t member
    simp [lex_ne_eof text t member]
  rw [tokenize, List.filter_append, ordinary]
  simp [kindsBefore, Token.endAt]

theorem tokens_sound {text : String} :
    (∀ t ∈ tokenize text, t.kind ≠ .error ∧ t.isUnterminated = false) ↔
      ∀ t ∈ lex text, t.fault? = none := by
  simp [tokenize, Token.fault?_eq_none, or_imp, forall_and, Token.endAt, Token.isUnterminated]

/-- No diagnostic is given just if every token is sound and the kinds, blanks apart, can be derived
within the limit. -/
theorem parse_accepts (limits : Limits) (text : String) :
    (parse limits text).diagnostics = [] ↔
      (∀ t ∈ tokenize text, t.kind ≠ .error ∧ t.isUnterminated = false) ∧
        ((tokenize text).filter fun t => !t.isTrivia && t.kind ≠ .eof).map (·.kind) ∈
          Sentence.file limits.maxDepth := by
  rw [diagnostics_eq_nil, tokens_sound, kinds_tokenize]
  constructor
  · intro silent
    have sound : ∀ t ∈ lex text, t.fault? = none := by
      intro t member
      cases fault : t.fault? with
      | none => rfl
      | some f =>
          have quiet := silent f (fault_mem_faults_of_token limits member fault)
          rw [Token.not_silent_of_fault? fault] at quiet
          cases quiet
    have valid : ∀ t ∈ Token.endAt text.utf8ByteSize :: Token.significant (lex text),
        t.kind ≠ .error := by
      intro t member
      rcases List.mem_cons.mp member with rfl | member
      · exact Kind.noConfusion
      · exact (Token.fault?_eq_none.mp (sound t (List.mem_of_mem_filter member))).1
    have clean := Outline.clean_of_all_silent none (outline limits (lex text)) valid
      fun f present => silent f (mem_faults.mpr (Or.inr present))
    have sentence := (outline_reading limits (lex text)).sentence clean
    rw [kinds_outline] at sentence
    exact ⟨sound, sentence⟩
  · intro correct f present
    obtain ⟨sound, sentence⟩ := correct
    have clean : ∀ o ∈ outline limits (lex text), o.Clean := Grammar.file_clean sentence
    rcases mem_faults.mp present with ⟨t, member, -, fault⟩ | fault
    · rw [sound t member] at fault
      cases fault
    · have none : ∀ t ∈ Token.significant (lex text), t.fault? = none :=
        fun t member => sound t (List.mem_of_mem_filter member)
      rw [Outline.faultsOfAll_of_clean _ _ _ clean none] at fault
      cases fault

end ConfigSyntax
