import ConfigSyntax.Proofs.Reader.Files
import ConfigSyntax.Proofs.Targets
import ConfigSyntax.Reader.Parse

/-! Reading step by step comes to what is read at once. Main statement: `parse?_eq`. -/

namespace ConfigSyntax

namespace Fault

open Reader (inOrder)

theorem range_of_diagnostic? {f : Fault} {d : Diagnostic} (told : f.diagnostic? = some d) :
    d.range = f.range := by
  unfold diagnostic? at told
  split at told
  case isTrue => cases told
  case isFalse =>
    cases told
    rfl

theorem diagnostics_sorted {fs : List Fault} (sorted : Sorted fs) :
    (fs.filterMap (·.diagnostic?)).Pairwise fun d e => d.range.start ≤ e.range.start := by
  refine List.Pairwise.filterMap _ (fun f g le d told e told' => ?_) sorted
  rwa [range_of_diagnostic? told, range_of_diagnostic? told']

/-- A fault comes in among others where its diagnostic does among theirs. -/
theorem insert_diagnostics {f : Fault} {d : Diagnostic} (told : f.diagnostic? = some d)
    {fs : List Fault} (sorted : Sorted fs) :
    (f.insert fs).filterMap (·.diagnostic?) =
      (fs.filterMap (·.diagnostic?)).orderedInsert
        (fun d e => d.range.start ≤ e.range.start) d := by
  have place := range_of_diagnostic? told
  induction fs with
  | nil => simp [insert, told]
  | cons g fs ih =>
      obtain ⟨first, rest⟩ := List.pairwise_cons.mp sorted
      rw [insert_cons]
      split
      case isTrue before =>
        cases told' : g.diagnostic? with
        | none => simp only [List.filterMap_cons, told', ih rest]
        | some e =>
            have behind : ¬d.range.start ≤ e.range.start := by
              rw [place, range_of_diagnostic? told']
              omega
            simp only [List.filterMap_cons, told', ih rest]
            rw [List.orderedInsert_cons, if_neg behind]
      case isFalse behind =>
        rw [List.filterMap_cons_some told]
        have least : ∀ e ∈ (g :: fs).filterMap (·.diagnostic?), d.range.start ≤ e.range.start := by
          intro e member
          obtain ⟨h, within, told'⟩ := List.mem_filterMap.mp member
          rw [place, range_of_diagnostic? told']
          rcases List.mem_cons.mp within with rfl | within
          · exact Nat.not_lt.mp behind
          · exact (Nat.not_lt.mp behind).trans (first h within)
        cases ds : (g :: fs).filterMap (·.diagnostic?) with
        | nil => rfl
        | cons e es =>
            rw [List.orderedInsert_cons, if_pos (least e (ds ▸ List.mem_cons_self))]

theorem foldr_insert_diagnostics {fs gs : List Fault} (loud : ∀ f ∈ fs, f.isSilent = false)
    (sorted : Sorted gs) : (fs.foldr insert gs).filterMap (·.diagnostic?) =
      inOrder (fs.filterMap (·.diagnostic?) ++ gs.filterMap (·.diagnostic?)) := by
  induction fs with
  | nil => exact (diagnostics_sorted sorted).insertionSort_eq.symm
  | cons f fs ih =>
      obtain ⟨first, rest⟩ := List.forall_mem_cons.mp loud
      obtain ⟨d, told⟩ : ∃ d, f.diagnostic? = some d := by simp [diagnostic?, first]
      rw [List.foldr_cons, insert_diagnostics told (foldr_insert_sorted fs sorted), ih rest,
        List.filterMap_cons_some told]
      rfl

theorem trace?_of_fault? {t : Token} {f : Fault} (fault : t.fault? = some f) : f.trace? = none := by
  have cause := Token.cause_of_fault? fault
  unfold trace?
  split <;> simp_all

theorem foldr_insert_traces {fs gs : List Fault} (quiet : ∀ f ∈ fs, f.trace? = none) :
    (fs.foldr insert gs).filterMap (·.trace?) = gs.filterMap (·.trace?) := by
  induction fs with
  | nil => rfl
  | cons f fs ih =>
      obtain ⟨first, rest⟩ := List.forall_mem_cons.mp quiet
      rw [List.foldr_cons, insert, List.filterMap_append, List.filterMap_cons_none first,
        ← List.filterMap_append, List.takeWhile_append_dropWhile, ih rest]

end Fault

namespace Reader

section

variable (limits : Limits) (text : String)

theorem last_ofTokens : (ofTokens limits (tokenize text)).last = .endAt text.utf8ByteSize := by
  have front : ∀ t ∈ Token.significant (lex text), decide (t.kind ≠ .eof) = true := by
    intro t member
    simpa using lex_ne_eof text t (List.mem_of_mem_filter member)
  have split : (ofTokens limits (tokenize text)).significant.drop 0 =
      Token.significant (lex text) ++ [.endAt text.utf8ByteSize] := significant_split rfl
  rw [last]
  change (((ofTokens limits (tokenize text)).significant.drop 0).dropWhile _).headD _ = _
  rw [split, List.dropWhile_append_of_pos front]
  rfl

/-- The faults of the parts, in the order in which the reader comes to them. -/
def partFaults : List Fault :=
  (Outline.faultsOfAll (.endAt text.utf8ByteSize) none (outline limits (lex text))
    (Token.significant (lex text))).1

theorem file_said : ∃ r', file.run (ofTokens limits (tokenize text)) = some (⟨0⟩, r') ∧
    r'.entries = Assembly.fileEntries (outline limits (lex text)) ∧
    r'.diagnostics = (Token.blankFaults (lex text)).filterMap (·.diagnostic?) ++
      (partFaults limits text).filterMap (·.diagnostic?) ∧
    r'.log = (partFaults limits text).filterMap (·.trace?) := by
  have first : ∀ t ∈ [Token.endAt text.utf8ByteSize].head?, t.kind = .eof := by simp [Token.endAt]
  obtain ⟨r', run, writes, entries⟩ := file_run limits (lex_ne_eof text) first
  have faults : (Outline.faultsOfAll (ofTokens limits (tokenize text)).last none
      [.node .file (outline limits (lex text))] (ofTokens limits (tokenize text)).ahead).1 =
        partFaults limits text := by
    rw [last_ofTokens, tokenize, ahead_ofTokens limits (lex_ne_eof text) first]
    simp [Outline.faultsOfAll, Outline.faults, partFaults]
  have same : r' = (ofTokens limits (tokenize text)).write none _ := writes.same
  simp only [write, faults] at same
  refine ⟨r', run, entries, ?_, by rw [same]; rfl⟩
  rw [same]
  simp [ofTokens, tokenize, Token.blankFaults, Token.isTrivia, Token.endAt, Kind.isTrivia]

end

/-- The tree is the one that the grammar has, and what is said of a text is told of its faults. -/
theorem parse?_eq (limits : Limits) (text : String) :
    parse? limits text = some (ConfigSyntax.parse limits text) := by
  obtain ⟨r', run, entries, diagnostics, log⟩ := file_said limits text
  have tree : Assembly.build (tokenize text) r'.entries =
      some (.ofParts .file (outline limits (lex text)) (lex text)) := by
    rw [entries]
    exact Assembly.build_file (shaped_outline limits _) (lex_ne_eof text) (by simp [Token.endAt])
  have sorted : Fault.Sorted (partFaults limits text) :=
    (Outline.between_faultsOfAll _ _
      ((tokenize_sorted text).sublist (significant_sublist text))).sorted
  have own {f : Fault} (member : f ∈ Token.blankFaults (lex text)) :
      ∃ t : Token, t.fault? = some f := by
    obtain ⟨t, -, fault⟩ := List.mem_filterMap.mp member
    exact ⟨t, fault⟩
  have ordered : inOrder r'.diagnostics = (faults limits text).filterMap (·.diagnostic?) := by
    rw [diagnostics]
    refine (Fault.foldr_insert_diagnostics (fun f member => ?_) sorted).symm
    obtain ⟨t, fault⟩ := own member
    exact Token.not_silent_of_fault? fault
  have traced : r'.log = (faults limits text).filterMap (·.trace?) := by
    rw [log]
    refine (Fault.foldr_insert_traces fun f member => ?_).symm
    obtain ⟨t, fault⟩ := own member
    exact Fault.trace?_of_fault? fault
  have number :
      r'.diagnostics.length = ((faults limits text).filterMap (·.diagnostic?)).length := by
    rw [← ordered, inOrder, List.length_insertionSort]
  have length : (tokenize text).length = (lex text).length + 1 := List.length_append
  simp [parse?, run, tree, ordered, traced, number, length]
  rfl

end Reader
end ConfigSyntax
