import ConfigSyntax.Proofs.Reader.Assembly
import ConfigSyntax.Proofs.Reader.Elements

/-! The stream of a whole file, and its assembly. Main statement: `entries_sound`. -/

namespace ConfigSyntax

open Outline (kindsOfAll)

theorem shaped_outline (limits : Limits) (ts : List Token) :
    (Outline.node .file (outline limits ts)).Shaped :=
  .node .file _ (outline_reading limits ts).symbols (outline_reading limits ts).shaped

/-- The stream of a well made file of the tokens `ts`. -/
structure Assembly.Sound (ts : List Token) (es : List Entry) : Prop where
  real : ∀ k parent, .start k parent ∈ es → k ≠ .tombstone
  linked : Entry.Linked es
  balanced : es.count .finish = es.countP (·.isStart)
  inside : ∀ n, 0 < n → n < es.length → ∃ a fs, upTo n ts es = some (a, fs) ∧ 0 < a.depth
  last : es.getLast? = some .finish
  closing : ∃ a fs s, upTo (es.length - 1) ts es = some (a, fs) ∧ a.depth = 1 ∧ a.sites = [s] ∧
    s.kind = .file
  root : ∃ a fs tree, upTo es.length ts es = some (a, fs) ∧ a.depth = 0 ∧ a.sites = [] ∧
    a.roots = [tree] ∧ build ts es = some tree

namespace Assembly

section

variable {parts : List Outline} (shaped : (Outline.node .file parts).Shaped) {ts tail : List Token}
  (inner : ∀ t ∈ ts, t.kind ≠ .eof) (ends : ∀ t ∈ tail, t.kind = .eof)

include shaped inner ends

theorem sound_file : Sound (ts ++ tail) (fileEntries parts) where
  real k parent member := shaped.starts_real member
  linked := Outline.linked_entries _
  balanced := (Outline.starts_entries none _).symm
  inside n positive within := by
    obtain ⟨a, es, sites, rest, upTo, same, filled⟩ := upTo_open shaped positive within inner ends
    refine ⟨a, es, upTo, ?_⟩
    rw [same.depth, same.nodes]
    exact List.length_pos_iff.mpr filled
  last := by
    rw [entries_file]
    exact List.getLast?_concat
  closing := by
    have length : (fileEntries parts).length - 1 + 1 = (fileEntries parts).length := by
      simp [entries_file]
    obtain ⟨a, es, s, rest, upTo, same, whole, -⟩ := upTo_root shaped length inner ends
    refine ⟨a, es, s, upTo, ?_, same.nodes, ?_⟩
    · rw [same.depth, same.nodes]
      rfl
    · rw [Tree.ofParts_eq] at whole
      exact (Tree.node.inj whole).1
  root := by
    obtain ⟨es, upTo⟩ := upTo_end shaped inner ends
    exact ⟨_, es, _, upTo, rfl, rfl, rfl, build_file shaped inner ends⟩

end

end Assembly

namespace Reader

open Assembly (fileEntries)

theorem significant_split {ts more : List Token} {t : Token} (ended : t.kind = .eof) :
    Token.significant (ts ++ t :: more) = Token.significant ts ++ t :: Token.significant more := by
  have kept : (!t.isTrivia) = true := by simp [Token.isTrivia, ended, Kind.isTrivia]
  rw [Token.significant_append]
  congr 1
  exact List.filter_cons_of_pos kept

section

variable (limits : Limits) {ts tail : List Token} (inner : ∀ t ∈ ts, t.kind ≠ .eof)
  (ends : ∀ t ∈ tail.head?, t.kind = .eof)

include inner ends

theorem ahead_ofTokens : (ofTokens limits (ts ++ tail)).ahead = Token.significant ts := by
  have front : (Token.significant ts).all (·.kind ≠ .eof) = true :=
    List.all_eq_true.mpr fun t member => by simpa using inner t (List.mem_of_mem_filter member)
  have back : (tail.filter (!·.isTrivia)).takeWhile (·.kind ≠ .eof) = [] := by
    cases tail with
    | nil => rfl
    | cons t tail => simp [Token.isTrivia, ends t rfl, Kind.isTrivia]
  change ((ts ++ tail).filter (!·.isTrivia)).takeWhile (·.kind ≠ .eof) = Token.significant ts
  rw [List.filter_append, ← Token.significant,
    List.takeWhile_append_of_pos (List.all_eq_true.mp front), back, List.append_nil]

/-- A file is made of the tokens in front of the first end. -/
theorem file_run : ∃ r', file.run (ofTokens limits (ts ++ tail)) = some (⟨0⟩, r') ∧
    Writes none (ofTokens limits (ts ++ tail)) ([.node .file (outline limits ts)], []) none r' ∧
      r'.entries = fileEntries (outline limits ts) := by
  have kinds : (ofTokens limits (ts ++ tail)).kindsAhead = Outline.kindsBefore ts := by
    rw [kindsAhead, ahead_ofTokens limits inner ends]
    rfl
  obtain ⟨r', run, writes⟩ := file_writes (ofTokens limits (ts ++ tail))
  rw [kinds] at writes
  change Writes none _ ([.node .file (outline limits ts)], []) none r' at writes
  refine ⟨r', run, writes, ?_⟩
  rw [writes.same]
  simp [write, ofTokens, fileEntries, Outline.entriesOfAll]

end

/-- The reading of any text ends, and its stream is sound. -/
theorem entries_sound (limits : Limits) (text : String) :
    ∃ node r', file.run (ofTokens limits (tokenize text)) = some (node, r') ∧
      Assembly.Sound (tokenize text) r'.entries := by
  have ended : ∀ t ∈ [Token.endAt text.utf8ByteSize], t.kind = .eof := by simp [Token.endAt]
  have first : ∀ t ∈ [Token.endAt text.utf8ByteSize].head?, t.kind = .eof := by simp [Token.endAt]
  obtain ⟨r', run, -, entries⟩ := file_run limits (lex_ne_eof text) first
  refine ⟨_, r', run, ?_⟩
  rw [entries]
  exact Assembly.sound_file (shaped_outline limits _) (lex_ne_eof text) ended

end Reader
end ConfigSyntax
