import ConfigSyntax.Proofs.Missing

/-! What is wrong with a token by itself is told once, at the token, wherever the grammar puts it.
Main statements: `own_faults`, `parse_tells_anomalies`. -/

namespace ConfigSyntax

namespace Lexer

theorem commentRest_cases (cs : List Char) :
    commentRest cs = cs.length ∨ ∃ front, cs.take (commentRest cs) = front ++ ['*', '/'] := by
  fun_induction commentRest cs with
  | case1 => exact Or.inl rfl
  | case2 cs => exact Or.inr ⟨[], rfl⟩
  | case3 c cs _ ih =>
      rcases ih with whole | ⟨front, ends⟩
      · exact Or.inl (by rw [whole, List.length_cons])
      · exact Or.inr ⟨c :: front, by rw [List.take_succ_cons, ends, List.cons_append]⟩

theorem word_ne_blockComment (cs : List Char) : word cs ≠ .blockComment := by
  unfold word
  split <;> decide

theorem punctuation?_ne_blockComment (c : Char) :
    (punctuation? c).getD .error ≠ .blockComment := by
  unfold punctuation?
  split <;> decide

theorem next_blockComment {c : Char} {cs : List Char} (kind : (next c cs).1 = .blockComment) :
    ∃ ds, c = '/' ∧ cs = '*' :: ds ∧ (next c cs).2 = 1 + commentRest ds := by
  revert kind
  unfold next
  split_ifs
  · nofun
  · exact fun kind => absurd kind (word_ne_blockComment _)
  · nofun
  · split
    · split_ifs <;> nofun
    · nofun
    · exact fun _ => ⟨_, rfl, rfl, rfl⟩
    · nofun
    · nofun
    · nofun
    · exact fun kind => absurd kind (punctuation?_ne_blockComment _)

theorem ended_of_suffix (front : List Char) (offset : Nat) :
    Token.isUnterminated
      ⟨.blockComment, String.ofList ('/' :: '*' :: (front ++ ['*', '/'])), offset⟩ = false := by
  have pieces : String.ofList ('/' :: '*' :: (front ++ ['*', '/'])) =
      "/*" ++ String.ofList front ++ "*/" := by
    rw [← String.toList_inj]
    simp
  have long : 4 ≤ (String.ofList ('/' :: '*' :: (front ++ ['*', '/']))).utf8ByteSize := by
    rw [pieces, String.utf8ByteSize_append, String.utf8ByteSize_append]
    have first : "/*".utf8ByteSize = 2 := rfl
    have last : "*/".utf8ByteSize = 2 := rfl
    omega
  have ends : ['*', '/'] <:+ '/' :: '*' :: (front ++ ['*', '/']) :=
    ⟨'/' :: '*' :: front, by simp⟩
  simp only [Token.isUnterminated, String.toList_ofList, Bool.or_eq_false_iff,
    decide_eq_false_iff_not, Nat.not_lt, Bool.not_eq_false', List.isSuffixOf_iff_suffix]
  exact ⟨long, ends⟩

theorem cut_unterminated {fuel offset : Nat} {cs : List Char} {front back : List Token} {t : Token}
    (split : cut fuel offset cs = front ++ t :: back) (comment : t.kind = .blockComment)
    (unterminated : t.isUnterminated = true) : back = [] := by
  induction fuel generalizing offset cs front with
  | zero => simp [cut] at split
  | succ fuel ih =>
      cases cs with
      | nil => simp [cut] at split
      | cons c cs =>
          cases front with
          | cons head front => exact ih (List.cons.inj split).2
          | nil =>
              obtain ⟨first, rest⟩ := List.cons.inj split
              rw [← first] at comment unterminated
              obtain ⟨ds, rfl, rfl, length⟩ := next_blockComment comment
              rcases commentRest_cases ds with whole | ⟨inner, ends⟩
              · rw [← rest, length, whole, List.drop_eq_nil_of_le (by simp [Nat.add_comm])]
                cases fuel <;> rfl
              · rw [show (next '/' ('*' :: ds)).1 = .blockComment from comment, length,
                  Nat.add_comm, List.take_succ_cons, ends, ended_of_suffix] at unterminated
                cases unterminated

end Lexer

theorem lex_unterminated {text : String} {front back : List Token} {t : Token}
    (split : lex text = front ++ t :: back) (comment : t.kind = .blockComment)
    (unterminated : t.isUnterminated = true) : back = [] :=
  Lexer.cut_unterminated split comment unterminated

def Fault.isOwn (f : Fault) : Bool :=
  match f.cause with
  | .invalidCharacter | .unterminatedString | .unterminatedComment => true
  | _ => false

theorem Token.own_of_fault? {t : Token} {f : Fault} (fault : t.fault? = some f) :
    f.isOwn = true := by
  have cause := Token.cause_of_fault? fault
  unfold Fault.isOwn
  rcases List.mem_cons.mp cause with same | cause
  · rw [same]
  · rcases List.mem_cons.mp cause with same | cause
    · rw [same]
    · rw [List.mem_singleton.mp cause]

theorem filter_own (ts : List Token) :
    (ts.filterMap Token.fault?).filter (·.isOwn) = ts.filterMap Token.fault? := by
  rw [List.filter_eq_self]
  intro f member
  obtain ⟨t, -, fault⟩ := List.mem_filterMap.mp member
  exact Token.own_of_fault? fault

namespace Outline

mutual

/-- Each token that an outline takes away shows its own fault once. -/
theorem own_faults (last : Token) (opener : Option Token) : ∀ (o : Outline) (ts : List Token),
    (faults last opener o ts).1.filter (·.isOwn) =
      (ts.take o.kinds.length).filterMap Token.fault?
  | .token _, ts => by
      rw [faults, Token.head?_faults]
      exact filter_own _
  | .gap _, _ => rfl
  | .skipped _ ks, ts => by
      rw [faults, List.filter_cons_of_neg Bool.false_ne_true]
      exact filter_own _
  | .node _ parts, ts => own_faultsOfAll last none parts ts

theorem own_faultsOfAll (last : Token) (opener : Option Token) :
    ∀ (ps : List Outline) (ts : List Token),
    (faultsOfAll last opener ps ts).1.filter (·.isOwn) =
      (ts.take (kindsOfAll ps).length).filterMap Token.fault?
  | [], _ => rfl
  | p :: ps, ts => by
      rw [faultsOfAll, List.filter_append, own_faults last opener p, own_faultsOfAll last _ ps,
        faults_rest, kindsOfAll, List.length_append, List.take_add, List.filterMap_append]

end

end Outline

theorem filter_own_faults (limits : Limits) (text : String) :
    ((faults limits text).filter (·.isOwn)).Perm ((lex text).filterMap Token.fault?) := by
  have all := (Fault.ofParts_perm (outline limits (lex text)) (lex text)
    (.endAt text.utf8ByteSize)).filter (·.isOwn)
  have taken : (Token.significant (lex text)).take
      (Outline.kindsOfAll (outline limits (lex text))).length =
        Token.significant (lex text) := by
    rw [kinds_outline, Outline.kindsBefore, List.length_map, List.take_length]
  have inside := Outline.own_faultsOfAll (.endAt text.utf8ByteSize) none
    (outline limits (lex text)) (Token.significant (lex text))
  rw [taken] at inside
  rw [List.filter_append, filter_own] at all
  change ((faults limits text).filter (·.isOwn)).Perm (_ ++ (Outline.faultsOfAll _ none _
    (Token.significant (lex text))).1.filter (·.isOwn)) at all
  rw [inside, ← List.filterMap_append] at all
  exact all.trans ((List.filter_append_perm (·.isTrivia) (lex text)).filterMap _)

namespace Fault

theorem filter_code (p : Code → Bool) (fs : List Fault) :
    (fs.filterMap (·.diagnostic?)).filter (fun d => p d.code) =
      (fs.filter fun f => p f.report.code).filterMap (·.diagnostic?) := by
  rw [List.filter_filterMap, List.filterMap_filter]
  congr 1
  funext f
  unfold diagnostic?
  split
  · simp
  · rfl

theorem own_of_lexical {f : Fault} (lexical : f.report.code.isLexical = true) :
    f.isOwn = true := by
  obtain ⟨cause, t⟩ := f
  cases cause with
  | gap g opener =>
      have others : ∀ c : Code, c.isMissing = true → c.isLexical = false := by
        intro c
        cases c <;> decide
      rw [report, gapDiagnostic_code, others _ (gapCode_isMissing g)] at lexical
      cases lexical
  | skipped why =>
      have others : ∀ c ∈ [Code.unexpectedCloser, .invalidArgument, .unexpectedToken,
          .missingValue, .tooDeep], c.isLexical = false := by decide
      rw [report, others _ (skipDiagnostic_code why t)] at lexical
      cases lexical
  | _ => rfl

end Fault

namespace Token

def anomaly? (t : Token) : Option Code := t.fault?.map (·.report.code)

theorem token_of_fault? {t : Token} {f : Fault} (fault : t.fault? = some f) : f.token = t := by
  revert fault
  unfold fault?
  split
  · intro fault
    rw [← Option.some.inj fault]
  · intro fault
    rw [← Option.some.inj (Option.ite_none_right_eq_some.mp fault).2]
  · intro fault
    rw [← Option.some.inj (Option.ite_none_right_eq_some.mp fault).2]
  · intro fault
    rw [← Option.some.inj (Option.ite_none_right_eq_some.mp fault).2]
  · nofun

theorem range_of_fault? {t : Token} {f : Fault} (fault : t.fault? = some f) :
    f.diagnostic?.map (·.range) = some t.range := by
  rw [Fault.diagnostic?, not_silent_of_fault? fault, if_neg Bool.false_ne_true, Option.map_some,
    Fault.range, token_of_fault? fault]

theorem anomaly?_eq_invalidCharacter (t : Token) :
    t.anomaly? = some .invalidCharacter ↔ t.kind = .error := by
  obtain ⟨kind, text, offset⟩ := t
  cases kind <;> simp [anomaly?, fault?, Fault.report, Diagnostic.ofCode, Diagnostic.withExpected]

theorem anomaly?_eq_unterminatedString (t : Token) :
    t.anomaly? = some .unterminatedString ↔ t.kind.isString = true ∧ t.isUnterminated = true := by
  obtain ⟨kind, text, offset⟩ := t
  cases kind <;> simp [anomaly?, fault?, Fault.report, Diagnostic.ofCode, Diagnostic.withExpected,
    Kind.isString]

theorem anomaly?_eq_unterminatedComment (t : Token) :
    t.anomaly? = some .unterminatedComment ↔
      t.kind = .blockComment ∧ t.isUnterminated = true := by
  obtain ⟨kind, text, offset⟩ := t
  cases kind <;> simp [anomaly?, fault?, Fault.report, Diagnostic.ofCode, Diagnostic.withExpected]

theorem ranges_of_faults (c : Code) (ts : List Token) :
    (((ts.filterMap fault?).filter (·.report.code = c)).filterMap (·.diagnostic?)).map (·.range) =
      (ts.filter (·.anomaly? = some c)).map (·.range) := by
  induction ts with
  | nil => rfl
  | cons t ts ih =>
      cases fault : t.fault? with
      | none =>
          rw [List.filterMap_cons_none fault, ih, List.filter_cons_of_neg]
          simp [anomaly?, fault]
      | some f =>
          rw [List.filterMap_cons_some fault]
          by_cases code : f.report.code = c
          · obtain ⟨d, told, range⟩ := Option.map_eq_some_iff.mp (range_of_fault? fault)
            rw [List.filter_cons_of_pos (by simp [code]), List.filterMap_cons_some told,
              List.map_cons, ih, range, List.filter_cons_of_pos (by simp [anomaly?, fault, code])]
            rfl
          · rw [List.filter_cons_of_neg (by simp [code]), ih,
              List.filter_cons_of_neg (by simp [anomaly?, fault, code])]

end Token

def Parse.ranges (p : Parse) (c : Code) : List Range :=
  (p.diagnostics.filter (·.code = c)).map (·.range)

/-- A lexical anomaly is told of the tokens that have it, once of each. -/
theorem ranges_of_lexical (limits : Limits) (text : String) {c : Code}
    (lexical : c.isLexical = true) :
    ((parse limits text).ranges c).Perm
      (((tokenize text).filter (·.anomaly? = some c)).map (·.range)) := by
  have own : (faults limits text).filter (·.report.code = c) =
      ((faults limits text).filter (·.isOwn)).filter (·.report.code = c) := by
    rw [List.filter_filter]
    apply List.filter_congr
    intro f _
    by_cases code : f.report.code = c
    · simp [Fault.own_of_lexical (code ▸ lexical)]
    · simp [code]
  have last : (tokenize text).filter (·.anomaly? = some c) =
      (lex text).filter (·.anomaly? = some c) := by
    rw [tokenize, List.filter_append, List.filter_cons_of_neg (by simp [Token.anomaly?,
      Token.fault?, Token.endAt]), List.filter_nil, List.append_nil]
  rw [Parse.ranges, parse_diagnostics, Fault.filter_code (· = c), own, last,
    ← Token.ranges_of_faults]
  exact (((filter_own_faults limits text).filter _).filterMap _).map _

/-- Each invalid character, each string without its closing quote and each comment without its end
is told once, where it is. Only the last token can be such a comment. -/
theorem parse_tells_anomalies (limits : Limits) (text : String) :
    ((parse limits text).ranges .invalidCharacter).Perm
        (((tokenize text).filter (·.kind = .error)).map (·.range)) ∧
      ((parse limits text).ranges .unterminatedString).Perm
        (((tokenize text).filter fun t => t.kind.isString && t.isUnterminated).map (·.range)) ∧
      ((parse limits text).ranges .unterminatedComment).Perm
        (((tokenize text).filter fun t =>
          t.kind = .blockComment && t.isUnterminated).map (·.range)) ∧
      ∀ front t back, tokenize text = front ++ t :: back → t.kind = .blockComment →
        t.isUnterminated = true → back = [.endAt text.utf8ByteSize] := by
  refine ⟨?_, ?_, ?_, ?_⟩
  · have told := ranges_of_lexical limits text (c := .invalidCharacter) rfl
    simpa only [Token.anomaly?_eq_invalidCharacter] using told
  · have told := ranges_of_lexical limits text (c := .unterminatedString) rfl
    simpa only [Token.anomaly?_eq_unterminatedString, Bool.decide_and, Bool.decide_eq_true]
      using told
  · have told := ranges_of_lexical limits text (c := .unterminatedComment) rfl
    simpa only [Token.anomaly?_eq_unterminatedComment, Bool.decide_and, Bool.decide_eq_true]
      using told
  · intro front t back split comment unterminated
    rw [tokenize] at split
    rcases List.eq_nil_or_concat back with rfl | ⟨back, last, rfl⟩
    · obtain ⟨-, same⟩ := List.append_inj' split rfl
      rw [← List.singleton_inj.mp same] at comment
      cases comment
    · rw [List.concat_eq_append, ← List.cons_append, ← List.append_assoc] at split
      obtain ⟨tokens, same⟩ := List.append_inj' split rfl
      rw [lex_unterminated tokens comment unterminated, ← List.singleton_inj.mp same]
      rfl

end ConfigSyntax
