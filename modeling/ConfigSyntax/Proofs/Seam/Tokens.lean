import ConfigSyntax.Proofs.Seam.Lines

/-! Two texts with a line break between them have the tokens of both, blanks at the seam apart. Main
statement: `lex_join`. -/

namespace ConfigSyntax

namespace Lexer

theorem drop_run (p : Char → Bool) (cs : List Char) : cs.drop (run p cs) = cs.dropWhile p := by
  calc
    cs.drop (run p cs) = (cs.takeWhile p ++ cs.dropWhile p).drop (run p cs) := by
      rw [List.takeWhile_append_dropWhile]
    _ = cs.dropWhile p := List.drop_left

theorem cut_fuel {fuel offset : Nat} {cs : List Char} (enough : cs.length ≤ fuel) :
    cut fuel offset cs = cut cs.length offset cs := by
  induction fuel using Nat.strong_induction_on generalizing offset cs with
  | _ fuel ih =>
      cases cs with
      | nil => cases fuel <;> rfl
      | cons c cs =>
          obtain ⟨fuel, rfl⟩ := Nat.exists_eq_succ_of_ne_zero
            (Nat.ne_of_gt (Nat.lt_of_lt_of_le (Nat.succ_pos _) enough))
          rw [List.length_cons] at enough ⊢
          have shorter : (cs.drop (next c cs).2).length ≤ cs.length := by simp
          simp only [cut]
          rw [ih fuel (Nat.lt_succ_self _) (by omega), ih cs.length (by omega) shorter]

def tokens (offset : Nat) (cs : List Char) : List Token := cut cs.length offset cs

def first (offset : Nat) (c : Char) (cs : List Char) : Token :=
  ⟨(next c cs).1, String.ofList (c :: cs.take (next c cs).2), offset⟩

theorem tokens_cons (offset : Nat) (c : Char) (cs : List Char) :
    tokens offset (c :: cs) = first offset c cs ::
      tokens (offset + (first offset c cs).text.utf8ByteSize) (cs.drop (next c cs).2) := by
  have shorter : (cs.drop (next c cs).2).length ≤ cs.length := by simp
  rw [tokens, List.length_cons, cut, cut_fuel shorter]
  rfl

theorem next_blank {c : Char} (blank : isBlank c = true) (cs : List Char) :
    next c cs = (.whitespace, run isBlank cs) := by
  unfold next
  rw [if_pos blank]

theorem terminated_ends {c : Char} {cs : List Char} (offset : Nat)
    (comment : (next c cs).1 = .blockComment)
    (terminated : (first offset c cs).isUnterminated = false) :
    ∃ front, c :: cs.take (next c cs).2 = '/' :: '*' :: (front ++ ['*', '/']) := by
  obtain ⟨ds, rfl, rfl, length⟩ := next_blockComment comment
  rw [first, comment, length, Nat.add_comm, List.take_succ_cons] at terminated
  rw [length, Nat.add_comm, List.take_succ_cons]
  generalize ds.take (commentRest ds) = inner at terminated ⊢
  simp only [Token.isUnterminated, String.toList_ofList, Bool.or_eq_false_iff,
    decide_eq_false_iff_not, Nat.not_lt, Bool.not_eq_false', List.isSuffixOf_iff_suffix]
    at terminated
  obtain ⟨long, before, ends⟩ := terminated
  rcases before with _ | ⟨c, _ | ⟨d, before⟩⟩
  · cases ends
  · obtain ⟨-, rest⟩ := List.cons.inj ends
    rw [← (List.cons.inj rest).2] at long
    exact absurd long (by decide)
  · obtain ⟨-, rest⟩ := List.cons.inj ends
    have same : before ++ ['*', '/'] = inner := (List.cons.inj rest).2
    exact ⟨before, by rw [same]⟩

theorem tokens_line {c : Char} {cs more : List Char}
    (same : next c (cs ++ '\n' :: more) = next c cs) (offset : Nat) :
    tokens offset (c :: cs ++ '\n' :: more) = first offset c cs ::
      tokens (offset + (first offset c cs).text.utf8ByteSize)
        (cs.drop (next c cs).2 ++ '\n' :: more) := by
  have token : first offset c (cs ++ '\n' :: more) = first offset c cs := by
    rw [first, first, same, List.take_append_of_le_length (next_le cs)]
  rw [List.cons_append, tokens_cons, token, same, List.drop_append_of_le_length (next_le cs)]

theorem tokens_blank {c : Char} {cs : List Char} (blank : isBlank c = true)
    (rest : cs.dropWhile isBlank = []) (more : List Char) (offset : Nat) :
    tokens offset (c :: cs ++ '\n' :: more) = first offset c (cs ++ '\n' :: more) ::
      tokens (offset + (first offset c (cs ++ '\n' :: more)).text.utf8ByteSize)
        (more.dropWhile isBlank) := by
  have behind : (cs ++ '\n' :: more).dropWhile isBlank = more.dropWhile isBlank := by
    rw [List.dropWhile_append, rest]
    rfl
  rw [List.cons_append, tokens_cons, next_blank blank, drop_run, behind]

theorem next_blank_line {c : Char} {cs : List Char} (blank : isBlank c = true)
    (rest : cs.dropWhile isBlank ≠ []) (more : List Char) :
    next c (cs ++ '\n' :: more) = next c cs := by
  have same : (cs ++ '\n' :: more).takeWhile isBlank = cs.takeWhile isBlank := by
    rw [List.takeWhile_append, if_neg]
    intro whole
    have split := congrArg List.length (List.takeWhile_append_dropWhile (p := isBlank) (l := cs))
    rw [List.length_append, whole] at split
    exact rest (List.length_eq_zero_iff.mp (by omega))
  rw [next_blank blank, next_blank blank, run, same]
  rfl

/-- What is not a blank at the end of the first text is a token there, whatever follows in the next
line; the blanks around the line break are one token. -/
theorem tokens_join (cs : List Char) (offset : Nat)
    (ended : ∀ t ∈ tokens offset cs, t.kind = .blockComment → t.isUnterminated = false) :
    ∃ front trail : List Token, tokens offset cs = front ++ trail ∧
      (∀ t ∈ trail, t.kind = .whitespace) ∧
      ∀ more, ∃ gap : Token, gap.kind = .whitespace ∧
        tokens offset (cs ++ '\n' :: more) =
          front ++ gap :: tokens (gap.offset + gap.text.utf8ByteSize) (more.dropWhile isBlank) := by
  induction length : cs.length using Nat.strong_induction_on generalizing cs offset with
  | _ n ih =>
      cases cs with
      | nil =>
          refine ⟨[], [], rfl, nofun, fun more => ⟨first offset '\n' more, rfl, ?_⟩⟩
          rw [List.nil_append, tokens_cons, next_blank rfl, drop_run]
          rfl
      | cons c cs =>
          rw [tokens_cons] at ended ⊢
          have head := ended _ List.mem_cons_self
          -- Blanks to the end of the text go on behind it; all else ends before the line does.
          by_cases trailing : isBlank c = true ∧ cs.dropWhile isBlank = []
          · obtain ⟨blank, rest⟩ := trailing
            refine ⟨[], [first offset c cs], ?_, ?_, fun more => ?_⟩
            · rw [next_blank blank, drop_run, rest]
              rfl
            · intro t member
              rw [List.mem_singleton.mp member, first, next_blank blank]
            · refine ⟨first offset c (cs ++ '\n' :: more), ?_, tokens_blank blank rest more offset⟩
              rw [first, next_blank blank]
          · have same (more : List Char) : next c (cs ++ '\n' :: more) = next c cs := by
              by_cases blank : isBlank c = true
              · exact next_blank_line blank (fun rest => trailing ⟨blank, rest⟩) more
              · exact next_line (by simpa using blank)
                  (fun comment => terminated_ends offset comment (head comment)) more
            have shorter : (cs.drop (next c cs).2).length < n := by
              rw [← length, List.length_drop, List.length_cons]
              omega
            obtain ⟨front, trail, split, blanks, join⟩ := ih _ shorter
              (cs.drop (next c cs).2) (offset + (first offset c cs).text.utf8ByteSize)
              (fun t member => ended t (List.mem_cons_of_mem _ member)) rfl
            refine ⟨first offset c cs :: front, trail, congrArg _ split, blanks, fun more => ?_⟩
            obtain ⟨gap, blank, joined⟩ := join more
            exact ⟨gap, blank, by rw [tokens_line (same more), joined]; rfl⟩

theorem tokens_lead (offset : Nat) (cs : List Char) :
    ∃ lead : List Token, (∀ t ∈ lead, t.kind = .whitespace) ∧
      tokens offset cs = lead ++
        tokens (offset + Tree.widthOfAll (Token.leaves lead)) (cs.dropWhile isBlank) := by
  cases cs with
  | nil => exact ⟨[], nofun, rfl⟩
  | cons c cs =>
      by_cases blank : isBlank c = true
      · refine ⟨[first offset c cs], ?_, ?_⟩
        · intro t member
          rw [List.mem_singleton.mp member, first, next_blank blank]
        · rw [tokens_cons, next_blank blank, drop_run, List.dropWhile_cons_of_pos blank]
          rfl
      · refine ⟨[], nofun, ?_⟩
        rw [List.dropWhile_cons_of_neg blank]
        rfl

end Lexer

def Token.shift (d : Nat) (t : Token) : Token := { t with offset := t.offset + d }

theorem Token.leaves_shift (d : Nat) (ts : List Token) :
    leaves (ts.map (·.shift d)) = leaves ts := by
  rw [leaves, leaves, List.map_map]
  rfl

theorem Lexer.cut_shift (d fuel offset : Nat) (cs : List Char) :
    cut fuel (offset + d) cs = (cut fuel offset cs).map (·.shift d) := by
  induction fuel generalizing offset cs with
  | zero => rfl
  | succ fuel ih =>
      cases cs with
      | nil => rfl
      | cons c cs =>
          simp only [cut, List.map_cons, Nat.add_right_comm offset d, ih]
          rfl

theorem Lexer.tokens_shift (d offset : Nat) (cs : List Char) :
    tokens (offset + d) cs = (tokens offset cs).map (·.shift d) := cut_shift d _ offset cs

theorem Lexer.leaves_tokens (offset offset' : Nat) (cs : List Char) :
    Token.leaves (tokens offset cs) = Token.leaves (tokens offset' cs) := by
  rw [← Nat.zero_add offset, tokens_shift, Token.leaves_shift, ← Nat.zero_add offset',
    tokens_shift, Token.leaves_shift]

theorem lex_eq_tokens (text : String) : lex text = Lexer.tokens 0 text.toList := by
  rw [lex, Lexer.tokens, String.length_toList]

/-- The tokens of `a` and of `b` where a line break stands between them. The blanks `trail` and
`lead` at both sides of it are in `gap` then. -/
structure Seam (a b : String) where
  front : List Token
  trail : List Token
  gap : Token
  lead : List Token
  back : List Token
  first : lex a = front ++ trail
  second : lex b = lead ++ back
  join : lex (a ++ "\n" ++ b) = front ++ gap :: back.map (·.shift (a.utf8ByteSize + 1))
  trailing : ∀ t ∈ trail, t.kind = .whitespace
  between : gap.kind = .whitespace
  leading : ∀ t ∈ lead, t.kind = .whitespace
  width : Tree.widthOfAll (Token.leaves (front ++ [gap])) =
    a.utf8ByteSize + 1 + Tree.widthOfAll (Token.leaves lead)

theorem lex_join {a : String} (b : String)
    (ended : ∀ t ∈ lex a, t.kind = .blockComment → t.isUnterminated = false) :
    Nonempty (Seam a b) := by
  rw [lex_eq_tokens] at ended
  obtain ⟨front, trail, first, trailing, joins⟩ := Lexer.tokens_join a.toList 0 ended
  obtain ⟨gap, between, join⟩ := joins b.toList
  obtain ⟨lead, leading, second⟩ := Lexer.tokens_lead 0 b.toList
  rw [← lex_eq_tokens] at first second
  rw [show a.toList ++ '\n' :: b.toList = (a ++ "\n" ++ b).toList by simp,
    ← lex_eq_tokens] at join
  have size : (a ++ "\n" ++ b).utf8ByteSize = a.utf8ByteSize + 1 + b.utf8ByteSize := by
    rw [String.utf8ByteSize_append, String.utf8ByteSize_append]
    rfl
  -- Both readings take the same text behind the blanks, so the rest starts as far from the end.
  have whole := lex_tiled (a ++ "\n" ++ b)
  have alone := (lex_tiled b).stop_eq
  rw [join, size] at whole
  rw [second, Token.leaves_append, Tree.widthOfAll_append] at alone
  obtain ⟨place, -, rest⟩ := whole.suffix
  have behind := rest.stop_eq
  rw [Lexer.leaves_tokens _ (0 + Tree.widthOfAll (Token.leaves lead))] at behind
  have start : gap.offset + gap.text.utf8ByteSize =
      0 + Tree.widthOfAll (Token.leaves lead) + (a.utf8ByteSize + 1) := by omega
  rw [start, Lexer.tokens_shift] at join
  have one : Tree.widthOfAll (Token.leaves [gap]) = gap.text.utf8ByteSize := rfl
  refine ⟨⟨front, trail, gap, lead, _, first, second, join, trailing, between, leading, ?_⟩⟩
  rw [Token.leaves_append, Tree.widthOfAll_append, one]
  omega

end ConfigSyntax
