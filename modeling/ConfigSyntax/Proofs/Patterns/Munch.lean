import ConfigSyntax.Proofs.Patterns.Scans
import ConfigSyntax.Proofs.Seam.Tokens

/-! Each token is the longest word that a pattern finds where it starts. Main statement:
`tokenize_munches`. -/

open Computability

namespace ConfigSyntax

namespace Lexer

open Pattern (Matches Longest Unmatched Comment)

theorem run_tail {p q : Char → Bool} {c : Char} (first : q c = true) (cs : List Char) :
    c :: cs.take (run p cs) ∈ Pattern.one q * (Pattern.one p)∗ :=
  Pattern.mem_one_mul.mpr ⟨c, _, first, (Pattern.scans_run p).sound cs, rfl⟩

theorem word_cases (cs : List Char) : word cs = .identifier ∨ (word cs).isKeyword = true := by
  unfold word
  split
  case h_5 => exact Or.inl rfl
  all_goals exact Or.inr rfl

theorem word_ne_error (cs : List Char) : word cs ≠ .error := by
  rcases word_cases cs with other | keyword
  · rw [other]
    decide
  · intro unknown
    rw [unknown] at keyword
    cases keyword

theorem matches_word {w : List Char} (name : w ∈ Pattern.identifier) (rest : List Char) :
    Matches (word w) w rest := by
  unfold word
  split
  case h_5 => exact name
  all_goals
    rename_i same
    exact congrArg some same.symm

theorem matches_punctuation {c : Char} (rest : List Char)
    (known : (punctuation? c).getD .error ≠ .error) :
    Matches ((punctuation? c).getD .error) [c] rest := by
  revert known
  unfold punctuation?
  split
  case h_13 => exact fun unknown => absurd rfl unknown
  all_goals exact fun _ => rfl

theorem number_of_digit {d : Char} (digit : d.isDigit = true) (cs : List Char) :
    d :: cs.take (numberRest cs) ∈ Pattern.one Char.isDigit * Pattern.numberTail :=
  have ⟨_, scans⟩ := Pattern.scans_numberRest
  Pattern.mem_one_mul.mpr ⟨d, _, digit, scans.sound cs, rfl⟩

theorem matches_next {c : Char} {cs : List Char} (known : (next c cs).1 ≠ .error) :
    Matches (next c cs).1 (c :: cs.take (next c cs).2) (cs.drop (next c cs).2) := by
  revert known
  unfold next
  split_ifs
  case pos blank => exact fun _ => run_tail blank cs
  case pos name =>
      have whole : cs.takeWhile isNamePart = cs.take (run isNamePart cs) :=
        List.prefix_iff_eq_take.mp (List.takeWhile_prefix _)
      intro _
      dsimp only
      rw [whole]
      exact matches_word (run_tail name cs) _
  case pos digit =>
      exact fun _ => Pattern.mem_maybe_mul.mpr (Or.inl (number_of_digit digit cs))
  case neg =>
      split
      · split
        case isTrue digit =>
            intro _
            rw [Nat.add_comm, List.take_succ_cons]
            exact Language.append_mem_mul (a := ['-']) (Pattern.mem_maybe.mpr (Or.inr rfl))
              (number_of_digit digit _)
        case isFalse => exact fun unknown => absurd rfl unknown
      · intro _
        rw [Nat.add_comm, List.take_succ_cons]
        exact Pattern.mem_exactly_mul.mpr ⟨_, (Pattern.scans_run _).sound _, rfl⟩
      · intro _
        rw [Nat.add_comm, List.take_succ_cons]
        exact Pattern.commentRest_sound _
      · exact fun _ => rfl
      · exact fun _ => Pattern.mem_one_mul.mpr ⟨_, _, rfl, Pattern.stringRest_sound _ _, rfl⟩
      · exact fun _ => Pattern.mem_one_mul.mpr ⟨_, _, rfl, Pattern.stringRest_sound _ _, rfl⟩
      · exact fun known => matches_punctuation _ known

/-- What the lexer takes of `c :: cs` is known, as long as `w` at least, and where it is `w` it is
of kind `k`, or it is a keyword and `k` the identifiers. -/
structure Covers (c : Char) (cs : List Char) (k : Kind) (w : List Char) : Prop where
  known : (next c cs).1 ≠ .error
  longest : w.length ≤ (next c cs).2 + 1
  first : w.length = (next c cs).2 + 1 →
    k = (next c cs).1 ∨ k = .identifier ∧ (next c cs).1.isKeyword = true

theorem covers_of_eq {c : Char} {cs w : List Char} {k : Kind} {n : Nat} (same : next c cs = (k, n))
    (known : k ≠ .error) (longest : w.length ≤ n + 1) : Covers c cs k w where
  known := by rwa [same]
  longest := by rwa [same]
  first _ := Or.inl (by rw [same])

theorem covers_run {p q : Char → Bool} {k : Kind} {c : Char} {cs w rest : List Char}
    (member : w ∈ Pattern.one q * (Pattern.one p)∗) (whole : w ++ rest = c :: cs)
    (known : k ≠ .error) (same : q c = true → next c cs = (k, run p cs)) : Covers c cs k w := by
  obtain ⟨d, v, first, tail, rfl⟩ := Pattern.mem_one_mul.mp member
  obtain ⟨rfl, rfl⟩ := List.cons.inj whole
  exact covers_of_eq (same first) known
    (Nat.succ_le_succ ((Pattern.scans_run p).longest v tail rest))

theorem visible_of_name {c : Char} (name : isNameStart c = true) : isBlank c = false := by
  rw [Bool.eq_false_iff]
  intro blank
  simp only [isBlank, Bool.or_eq_true, decide_eq_true_eq] at blank
  rcases blank with (((rfl | rfl) | rfl) | rfl) | rfl <;> exact absurd name (by decide)

theorem visible_of_digit {c : Char} (digit : c.isDigit = true) : isBlank c = false := by
  rw [Bool.eq_false_iff]
  intro blank
  simp only [isBlank, Bool.or_eq_true, decide_eq_true_eq] at blank
  rcases blank with (((rfl | rfl) | rfl) | rfl) | rfl <;> exact absurd digit (by decide)

theorem not_name_of_digit {c : Char} (digit : c.isDigit = true) : isNameStart c = false := by
  rw [Bool.eq_false_iff]
  intro name
  simp only [isNameStart, Bool.or_eq_true, decide_eq_true_eq] at name
  rcases name with (letter | rfl) | rfl
  · change (decide (65 ≤ c.val ∧ c.val ≤ 90) ||
      decide (97 ≤ c.val) && decide (c.val ≤ 122)) = true at letter
    change (decide (48 ≤ c.val) && decide (c.val ≤ 57)) = true at digit
    simp [UInt32.le_iff_toNat_le] at letter digit
    omega
  · cases digit
  · cases digit

theorem covers_word {k : Kind} {c : Char} {cs w rest : List Char} (member : w ∈ Pattern.identifier)
    (whole : w ++ rest = c :: cs) (kind : k = .identifier ∨ k = word w) : Covers c cs k w := by
  obtain ⟨d, v, first, tail, rfl⟩ := Pattern.mem_one_mul.mp member
  rw [List.cons_append] at whole
  obtain ⟨rfl, rfl⟩ := List.cons.inj whole
  have same := next_name (visible_of_name first) first (v ++ rest)
  refine ⟨?_, ?_, ?_⟩
  · rw [same]
    exact word_ne_error _
  · rw [same]
    exact Nat.succ_le_succ ((Pattern.scans_run _).longest v tail rest)
  · rw [same]
    intro length
    have found : (v ++ rest).takeWhile isNamePart = v ++ rest.takeWhile isNamePart :=
      List.takeWhile_append_of_pos (Pattern.mem_star_one.mp tail)
    have size := congrArg List.length found
    rw [List.length_append] at size
    have none : rest.takeWhile isNamePart = [] := by
      rw [← List.length_eq_zero_iff]
      simp only [List.length_cons, run] at length
      omega
    rw [found, none, List.append_nil]
    rcases kind with rfl | rfl
    · exact (word_cases (d :: v)).imp Eq.symm fun keyword => ⟨rfl, keyword⟩
    · exact Or.inl rfl

theorem covers_number {c : Char} {cs w rest : List Char} (member : w ∈ Pattern.number)
    (whole : w ++ rest = c :: cs) : Covers c cs .number w := by
  obtain ⟨stop, scans⟩ := Pattern.scans_numberRest
  rcases Pattern.mem_maybe_mul.mp member with member | member
  · obtain ⟨d, v, digit, tail, rfl⟩ := Pattern.mem_one_mul.mp member
    obtain ⟨rfl, rfl⟩ := List.cons.inj whole
    exact covers_of_eq (next_digit (visible_of_digit digit) (not_name_of_digit digit) digit _)
      (by decide) (Nat.succ_le_succ (scans.longest v tail rest))
  · obtain ⟨u, negative, rfl⟩ := Pattern.mem_exactly_mul.mp member
    obtain ⟨d, v, digit, tail, rfl⟩ := Pattern.mem_one_mul.mp negative
    obtain ⟨rfl, rfl⟩ := List.cons.inj whole
    refine covers_of_eq ((next_minus d _).trans (if_pos digit)) (by decide) ?_
    have found := scans.longest v tail rest
    change v.length + 1 + 1 ≤ 1 + numberRest (v ++ rest) + 1
    omega

theorem covers_string {quote c : Char} {k : Kind} {cs w rest : List Char}
    (member : w ∈ Pattern.string quote) (whole : w ++ rest = c :: cs) (known : k ≠ .error)
    (plain : quote ≠ '\\') (line : quote ≠ '\n')
    (same : ∀ cs, next quote cs = (k, stringRest quote cs)) : Covers c cs k w := by
  obtain ⟨d, v, first, tail, rfl⟩ := Pattern.mem_one_mul.mp member
  obtain rfl : d = quote := of_decide_eq_true first
  obtain ⟨rfl, rfl⟩ := List.cons.inj whole
  exact covers_of_eq (same _) known
    (Nat.succ_le_succ (Pattern.stringRest_longest plain line tail rest))

theorem covers_comment {c : Char} {cs w rest : List Char} (comment : Comment w rest)
    (whole : w ++ rest = c :: cs) : Covers c cs .blockComment w := by
  obtain ⟨v, rfl⟩ : ∃ v, w = '/' :: '*' :: v := by cases comment <;> exact ⟨_, rfl⟩
  obtain ⟨rfl, rfl⟩ := List.cons.inj whole
  refine covers_of_eq (n := 1 + commentRest (v ++ rest)) rfl (by decide) ?_
  have found := comment.longest
  simp only [List.length_cons]
  omega

theorem covers_punctuation {c d : Char} {k : Kind} {cs rest : List Char}
    (known : punctuation? d = some k) (other : k ≠ .error) (visible : isBlank d = false)
    (symbol : isNameStart d = false) (notDigit : d.isDigit = false)
    (plain : d ∉ ['-', '/', '!', '\'', '"']) (whole : [d] ++ rest = c :: cs) :
    Covers c cs k [d] := by
  obtain ⟨rfl, rfl⟩ := List.cons.inj whole
  refine covers_of_eq ?_ other (Nat.le_refl 1)
  rw [next_other visible symbol notDigit plain, known]
  rfl

theorem eq_of_fixed {k : Kind} {s : String} {w : List Char} (known : Pattern.fixed? k = some s)
    (fits : Pattern.fixed? k = some (String.ofList w)) : w = s.toList := by
  rw [Option.some.inj (known.symm.trans fits), String.toList_ofList]

theorem covers_of_matches {k : Kind} {c : Char} {cs w rest : List Char} (fits : Matches k w rest)
    (whole : w ++ rest = c :: cs) : Covers c cs k w := by
  cases k with
  | whitespace => exact covers_run fits whole (by decide) fun blank => next_blank blank cs
  | lineComment =>
      obtain ⟨v, tail, rfl⟩ := Pattern.mem_exactly_mul.mp fits
      obtain ⟨rfl, rfl⟩ := List.cons.inj whole
      refine covers_of_eq (n := 1 + run (· ≠ '\n') (v ++ rest)) rfl (by decide) ?_
      have found := (Pattern.scans_run _).longest v tail rest
      change v.length + 1 + 1 ≤ _
      omega
  | blockComment => exact covers_comment fits whole
  | identifier => exact covers_word fits whole (Or.inl rfl)
  | number => exact covers_number fits whole
  | singleQuoted => exact covers_string fits whole (by decide) (by decide) (by decide) fun _ => rfl
  | doubleQuoted => exact covers_string fits whole (by decide) (by decide) (by decide) fun _ => rfl
  | trueWord | falseWord | nullWord | valWord =>
      obtain rfl := eq_of_fixed rfl fits
      refine covers_word ?_ whole (Or.inr (by decide))
      refine Pattern.mem_one_mul.mpr ⟨_, _, by decide, ?_, rfl⟩
      exact Pattern.mem_star_one.mpr (List.all_eq_true.mp rfl)
  | bangAt =>
      obtain rfl := eq_of_fixed rfl fits
      obtain ⟨rfl, rfl⟩ := List.cons.inj whole
      exact covers_of_eq (n := 1) rfl (by decide) (Nat.le_refl 2)
  | openBrace | closeBrace | openParen | closeParen | openBracket | closeBracket | comma | dot
  | colon | equals | atSign | hash =>
      obtain rfl := eq_of_fixed rfl fits
      exact covers_punctuation rfl (by decide) rfl rfl rfl (by decide) whole
  | _ => cases fits

theorem longest_next {c : Char} {cs : List Char} (known : (next c cs).1 ≠ .error) :
    Longest (next c cs).1 (c :: cs.take (next c cs).2) (cs.drop (next c cs).2) := by
  have whole : c :: cs.take (next c cs).2 ++ cs.drop (next c cs).2 = c :: cs := by simp
  have size : (c :: cs.take (next c cs).2).length = (next c cs).2 + 1 := by
    rw [List.length_cons, List.length_take, Nat.min_eq_left (next_le cs)]
  refine ⟨matches_next known, ?_, ?_⟩
  · intro k w rest same fits
    rw [size]
    exact (covers_of_matches fits (same.trans whole)).longest
  · intro k fits
    exact (covers_of_matches fits whole).first size

theorem unmatched_next {c : Char} {cs : List Char} (unknown : (next c cs).1 = .error) :
    Unmatched (c :: cs) :=
  fun _ _ _ whole fits => (covers_of_matches fits whole).known unknown

theorem next_error {c : Char} {cs : List Char} (unknown : (next c cs).1 = .error) :
    (next c cs).2 = 0 := by
  revert unknown
  unfold next
  split_ifs
  · nofun
  · exact fun unknown => absurd unknown (word_ne_error _)
  · nofun
  · split
    case h_1 => split <;> first | exact fun _ => rfl | exact fun other => Kind.noConfusion other
    all_goals first | exact fun _ => rfl | exact fun other => Kind.noConfusion other

end Lexer

theorem Tree.textOfAll_append (front back : List Tree) :
    textOfAll (front ++ back) = textOfAll front ++ textOfAll back := by
  induction front with
  | nil => simp [textOfAll]
  | cons head tail ih => simp [textOfAll, ih, String.append_assoc]

namespace Token

open Pattern (Longest Unmatched)

def chars (ts : List Token) : List Char := ts.flatMap (·.text.toList)

@[simp] theorem chars_cons (t : Token) (ts : List Token) :
    chars (t :: ts) = t.text.toList ++ chars ts := List.flatMap_cons

@[simp] theorem chars_append (front back : List Token) :
    chars (front ++ back) = chars front ++ chars back := List.flatMap_append

theorem toList_textOfAll (ts : List Token) :
    (Tree.textOfAll (leaves ts)).toList = chars ts := by
  induction ts with
  | nil => rfl
  | cons t ts ih =>
      rw [leaves_cons, Tree.textOfAll, String.toList_append, ih, chars_cons]
      rfl

/-- The token is the longest word in front of `rest`, or one character at which there is none. -/
def Munches (t : Token) (rest : List Char) : Prop :=
  Longest t.kind t.text.toList rest ∨
    t.kind = .error ∧ t.text.length = 1 ∧ Unmatched (t.text.toList ++ rest)

theorem Munches.unique {t t' : Token} {rest rest' : List Char} (first : t.Munches rest)
    (second : t'.Munches rest') (same : t.text.toList ++ rest = t'.text.toList ++ rest') :
    t.kind = t'.kind ∧ t.text = t'.text ∧ rest = rest' := by
  rcases first with first | ⟨error, one, none⟩
  · rcases second with second | ⟨-, -, none⟩
    · obtain ⟨kind, text, behind⟩ := first.unique second same
      exact ⟨kind, String.toList_inj.mp text, behind⟩
    · exact absurd first.fits (none _ _ _ same)
  · rcases second with second | ⟨error', one', -⟩
    · exact absurd second.fits (none _ _ _ same.symm)
    · rw [← String.length_toList] at one one'
      obtain ⟨text, behind⟩ := List.append_inj same (one.trans one'.symm)
      exact ⟨error.trans error'.symm, String.toList_inj.mp text, behind⟩

def Munched : List Token → Prop
  | [] => True
  | t :: ts => t.Munches (chars ts) ∧ Munched ts

end Token

namespace Lexer

theorem chars_tokens (offset : Nat) (cs : List Char) : Token.chars (tokens offset cs) = cs := by
  rw [← Token.toList_textOfAll, tokens, cut_text _ _ _ (Nat.le_refl _), String.toList_ofList]

theorem first_munches (offset : Nat) (c : Char) (cs : List Char) :
    (first offset c cs).Munches (cs.drop (next c cs).2) := by
  by_cases known : (next c cs).1 = .error
  · refine Or.inr ⟨known, ?_, ?_⟩
    · simp [first, next_error known]
    · simpa [first] using unmatched_next known
  · refine Or.inl ?_
    simpa [first] using longest_next known

theorem tokens_munched (offset : Nat) (cs : List Char) : Token.Munched (tokens offset cs) := by
  induction length : cs.length using Nat.strong_induction_on generalizing cs offset with
  | _ n ih =>
      cases cs with
      | nil => trivial
      | cons c cs =>
          rw [tokens_cons]
          refine ⟨?_, ih _ ?_ _ _ rfl⟩
          · rw [chars_tokens]
            exact first_munches offset c cs
          · rw [← length, List.length_drop, List.length_cons]
            omega

end Lexer

/-- There is no other way to take the longest word at each place. -/
theorem Token.Munched.eq_tokens {start stop : Nat} {ts : List Token} (munched : Munched ts)
    (tiled : Tiled start stop ts) : ts = Lexer.tokens start (chars ts) := by
  induction ts generalizing start with
  | nil => rfl
  | cons t ts ih =>
      obtain ⟨head, tail⟩ := munched
      obtain ⟨place, positive, rest⟩ := tiled
      have later := ih tail rest
      cases word : t.text.toList with
      | nil =>
          rw [String.toList_eq_nil_iff.mp word] at positive
          exact absurd positive (Nat.lt_irrefl 0)
      | cons c cs =>
          rw [chars_cons, word, List.cons_append, Lexer.tokens_cons]
          have found := Lexer.first_munches start c (cs ++ chars ts)
          obtain ⟨kind, text, behind⟩ := head.unique found (by
            rw [word]
            simp [Lexer.first])
          rw [← text, ← behind, ← later]
          congr 1
          obtain ⟨k, w, o⟩ := t
          obtain rfl : k = _ := kind
          obtain rfl : w = _ := text
          obtain rfl : o = start := place
          rfl

structure Munch (text : String) (ts : List Token) : Prop where
  tiled : Token.Tiled 0 text.utf8ByteSize ts
  whole : Token.chars ts = text.toList
  boundary : ∀ t ∈ ts, String.Pos.Raw.IsValid text ⟨t.offset⟩ ∧
    String.Pos.Raw.IsValid text ⟨t.offset + t.text.utf8ByteSize⟩
  munched : Token.Munched ts

/-- Behind some of the tokens of a text is a boundary of its characters. -/
theorem valid_of_split {text : String} {front back : List Token}
    (split : lex text = front ++ back) :
    String.Pos.Raw.IsValid text ⟨Tree.widthOfAll (Token.leaves front)⟩ := by
  have whole := lex_text text
  rw [split, Token.leaves_append, Tree.textOfAll_append] at whole
  rw [String.Pos.Raw.isValid_iff_exists_append, ← Tree.textOfAll_size]
  exact ⟨_, _, whole.symm, rfl⟩

theorem munch_lex (text : String) : Munch text (lex text) where
  tiled := lex_tiled text
  whole := by rw [lex_eq_tokens, Lexer.chars_tokens]
  boundary t member := by
    obtain ⟨front, back, split⟩ := List.append_of_mem member
    have tiled := lex_tiled text
    rw [split] at tiled
    have place : t.offset = Tree.widthOfAll (Token.leaves front) := by
      rw [tiled.suffix.1, Nat.zero_add]
    have behind := valid_of_split (split.trans (List.append_cons front t back))
    rw [Token.leaves_append, Tree.widthOfAll_append, ← place] at behind
    exact ⟨place ▸ valid_of_split split, behind⟩
  munched := by
    rw [lex_eq_tokens]
    exact Lexer.tokens_munched 0 text.toList

/-- The tokens of a text are its longest words from its start to its end, and the token that ends
it; no others are. -/
theorem tokenize_munches (text : String) :
    ∃ ts, tokenize text = ts ++ [.endAt text.utf8ByteSize] ∧ Munch text ts ∧
      ∀ ts', Munch text ts' → ts' = ts := by
  refine ⟨lex text, rfl, munch_lex text, fun ts' munch => ?_⟩
  rw [munch.munched.eq_tokens munch.tiled, munch.whole, lex_eq_tokens]

end ConfigSyntax
