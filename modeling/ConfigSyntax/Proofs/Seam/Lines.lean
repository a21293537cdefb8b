import ConfigSyntax.Proofs.Anomalies

/-! What is read of a line does not depend on the lines behind it. Main statement: `next_line`. -/

namespace ConfigSyntax

namespace Lexer

structure InLine (scan : List Char → Nat) : Prop where
  le_length : ∀ cs, scan cs ≤ cs.length
  line : ∀ cs more, scan (cs ++ '\n' :: more) = scan cs

namespace InLine

theorem drop {scan : List Char → Nat} (inLine : InLine scan) (cs more : List Char) :
    (cs ++ '\n' :: more).drop (scan cs) = cs.drop (scan cs) ++ '\n' :: more :=
  List.drop_append_of_le_length (inLine.le_length cs)

theorem andThen {first second : List Char → Nat} (front : InLine first) (back : InLine second) :
    InLine fun cs => first cs + second (cs.drop (first cs)) where
  le_length := by
    intro cs
    have some := front.le_length cs
    have rest := back.le_length (cs.drop (first cs))
    rw [List.length_drop] at rest
    omega
  line := by
    intro cs more
    rw [front.line, front.drop, back.line]

end InLine

theorem takeWhile_line {p : Char → Bool} (stops : p '\n' = false) (cs more : List Char) :
    (cs ++ '\n' :: more).takeWhile p = cs.takeWhile p := by
  induction cs with
  | nil => simp [stops]
  | cons c cs ih =>
      rw [List.cons_append, List.takeWhile_cons, List.takeWhile_cons, ih]

theorem inLine_run {p : Char → Bool} (stops : p '\n' = false) : InLine (run p) where
  le_length cs := (List.takeWhile_prefix p).length_le
  line cs more := by rw [run, run, takeWhile_line stops]

theorem inLine_digits : InLine (run Char.isDigit) := inLine_run rfl

theorem fraction_of_ne {c : Char} (other : c ≠ '.') (cs : List Char) : fraction (c :: cs) = 0 := by
  unfold fraction
  split
  case h_1 same => exact absurd (List.cons.inj same).1 other
  case h_2 => rfl

theorem inLine_fraction : InLine fraction where
  le_length cs := by
    unfold fraction
    split
    · split
      · exact Nat.zero_le _
      · exact Nat.succ_le_succ (inLine_digits.le_length _)
    · exact Nat.zero_le _
  line cs more := by
    cases cs with
    | nil => rfl
    | cons c cs =>
        rw [List.cons_append]
        by_cases point : c = '.'
        · rw [point, fraction, fraction, inLine_digits.line]
        · rw [fraction_of_ne point, fraction_of_ne point]

theorem sign_cons (c : Char) (cs cs' : List Char) : sign (c :: cs) = sign (c :: cs') := by
  by_cases plus : c = '+'
  · rw [plus]
    rfl
  · by_cases minus : c = '-'
    · rw [minus]
      rfl
    · simp [sign, plus, minus]

theorem inLine_sign : InLine sign where
  le_length cs := by
    unfold sign
    split <;> simp
  line cs more := by
    cases cs with
    | nil => rfl
    | cons c cs => exact sign_cons c _ cs

theorem inLine_exponent : InLine exponent where
  le_length cs := by
    cases cs with
    | nil => exact Nat.le_refl 0
    | cons c cs =>
        have inside := (inLine_sign.andThen inLine_digits).le_length cs
        simp only [exponent, List.length_cons]
        split
        · omega
        · exact Nat.zero_le _
  line cs more := by
    cases cs with
    | nil => simp [exponent]
    | cons c cs =>
        rw [List.cons_append]
        simp only [exponent, inLine_sign.line, inLine_sign.drop, inLine_digits.line]

theorem inLine_numberRest : InLine numberRest :=
  (inLine_digits.andThen inLine_fraction).andThen inLine_exponent

theorem inLine_stringRest {quote : Char} (other : quote ≠ '\n') (plain : quote ≠ '\\') :
    InLine (stringRest quote) where
  le_length cs := by
    fun_induction stringRest quote cs with
    | case1 => exact Nat.le_refl 0
    | case2 => simp
    | case3 c cs goes ih => simpa using ih
    | case4 => simp
    | case5 => simp
    | case6 c cs notEscape notQuote goes ih => simpa using ih
  line cs more := by
    fun_induction stringRest quote cs with
    | case1 => simp [stringRest, other.symm]
    | case2 => simp [stringRest]
    | case3 c cs goes ih => simp [stringRest, goes, ih]
    | case4 cs notEscape => simp [stringRest, plain]
    | case5 cs notEscape notQuote => simp [stringRest, notQuote]
    | case6 c cs notEscape notQuote goes ih =>
        by_cases escape : c = '\\'
        · cases cs with
          | nil => simp [stringRest, escape]
          | cons c' cs => exact absurd rfl (notEscape c' cs escape)
        · simp [stringRest, escape, notQuote, goes, ih]

theorem commentRest_le (cs : List Char) : commentRest cs ≤ cs.length := by
  fun_induction commentRest cs with
  | case1 => exact Nat.le_refl 0
  | case2 => simp
  | case3 c cs other ih => simpa using ih

theorem commentRest_append {cs front : List Char}
    (ends : cs.take (commentRest cs) = front ++ ['*', '/']) (more : List Char) :
    commentRest (cs ++ more) = commentRest cs := by
  fun_induction commentRest cs generalizing front with
  | case1 => simp at ends
  | case2 cs => rfl
  | case3 c cs other ih =>
      rw [List.take_succ_cons] at ends
      cases cs with
      | nil => simp [List.cons_eq_append_iff] at ends
      | cons d ds =>
          cases front with
          | nil =>
              -- The end would start with `c`, and the comment would not go on behind it.
              obtain ⟨star, slash⟩ := List.cons.inj ends
              obtain ⟨rest, split⟩ : ['/'] <+: d :: ds := slash ▸ List.take_prefix _ _
              exact absurd split.symm (other rest star)
          | cons head front =>
              have inner := ih (List.cons.inj ends).2
              have goes : ∀ rest, c = '*' → d :: (ds ++ more) = '/' :: rest → False := by
                intro rest star split
                exact other ds star (by rw [(List.cons.inj split).1])
              rw [List.cons_append, List.cons_append, commentRest]
              · exact congrArg (· + 1) inner
              · exact goes

structure Ends (scan : List Char → Kind × Nat) : Prop where
  le_length : ∀ cs, (scan cs).2 ≤ cs.length
  line : ∀ cs more, scan (cs ++ '\n' :: more) = scan cs

theorem ends_const (k : Kind) : Ends fun _ => (k, 0) := ⟨fun _ => Nat.zero_le _, fun _ _ => rfl⟩

theorem InLine.ends {scan : List Char → Nat} (inLine : InLine scan) (k : Kind) :
    Ends fun cs => (k, scan cs) where
  le_length := inLine.le_length
  line cs more := by rw [inLine.line]

theorem next_name {c : Char} (visible : isBlank c = false) (name : isNameStart c = true)
    (cs : List Char) :
    next c cs = (word (c :: cs.takeWhile isNamePart), run isNamePart cs) := by
  unfold next
  rw [if_neg (by simp [visible]), if_pos name]

theorem next_digit {c : Char} (visible : isBlank c = false) (other : isNameStart c = false)
    (digit : c.isDigit = true) (cs : List Char) : next c cs = (.number, numberRest cs) := by
  unfold next
  rw [if_neg (by simp [visible]), if_neg (by simp [other]), if_pos digit]

theorem next_other {c : Char} (visible : isBlank c = false) (other : isNameStart c = false)
    (notDigit : c.isDigit = false) (plain : c ∉ ['-', '/', '!', '\'', '"']) (cs : List Char) :
    next c cs = ((punctuation? c).getD .error, 0) := by
  simp only [List.mem_cons, List.not_mem_nil, or_false, not_or] at plain
  unfold next
  rw [if_neg (by simp [visible]), if_neg (by simp [other]), if_neg (by simp [notDigit])]
  split <;> first | rfl | simp_all

theorem next_minus (d : Char) (cs : List Char) :
    next '-' (d :: cs) = if d.isDigit then (.number, 1 + numberRest cs) else (.error, 0) := rfl

theorem next_bang (d : Char) (cs : List Char) :
    next '!' (d :: cs) = if d = '@' then (.bangAt, 1) else (.error, 0) := by
  split
  case isTrue same =>
    rw [same]
    rfl
  case isFalse other =>
    unfold next
    rw [if_neg (by decide), if_neg (by decide), if_neg (by decide)]
    split <;> first | rfl | simp_all

theorem ends_name {c : Char} : Ends fun cs =>
    (word (c :: cs.takeWhile isNamePart), run isNamePart cs) where
  le_length := (inLine_run (p := isNamePart) rfl).le_length
  line cs more := by rw [takeWhile_line rfl, (inLine_run rfl).line]

theorem ends_minus : Ends (next '-') where
  le_length cs := by
    cases cs with
    | nil => exact Nat.le_refl 0
    | cons d ds =>
        rw [next_minus]
        split
        · have := inLine_numberRest.le_length ds
          simp only [List.length_cons]
          omega
        · exact Nat.zero_le _
  line cs more := by
    cases cs with
    | nil => rfl
    | cons d ds => rw [List.cons_append, next_minus, next_minus, inLine_numberRest.line]

theorem ends_bang : Ends (next '!') where
  le_length cs := by
    cases cs with
    | nil => exact Nat.le_refl 0
    | cons d ds =>
        rw [next_bang]
        split <;> simp
  line cs more := by
    cases cs with
    | nil => rfl
    | cons d ds => rw [List.cons_append, next_bang, next_bang]

theorem ends_next {c : Char} (visible : isBlank c = false) (other : c ≠ '/') : Ends (next c) := by
  by_cases name : isNameStart c = true
  · rw [funext (next_name visible name)]
    exact ends_name
  by_cases digit : c.isDigit = true
  · rw [funext (next_digit visible (by simpa using name) digit)]
    exact inLine_numberRest.ends .number
  by_cases plain : c ∉ ['-', '/', '!', '\'', '"']
  · rw [funext (next_other visible (by simpa using name) (by simpa using digit) plain)]
    exact ends_const _
  · simp only [List.mem_cons, List.not_mem_nil, or_false, not_not, other, false_or] at plain
    rcases plain with rfl | rfl | rfl | rfl
    · exact ends_minus
    · exact ends_bang
    · exact (inLine_stringRest (by decide) (by decide)).ends .singleQuoted
    · exact (inLine_stringRest (by decide) (by decide)).ends .doubleQuoted

theorem next_slash (d : Char) (cs : List Char) :
    next '/' (d :: cs) =
      if d = '/' then (.lineComment, 1 + run (· ≠ '\n') cs)
      else if d = '*' then (.blockComment, 1 + commentRest cs) else (.error, 0) := by
  split
  case isTrue same =>
    rw [same]
    rfl
  case isFalse notLine =>
    split
    case isTrue same =>
      rw [same]
      rfl
    case isFalse notBlock =>
      unfold next
      rw [if_neg (by decide), if_neg (by decide), if_neg (by decide)]
      split <;> first | rfl | simp_all

theorem next_le {c : Char} (cs : List Char) : (next c cs).2 ≤ cs.length := by
  by_cases blank : isBlank c = true
  · unfold next
    rw [if_pos blank]
    exact (List.takeWhile_prefix isBlank).length_le
  by_cases slash : c = '/'
  · rw [slash]
    cases cs with
    | nil => exact Nat.le_refl 0
    | cons d ds =>
        have inside := (inLine_run (p := (· ≠ '\n')) rfl).le_length ds
        have comment := commentRest_le ds
        rw [next_slash, List.length_cons]
        split
        · rw [Nat.add_comm]
          exact Nat.succ_le_succ inside
        · split
          · rw [Nat.add_comm]
            exact Nat.succ_le_succ comment
          · exact Nat.zero_le _
  · exact (ends_next (by simpa using blank) slash).le_length cs

/-- But for blanks and comments over lines, a token is the same where the line ends and more lines
follow. -/
theorem next_line {c : Char} {cs : List Char} (visible : isBlank c = false)
    (ended : (next c cs).1 = .blockComment →
      ∃ front, c :: cs.take (next c cs).2 = '/' :: '*' :: (front ++ ['*', '/']))
    (more : List Char) : next c (cs ++ '\n' :: more) = next c cs := by
  by_cases slash : c = '/'
  · subst slash
    cases cs with
    | nil => rfl
    | cons d ds =>
        rw [List.cons_append, next_slash, next_slash]
        split
        · rw [(inLine_run (p := (· ≠ '\n')) rfl).line]
        · split
          case isTrue block =>
            subst block
            obtain ⟨front, ends⟩ := ended rfl
            change '/' :: ('*' :: ds).take (1 + commentRest ds) = _ at ends
            rw [Nat.add_comm, List.take_succ_cons] at ends
            have inner := (List.cons.inj (List.cons.inj ends).2).2
            rw [commentRest_append inner]
          case isFalse => rfl
  · exact (ends_next visible slash).line cs more

end Lexer
end ConfigSyntax
