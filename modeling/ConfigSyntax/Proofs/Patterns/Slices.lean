import ConfigSyntax.Proofs.Patterns.Munch

/-! Between two token boundaries of a text the tokens are those of the piece of text by itself. Main
statement: `lex_slice`. -/

namespace ConfigSyntax

namespace Pattern

/-- Where more text follows, the pattern finds a word that is no shorter. -/
theorem Matches.append {k : Kind} {w rest : List Char} (fits : Matches k w rest)
    (more : List Char) : ∃ w' rest', w' ++ rest' = w ++ (rest ++ more) ∧
      w.length ≤ w'.length ∧ Matches k w' rest' := by
  cases k
  case blockComment =>
      obtain ⟨inner, rest, first⟩ | ⟨inner, never⟩ := fits
      · exact ⟨_, rest ++ more, rfl, Nat.le_refl _, .ended inner _ first⟩
      · -- The comment may go on to an end behind the cut.
        have further : inner.length ≤ Lexer.commentRest (inner ++ more) :=
          le_commentRest (fun found => never (found.trans (List.dropLast_prefix _).isInfix)) more
        refine ⟨_, _, ?_, ?_, commentRest_sound (inner ++ more)⟩
        · simp
        · simpa [Nat.min_eq_left (Lexer.commentRest_le (inner ++ more))] using further
  all_goals exact ⟨w, rest ++ more, rfl, Nat.le_refl _, fits⟩

theorem Matches.cut {k : Kind} {w rest more : List Char} (fits : Matches k w (rest ++ more)) :
    Matches k w rest := by
  cases k
  case blockComment =>
      generalize whole : rest ++ more = behind at fits
      obtain ⟨inner, -, first⟩ | ⟨inner, never⟩ := fits
      · exact .ended inner rest first
      · rw [(List.append_eq_nil_iff.mp whole).1]
        exact .unended inner never
  all_goals exact fits

/-- The longest word is the longest one also where the text ends some way behind it. -/
theorem Longest.cut {k : Kind} {w rest more : List Char} (found : Longest k w (rest ++ more)) :
    Longest k w rest where
  fits := found.fits.cut
  longest k' w' rest' same fits := by
    obtain ⟨w'', rest'', whole, longer, fits'⟩ := fits.append more
    rw [← List.append_assoc, same, List.append_assoc] at whole
    exact longer.trans (found.longest k' w'' rest'' whole fits')
  first k' fits := by
    obtain ⟨w'', rest'', whole, longer, fits'⟩ := fits.append more
    have shorter := found.longest k' w'' rest'' whole fits'
    obtain ⟨rfl, rfl⟩ := List.append_inj whole (Nat.le_antisymm shorter longer)
    exact found.first k' fits'

theorem Unmatched.cut {cs more : List Char} (none : Unmatched (cs ++ more)) : Unmatched cs := by
  rintro k w rest rfl fits
  obtain ⟨w', rest', whole, -, fits'⟩ := fits.append more
  exact none k w' rest' (whole.trans (List.append_assoc _ _ _).symm) fits'

end Pattern

namespace Token

theorem Munches.cut {t : Token} {rest more : List Char} (munches : t.Munches (rest ++ more)) :
    t.Munches rest := by
  rcases munches with found | ⟨error, one, none⟩
  · exact Or.inl found.cut
  · rw [← List.append_assoc] at none
    exact Or.inr ⟨error, one, none.cut⟩

theorem Munched.initial {front back : List Token} (munched : Munched (front ++ back)) :
    Munched front := by
  induction front with
  | nil => trivial
  | cons t ts ih =>
      rw [List.cons_append] at munched
      obtain ⟨head, tail⟩ := munched
      rw [chars_append] at head
      exact ⟨head.cut, ih tail⟩

theorem Munched.suffix {front back : List Token} (munched : Munched (front ++ back)) :
    Munched back := by
  induction front with
  | nil => exact munched
  | cons t ts ih => exact ih munched.2

end Token

/-- The tokens `middle` of a text are those of their own text, further on. -/
theorem lex_slice {text : String} {front middle back : List Token}
    (split : lex text = front ++ middle ++ back) :
    middle = (lex (Tree.textOfAll (Token.leaves middle))).map
      (·.shift (Tree.widthOfAll (Token.leaves front))) := by
  have munched := (munch_lex text).munched
  have tiled := lex_tiled text
  rw [split] at munched tiled
  have alone := munched.initial.suffix.eq_tokens tiled.initial.suffix
  rwa [Lexer.tokens_shift, ← Token.toList_textOfAll, ← lex_eq_tokens] at alone

theorem lex_initial {text : String} {front back : List Token} (split : lex text = front ++ back) :
    lex (Tree.textOfAll (Token.leaves front)) = front := by
  have munched := (munch_lex text).munched
  have tiled := lex_tiled text
  rw [split] at munched tiled
  rw [lex_eq_tokens, Token.toList_textOfAll, ← munched.initial.eq_tokens tiled.initial]

theorem eq_of_longer {a b : String} {more : List Char} (longer : b.toList = a.toList ++ more)
    (size : a.utf8ByteSize = b.utf8ByteSize) : a = b := by
  have whole : b = a ++ String.ofList more := by
    rw [← String.toList_inj, longer, String.toList_append, String.toList_ofList]
  rw [whole, String.utf8ByteSize_append] at size
  have none : (String.ofList more).utf8ByteSize = 0 := by omega
  rw [whole, String.utf8ByteSize_eq_zero_iff.mp none, String.append_empty]

theorem eq_of_append_eq {a b rest rest' : String} (same : a ++ rest = b ++ rest')
    (size : a.utf8ByteSize = b.utf8ByteSize) : a = b := by
  have chars := congrArg String.toList same
  rw [String.toList_append, String.toList_append] at chars
  rcases List.append_eq_append_iff.mp chars with ⟨more, longer, -⟩ | ⟨more, longer, -⟩
  · exact eq_of_longer longer size
  · exact (eq_of_longer longer size.symm).symm

/-- Where a text is cut in front of one of its tokens, the tokens in front of the cut stay. -/
theorem lex_cut {text front rest : String} (whole : text = front ++ rest)
    (boundary : ∃ t ∈ tokenize text, t.offset = front.utf8ByteSize) :
    ∃ back, lex text = lex front ++ back := by
  obtain ⟨t, member, place⟩ := boundary
  suffices split : ∃ ts back, lex text = ts ++ back ∧
      Tree.widthOfAll (Token.leaves ts) = front.utf8ByteSize by
    obtain ⟨ts, back, split, width⟩ := split
    have pieces := lex_text text
    rw [split, Token.leaves_append, Tree.textOfAll_append, whole] at pieces
    have same := eq_of_append_eq pieces (by rw [Tree.textOfAll_size, width])
    exact ⟨back, by rw [← same, lex_initial split, split]⟩
  rcases List.mem_append.mp member with member | last
  · obtain ⟨ts, back, split⟩ := List.append_of_mem member
    have tiled := lex_tiled text
    rw [split] at tiled
    exact ⟨ts, t :: back, split, by rw [← place, tiled.suffix.1, Nat.zero_add]⟩
  · have tiled := (lex_tiled text).stop_eq
    rw [List.mem_singleton.mp last] at place
    refine ⟨lex text, [], (List.append_nil _).symm, ?_⟩
    rw [← place, ← Nat.zero_add (Tree.widthOfAll _), ← tiled]
    rfl

end ConfigSyntax
