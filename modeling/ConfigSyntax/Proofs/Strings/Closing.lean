import ConfigSyntax.Node.Scalar
import ConfigSyntax.Proofs.Descendants
import ConfigSyntax.Proofs.Patterns.Slices

/-! Where a string ends. The lexer, the token and the literal in a tree all go by the first quote
that no backslash takes along. Main statement: `parse_judges_strings`. -/

namespace ConfigSyntax

namespace Text

open Lexer (stringRest)

/-- What stands in front of the first `quote` that no backslash takes along, if there is one in the
line. A backslash takes the next character of the line along. -/
def enclosed? (quote : Char) : List Char → Option (List Char)
  | [] => none
  | '\\' :: c :: cs => if c = '\n' then none else (enclosed? quote cs).map ('\\' :: c :: ·)
  | c :: cs =>
    if c = quote then some [] else if c = '\n' then none else (enclosed? quote cs).map (c :: ·)

/-- The lexer takes a string up to that quote, or to the end of the line. -/
theorem take_stringRest (quote : Char) (cs : List Char) :
    cs.take (stringRest quote cs) =
      match enclosed? quote cs with
      | some body => body ++ [quote]
      | none => cs.takeWhile (· ≠ '\n') := by
  fun_induction stringRest quote cs with
  | case1 => rfl
  | case2 cs => simp [enclosed?]
  | case3 c cs goes ih =>
      rw [List.take_succ_cons, List.take_succ_cons, ih]
      cases found : enclosed? quote cs <;> simp [enclosed?, found, goes]
  | case4 cs free =>
      rw [enclosed?, if_pos rfl]
      · rfl
      · exact free
  | case5 cs free notQuote =>
      rw [enclosed?, if_neg notQuote, if_pos rfl]
      · simp
      · exact free
  | case6 c cs free notQuote goes ih =>
      rw [List.take_succ_cons, ih, enclosed?, if_neg notQuote, if_neg goes]
      · cases enclosed? quote cs <;> simp [goes]
      · exact free

def backslashes (cs : List Char) : Nat := (cs.reverse.takeWhile (· = '\\')).length

theorem backslashes_concat (cs : List Char) (c : Char) :
    backslashes (cs ++ [c]) = if c = '\\' then backslashes cs + 1 else 0 := by
  rw [backslashes, backslashes, List.reverse_concat, List.takeWhile_cons]
  by_cases escape : c = '\\' <;> simp [escape]

theorem isClosed_concat (quote q : Char) (body : List Char) (last : Char) :
    isClosed quote (q :: (body ++ [last])) = (last = quote && backslashes body % 2 = 0) := by
  rw [isClosed, List.reverse_concat]
  rfl

theorem exists_body {quote q : Char} {cs : List Char} (closed : isClosed quote (q :: cs) = true) :
    ∃ body, cs = body ++ [quote] := by
  rcases List.eq_nil_or_concat' cs with rfl | ⟨body, last, rfl⟩
  · cases closed
  · rw [isClosed_concat] at closed
    simp only [Bool.and_eq_true, decide_eq_true_eq] at closed
    exact ⟨body, by rw [closed.1]⟩

/-- Of the start of a string: what comes next is not escaped, and no closing quote came last. -/
structure Going (quote : Char) (cs : List Char) : Prop where
  even : backslashes cs % 2 = 0
  unclosed : ∀ q, isClosed quote (q :: cs) = false

theorem going_nil (quote : Char) : Going quote [] := ⟨rfl, fun _ => rfl⟩

theorem going_plain {quote c : Char} (cs : List Char) (notQuote : c ≠ quote)
    (notEscape : c ≠ '\\') : Going quote (cs ++ [c]) where
  even := by rw [backslashes_concat, if_neg notEscape]
  unclosed q := by simp [isClosed_concat, notQuote]

theorem Going.escape {quote : Char} {cs : List Char} (going : Going quote cs) (c : Char) :
    Going quote (cs ++ ['\\', c]) := by
  have even := going.even
  have odd : backslashes (cs ++ ['\\']) % 2 = 1 := by
    rw [backslashes_concat, if_pos rfl]
    omega
  rw [List.append_cons]
  refine ⟨?_, fun q => ?_⟩
  · rw [backslashes_concat]
    split <;> omega
  · rw [isClosed_concat, odd]
    simp

/-- The closing quote is seen from behind just if the scan comes to it. -/
theorem isClosed_stringRest {quote : Char} (notEscape : quote ≠ '\\') (q : Char) {done : List Char}
    (going : Going quote done) (cs : List Char) :
    isClosed quote (q :: (done ++ cs.take (stringRest quote cs))) =
      (enclosed? quote cs).isSome := by
  fun_induction stringRest quote cs generalizing done with
  | case1 => simp [enclosed?, going.unclosed]
  | case2 cs =>
      simp [enclosed?, isClosed_concat, Ne.symm notEscape]
  | case3 c cs goes ih =>
      have rest := ih (going.escape c)
      simpa [enclosed?, goes] using rest
  | case4 cs free =>
      rw [enclosed?, if_pos rfl]
      · simp [isClosed_concat, going.even]
      · exact free
  | case5 cs free notQuote =>
      rw [enclosed?, if_neg notQuote, if_pos rfl]
      · simp [going.unclosed]
      · exact free
  | case6 c cs free notQuote goes ih =>
      rw [enclosed?, if_neg notQuote, if_neg goes]
      · by_cases escape : c = '\\'
        · cases cs with
          | nil => simp [escape, isClosed_concat, Ne.symm notEscape, stringRest, enclosed?]
          | cons d cs => exact absurd rfl (free d cs escape)
        · have rest := ih (going_plain done notQuote escape)
          simpa using rest
      · exact free

def Slice (s : String) (start stop : Nat) (piece : String) : Prop :=
  ∃ front back, s = front ++ piece ++ back ∧ front.utf8ByteSize = start ∧
    (front ++ piece).utf8ByteSize = stop

theorem eq_append_of_chars {s : String} {front back : List Char}
    (chars : s.toList = front ++ back) : s = String.ofList front ++ String.ofList back := by
  rw [← String.ofList_append, ← chars, String.ofList_toList]

theorem size_singleton {q : Char} (narrow : q.utf8Size = 1) :
    (String.ofList [q]).utf8ByteSize = 1 := by
  simp [narrow]

theorem slice_tail {s : String} {q : Char} {cs : List Char} (chars : s.toList = q :: cs)
    (narrow : q.utf8Size = 1) : Slice s 1 s.utf8ByteSize (String.ofList cs) := by
  have whole : s = String.ofList [q] ++ String.ofList cs := eq_append_of_chars chars
  refine ⟨String.ofList [q], "", ?_, size_singleton narrow, ?_⟩
  · rw [String.append_empty]
    exact whole
  · rw [← whole]

theorem slice_front {s : String} (front : String) {body : List Char} {q : Char}
    (chars : s.toList = front.toList ++ (body ++ [q])) (narrow : q.utf8Size = 1) :
    front.utf8ByteSize < s.utf8ByteSize ∧
      Slice s front.utf8ByteSize (s.utf8ByteSize - 1) (String.ofList body) := by
  have whole := eq_append_of_chars chars
  rw [String.ofList_append, String.ofList_toList, ← String.append_assoc] at whole
  have size := congrArg String.utf8ByteSize whole
  rw [String.utf8ByteSize_append, String.utf8ByteSize_append, size_singleton narrow] at size
  refine ⟨by omega, front, String.ofList [q], whole, rfl, ?_⟩
  rw [String.utf8ByteSize_append]
  omega

theorem exists_body_iff {s : String} {q : Char} {cs : List Char} (chars : s.toList = q :: cs)
    (narrow : q.utf8Size = 1) :
    (2 ≤ s.utf8ByteSize ∧ s.toList.getLast? = some q) ↔ ∃ body, cs = body ++ [q] := by
  have whole : s = String.ofList [q] ++ String.ofList cs := eq_append_of_chars chars
  have size := congrArg String.utf8ByteSize whole
  rw [String.utf8ByteSize_append, size_singleton narrow] at size
  constructor
  · rintro ⟨long, last⟩
    rcases List.eq_nil_or_concat' cs with rfl | ⟨body, last', rfl⟩
    · rw [String.ofList_nil, String.utf8ByteSize_empty] at size
      omega
    · rw [chars, ← List.cons_append, List.getLast?_concat] at last
      exact ⟨body, by rw [Option.some.inj last]⟩
  · rintro ⟨body, rfl⟩
    rw [String.ofList_append, String.utf8ByteSize_append, size_singleton narrow] at size
    refine ⟨by omega, ?_⟩
    rw [chars, ← List.cons_append, List.getLast?_concat]

end Text

namespace Lexer

theorem isString_word (cs : List Char) : (word cs).isString = false := by
  unfold word
  split <;> rfl

theorem isString_punctuation (c : Char) : ((punctuation? c).getD .error).isString = false := by
  unfold punctuation?
  split <;> rfl

theorem next_string {c : Char} {cs : List Char} (string : (next c cs).1.isString = true) :
    next c cs = (.singleQuoted, stringRest c cs) ∧ c = '\'' ∨
      next c cs = (.doubleQuoted, stringRest c cs) ∧ c = '"' := by
  revert string
  unfold next
  split_ifs
  · nofun
  · exact fun string => absurd string (by simp [isString_word])
  · nofun
  · split
    · split_ifs <;> nofun
    · nofun
    · nofun
    · nofun
    · exact fun _ => Or.inl ⟨rfl, rfl⟩
    · exact fun _ => Or.inr ⟨rfl, rfl⟩
    · exact fun string => absurd string (by simp [isString_punctuation])

end Lexer

theorem first_of_split {text : String} {front back : List Token} {t : Token}
    (split : lex text = front ++ t :: back) :
    ∃ c cs, text.toList = Token.chars front ++ c :: cs ∧ t = Lexer.first t.offset c cs := by
  have munch := munch_lex text
  have munched := munch.munched
  have tiled := munch.tiled
  have whole := munch.whole
  rw [split] at munched tiled whole
  have alone := munched.suffix.eq_tokens tiled.suffix
  rw [Token.chars_append] at whole
  cases chars : Token.chars (t :: back) with
  | nil =>
      rw [chars] at alone
      cases alone
  | cons c cs =>
      rw [chars] at whole
      rw [chars, Lexer.tokens_cons] at alone
      have same := (List.cons.inj alone).1
      rw [← tiled.suffix.1] at same
      exact ⟨c, cs, whole.symm, same⟩

namespace Token

def quote (t : Token) : Char := if t.kind = .singleQuoted then '\'' else '"'

/-- A string with `cs` behind its opening quote ends with the first quote that no backslash takes
along; where there is none, it goes on to the end of the line and is unterminated. -/
def Judged (t : Token) (cs : List Char) : Prop :=
  match Text.enclosed? t.quote cs with
  | some body => t.text.toList = t.quote :: (body ++ [t.quote]) ∧ t.isUnterminated = false
  | none => t.text.toList = t.quote :: cs.takeWhile (· ≠ '\n') ∧ t.isUnterminated = true

theorem isUnterminated_of_string {t : Token} (string : t.kind.isString = true) :
    t.isUnterminated = !Text.isClosed t.quote t.text.toList := by
  obtain ⟨kind, text, offset⟩ := t
  cases kind with
  | singleQuoted => rfl
  | doubleQuoted => rfl
  | _ => cases string

theorem judged_first {offset : Nat} {c : Char} {cs : List Char}
    (string : (Lexer.first offset c cs).kind.isString = true) :
    (Lexer.first offset c cs).quote = c ∧ (Lexer.first offset c cs).Judged cs := by
  have opened : (Lexer.first offset c cs).quote = c ∧
      (Lexer.first offset c cs).text.toList = c :: cs.take (Lexer.stringRest c cs) ∧ c ≠ '\\' := by
    rcases Lexer.next_string string with ⟨same, rfl⟩ | ⟨same, rfl⟩
    · simp [Lexer.first, same, quote]
    · simp [Lexer.first, same, quote]
  obtain ⟨quote, text, notEscape⟩ := opened
  refine ⟨quote, ?_⟩
  have closed := Text.isClosed_stringRest notEscape c (Text.going_nil c) cs
  rw [List.nil_append] at closed
  rw [Judged, isUnterminated_of_string string, quote, text, closed, Text.take_stringRest]
  cases Text.enclosed? c cs <;> simp

end Token

theorem judged_of_mem {text : String} {t : Token} (member : t ∈ lex text)
    (string : t.kind.isString = true) :
    ∃ before cs, text.toList = before ++ t.quote :: cs ∧
      (String.ofList before).utf8ByteSize = t.offset ∧ t.Judged cs := by
  obtain ⟨front, back, split⟩ := List.append_of_mem member
  obtain ⟨c, cs, whole, first⟩ := first_of_split split
  have tiled := lex_tiled text
  rw [split] at tiled
  have place := tiled.suffix.1
  rw [Nat.zero_add, ← Tree.textOfAll_size, ← String.ofList_toList (s := Tree.textOfAll _),
    Token.toList_textOfAll] at place
  rw [first] at string
  obtain ⟨quote, judged⟩ := Token.judged_first string
  rw [← first] at quote judged
  exact ⟨Token.chars front, cs, by rw [quote, whole], place.symm, judged⟩

namespace StringLiteral

def quote (s : StringLiteral) : Char := if s.isSingleQuoted then '\'' else '"'

/-- Where the literal is cut, there are boundaries of characters: in front of the last byte, to look
at the backslashes there; behind the first byte, and then in front of the last one, for what it
contains. -/
structure Sliced (s : StringLiteral) : Prop where
  closing :
    if 2 ≤ s.literalText.utf8ByteSize ∧ s.literalText.toList.getLast? = some s.quote then
      ∃ body, Text.Slice s.literalText 1 (s.literalText.utf8ByteSize - 1) body ∧
        s.isTerminated = decide (Text.backslashes body.toList % 2 = 0)
    else s.isTerminated = false
  contents : ∃ tail, Text.Slice s.literalText 1 s.literalText.utf8ByteSize tail ∧
    if s.isTerminated = true then
      0 < tail.utf8ByteSize ∧
        Text.Slice tail 0 (tail.utf8ByteSize - 1) (String.ofList s.contents)
    else tail = String.ofList s.contents

theorem quote_narrow (s : StringLiteral) : s.quote.utf8Size = 1 := by
  unfold quote
  split <;> rfl

theorem isTerminated_eq {s : StringLiteral} {cs : List Char}
    (quoted : s.literalText.toList = s.quote :: cs) :
    s.isTerminated = Text.isClosed s.quote (s.quote :: cs) := by
  rw [← quoted]
  rfl

theorem contents_eq {s : StringLiteral} {cs : List Char}
    (quoted : s.literalText.toList = s.quote :: cs) :
    s.contents = if s.isTerminated then cs.dropLast else cs := by
  rw [contents, quoted, Text.afterQuote, if_pos s.quote_narrow]

section

variable {s : StringLiteral} {t : Token} (only : s.literalToken? = some t)

include only

theorem literalText_of_token : s.literalText = t.text := by
  rw [Node.literalText, only]
  rfl

theorem quote_of_token : s.quote = t.quote := by
  rw [quote, isSingleQuoted, only, Token.quote]
  simp

theorem isTerminated_of_token (string : t.kind.isString = true) :
    s.isTerminated = !t.isUnterminated := by
  rw [Token.isUnterminated_of_string string, Bool.not_not, ← quote_of_token only,
    ← literalText_of_token only]
  rfl

end

theorem sliced_of_quoted {s : StringLiteral} {cs : List Char}
    (quoted : s.literalText.toList = s.quote :: cs) : s.Sliced := by
  have narrow := s.quote_narrow
  have terminated := isTerminated_eq quoted
  have contents := contents_eq quoted
  refine ⟨?_, _, Text.slice_tail quoted narrow, ?_⟩
  · split
    case isTrue guard =>
      obtain ⟨body, rfl⟩ := (Text.exists_body_iff quoted narrow).mp guard
      have slice := (Text.slice_front (String.ofList [s.quote]) (by simpa using quoted) narrow).2
      rw [Text.size_singleton narrow] at slice
      refine ⟨String.ofList body, slice, ?_⟩
      rw [terminated, Text.isClosed_concat]
      simp
    case isFalse guard =>
      rw [terminated, Bool.eq_false_iff]
      exact fun closed => guard ((Text.exists_body_iff quoted narrow).mpr (Text.exists_body closed))
  · cases closed : s.isTerminated with
    | false => simp [contents, closed]
    | true =>
        rw [terminated] at closed
        obtain ⟨body, rfl⟩ := Text.exists_body closed
        rw [if_pos rfl, contents, terminated, closed, if_pos rfl, List.dropLast_concat]
        exact Text.slice_front "" (by simp) narrow

end StringLiteral

open Token (significant)

theorem token_of_symbol {limits : Limits} {text : String} {n : Node} {k : Kind}
    (member : n ∈ (fileNode limits text).descendants) (only : n.symbols = [.token k]) :
    ∃ t ∈ lex text, t.kind = k ∧ n.literalToken? = some t := by
  rw [← Node.symbols_visible] at only
  obtain ⟨p, list, seen⟩ := List.map_eq_singleton_iff.mp only
  obtain ⟨t, rfl, rfl⟩ := Part.eq_token seen
  have tokens : significant n.tokens = [t] := by
    rw [Node.tokens_visible, list]
    rfl
  have inside : t ∈ n.tokens := by
    have present : t ∈ significant n.tokens := by
      rw [tokens]
      exact List.mem_singleton_self t
    exact List.mem_of_mem_filter present
  refine ⟨t, mem_lex member inside, rfl, ?_⟩
  rw [Node.literalToken?, ← List.head?_filter]
  exact congrArg List.head? tokens

/-- A string literal has one token, blanks apart, and that is a string of the text. -/
theorem token_of_string {limits : Limits} {text : String} {n : Node}
    (member : n ∈ (fileNode limits text).descendants) (kind : n.kind = .stringLiteral) :
    ∃ t ∈ lex text, t.kind.isString = true ∧ n.literalToken? = some t := by
  have word := symbols_of_descendant member
  rw [kind] at word
  obtain ⟨k, quoted, only⟩ := word
  obtain ⟨t, inside, rfl, found⟩ := token_of_symbol member only
  refine ⟨t, inside, ?_, found⟩
  revert quoted
  generalize t.kind = k
  revert k
  decide

theorem Token.Judged.exists_rest {t : Token} {cs : List Char} (judged : t.Judged cs) :
    ∃ rest, t.text.toList = t.quote :: rest := by
  rw [Token.Judged] at judged
  split at judged
  · exact ⟨_, judged.1⟩
  · exact ⟨_, judged.1⟩

/-- Whatever the text and the limit, each string of the text ends, and is terminated or not, by the
first quote that no backslash takes along. A literal in the tree has such a string as its token, is
terminated just if that is, and is cut at boundaries of characters. -/
theorem parse_judges_strings (limits : Limits) (text : String) :
    (∀ t ∈ tokenize text, t.kind.isString = true →
      ∃ before cs, text.toList = before ++ t.quote :: cs ∧
        (String.ofList before).utf8ByteSize = t.offset ∧ t.Judged cs) ∧
    ∃ root, Node.ofTree? (parse limits text).tree = some root ∧
      ∀ s : StringLiteral, s.toNode ∈ root.descendants →
        (∃ t ∈ tokenize text, t.kind.isString = true ∧ s.literalToken? = some t ∧
          s.isTerminated = !t.isUnterminated) ∧ s.Sliced := by
  constructor
  · intro t member string
    rcases List.mem_append.mp member with member | last
    · exact judged_of_mem member string
    · rw [List.mem_singleton.mp last] at string
      cases string
  · refine ⟨fileNode limits text, ofTree?_parse limits text, fun s member => ?_⟩
    have kind : s.kind = .stringLiteral := by
      simpa [Category.has, Category.kinds] using s.has_kind
    obtain ⟨t, inside, string, only⟩ := token_of_string member kind
    obtain ⟨_, _, -, -, judged⟩ := judged_of_mem inside string
    obtain ⟨rest, quoted⟩ := judged.exists_rest
    rw [← StringLiteral.literalText_of_token only, ← StringLiteral.quote_of_token only] at quoted
    exact ⟨⟨t, List.mem_append_left _ inside, string, only,
      StringLiteral.isTerminated_of_token only string⟩, StringLiteral.sliced_of_quoted quoted⟩

end ConfigSyntax
