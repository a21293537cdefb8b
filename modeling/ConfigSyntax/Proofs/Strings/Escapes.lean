import ConfigSyntax.Node.Element
import ConfigSyntax.Proofs.Acceptance
import ConfigSyntax.Proofs.Strings.Closing

/-! Strings that are written with escapes. Main statement: `parse_escaped`, by which any string is
read back from quotes of either kind, as a value and as a name. -/

namespace ConfigSyntax

namespace Text

open Lexer (stringRest)

def escape (quote : Char) (c : Char) : List Char :=
  if c = '\\' then ['\\', '\\']
  else if c = quote then ['\\', quote]
  else if c = '\n' then ['\\', 'n']
  else [c]

def escaping (quote : Char) (cs : List Char) : List Char := cs.flatMap (escape quote)

theorem escaping_cons (quote c : Char) (cs : List Char) :
    escaping quote (c :: cs) = escape quote c ++ escaping quote cs := List.flatMap_cons

def quoted (quote : Char) (s : String) : String :=
  .ofList (quote :: (escaping quote s.toList ++ [quote]))

theorem toList_quoted (quote : Char) (s : String) :
    (quoted quote s).toList = quote :: (escaping quote s.toList ++ [quote]) := String.toList_ofList

def IsQuote (quote : Char) : Prop := quote = '\'' ∨ quote = '"'

variable {quote : Char}

theorem escape_cases (quote c : Char) :
    (∃ d, escape quote c = ['\\', d] ∧ (c = '\\' ∧ d = '\\' ∨ c = quote ∧ d = quote ∨
      c = '\n' ∧ d = 'n')) ∨
    escape quote c = [c] ∧ c ≠ '\\' ∧ c ≠ quote ∧ c ≠ '\n' := by
  unfold escape
  split_ifs with backslash same line
  · exact Or.inl ⟨'\\', rfl, Or.inl ⟨backslash, rfl⟩⟩
  · exact Or.inl ⟨quote, rfl, Or.inr (Or.inl ⟨same, rfl⟩)⟩
  · exact Or.inl ⟨'n', rfl, Or.inr (Or.inr ⟨line, rfl⟩)⟩
  · exact Or.inr ⟨rfl, backslash, same, line⟩

theorem unescape_pair {c : Char} (other : c ≠ 'u') (cs : List Char) :
    unescape ('\\' :: c :: cs) = escaped c :: unescape cs := by
  rw [unescape]
  exact fun _ _ _ _ _ same => absurd same other

theorem unescape_plain {c : Char} (plain : c ≠ '\\') (cs : List Char) :
    unescape (c :: cs) = c :: unescape cs := by
  rw [unescape]
  · exact fun _ _ _ _ _ same => absurd same plain
  · exact fun _ _ same => absurd same plain

theorem unescape_escaping (known : IsQuote quote) (cs : List Char) :
    unescape (escaping quote cs) = cs := by
  induction cs with
  | nil => rfl
  | cons c cs ih =>
      rw [escaping_cons]
      rcases escape_cases quote c with ⟨d, written, stands⟩ | ⟨written, plain, -, -⟩
      · have resolved : d ≠ 'u' ∧ escaped d = c := by
          rcases stands with ⟨rfl, rfl⟩ | ⟨rfl, rfl⟩ | ⟨rfl, rfl⟩
          · decide
          · rcases known with rfl | rfl <;> decide
          · decide
        rw [written, List.cons_append, List.singleton_append, unescape_pair resolved.1, resolved.2,
          ih]
      · rw [written, List.singleton_append, unescape_plain plain, ih]

/-- The quote behind is the first that no backslash takes along. -/
theorem enclosed?_escaping (known : IsQuote quote) (cs rest : List Char) :
    enclosed? quote (escaping quote cs ++ quote :: rest) = some (escaping quote cs) := by
  have plainQuote : quote ≠ '\\' ∧ quote ≠ '\n' := by rcases known with rfl | rfl <;> decide
  induction cs with
  | nil =>
      rw [escaping, List.flatMap_nil, List.nil_append, enclosed?, if_pos rfl]
      exact fun _ _ same => absurd same plainQuote.1
  | cons c cs ih =>
      rw [escaping_cons, List.append_assoc]
      rcases escape_cases quote c with ⟨d, written, stands⟩ | ⟨written, plain, other, goes⟩
      · have goes : d ≠ '\n' := by
          rcases stands with ⟨-, rfl⟩ | ⟨-, rfl⟩ | ⟨-, rfl⟩
          · decide
          · exact plainQuote.2
          · decide
        rw [written, List.cons_append, List.singleton_append, enclosed?, if_neg goes, ih]
        rfl
      · rw [written, List.singleton_append, enclosed?, if_neg other, if_neg goes, ih]
        · rfl
        · exact fun _ _ same => absurd same plain

theorem stringRest_escaping (known : IsQuote quote) (cs rest : List Char) :
    stringRest quote (escaping quote cs ++ quote :: rest) = (escaping quote cs).length + 1 := by
  have inLine : Lexer.InLine (stringRest quote) := by
    rcases known with rfl | rfl
    · exact Lexer.inLine_stringRest (by decide) (by decide)
    · exact Lexer.inLine_stringRest (by decide) (by decide)
  have taken : (escaping quote cs ++ quote :: rest).take (stringRest quote _) = _ :=
    take_stringRest quote (escaping quote cs ++ quote :: rest)
  have length := congrArg List.length taken
  rw [List.length_take_of_le (inLine.le_length _), enclosed?_escaping known] at length
  simpa using length

end Text

namespace Token

open Text (IsQuote quoted escaping)

variable {quote : Char}

def ofString (quote : Char) (s : String) (offset : Nat) : Token :=
  ⟨if quote = '\'' then .singleQuoted else .doubleQuoted, quoted quote s, offset⟩

theorem first_quoted (known : IsQuote quote) (s : String) (rest : List Char) (offset : Nat) :
    Lexer.first offset quote (escaping quote s.toList ++ quote :: rest) =
        ofString quote s offset ∧
      (Lexer.next quote (escaping quote s.toList ++ quote :: rest)).2 =
        (escaping quote s.toList).length + 1 := by
  have length := Text.stringRest_escaping known s.toList rest
  have next : Lexer.next quote (escaping quote s.toList ++ quote :: rest) =
      (if quote = '\'' then .singleQuoted else .doubleQuoted,
        (escaping quote s.toList).length + 1) := by
    rw [← length]
    rcases known with rfl | rfl <;> rfl
  refine ⟨?_, congrArg Prod.snd next⟩
  rw [Lexer.first, next, ofString, quoted, List.take_length_add_append]
  rfl

theorem tokens_quoted (known : IsQuote quote) (s : String) (rest : List Char) (offset : Nat) :
    Lexer.tokens offset ((quoted quote s).toList ++ rest) = ofString quote s offset ::
      Lexer.tokens (offset + (quoted quote s).utf8ByteSize) rest := by
  obtain ⟨first, length⟩ := first_quoted known s rest offset
  have chars : (quoted quote s).toList ++ rest =
      quote :: (escaping quote s.toList ++ quote :: rest) := by
    simp [Text.toList_quoted]
  rw [chars, Lexer.tokens_cons, first, length, List.drop_length_add_append]
  rfl

theorem isString_ofString (quote : Char) (s : String) (offset : Nat) :
    (ofString quote s offset).kind.isString = true := by
  rw [ofString]
  split <;> rfl

theorem isTrivia_ofString (quote : Char) (s : String) (offset : Nat) :
    (ofString quote s offset).isTrivia = false := by
  rw [isTrivia, ofString]
  split <;> rfl

theorem quote_ofString (known : IsQuote quote) (s : String) (offset : Nat) :
    (ofString quote s offset).quote = quote := by
  rcases known with rfl | rfl <;> rfl

theorem isUnterminated_ofString (known : IsQuote quote) (s : String) (offset : Nat) :
    (ofString quote s offset).isUnterminated = false := by
  have first := (first_quoted known s [] offset).1
  have string := isString_ofString quote s offset
  rw [← first] at string
  obtain ⟨same, judged⟩ := judged_first string
  rw [Judged, same, Text.enclosed?_escaping known, first] at judged
  exact judged.2

theorem fault?_ofString (known : IsQuote quote) (s : String) (offset : Nat) :
    (ofString quote s offset).fault? = none := by
  refine fault?_eq_none.mpr ⟨?_, isUnterminated_ofString known s offset⟩
  rw [ofString]
  split <;> nofun

end Token

open Token (leaves significant)

structure Node.Holds (n : Node) (k : Kind) (t : Token) : Prop where
  kind : n.kind = k
  trees : n.trees = [t.leaf]

structure Assignment (text : String) (N V : Kind) (n v : Token) where
  lead : Token
  sign : Token
  trail : Token
  tokens : lex text = [n, lead, sign, trail, v]
  blank : lead.kind = .whitespace ∧ trail.kind = .whitespace
  equals : sign.kind = .equals
  visible : n.isTrivia = false ∧ v.isTrivia = false
  sound : n.fault? = none ∧ v.fault? = none
  read : Grammar.file 128 [n.kind, .equals, v.kind] = [.node .property
    [.node N [.token n.kind], .token .equals, .node V [.token v.kind]]]

namespace Assignment

variable {text : String} {N V : Kind} {n v : Token} (a : Assignment text N V n v)

include a

theorem trivia : a.lead.isTrivia = true ∧ a.trail.isTrivia = true ∧ a.sign.isTrivia = false := by
  simp [Token.isTrivia, a.blank.1, a.blank.2, a.equals, Kind.isTrivia]

theorem outline_eq : outline {} (lex text) = [.node .property
    [.node N [.token n.kind], .token .equals, .node V [.token v.kind]]] := by
  obtain ⟨lead, trail, sign⟩ := a.trivia
  rw [← a.read, a.tokens, outline]
  simp [a.visible, a.equals, lead, trail, sign]

theorem fileNode_eq : fileNode {} text = ⟨⟨.file, [.node .property
    [.node N [n.leaf], .token .whitespace a.lead.text, .token .equals a.sign.text,
      .token .whitespace a.trail.text, .node V [v.leaf]]], 0, []⟩, []⟩ := by
  obtain ⟨lead, trail, sign⟩ := a.trivia
  rw [fileNode, a.outline_eq, a.tokens, ← a.blank.1, ← a.equals]
  simp [Outline.growAll, Outline.grow, Outline.reach, Event.triviaLength, a.visible, lead, trail,
    sign, a.blank.1, a.blank.2, Token.leaf]

theorem accepted : (parse {} text).diagnostics = [] := by
  apply accepted_of_clean
  · have lead : a.lead.fault? = none := by rw [Token.fault?, a.blank.1]
    have sign : a.sign.fault? = none := by rw [Token.fault?, a.equals]
    have trail : a.trail.fault? = none := by rw [Token.fault?, a.blank.2]
    rw [a.tokens]
    simp [a.sound, lead, sign, trail]
  · rw [a.outline_eq]
    simp [Outline.clean_node, Outline.Clean.token]

theorem exists_property :
    ∃ root : File, (parse {} text).file? = some root ∧
      ∃ p : Property, root.children = [p.toNode] ∧ root.allProperties = [p] ∧
        ∃ name value : Node, name.Holds N n ∧ value.Holds V v ∧ p.children = [name, value] ∧
          p.childrenAfter .equals = [value] := by
  have file : (parse {} text).file? = (fileNode {} text).as? .file := by
    rw [Parse.file?, ofTree?_parse]
    rfl
  rw [a.fileNode_eq] at file
  exact ⟨_, file, ⟨_, rfl⟩, rfl, rfl, _, _, ⟨rfl, rfl⟩, ⟨rfl, rfl⟩, rfl, rfl⟩

end Assignment

section

open Text (IsQuote quoted)
open Token (ofString)

variable {quote : Char}

theorem Node.Holds.literalToken {n : Node} {k : Kind} {t : Token} (holds : n.Holds k t)
    (visible : t.isTrivia = false) : n.literalToken? = some { t with offset := n.start } := by
  have tokens : n.tokens = [{ t with offset := n.start }] := by
    rw [Node.tokens, Node.parts, holds.trees]
    rfl
  rw [Node.literalToken?, tokens, List.find?_cons_of_pos]
  rw [Token.isTrivia] at visible ⊢
  rw [visible]
  rfl

theorem literal_of_holds (known : IsQuote quote) {n : Node} {s : String} {offset : Nat}
    (holds : n.Holds .stringLiteral (ofString quote s offset)) :
    ∃ l : StringLiteral, l.toNode = n ∧ l.isTerminated = true ∧ l.value = s ∧
      n.scalar? = some s := by
  have has : Category.stringLiteral.has n.kind = true := by
    rw [holds.kind]
    rfl
  have only : n.literalToken? = some (ofString quote s n.start) :=
    holds.literalToken (Token.isTrivia_ofString quote s offset)
  let l : StringLiteral := ⟨n, has⟩
  have terminated : l.isTerminated = true := by
    rw [StringLiteral.isTerminated_of_token only (Token.isString_ofString quote s _),
      Token.isUnterminated_ofString known]
    rfl
  have quoted : l.literalText.toList = l.quote :: (Text.escaping quote s.toList ++ [quote]) := by
    rw [StringLiteral.literalText_of_token only, StringLiteral.quote_of_token only,
      Token.quote_ofString known]
    exact Text.toList_quoted quote s
  have value : l.value = s := by
    rw [StringLiteral.value, StringLiteral.contents_eq quoted, terminated, if_pos rfl,
      List.dropLast_concat, Text.unescape_escaping known, String.ofList_toList]
  refine ⟨l, rfl, terminated, value, ?_⟩
  obtain ⟨⟨kind, trees, start, before⟩, above⟩ := n
  obtain rfl : kind = .stringLiteral := holds.kind
  exact congrArg some value

theorem lex_value (known : IsQuote quote) (s : String) :
    lex ("k = " ++ quoted quote s) = [⟨.identifier, "k", 0⟩, ⟨.whitespace, " ", 1⟩,
      ⟨.equals, "=", 2⟩, ⟨.whitespace, " ", 3⟩, ofString quote s 4] := by
  have front : Lexer.tokens 0 ("k = ".toList ++ (quoted quote s).toList) =
      [⟨.identifier, "k", 0⟩, ⟨.whitespace, " ", 1⟩, ⟨.equals, "=", 2⟩, ⟨.whitespace, " ", 3⟩] ++
        Lexer.tokens 4 ((quoted quote s).toList ++ []) := by
    rw [Text.toList_quoted, List.append_nil]
    generalize Text.escaping quote s.toList ++ [quote] = cs
    rcases known with rfl | rfl <;> rfl
  rw [lex_eq_tokens, String.toList_append, front, Token.tokens_quoted known]
  rfl

theorem lex_name (known : IsQuote quote) (s : String) :
    ∃ offset, lex (quoted quote s ++ " = 1") = [ofString quote s 0, ⟨.whitespace, " ", offset⟩,
      ⟨.equals, "=", offset + 1⟩, ⟨.whitespace, " ", offset + 2⟩, ⟨.number, "1", offset + 3⟩] := by
  rw [lex_eq_tokens, String.toList_append, Token.tokens_quoted known]
  generalize 0 + (quoted quote s).utf8ByteSize = offset
  exact ⟨offset, rfl⟩

theorem value_assignment (known : IsQuote quote) (s : String) :
    Nonempty (Assignment ("k = " ++ quoted quote s) .referenceExpression .stringLiteral
      ⟨.identifier, "k", 0⟩ (ofString quote s 4)) :=
  ⟨{  lead := _
      sign := _
      trail := _
      tokens := lex_value known s
      blank := ⟨rfl, rfl⟩
      equals := rfl
      visible := ⟨rfl, Token.isTrivia_ofString quote s _⟩
      sound := ⟨rfl, Token.fault?_ofString known s _⟩
      read := by rcases known with rfl | rfl <;> rfl }⟩

theorem name_assignment (known : IsQuote quote) (s : String) :
    ∃ number, Nonempty (Assignment (quoted quote s ++ " = 1") .stringLiteral .numberLiteral
      (ofString quote s 0) number) := by
  obtain ⟨offset, tokens⟩ := lex_name known s
  exact ⟨_, ⟨{
      lead := _
      sign := _
      trail := _
      tokens
      blank := ⟨rfl, rfl⟩
      equals := rfl
      visible := ⟨Token.isTrivia_ofString quote s _, rfl⟩
      sound := ⟨Token.fault?_ofString known s _, rfl⟩
      read := by rcases known with rfl | rfl <;> rfl }⟩⟩

/-- Any string is read back from its escapes between quotes, as a value and as a name. -/
theorem parse_escaped {quote : Char} (known : IsQuote quote) (s : String) :
    ((parse {} ("k = " ++ quoted quote s)).diagnostics = [] ∧
      ∃ root : File, (parse {} ("k = " ++ quoted quote s)).file? = some root ∧
        ∃ p : Property, root.children = [p.toNode] ∧ ∃ v : Value, p.value? = some v ∧
          ∃ l : StringLiteral, l.toNode = v.toNode ∧ l.isTerminated = true ∧ l.value = s ∧
            (Value.literal? v).map Literal.text = some s) ∧
    ((parse {} (quoted quote s ++ " = 1")).diagnostics = [] ∧
      ∃ root : File, (parse {} (quoted quote s ++ " = 1")).file? = some root ∧
        ∃ p : Property, root.findProperty? s = some p ∧ p.nameText? = some s) := by
  constructor
  · obtain ⟨written⟩ := value_assignment known s
    refine ⟨written.accepted, ?_⟩
    obtain ⟨root, file, p, children, -, name, _, -, holds, -, behind⟩ := written.exists_property
    obtain ⟨l, rfl, terminated, reads, scalar⟩ := literal_of_holds known holds
    have has : Category.value.has l.kind = true ∧ Category.literal.has l.kind = true := by
      rw [holds.kind]
      decide
    refine ⟨root, file, p, children, ⟨l.toNode, has.1⟩, ?_, l, rfl, terminated, reads, ?_⟩
    · simp [Property.value?, behind, Node.as?, has.1]
    · simp [Value.literal?, Node.as?, has.2, Literal.text, scalar]
  · obtain ⟨number, ⟨written⟩⟩ := name_assignment known s
    refine ⟨written.accepted, ?_⟩
    obtain ⟨root, file, p, -, all, _, value, holds, -, children, -⟩ := written.exists_property
    obtain ⟨l, rfl, -, -, scalar⟩ := literal_of_holds known holds
    have has : Category.propertyName.has l.kind = true := by
      rw [holds.kind]
      decide
    have named : p.nameText? = some s := by
      simp [Property.nameText?, Property.name?, children, Node.as?, has, PropertyName.text, scalar]
    refine ⟨root, file, p, ?_, named⟩
    simp [Node.findProperty?, all, named]

/-- The backslash in front of `u` is not taken for that of a code point. -/
theorem escaped_code_point :
    IsQuote '"' ∧ quoted '"' "\\u0041\n\"\\" = "\"\\\\u0041\\n\\\"\\\\\"" ∧
    ((parse {} "k = \"\\\\u0041\\n\\\"\\\\\"").diagnostics = [] ∧
      ∃ root : File, (parse {} "k = \"\\\\u0041\\n\\\"\\\\\"").file? = some root ∧
        ∃ p : Property, root.children = [p.toNode] ∧ ∃ v : Value, p.value? = some v ∧
          ∃ l : StringLiteral, l.toNode = v.toNode ∧ l.isTerminated = true ∧
            l.value = "\\u0041\n\"\\" ∧
            (Value.literal? v).map Literal.text = some "\\u0041\n\"\\") ∧
    ((parse {} "\"\\\\u0041\\n\\\"\\\\\" = 1").diagnostics = [] ∧
      ∃ root : File, (parse {} "\"\\\\u0041\\n\\\"\\\\\" = 1").file? = some root ∧
        ∃ p : Property, root.findProperty? "\\u0041\n\"\\" = some p ∧
          p.nameText? = some "\\u0041\n\"\\") := by
  have written : quoted '"' "\\u0041\n\"\\" = "\"\\\\u0041\\n\\\"\\\\\"" := by decide
  have back := parse_escaped (Or.inr rfl : IsQuote '"') "\\u0041\n\"\\"
  rw [written] at back
  exact ⟨Or.inr rfl, written, back⟩

end

end ConfigSyntax
