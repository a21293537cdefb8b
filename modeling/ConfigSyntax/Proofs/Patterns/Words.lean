import ConfigSyntax.Token.Lexer
import Mathlib.Computability.Language

/-! The patterns that declare the tokens: which words are of a kind, and when a word is the longest
that any pattern finds at the start of a text. Main definitions: `Matches`, `Longest`. -/

open Computability

namespace ConfigSyntax.Pattern

open Lexer (isBlank isNameStart isNamePart)

def one (p : Char → Bool) : Language Char := {w | ∃ c, p c = true ∧ w = [c]}

def exactly (s : String) : Language Char := {w | w = s.toList}

def maybe (L : Language Char) : Language Char := 1 + L

theorem mem_one {p : Char → Bool} {w : List Char} : w ∈ one p ↔ ∃ c, p c = true ∧ w = [c] := Iff.rfl

theorem mem_maybe {L : Language Char} {w : List Char} : w ∈ maybe L ↔ w = [] ∨ w ∈ L := by
  rw [maybe, Language.mem_add, Language.mem_one]

theorem mem_star_one {p : Char → Bool} {w : List Char} :
    w ∈ (one p)∗ ↔ ∀ c ∈ w, p c = true := by
  rw [Language.mem_kstar]
  constructor
  · rintro ⟨words, rfl, each⟩ c member
    obtain ⟨word, among, inside⟩ := List.mem_flatten.mp member
    obtain ⟨d, holds, rfl⟩ := each word among
    rwa [List.mem_singleton.mp inside]
  · intro each
    refine ⟨w.map ([·]), List.flatMap_singleton' w |>.symm.trans (by simp [List.flatMap]), ?_⟩
    simpa [mem_one] using each

theorem mem_one_mul {p : Char → Bool} {L : Language Char} {w : List Char} :
    w ∈ one p * L ↔ ∃ c v, p c = true ∧ v ∈ L ∧ w = c :: v := by
  rw [Language.mem_mul]
  constructor
  · rintro ⟨-, ⟨c, holds, rfl⟩, v, member, rfl⟩
    exact ⟨c, v, holds, member, rfl⟩
  · rintro ⟨c, v, holds, member, rfl⟩
    exact ⟨[c], ⟨c, holds, rfl⟩, v, member, rfl⟩

theorem mem_exactly_mul {s : String} {L : Language Char} {w : List Char} :
    w ∈ exactly s * L ↔ ∃ v ∈ L, w = s.toList ++ v := by
  rw [Language.mem_mul]
  constructor
  · rintro ⟨-, rfl, v, member, rfl⟩
    exact ⟨v, member, rfl⟩
  · rintro ⟨v, member, rfl⟩
    exact ⟨_, rfl, v, member, rfl⟩

theorem mem_maybe_mul {L M : Language Char} {w : List Char} :
    w ∈ maybe L * M ↔ w ∈ M ∨ w ∈ L * M := by
  rw [maybe, add_mul, one_mul, Language.mem_add]

def blanks : Language Char := one isBlank * (one isBlank)∗

def lineComment : Language Char := exactly "//" * (one (· ≠ '\n'))∗

def identifier : Language Char := one isNameStart * (one isNamePart)∗

def digits : Language Char := one Char.isDigit * (one Char.isDigit)∗

def fraction : Language Char := maybe (one (· = '.') * digits)

def exponent : Language Char :=
  maybe (one (fun c => c = 'e' || c = 'E') * (maybe (one fun c => c = '+' || c = '-') * digits))

def numberTail : Language Char := (one Char.isDigit)∗ * fraction * exponent

/-- `-?[0-9]+(\.[0-9]+)?([eE][+-]?[0-9]+)?` -/
def number : Language Char := maybe (exactly "-") * (one Char.isDigit * numberTail)

/-- A character of a string, by itself or behind a backslash: `[^q\\\n]|\\[^\n]`. -/
def stringPart (quote : Char) : Language Char :=
  one (fun c => c ≠ quote && c ≠ '\\' && c ≠ '\n') + one (· = '\\') * one (· ≠ '\n')

/-- What may follow the opening quote: `([^q\\\n]|\\[^\n])*\\?q?`. -/
def stringTail (quote : Char) : Language Char :=
  (stringPart quote)∗ * (maybe (one (· = '\\')) * maybe (one (· = quote)))

def string (quote : Char) : Language Char := one (· = quote) * stringTail quote

/-- From `/*` to the first `*/` behind it, or to the end of the text if there is none. What follows
the comment is the second argument. -/
inductive Comment : List Char → List Char → Prop
  | ended (inner rest : List Char) (first : ¬ ['*', '/'] <:+: inner ++ ['*']) :
      Comment ('/' :: '*' :: (inner ++ ['*', '/'])) rest
  | unended (inner : List Char) (never : ¬ ['*', '/'] <:+: inner) :
      Comment ('/' :: '*' :: inner) []

def fixed? : Kind → Option String
  | .trueWord => some "true"
  | .falseWord => some "false"
  | .nullWord => some "null"
  | .valWord => some "val"
  | .openBrace => some "\x7b"
  | .closeBrace => some "\x7d"
  | .openParen => some "("
  | .closeParen => some ")"
  | .openBracket => some "["
  | .closeBracket => some "]"
  | .comma => some ","
  | .dot => some "."
  | .colon => some ":"
  | .equals => some "="
  | .atSign => some "@"
  | .bangAt => some "!@"
  | .hash => some "#"
  | _ => none

def Matches (k : Kind) (w rest : List Char) : Prop :=
  match k with
  | .whitespace => w ∈ blanks
  | .lineComment => w ∈ lineComment
  | .blockComment => Comment w rest
  | .identifier => w ∈ identifier
  | .number => w ∈ number
  | .singleQuoted => w ∈ string '\''
  | .doubleQuoted => w ∈ string '"'
  | k => fixed? k = some (String.ofList w)

/-- No pattern finds a longer word than `w` in front, and `k` is the kind of this one: the only one
but for a keyword, which is also an identifier. -/
structure Longest (k : Kind) (w rest : List Char) : Prop where
  fits : Matches k w rest
  longest : ∀ k' w' rest', w' ++ rest' = w ++ rest → Matches k' w' rest' → w'.length ≤ w.length
  first : ∀ k', Matches k' w rest → k' = k ∨ k' = .identifier ∧ k.isKeyword = true

def Unmatched (cs : List Char) : Prop := ∀ k w rest, w ++ rest = cs → ¬ Matches k w rest

/-- There is one longest word in front, and it is of one kind. -/
theorem Longest.unique {k k' : Kind} {w w' rest rest' : List Char} (found : Longest k w rest)
    (other : Longest k' w' rest') (same : w ++ rest = w' ++ rest') :
    k = k' ∧ w = w' ∧ rest = rest' := by
  have le := other.longest k w rest same found.fits
  have ge := found.longest k' w' rest' same.symm other.fits
  obtain ⟨rfl, rfl⟩ := List.append_inj same (Nat.le_antisymm le ge)
  refine ⟨?_, rfl, rfl⟩
  rcases found.first k' other.fits with same | ⟨rfl, keyword⟩
  · exact same.symm
  · rcases other.first k found.fits with same | ⟨-, never⟩
    · exact same
    · cases never

end ConfigSyntax.Pattern
