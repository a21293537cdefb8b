import ConfigSyntax.Node.Scalar
import ConfigSyntax.Proofs.Patterns.Slices
import ConfigSyntax.Proofs.Strings.Closing
import Mathlib.Data.Nat.Digits.Defs

/-! The whole numbers that number literals stand for. Main statement: `parse_counts`. -/

open Computability

namespace ConfigSyntax

namespace Text

def decimal (ds : List Char) : Nat :=
  Nat.ofDigits 10 (ds.reverse.map fun d => d.toNat - '0'.toNat)

theorem digitsValue_eq (ds : List Char) : digitsValue ds = decimal ds := by
  induction ds using List.reverseRecOn with
  | nil => rfl
  | append_singleton ds d ih =>
      have last : digitsValue (ds ++ [d]) = 10 * digitsValue ds + (d.toNat - '0'.toNat) := by
        simp [digitsValue]
      calc
        digitsValue (ds ++ [d]) = 10 * decimal ds + (d.toNat - '0'.toNat) := by rw [last, ih]
        _ = decimal (ds ++ [d]) := by
          simp [decimal, Nat.ofDigits_cons]
          omega

theorem isDigits_iff {ds : List Char} :
    isDigits ds = true ↔ ds ≠ [] ∧ ∀ d ∈ ds, d.isDigit = true := by
  simp [isDigits]

structure Numeral where
  negative : Bool
  whole : List Char
  fraction : List Char
  exponent : List Char
  whole_digits : whole ∈ Pattern.digits
  fraction_fits : fraction ∈ Pattern.fraction
  exponent_fits : exponent ∈ Pattern.exponent

namespace Numeral

def sign (n : Numeral) : List Char := if n.negative then ['-'] else []

def chars (n : Numeral) : List Char := n.sign ++ (n.whole ++ (n.fraction ++ n.exponent))

def IsWhole (n : Numeral) : Prop := n.fraction = [] ∧ n.exponent = []

def integer (n : Numeral) : Int := if n.negative then -(decimal n.whole) else decimal n.whole

/-- The token of a number has these parts. -/
theorem exists_chars {cs : List Char} (number : cs ∈ Pattern.number) :
    ∃ n : Numeral, n.chars = cs := by
  obtain ⟨minus, signed, rest, written, rfl⟩ := Language.mem_mul.mp number
  obtain ⟨d, tail, digit, parts, rfl⟩ := Pattern.mem_one_mul.mp written
  obtain ⟨front, exact, exponent, exponent_fits, rfl⟩ := Language.mem_mul.mp parts
  obtain ⟨ds, run, fraction, fraction_fits, rfl⟩ := Language.mem_mul.mp exact
  have whole_digits : d :: ds ∈ Pattern.digits := Pattern.mem_one_mul.mpr ⟨d, ds, digit, run, rfl⟩
  rcases Pattern.mem_maybe.mp signed with rfl | rfl
  · exact ⟨⟨false, d :: ds, fraction, exponent, whole_digits, fraction_fits, exponent_fits⟩,
      by simp [chars, sign]⟩
  · exact ⟨⟨true, d :: ds, fraction, exponent, whole_digits, fraction_fits, exponent_fits⟩,
      by simp [chars, sign]⟩

variable (n : Numeral)

theorem whole_cons : ∃ d ds, n.whole = d :: ds ∧ ∀ c ∈ n.whole, c.isDigit = true := by
  obtain ⟨d, ds, digit, run, same⟩ := Pattern.mem_one_mul.mp n.whole_digits
  refine ⟨d, ds, same, ?_⟩
  rw [same]
  exact List.forall_mem_cons.mpr ⟨digit, Pattern.mem_star_one.mp run⟩

theorem sign?_chars : sign? n.chars = (n.negative, n.whole ++ (n.fraction ++ n.exponent)) := by
  obtain ⟨d, ds, same, digits⟩ := n.whole_cons
  have digit : d.isDigit = true := digits d (same ▸ List.mem_cons_self)
  rw [chars, sign]
  cases n.negative with
  | true => rfl
  | false =>
      rw [if_neg Bool.false_ne_true, List.nil_append, same, List.cons_append]
      unfold sign?
      split
      case h_1 minus => rw [(List.cons.inj minus).1] at digit; cases digit
      case h_2 plus => rw [(List.cons.inj plus).1] at digit; cases digit
      case h_3 => rfl

theorem fraction_eq_nil (digits : ∀ c ∈ n.fraction, c.isDigit = true) : n.fraction = [] := by
  rcases Pattern.mem_maybe.mp n.fraction_fits with none | some
  · exact none
  · obtain ⟨c, rest, point, -, same⟩ := Pattern.mem_one_mul.mp some
    have digit : c.isDigit = true := digits c (same ▸ List.mem_cons_self)
    obtain rfl : c = '.' := by simpa using point
    cases digit

theorem exponent_eq_nil (digits : ∀ c ∈ n.exponent, c.isDigit = true) : n.exponent = [] := by
  rcases Pattern.mem_maybe.mp n.exponent_fits with none | some
  · exact none
  · obtain ⟨c, rest, letter, -, same⟩ := Pattern.mem_one_mul.mp some
    have digit : c.isDigit = true := digits c (same ▸ List.mem_cons_self)
    have known : c = 'e' ∨ c = 'E' := by simpa using letter
    rcases known with rfl | rfl <;> cases digit

/-- A point or a letter is no digit. -/
theorem isDigits_iff_isWhole :
    isDigits (n.whole ++ (n.fraction ++ n.exponent)) = true ↔ n.IsWhole := by
  obtain ⟨d, ds, same, digits⟩ := n.whole_cons
  rw [isDigits_iff, IsWhole]
  constructor
  · rintro ⟨-, each⟩
    constructor
    · apply n.fraction_eq_nil
      exact fun c member => each c (List.mem_append_right _ (List.mem_append_left _ member))
    · apply n.exponent_eq_nil
      exact fun c member => each c (List.mem_append_right _ (List.mem_append_right _ member))
  · rintro ⟨noFraction, noExponent⟩
    rw [noFraction, noExponent, List.append_nil, List.append_nil]
    exact ⟨by simp [same], digits⟩

theorem wholeNumber?_eq_some_iff {v : Int} :
    wholeNumber? n.chars = some v ↔ n.IsWhole ∧ v = n.integer := by
  rw [wholeNumber?, sign?_chars]
  by_cases whole : n.IsWhole
  · have digits := n.isDigits_iff_isWhole.mpr whole
    rw [whole.1, whole.2, List.append_nil, List.append_nil] at digits ⊢
    simp only [digits, if_true, digitsValue_eq, Option.some.injEq, whole, true_and]
    exact eq_comm
  · have others : isDigits (n.whole ++ (n.fraction ++ n.exponent)) = false :=
      Bool.eq_false_iff.mpr fun digits => whole (n.isDigits_iff_isWhole.mp digits)
    simp [others, whole]

theorem int64?_eq_some_iff {v : Int} :
    int64? n.chars = some v ↔
      (n.IsWhole ∧ -2 ^ 63 ≤ n.integer ∧ n.integer ≤ 2 ^ 63 - 1) ∧ v = n.integer := by
  have least : Int64.minValue.toInt = -2 ^ 63 := by decide
  have greatest : Int64.maxValue.toInt = 2 ^ 63 - 1 := by decide
  rw [int64?, Option.filter_eq_some_iff, wholeNumber?_eq_some_iff, least, greatest,
    decide_eq_true_eq]
  constructor
  · rintro ⟨⟨whole, rfl⟩, fits⟩
    exact ⟨⟨whole, fits⟩, rfl⟩
  · rintro ⟨⟨whole, fits⟩, rfl⟩
    exact ⟨⟨whole, rfl⟩, fits⟩

/-- The two ends of the range differ, and zeros in front do not count. -/
example : int64? "-009223372036854775808".toList = some (-2 ^ 63) ∧
    int64? "9223372036854775808".toList = none := by
  decide +kernel

end Numeral
end Text

theorem number_of_mem {text : String} {t : Token} (member : t ∈ lex text)
    (kind : t.kind = .number) : t.text.toList ∈ Pattern.number := by
  obtain ⟨front, back, split⟩ := List.append_of_mem member
  have munched := (munch_lex text).munched
  rw [split] at munched
  rcases munched.suffix.1 with longest | ⟨error, -⟩
  · have fits := longest.fits
    rwa [kind] at fits
  · rw [kind] at error
    cases error

open Text (Numeral)

/-- Whatever the text and the limit, a number literal is its token as written, and stands for a
whole number just if that has neither a fraction nor an exponent and fits into 64 bits; then it
stands for the integer that its digits denote. -/
theorem parse_counts (limits : Limits) (text : String) :
    ∃ root, Node.ofTree? (parse limits text).tree = some root ∧
      ∀ n : NumberLiteral, n.toNode ∈ root.descendants →
        ∃ t ∈ tokenize text, t.kind = .number ∧ n.literalToken? = some t ∧
          n.literalText = t.text ∧ (∃ m : Numeral, m.chars = t.text.toList) ∧
          ∀ m : Numeral, m.chars = t.text.toList → ∀ v : Int, n.int? = some v ↔
            (m.IsWhole ∧ -2 ^ 63 ≤ m.integer ∧ m.integer ≤ 2 ^ 63 - 1) ∧ v = m.integer := by
  refine ⟨fileNode limits text, ofTree?_parse limits text, fun n member => ?_⟩
  have kind : n.kind = .numberLiteral := by
    simpa [Category.has, Category.kinds] using n.has_kind
  have only : n.symbols = [.token .number] := by
    have word := symbols_of_descendant member
    rwa [kind] at word
  obtain ⟨t, inside, number, found⟩ := token_of_symbol member only
  have written : n.literalText = t.text := by
    rw [Node.literalText, found]
    rfl
  refine ⟨t, List.mem_append_left _ inside, number, found, written,
    Numeral.exists_chars (number_of_mem inside number), fun m same v => ?_⟩
  rw [NumberLiteral.int?, written, ← same, Numeral.int64?_eq_some_iff]

end ConfigSyntax
