import ConfigSyntax.Proofs.Patterns.Words
import ConfigSyntax.Proofs.Seam.Lines
import Mathlib.Data.List.TakeWhile

/-! Each scan of the lexer finds the longest word of its pattern. -/

open Computability

namespace ConfigSyntax

namespace Pattern

/-- The scan finds a word of `L`, the longest one, and ends with the word where one of the
characters `stop` follows. -/
structure Scans (L : Language Char) (scan : List Char → Nat) (stop : Char → Prop) : Prop where
  sound : ∀ cs : List Char, cs.take (scan cs) ∈ L
  longest : ∀ w ∈ L, ∀ rest, w.length ≤ scan (w ++ rest)
  stops : ∀ w ∈ L, ∀ c, stop c → ∀ rest, scan (w ++ c :: rest) = w.length

/-- Two scans, one after the other, where what the second one finds does not go on the first. -/
theorem Scans.andThen {L M : Language Char} {first second : List Char → Nat}
    {stop stop' : Char → Prop} (front : Scans L first stop) (back : Scans M second stop')
    (apart : ∀ w ∈ M, ∀ c v, w = c :: v → stop c) :
    Scans (L * M) (fun cs => first cs + second (cs.drop (first cs)))
      (fun c => stop c ∧ stop' c) where
  sound cs := by
    rw [List.take_add]
    exact Language.append_mem_mul (front.sound cs) (back.sound _)
  longest w member rest := by
    obtain ⟨u, inL, v, inM, rfl⟩ := Language.mem_mul.mp member
    have far := front.longest u inL (v ++ rest)
    rw [List.append_assoc, List.length_append]
    cases v with
    | nil => exact Nat.le_add_right_of_le far
    | cons c v =>
        have here := front.stops u inL c (apart _ inM c v rfl) (v ++ rest)
        have behind := back.longest _ inM rest
        rw [List.cons_append] at behind ⊢
        rw [here, List.drop_left]
        exact Nat.add_le_add_left behind _
  stops w member c both rest := by
    obtain ⟨u, inL, v, inM, rfl⟩ := Language.mem_mul.mp member
    have behind := back.stops v inM c both.2 rest
    have here : first (u ++ (v ++ c :: rest)) = u.length := by
      cases v with
      | nil => exact front.stops u inL c both.1 rest
      | cons d v => exact front.stops u inL d (apart _ inM d v rfl) _
    rw [List.append_assoc, here, List.drop_left, behind, List.length_append]

theorem scans_run (p : Char → Bool) : Scans (one p)∗ (Lexer.run p) (fun c => p c = false) where
  sound cs := by
    rw [Lexer.run, ← List.prefix_iff_eq_take.mp (List.takeWhile_prefix p), mem_star_one]
    exact fun c => List.mem_takeWhile_imp
  longest w member rest := by
    rw [Lexer.run, List.takeWhile_append_of_pos (mem_star_one.mp member), List.length_append]
    exact Nat.le_add_right _ _
  stops w member c stop rest := by
    rw [Lexer.run, List.takeWhile_append_of_pos (mem_star_one.mp member),
      List.takeWhile_cons_of_neg (by simp [stop]), List.append_nil]

theorem digits_of_run {cs : List Char} (some : Lexer.run Char.isDigit cs ≠ 0) :
    cs.take (Lexer.run Char.isDigit cs) ∈ digits := by
  have found := (scans_run Char.isDigit).sound cs
  cases word : cs.take (Lexer.run Char.isDigit cs) with
  | nil =>
      rcases List.take_eq_nil_iff.mp word with none | rfl
      · exact absurd none some
      · exact absurd rfl some
  | cons d ds =>
      rw [word, mem_star_one] at found
      exact mem_one_mul.mpr ⟨d, ds, found d List.mem_cons_self,
        mem_star_one.mpr fun c member => found c (List.mem_cons_of_mem _ member), rfl⟩

theorem star_of_digits {w : List Char} (member : w ∈ digits) : w ∈ (one Char.isDigit)∗ := by
  obtain ⟨d, ds, digit, rest, rfl⟩ := mem_one_mul.mp member
  rw [mem_star_one] at rest ⊢
  exact List.forall_mem_cons.mpr ⟨digit, rest⟩

theorem digits_pos {w : List Char} (member : w ∈ digits) : 0 < w.length := by
  obtain ⟨d, ds, -, -, rfl⟩ := mem_one_mul.mp member
  exact Nat.succ_pos _

theorem scans_fraction :
    Scans fraction Lexer.fraction (fun c => c.isDigit = false ∧ c ≠ '.') where
  sound cs := by
    unfold Lexer.fraction
    split
    · split
      case isTrue none => exact mem_maybe.mpr (Or.inl rfl)
      case isFalse some =>
        exact mem_maybe.mpr (Or.inr (mem_one_mul.mpr ⟨_, _, rfl, digits_of_run some, rfl⟩))
    · exact mem_maybe.mpr (Or.inl rfl)
  longest w member rest := by
    rcases mem_maybe.mp member with rfl | member
    · exact Nat.zero_le _
    · obtain ⟨c, ds, point, some, rfl⟩ := mem_one_mul.mp member
      obtain rfl : c = '.' := by simpa using point
      have found := (scans_run Char.isDigit).longest ds (star_of_digits some) rest
      have positive := digits_pos some
      rw [List.cons_append, Lexer.fraction, if_neg (by omega)]
      exact Nat.succ_le_succ found
  stops w member c stop rest := by
    rcases mem_maybe.mp member with rfl | member
    · exact Lexer.fraction_of_ne stop.2 rest
    · obtain ⟨d, ds, point, some, rfl⟩ := mem_one_mul.mp member
      obtain rfl : d = '.' := by simpa using point
      have found := (scans_run Char.isDigit).stops ds (star_of_digits some) c stop.1 rest
      have positive := digits_pos some
      rw [List.cons_append, Lexer.fraction, found, if_neg (by omega)]
      rfl

theorem sign_of_digit {d : Char} (digit : d.isDigit = true) (cs : List Char) :
    Lexer.sign (d :: cs) = 0 := by
  unfold Lexer.sign
  split
  case h_1 same => rw [(List.cons.inj same).1] at digit; cases digit
  case h_2 same => rw [(List.cons.inj same).1] at digit; cases digit
  case h_3 => rfl

theorem sign_sound (cs : List Char) :
    cs.take (Lexer.sign cs) ∈ maybe (one fun c => c = '+' || c = '-') := by
  unfold Lexer.sign
  split
  · exact mem_maybe.mpr (Or.inr ⟨'+', rfl, rfl⟩)
  · exact mem_maybe.mpr (Or.inr ⟨'-', rfl, rfl⟩)
  · exact mem_maybe.mpr (Or.inl rfl)

theorem sign_length {w ds : List Char} (member : w ∈ maybe (one fun c => c = '+' || c = '-'))
    (some : ds ∈ digits) (rest : List Char) : Lexer.sign (w ++ (ds ++ rest)) = w.length := by
  rcases mem_maybe.mp member with rfl | ⟨c, sign, rfl⟩
  · obtain ⟨d, ds, digit, -, rfl⟩ := mem_one_mul.mp some
    exact sign_of_digit digit _
  · simp only [Bool.or_eq_true, decide_eq_true_eq] at sign
    rcases sign with rfl | rfl <;> rfl

theorem scans_exponent : Scans exponent Lexer.exponent (fun _ => False) where
  sound cs := by
    cases cs with
    | nil => exact mem_maybe.mpr (Or.inl rfl)
    | cons c cs =>
        simp only [Lexer.exponent]
        split
        case isTrue some =>
          simp only [Bool.and_eq_true, Bool.or_eq_true, decide_eq_true_eq, decide_not,
            Bool.not_eq_true', decide_eq_false_iff_not] at some
          rw [Nat.add_assoc, Nat.add_comm 1, List.take_succ_cons, List.take_add]
          refine mem_maybe.mpr (Or.inr (mem_one_mul.mpr ⟨c, _, by simpa using some.1, ?_, rfl⟩))
          exact Language.append_mem_mul (sign_sound cs) (digits_of_run some.2)
        case isFalse => exact mem_maybe.mpr (Or.inl rfl)
  longest w member rest := by
    rcases mem_maybe.mp member with rfl | member
    · exact Nat.zero_le _
    · obtain ⟨c, v, letter, inside, rfl⟩ := mem_one_mul.mp member
      obtain ⟨sg, signed, ds, some, rfl⟩ := Language.mem_mul.mp inside
      have found := (scans_run Char.isDigit).longest ds (star_of_digits some) rest
      have positive := digits_pos some
      simp only [List.cons_append, List.append_assoc, Lexer.exponent, sign_length signed some,
        List.drop_left]
      rw [if_pos (by simpa using ⟨by simpa using letter, by omega⟩), List.length_cons,
        List.length_append]
      omega
  stops _ _ _ never := never.elim

theorem scans_numberRest :
    ∃ stop, Scans numberTail Lexer.numberRest stop := by
  have point : ∀ w ∈ fraction, ∀ c v, w = c :: v → c.isDigit = false := by
    rintro _ member c v rfl
    rcases mem_maybe.mp member with none | member
    · cases none
    · obtain ⟨d, ds, point, -, same⟩ := mem_one_mul.mp member
      rw [(List.cons.inj same).1, of_decide_eq_true point]
      rfl
  have letter : ∀ w ∈ exponent, ∀ c v, w = c :: v →
      c.isDigit = false ∧ c.isDigit = false ∧ c ≠ '.' := by
    rintro _ member c v rfl
    rcases mem_maybe.mp member with none | member
    · cases none
    · obtain ⟨d, ds, letter, -, same⟩ := mem_one_mul.mp member
      simp only [Bool.or_eq_true, decide_eq_true_eq] at letter
      rw [(List.cons.inj same).1]
      rcases letter with rfl | rfl <;> decide
  exact ⟨_, ((scans_run Char.isDigit).andThen scans_fraction point).andThen scans_exponent letter⟩

theorem string_step {quote : Char} {part w : List Char} (item : part ∈ stringPart quote)
    (member : w ∈ stringTail quote) : part ++ w ∈ stringTail quote := by
  obtain ⟨parts, inside, ending, last, rfl⟩ := Language.mem_mul.mp member
  rw [← List.append_assoc]
  refine Language.append_mem_mul ?_ last
  rw [← Language.one_add_self_mul_kstar_eq_kstar, Language.mem_add]
  exact Or.inr (Language.append_mem_mul item inside)

theorem string_end {quote : Char} {w : List Char}
    (last : w ∈ maybe (one (· = '\\')) * maybe (one (· = quote))) : w ∈ stringTail quote :=
  Language.append_mem_mul (Language.nil_mem_kstar _) last

theorem mem_stringPart {quote : Char} {w : List Char} :
    w ∈ stringPart quote ↔ (∃ c, (c ≠ quote ∧ c ≠ '\\' ∧ c ≠ '\n') ∧ w = [c]) ∨
      ∃ c, c ≠ '\n' ∧ w = ['\\', c] := by
  rw [stringPart, Language.mem_add, mem_one, mem_one_mul]
  refine or_congr (exists_congr fun c => and_congr_left' (by simp [and_assoc])) ?_
  constructor
  · rintro ⟨c, -, escape, ⟨d, goes, rfl⟩, rfl⟩
    exact ⟨d, by simpa using goes, by rw [of_decide_eq_true escape]⟩
  · rintro ⟨d, goes, rfl⟩
    exact ⟨_, _, decide_eq_true rfl, ⟨d, by simpa using goes, rfl⟩, rfl⟩

theorem mem_stringEnd {quote : Char} {w : List Char} :
    w ∈ maybe (one (· = '\\')) * maybe (one (· = quote)) ↔
      w = [] ∨ w = ['\\'] ∨ w = [quote] ∨ w = ['\\', quote] := by
  simp only [Language.mem_mul, mem_maybe, mem_one, decide_eq_true_eq]
  constructor
  · rintro ⟨_, rfl | ⟨_, rfl, rfl⟩, _, rfl | ⟨_, rfl, rfl⟩, rfl⟩ <;> simp
  · rintro (rfl | rfl | rfl | rfl) <;> simp

theorem stringRest_sound (quote : Char) (cs : List Char) :
    cs.take (Lexer.stringRest quote cs) ∈ stringTail quote := by
  fun_induction Lexer.stringRest quote cs with
  | case1 => exact string_end (mem_stringEnd.mpr (Or.inl rfl))
  | case2 => exact string_end (mem_stringEnd.mpr (Or.inr (Or.inl rfl)))
  | case3 c cs goes ih => exact string_step (mem_stringPart.mpr (Or.inr ⟨c, goes, rfl⟩)) ih
  | case4 => exact string_end (mem_stringEnd.mpr (Or.inr (Or.inr (Or.inl rfl))))
  | case5 => exact string_end (mem_stringEnd.mpr (Or.inl rfl))
  | case6 c cs alone notQuote goes ih =>
      by_cases escape : c = '\\'
      · cases cs with
        | nil => exact string_end (mem_stringEnd.mpr (Or.inr (Or.inl (by rw [escape]; rfl))))
        | cons d cs => exact absurd rfl (alone d cs escape)
      · exact string_step (mem_stringPart.mpr (Or.inl ⟨c, ⟨notQuote, escape, goes⟩, rfl⟩)) ih

theorem stringRest_longest {quote : Char} (plain : quote ≠ '\\') (line : quote ≠ '\n')
    {w : List Char} (member : w ∈ stringTail quote) (rest : List Char) :
    w.length ≤ Lexer.stringRest quote (w ++ rest) := by
  obtain ⟨-, ⟨parts, rfl, each⟩, ending, last, rfl⟩ := Language.mem_mul.mp member
  induction parts with
  | nil =>
      rcases mem_stringEnd.mp last with rfl | rfl | rfl | rfl
      · exact Nat.zero_le _
      · cases rest with
        | nil => simp [Lexer.stringRest]
        | cons c rest =>
            simp only [List.flatten_nil, List.nil_append, List.cons_append, Lexer.stringRest]
            split <;> simp
      · simp [Lexer.stringRest, plain]
      · simp [Lexer.stringRest, line]
  | cons part parts ih =>
      obtain ⟨first, others⟩ := List.forall_mem_cons.mp each
      have found := ih others (Language.append_mem_mul (Language.join_mem_kstar others) last)
      rcases mem_stringPart.mp first with ⟨c, ⟨notQuote, escape, goes⟩, rfl⟩ | ⟨c, goes, rfl⟩
      · simpa [Lexer.stringRest, escape, notQuote, goes] using found
      · simpa [Lexer.stringRest, goes] using found

theorem commentRest_sound (cs : List Char) :
    Comment ('/' :: '*' :: cs.take (Lexer.commentRest cs)) (cs.drop (Lexer.commentRest cs)) := by
  suffices ends : (¬ ['*', '/'] <:+: cs ∧ Lexer.commentRest cs = cs.length) ∨
      ∃ inner rest, cs = inner ++ '*' :: '/' :: rest ∧ ¬ ['*', '/'] <:+: inner ++ ['*'] ∧
        Lexer.commentRest cs = inner.length + 2 by
    rcases ends with ⟨never, whole⟩ | ⟨inner, rest, rfl, first, length⟩
    · rw [whole, List.take_length, List.drop_length]
      exact .unended cs never
    · have split : inner ++ '*' :: '/' :: rest = (inner ++ ['*', '/']) ++ rest := by simp
      have size : inner.length + 2 = (inner ++ ['*', '/']).length := by simp
      rw [length, split, size, List.take_left, List.drop_left]
      exact .ended inner rest first
  fun_induction Lexer.commentRest cs with
  | case1 => exact Or.inl ⟨by simp, rfl⟩
  | case2 rest => exact Or.inr ⟨[], rest, rfl, by decide, rfl⟩
  | case3 c cs other ih =>
      have start (ds : List Char) (under : ds <+: cs) : ¬ ['*', '/'] <+: c :: ds := by
        rintro ⟨rest, split⟩
        obtain ⟨star, behind⟩ := List.cons.inj split
        obtain ⟨more, rfl⟩ := under
        exact other (rest ++ more) star.symm (by rw [← behind]; rfl)
      rcases ih with ⟨never, whole⟩ | ⟨inner, rest, rfl, first, length⟩
      · refine Or.inl ⟨?_, by rw [whole, List.length_cons]⟩
        rw [List.infix_cons_iff, not_or]
        exact ⟨start cs (List.prefix_refl cs), never⟩
      · refine Or.inr ⟨c :: inner, rest, rfl, ?_, by rw [length, List.length_cons]⟩
        rw [List.cons_append, List.infix_cons_iff, not_or]
        exact ⟨start _ ⟨'/' :: rest, by simp⟩, first⟩

/-- The scan goes on where no end stands before the last character. -/
theorem le_commentRest {w : List Char} (inside : ¬ ['*', '/'] <:+: w.dropLast) (rest : List Char) :
    w.length ≤ Lexer.commentRest (w ++ rest) := by
  induction w with
  | nil => exact Nat.zero_le _
  | cons c w ih =>
      cases w with
      | nil =>
          rw [List.cons_append, Lexer.commentRest.eq_def]
          split <;> simp_all
      | cons d w =>
          rw [List.dropLast_cons_cons, List.infix_cons_iff, not_or] at inside
          by_cases here : c = '*' ∧ d = '/'
          · obtain ⟨rfl, rfl⟩ := here
            cases w with
            | nil => exact Nat.le_refl 2
            | cons e w => exact absurd ⟨_, rfl⟩ inside.1
          · have goes : ∀ more, c = '*' → d :: (w ++ rest) = '/' :: more → False :=
              fun more star split => here ⟨star, (List.cons.inj split).1⟩
            have found := ih inside.2
            rw [List.cons_append, List.cons_append, Lexer.commentRest]
            · exact Nat.succ_le_succ found
            · exact goes

theorem Comment.longest {w rest : List Char} (comment : Comment ('/' :: '*' :: w) rest) :
    w.length ≤ Lexer.commentRest (w ++ rest) := by
  generalize whole : '/' :: '*' :: w = text at comment
  apply le_commentRest
  cases comment with
  | ended inner rest first =>
      obtain rfl : w = inner ++ ['*', '/'] := by simpa using whole
      rwa [show inner ++ ['*', '/'] = (inner ++ ['*']) ++ ['/'] by simp, List.dropLast_concat]
  | unended inner never =>
      obtain rfl : w = inner := by simpa using whole
      exact fun found => never (found.trans (List.dropLast_prefix w).isInfix)

end Pattern
end ConfigSyntax
