import ConfigSyntax.Token.Lexer
import ConfigSyntax.Tree
import Mathlib.Tactic.SplitIfs

/-! The tokens of a text lie end to end, and their texts make up the text. -/

namespace ConfigSyntax

namespace Tree

theorem widthOfAll_append (front back : List Tree) :
    widthOfAll (front ++ back) = widthOfAll front + widthOfAll back := by
  induction front with
  | nil => simp [widthOfAll]
  | cons head tail ih => simp [widthOfAll, ih, Nat.add_assoc]

mutual

theorem text_size : ∀ t : Tree, t.text.utf8ByteSize = t.width
  | .token _ _ => rfl
  | .node _ parts => textOfAll_size parts

theorem textOfAll_size : ∀ ts : List Tree, (textOfAll ts).utf8ByteSize = widthOfAll ts
  | [] => rfl
  | t :: ts => by
      rw [textOfAll, widthOfAll, String.utf8ByteSize_append, text_size t, textOfAll_size ts]

end

end Tree

namespace Token

def leaves (ts : List Token) : List Tree := ts.map (·.leaf)

@[simp] theorem leaves_nil : leaves [] = [] := rfl

@[simp] theorem leaves_cons (t : Token) (ts : List Token) :
    leaves (t :: ts) = t.leaf :: leaves ts := rfl

@[simp] theorem leaves_append (front back : List Token) :
    leaves (front ++ back) = leaves front ++ leaves back := List.map_append

def Tiled (start stop : Nat) : List Token → Prop
  | [] => start = stop
  | t :: ts => t.offset = start ∧ 0 < t.text.utf8ByteSize ∧
      Tiled (start + t.text.utf8ByteSize) stop ts

theorem Tiled.stop_eq {start stop : Nat} {ts : List Token} (tiled : Tiled start stop ts) :
    stop = start + Tree.widthOfAll (leaves ts) := by
  induction ts generalizing start with
  | nil => exact tiled.symm
  | cons t ts ih =>
      have rest := ih tiled.2.2
      rw [leaves_cons, Tree.widthOfAll, ← Nat.add_assoc]
      exact rest

theorem Tiled.suffix {start stop : Nat} {front back : List Token}
    (tiled : Tiled start stop (front ++ back)) :
    Tiled (start + Tree.widthOfAll (leaves front)) stop back := by
  induction front generalizing start with
  | nil => exact tiled
  | cons t ts ih =>
      have rest := ih tiled.2.2
      rw [leaves_cons, Tree.widthOfAll, ← Nat.add_assoc]
      exact rest

theorem Tiled.initial {start stop : Nat} {front back : List Token}
    (tiled : Tiled start stop (front ++ back)) :
    Tiled start (start + Tree.widthOfAll (leaves front)) front := by
  induction front generalizing start with
  | nil => rfl
  | cons t ts ih =>
      have rest := ih tiled.2.2
      rw [Nat.add_assoc] at rest
      exact ⟨tiled.1, tiled.2.1, rest⟩

theorem Tiled.le_offset {start stop : Nat} {ts : List Token} (tiled : Tiled start stop ts)
    {t : Token} (member : t ∈ ts) : start ≤ t.offset := by
  induction ts generalizing start with
  | nil => cases member
  | cons head tail ih =>
      obtain ⟨first, -, rest⟩ := tiled
      rcases List.mem_cons.mp member with rfl | member
      · exact Nat.le_of_eq first.symm
      · have := ih rest member
        omega

theorem Tiled.offset_lt {start stop : Nat} {front back : List Token}
    (tiled : Tiled start stop (front ++ back)) {t : Token} (member : t ∈ front) :
    t.offset < start + Tree.widthOfAll (leaves front) := by
  induction front generalizing start with
  | nil => cases member
  | cons head tail ih =>
      obtain ⟨first, positive, rest⟩ := tiled
      rw [leaves_cons, Tree.widthOfAll, ← Nat.add_assoc]
      rcases List.mem_cons.mp member with rfl | member
      · change _ < start + t.text.utf8ByteSize + _
        omega
      · exact ih rest member

end Token

namespace Lexer

theorem ofList_cons_size_pos (c : Char) (cs : List Char) :
    0 < (String.ofList (c :: cs)).utf8ByteSize := by
  rw [Nat.pos_iff_ne_zero, ne_eq, String.utf8ByteSize_eq_zero_iff]
  intro empty
  have chars := congrArg String.toList empty
  simp at chars

/-- Every step takes a character, so nothing is left when the fuel is as long as the text. -/
theorem cut_text (fuel offset : Nat) (cs : List Char) (enough : cs.length ≤ fuel) :
    Tree.textOfAll (Token.leaves (cut fuel offset cs)) = String.ofList cs := by
  induction fuel generalizing offset cs with
  | zero =>
      have empty : cs = [] := List.length_eq_zero_iff.mp (Nat.le_zero.mp enough)
      subst empty
      rfl
  | succ fuel ih =>
      cases cs with
      | nil => rfl
      | cons c cs =>
          have shorter : (cs.drop (next c cs).2).length ≤ fuel := by
            rw [List.length_drop]
            rw [List.length_cons] at enough
            omega
          simp only [cut, Token.leaves_cons, Tree.textOfAll, ih _ _ shorter, Token.leaf, Tree.text]
          rw [← String.ofList_append, List.cons_append, List.take_append_drop]

theorem cut_tiled (fuel offset : Nat) (cs : List Char) :
    Token.Tiled offset (offset + Tree.widthOfAll (Token.leaves (cut fuel offset cs)))
      (cut fuel offset cs) := by
  induction fuel generalizing offset cs with
  | zero => simp [cut, Token.Tiled, Tree.widthOfAll]
  | succ fuel ih =>
      cases cs with
      | nil => simp [cut, Token.Tiled, Tree.widthOfAll]
      | cons c cs =>
          simp only [cut, Token.leaves_cons, Tree.widthOfAll, ← Nat.add_assoc]
          exact ⟨rfl, ofList_cons_size_pos _ _, ih _ _⟩

theorem word_ne_eof (cs : List Char) : word cs ≠ .eof := by
  unfold word
  split <;> decide

theorem punctuation?_ne_eof (c : Char) : punctuation? c ≠ some .eof := by
  unfold punctuation?
  split <;> decide

theorem next_ne_eof (c : Char) (cs : List Char) : (next c cs).1 ≠ .eof := by
  have words := word_ne_eof (c :: cs.takeWhile isNamePart)
  have others : ∀ c, (punctuation? c).getD .error ≠ .eof := by
    intro c
    have := punctuation?_ne_eof c
    cases h : punctuation? c <;> simp_all
  unfold next
  split_ifs
  · simp
  · exact words
  · simp
  · split
    · split_ifs <;> simp
    · simp
    · simp
    · simp
    · simp
    · simp
    · exact others _

theorem cut_ne_eof (fuel offset : Nat) (cs : List Char) :
    ∀ t ∈ cut fuel offset cs, t.kind ≠ .eof := by
  induction fuel generalizing offset cs with
  | zero => simp [cut]
  | succ fuel ih =>
      cases cs with
      | nil => simp [cut]
      | cons c cs =>
          intro t member
          rcases List.mem_cons.mp member with rfl | member
          · exact next_ne_eof c cs
          · exact ih _ _ t member

end Lexer

theorem lex_text (text : String) : Tree.textOfAll (Token.leaves (lex text)) = text := by
  rw [lex, Lexer.cut_text _ _ _ (Nat.le_of_eq String.length_toList), String.ofList_toList]

theorem lex_tiled (text : String) : Token.Tiled 0 text.utf8ByteSize (lex text) := by
  have tiled := Lexer.cut_tiled text.length 0 text.toList
  rw [Nat.zero_add, ← Tree.textOfAll_size] at tiled
  have size := congrArg String.utf8ByteSize (lex_text text)
  rw [lex] at size
  rwa [size] at tiled

theorem lex_ne_eof (text : String) : ∀ t ∈ lex text, t.kind ≠ .eof := Lexer.cut_ne_eof _ _ _

end ConfigSyntax
