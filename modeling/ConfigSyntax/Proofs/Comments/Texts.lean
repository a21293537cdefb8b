import ConfigSyntax.Node.Comment
import ConfigSyntax.Proofs.Patterns.Slices
import Mathlib.Data.List.DropRight

/-! What the comments in a run of blanks say of what stands behind it, and that looking back over
siblings finds it. Main definition: `Comment.documented`. Main statement: `said_leaves`. -/

namespace ConfigSyntax

namespace Comment

def isBreak (t : Token) : Bool := t.kind = .whitespace ∧ 2 ≤ t.text.toList.count '\n'

/-- The part of a run that is about what stands behind it: what comes after the last empty line,
from the last block comment on if there is one. -/
def attached (run : List Token) : List Token :=
  let near := run.rtakeWhile (!isBreak ·)
  let lines := near.rtakeWhile (·.kind ≠ .blockComment)
  near.rtake (lines.length + 1)

def trimmed (cs : List Char) : List Char := (cs.dropWhile Text.isBlank).rdropWhile Text.isBlank

/-- A line without the asterisk that the frame of a comment may put first in it. -/
def unframed (line : List Char) : List Char :=
  let inner := trimmed line
  if inner.head? = some '*' then inner.tail.dropWhile Text.isBlank else inner

def contents (t : Token) : String :=
  let inner := t.text.toList.drop 2
  if t.kind = .lineComment then .ofList (trimmed inner)
  else if t.kind = .blockComment then
    let lines := ((inner.rdrop 2).splitOn '\n').map unframed
    "\n".intercalate ((lines.filter (· ≠ [])).map .ofList)
  else ""

def documented (run : List Token) : Option String :=
  let said := ((attached run).map contents).filter (· ≠ "")
  if said = [] then none else some ("\n".intercalate said)

structure Marked (t : Token) : Prop where
  line : t.kind = .lineComment → ∃ cs, t.text.toList = '/' :: '/' :: cs
  block : t.kind = .blockComment → ∃ cs, t.text.toList = '/' :: '*' :: (cs ++ ['*', '/'])

theorem lines_eq_splitOn (cs : List Char) : Text.lines cs = cs.splitOn '\n' := by
  induction cs with
  | nil => rfl
  | cons c cs ih =>
      rw [List.splitOn_cons_eq_if_modifyHead, ← ih]
      by_cases feed : c = '\n'
      · rw [feed]
        rfl
      · rw [if_neg (by simpa using feed)]
        cases more : Text.lines cs with
        | nil => exact absurd (ih.symm.trans more) (List.splitOn_ne_nil _ _)
        | cons l ls => simp [Text.lines, more]

theorem cleanLine_eq (line : List Char) : cleanLine line = unframed line := by
  have same : Text.trim line = trimmed line := rfl
  rw [cleanLine, same, unframed]
  generalize trimmed line = inner
  cases inner with
  | nil => rfl
  | cons c cs =>
      by_cases star : c = '*'
      · rw [star]
        rfl
      · simp [star]

theorem ofLine_eq {t : Token} (marked : Marked t) (line : t.kind = .lineComment) :
    ofLine t.text = contents t := by
  obtain ⟨cs, text⟩ := marked.line line
  rw [ofLine, contents, text, if_pos line]
  rfl

theorem ofBlock_eq {t : Token} (marked : Marked t) (block : t.kind = .blockComment) :
    ofBlock t.text = contents t := by
  obtain ⟨cs, text⟩ := marked.block block
  have inner : between? ['/', '*'] ['*', '/'] t.text.toList = some cs := by
    have closed : ['*', '/'].isSuffixOf (cs ++ ['*', '/']) = true :=
      List.isSuffixOf_iff_suffix.mpr (List.suffix_append _ _)
    simp [between?, text, closed]
  have rest : (t.text.toList.drop 2).rdrop 2 = cs := by
    simp [text, List.rdrop]
  have other : t.kind ≠ .lineComment := by simp [block]
  rw [ofBlock, inner, contents, if_neg other, if_pos block, rest, ← lines_eq_splitOn]
  change clean cs = _
  rw [clean, funext cleanLine_eq]
  congr 2
  exact List.filter_congr fun line _ => by cases line <;> rfl

theorem attached_break {t : Token} (run : List Token) (apart : isBreak t = true) :
    attached (run ++ [t]) = [] := by
  rw [attached, List.rtakeWhile_concat_neg _ _ _ (by simp [apart])]
  rfl

theorem attached_block {t : Token} (run : List Token) (near : isBreak t = false)
    (block : t.kind = .blockComment) : attached (run ++ [t]) = [t] := by
  rw [attached, List.rtakeWhile_concat_pos _ _ _ (by simp [near]),
    List.rtakeWhile_concat_neg _ _ _ (by simp [block]), List.length_nil,
    List.rtake_concat_succ, List.rtake_zero, List.nil_append]

theorem attached_other {t : Token} (run : List Token) (near : isBreak t = false)
    (other : t.kind ≠ .blockComment) : attached (run ++ [t]) = attached run ++ [t] := by
  rw [attached, List.rtakeWhile_concat_pos _ _ _ (by simp [near]),
    List.rtakeWhile_concat_pos _ _ _ (by simp [other]), List.length_append,
    List.rtake_concat_succ]
  rfl

/-- Looking back over the leaves of a run, up to where nothing is said. -/
theorem said_leaves {run : List Token} (blank : ∀ t ∈ run, t.isTrivia = true)
    (marked : ∀ t ∈ run, Marked t) {trees : List Tree} (silent : said trees = []) :
    said ((Token.leaves run).reverse ++ trees) =
      (((attached run).map contents).filter (· ≠ "")).reverse := by
  -- From the back of the run, which is the sibling looked at first.
  induction run using List.reverseRecOn with
  | nil => exact silent
  | append_singleton run t ih =>
      have further := ih (fun u member => blank u (List.mem_append_left _ member))
        fun u member => marked u (List.mem_append_left _ member)
      have trivia := blank t (by simp)
      have mark := marked t (by simp)
      rw [Token.leaves_append, List.reverse_append]
      change said (.token t.kind t.text :: ((Token.leaves run).reverse ++ trees)) = _
      cases kind : t.kind with
      | whitespace =>
          rw [said]
          split_ifs with feeds
          · rw [attached_break run (by simp [isBreak, kind]; omega)]
            rfl
          · rw [attached_other run (by simp [isBreak, kind]; omega) (by simp [kind]), further]
            have silent : contents t = "" := by simp [contents, kind]
            simp [silent]
      | lineComment =>
          rw [said, ofLine_eq mark kind,
            attached_other run (by simp [isBreak, kind]) (by simp [kind]), further]
          split_ifs with silent <;> simp [silent]
      | blockComment =>
          rw [said, ofBlock_eq mark kind, attached_block run (by simp [isBreak, kind]) kind]
          split_ifs with silent <;> simp [silent]
      | _ =>
          rw [Token.isTrivia, kind] at trivia
          cases trivia

end Comment

/-- A node behind a run says what the run documents. -/
theorem Node.comment?_of_run {n : Node} {run : List Token} {trees : List Tree}
    (before : n.before = (Token.leaves run).reverse ++ trees)
    (blank : ∀ t ∈ run, t.isTrivia = true) (marked : ∀ t ∈ run, Comment.Marked t)
    (silent : Comment.said trees = []) : n.comment? = Comment.documented run := by
  rw [Node.comment?, before, Comment.said_leaves blank marked silent, Comment.documented]
  generalize ((Comment.attached run).map Comment.contents).filter (· ≠ "") = said
  cases said using List.reverseRecOn with
  | nil => rfl
  | append_singleton said last => simp

theorem marked_of_split {text : String} {front back : List Token} {t : Token}
    (split : lex text = front ++ t :: back) (more : back ≠ []) : Comment.Marked t := by
  have munched := (munch_lex text).munched
  have tiled := lex_tiled text
  rw [split] at munched tiled
  have behind : Token.chars back ≠ [] := by
    obtain ⟨u, back, rfl⟩ := List.exists_cons_of_ne_nil more
    obtain ⟨-, -, -, positive, -⟩ := tiled.suffix
    intro none
    have empty : u.text.toList = [] := (List.append_eq_nil_iff.mp none).1
    rw [String.toList_eq_nil_iff.mp empty] at positive
    exact Nat.lt_irrefl 0 positive
  rcases munched.suffix.1 with longest | ⟨error, -⟩
  · have fits := longest.fits
    constructor
    · intro line
      rw [line] at fits
      obtain ⟨cs, -, text⟩ := Pattern.mem_exactly_mul.mp fits
      exact ⟨cs, text⟩
    · intro block
      rw [block] at fits
      have comment : Pattern.Comment t.text.toList (Token.chars back) := fits
      generalize t.text.toList = w, Token.chars back = rest at comment behind ⊢
      cases comment with
      | ended inner _ first => exact ⟨inner, rfl⟩
      | unended inner never => exact absurd rfl behind
  · constructor <;>
      · intro kind
        rw [error] at kind
        cases kind

end ConfigSyntax
