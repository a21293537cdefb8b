import ConfigSyntax.Proofs.Progress

/-! When a rule reads a sentence to its end, and nothing of what follows. A name is read as far as
it goes, so what follows must not look like more of it. -/

namespace ConfigSyntax.Grammar

open scoped Computability

def Avoids (ks rest : List Kind) : Prop := ∀ k ∈ rest.head?, k ∉ ks

theorem avoids_nil (ks : List Kind) : Avoids ks [] := nofun

theorem avoids_cons {ks : List Kind} {k : Kind} (other : k ∉ ks) (rest : List Kind) :
    Avoids ks (k :: rest) := by
  intro k' same
  rw [← Option.some.inj same]
  exact other

theorem Avoids.mono {few many rest : List Kind} (avoids : Avoids many rest)
    (included : ∀ k ∈ few, k ∈ many) : Avoids few rest :=
  fun k first within => avoids k first (included k within)

theorem Avoids.append {ks front back : List Kind} (first : Avoids ks front)
    (second : Avoids ks back) : Avoids ks (front ++ back) := by
  cases front with
  | nil => exact second
  | cons k front => exact first

theorem avoids_of_ne {k : Kind} {rest : List Kind} (other : ∀ more, rest = k :: more → False) :
    Avoids [k] rest := by
  intro k' first same
  obtain ⟨more, split⟩ := List.head?_eq_some_iff.mp first
  rw [List.mem_singleton.mp same] at split
  exact other more split

theorem Avoids.head_ne {ks rest : List Kind} {k : Kind} (avoids : Avoids ks (k :: rest))
    (k' : Kind) (within : k' ∈ ks) : k ≠ k' :=
  fun same => avoids k rfl (same ▸ within)

def extenders : List Kind := [.dot, .openParen, .openBrace, .equals]

structure Whole (out : List Outline × List Kind) (rest : List Kind) : Prop where
  clean : ∀ p ∈ out.1, p.Clean
  rest : out.2 = rest

namespace Whole

variable {out out' : List Outline × List Kind} {rest rest' : List Kind}

theorem nil (rest : List Kind) : Whole ([], rest) rest := ⟨nofun, rfl⟩

theorem append (first : Whole out rest) (second : Whole out' rest') :
    Whole (out.1 ++ out'.1, out'.2) rest' where
  clean := by
    intro p member
    rcases List.mem_append.mp member with member | member
    · exact first.clean p member
    · exact second.clean p member
  rest := second.rest

theorem one {o : Outline} (clean : o.Clean) (rest : List Kind) : Whole ([o], rest) rest where
  clean := by
    intro p member
    rw [List.mem_singleton.mp member]
    exact clean
  rest := rfl

theorem token (k : Kind) (rest : List Kind) : Whole ([.token k], rest) rest := one (.token k) rest

theorem cons (k : Kind) (whole : Whole out rest) : Whole (.token k :: out.1, out.2) rest :=
  (token k out.2).append whole

theorem node (k : Kind) (whole : Whole out rest) : Whole ([.node k out.1], out.2) rest where
  clean := (one (.node k out.1 whole.clean) rest).clean
  rest := whole.rest

end Whole

def Rule.Exact (rule : Rule) (w rest : List Kind) : Prop :=
  ∃ read, rule (w ++ rest) = some read ∧ Whole ([read.1], read.2) rest

section

variable {step : List Kind → Option (List Outline × List Kind)}
  (advances : ∀ ks out, step ks = some out → out.2.length < ks.length)

include advances

theorem repeated_whole {ks rest rest' : List Kind} {out : List Outline × List Kind}
    (applies : step ks = some out) (first : Whole out rest)
    (others : Whole (repeated step rest) rest') : Whole (repeated step ks) rest' := by
  rw [repeated_of_some advances applies, first.rest]
  exact first.append others

omit advances in
theorem repeated_done {rest : List Kind} (stuck : step rest = none) :
    Whole (repeated step rest) rest := by
  rw [repeated_of_none stuck]
  exact .nil rest

end

theorem comma?_of_avoids {ks : List Kind} (avoids : Avoids [.comma] ks) : comma? ks = ([], ks) := by
  unfold comma?
  split
  · exact absurd rfl (avoids.head_ne .comma (by decide))
  · rfl

theorem comma?_whole {w rest : List Kind} (word : w ∈ (1 + Sentence.word .comma : Language Kind))
    (ends : Avoids [.comma] rest) : Whole (comma? (w ++ rest)) rest := by
  rcases word with empty | comma
  · rw [(Language.mem_one w).mp empty, List.nil_append, comma?_of_avoids ends]
    exact .nil rest
  · rw [show w = [.comma] from comma]
    exact .token .comma rest

theorem segments_whole {w rest : List Kind}
    (word : w ∈ (Sentence.word .dot * Sentence.word .identifier : Language Kind)∗)
    (ends : Avoids [.dot] rest) : Whole (segments (w ++ rest)) rest := by
  obtain ⟨items, rfl, each⟩ := word
  induction items with
  | nil =>
      change Whole (segments rest) rest
      unfold segments
      split
      · exact absurd rfl (ends.head_ne .dot (by decide))
      · exact .nil rest
  | cons item items ih =>
      obtain ⟨dot, first, name, second, rfl⟩ := each _ List.mem_cons_self
      rw [show dot = [.dot] from first, show name = [.identifier] from second]
      exact ((ih fun w member => each w (List.mem_cons_of_mem _ member)).cons .identifier).cons .dot

theorem reference_whole {w : List Kind} (word : w ∈ Sentence.reference) :
    ∃ ks, w = .identifier :: ks ∧ ∀ rest, Avoids [.dot] rest →
      Whole ([(reference (ks ++ rest)).1], (reference (ks ++ rest)).2) rest := by
  obtain ⟨first, name, ks, more, rfl⟩ := word
  rw [show first = [.identifier] from name]
  exact ⟨ks, rfl, fun rest ends =>
    ((segments_whole more ends).cons .identifier).node .referenceExpression⟩

theorem literalKind?_of_word {w : List Kind} (word : w ∈ Sentence.literal) :
    ∃ k kind, w = [k] ∧ literalKind? k = some kind := by
  have known : ∀ k ∈ [Kind.singleQuoted, .doubleQuoted, .number, .trueWord, .falseWord, .nullWord],
      (literalKind? k).isSome = true := by decide
  have found (k : Kind) (member : k ∈ [Kind.singleQuoted, .doubleQuoted] ++
      [.number, .trueWord, .falseWord, .nullWord]) : ∃ kind, literalKind? k = some kind :=
    Option.isSome_iff_exists.mp (known k member)
  rcases word with string | other
  · obtain ⟨k, member, rfl⟩ := string
    obtain ⟨kind, answer⟩ := found k (List.mem_append_left _ member)
    exact ⟨k, kind, rfl, answer⟩
  · obtain ⟨k, member, rfl⟩ := other
    obtain ⟨kind, answer⟩ := found k (List.mem_append_right _ member)
    exact ⟨k, kind, rfl, answer⟩

theorem string_of_word {w : List Kind} (word : w ∈ Sentence.string) :
    ∃ k, w = [k] ∧ k.isString = true ∧ literalKind? k = some .stringLiteral := by
  have known : ∀ k ∈ [Kind.singleQuoted, .doubleQuoted],
      k.isString = true ∧ literalKind? k = some .stringLiteral := by decide
  obtain ⟨k, member, rfl⟩ := word
  exact ⟨k, rfl, known k member⟩

end ConfigSyntax.Grammar
