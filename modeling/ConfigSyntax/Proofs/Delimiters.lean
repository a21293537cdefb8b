import ConfigSyntax.Grammar

/-! Which braces and parentheses belong together, and how much of them a skip takes: where they are
properly nested it takes whole groups. Main statements: `pending_skip`, `nested_recover`,
`nested_construct`. -/

namespace ConfigSyntax

namespace Kind

def partner? : Kind → Option Kind
  | openBrace => some closeBrace
  | openParen => some closeParen
  | _ => none

def isDelimiter (k : Kind) : Bool := k.isOpener || k.isCloser

theorem delimiter_cases (k : Kind) :
    (∃ closer, k.partner? = some closer) ∨ k.isCloser = true ∨ k.isDelimiter = false := by
  cases k <;> simp [partner?, isCloser, isDelimiter, isOpener, groupOpeners]

section

variable {k closer : Kind}

theorem isOpener_of_partner (opens : k.partner? = some closer) : k.isOpener = true := by
  cases k <;> first | rfl | cases opens

theorem isOpener_of_closer (closes : k.isCloser = true) : k.isOpener = false := by
  cases k <;> first | rfl | cases closes

theorem isCloser_of_opener (opens : k.isOpener = true) : k.isCloser = false := by
  cases k <;> first | rfl | cases opens

theorem isOpener_of_plain (plain : k.isDelimiter = false) : k.isOpener = false :=
  (Bool.or_eq_false_iff.mp plain).1

theorem isCloser_of_plain (plain : k.isDelimiter = false) : k.isCloser = false :=
  (Bool.or_eq_false_iff.mp plain).2

end

end Kind

theorem Group.partner?_opener (g : Group) : g.opener.partner? = some g.closer := by
  cases g <;> rfl

theorem Group.isCloser_closer (g : Group) : g.closer.isCloser = true := by cases g <;> rfl

/-- The closers that are awaited behind `ks`, the next one first, where those of `stack` are awaited
in front of it. There are none if something else is closed. -/
def pending : List Kind → List Kind → Option (List Kind)
  | stack, [] => some stack
  | stack, k :: ks =>
    match k.partner? with
    | some closer => pending (closer :: stack) ks
    | none =>
      if k.isCloser then
        match stack with
        | [] => none
        | closer :: stack => if k = closer then pending stack ks else none
      else pending stack ks

/-- Every group is closed by the partner of what opened it, and nothing else is closed. -/
def Nested (ks : List Kind) : Prop := pending [] ks = some []

instance (ks : List Kind) : Decidable (Nested ks) := inferInstanceAs (Decidable (_ = _))

section

variable {k closer : Kind} {stack stack' ks : List Kind}

theorem pending_opener (opens : k.partner? = some closer) :
    pending stack (k :: ks) = pending (closer :: stack) ks := by
  simp only [pending, opens]

theorem pending_plain (plain : k.isDelimiter = false) :
    pending stack (k :: ks) = pending stack ks := by
  revert plain
  cases k <;> first | exact fun _ => rfl | nofun

theorem pending_closer (closes : k.isCloser = true) :
    pending (k :: stack) (k :: ks) = pending stack ks := by
  revert closes
  cases k <;> first | exact fun _ => rfl | nofun

theorem pending_closer_eq_some (closes : k.isCloser = true)
    (answer : pending stack (k :: ks) = some stack') :
    ∃ below, stack = k :: below ∧ pending below ks = some stack' := by
  have unmatched : pending [] (k :: ks) = none := by
    cases k <;> first | rfl | cases closes
  have matched (top : Kind) (below : List Kind) :
      pending (top :: below) (k :: ks) = if k = top then pending below ks else none := by
    cases k <;> first | rfl | cases closes
  cases stack with
  | nil =>
      rw [unmatched] at answer
      cases answer
  | cons top below =>
      rw [matched] at answer
      obtain ⟨same, rest⟩ := Option.ite_none_right_eq_some.mp answer
      exact ⟨below, by rw [same], rest⟩

end

/-- What is awaited below does not matter to what closes its own groups. -/
theorem pending_append {stack stack' front : List Kind}
    (answer : pending stack front = some stack') (below back : List Kind) :
    pending (stack ++ below) (front ++ back) = pending (stack' ++ below) back := by
  induction front generalizing stack with
  | nil =>
      rw [Option.some.inj answer]
      rfl
  | cons k ks ih =>
      rcases k.delimiter_cases with ⟨closer, opens⟩ | closes | plain
      · rw [pending_opener opens] at answer
        rw [List.cons_append, pending_opener opens]
        exact ih answer
      · obtain ⟨rest, rfl, matched⟩ := pending_closer_eq_some closes answer
        rw [List.cons_append, List.cons_append, pending_closer closes]
        exact ih matched
      · rw [pending_plain plain] at answer
        rw [List.cons_append, pending_plain plain]
        exact ih answer

namespace Nested

variable {front back inner : List Kind}

theorem pending_append (nested : Nested front) (stack back : List Kind) :
    pending stack (front ++ back) = pending stack back :=
  ConfigSyntax.pending_append nested stack back

theorem nil : Nested [] := rfl

theorem plain {k : Kind} (plain : k.isDelimiter = false) : Nested [k] := by
  rw [Nested, pending_plain plain]
  rfl

theorem append (first : Nested front) (second : Nested back) : Nested (front ++ back) := by
  rw [Nested, first.pending_append]
  exact second

theorem group (g : Group) (nested : Nested inner) : Nested (g.opener :: inner ++ [g.closer]) := by
  rw [Nested, List.cons_append, pending_opener g.partner?_opener, nested.pending_append,
    pending_closer g.isCloser_closer]
  rfl

theorem head_not_closer {k : Kind} {ks : List Kind} (nested : Nested (k :: ks)) :
    k.isCloser = false := by
  cases closes : k.isCloser with
  | false => rfl
  | true =>
      obtain ⟨below, none, -⟩ := pending_closer_eq_some closes nested
      cases none

end Nested

namespace Grammar

theorem skipLength_opener {k : Kind} (opener : k.isOpener = true) (stop : Kind → Bool)
    (depth : Nat) (ks : List Kind) :
    skipLength stop (depth + 1) (k :: ks) = skipLength stop (depth + 2) ks + 1 := by
  rw [skipLength, if_pos opener]

theorem skipLength_closer {k : Kind} (closes : k.isCloser = true) (stop : Kind → Bool)
    (depth : Nat) (ks : List Kind) :
    skipLength stop (depth + 1) (k :: ks) = skipLength stop depth ks + 1 := by
  rw [skipLength, Kind.isOpener_of_closer closes, if_neg Bool.false_ne_true, if_pos closes]

theorem skipLength_plain {k : Kind} (plain : k.isDelimiter = false) (stop : Kind → Bool)
    (depth : Nat) (ks : List Kind) :
    skipLength stop (depth + 1) (k :: ks) = skipLength stop (depth + 1) ks + 1 := by
  rw [skipLength, Kind.isOpener_of_plain plain, Kind.isCloser_of_plain plain,
    if_neg Bool.false_ne_true, if_neg Bool.false_ne_true]

/-- Outside of groups the skip goes on, behind a kind it does not stop at, with a group more if that
kind opens one. -/
theorem skipLength_start {k : Kind} {stop : Kind → Bool} (goes : stop k = false) (ks : List Kind) :
    skipLength stop 0 (k :: ks) = skipLength stop (if k.isOpener then 1 else 0) ks + 1 := by
  rw [skipLength, goes, if_neg Bool.false_ne_true]

/-- A skip that stops in front of what closes a group from outside takes groups as a whole. -/
theorem pending_skip {stop : Kind → Bool} (own : List Kind) {below ks : List Kind}
    (halts : ∀ k ∈ below.head?, stop k = true) (settled : pending (own ++ below) ks = some []) :
    pending own (ks.take (skipLength stop own.length ks)) = some [] := by
  induction ks generalizing own with
  | nil =>
      have none : own ++ below = [] := Option.some.inj settled
      rw [(List.append_eq_nil_iff.mp none).1]
      rfl
  | cons k ks ih =>
      cases own with
      | nil =>
          cases stops : stop k with
          | true =>
              rw [List.length_nil, skipLength, if_pos stops]
              rfl
          | false =>
              rw [List.length_nil, skipLength_start stops, List.take_succ_cons]
              rcases k.delimiter_cases with ⟨closer, opens⟩ | closes | plain
              · rw [pending_opener opens] at settled
                rw [if_pos (Kind.isOpener_of_partner opens), pending_opener opens]
                exact ih [closer] settled
              · obtain ⟨rest, top, -⟩ := pending_closer_eq_some closes settled
                have halt := halts k (by rw [show below = _ from top]; rfl)
                rw [stops] at halt
                cases halt
              · rw [pending_plain plain] at settled
                rw [Kind.isOpener_of_plain plain, if_neg Bool.false_ne_true, pending_plain plain]
                exact ih [] settled
      | cons top own =>
          rcases k.delimiter_cases with ⟨closer, opens⟩ | closes | plain
          · rw [pending_opener opens] at settled
            rw [List.length_cons, skipLength_opener (Kind.isOpener_of_partner opens),
              List.take_succ_cons, pending_opener opens]
            exact ih (closer :: top :: own) settled
          · obtain ⟨rest, split, matched⟩ := pending_closer_eq_some closes settled
            obtain ⟨rfl, rfl⟩ := List.cons.inj split
            rw [List.length_cons, skipLength_closer closes, List.take_succ_cons,
              pending_closer closes]
            exact ih own matched
          · rw [pending_plain plain] at settled
            rw [List.length_cons, skipLength_plain plain, List.take_succ_cons, pending_plain plain]
            exact ih (top :: own) settled

/-- A skip whose first kind is taken in any case, and with its group if it opens one. -/
theorem nested_recover (stop : Kind → Bool) {k : Kind} {below ks : List Kind}
    (inside : k.isCloser = false) (halts : ∀ k ∈ below.head?, stop k = true)
    (settled : pending below (k :: ks) = some []) :
    Nested (k :: ks.take (skipLength stop (if k.isOpener then 1 else 0) ks)) := by
  rcases k.delimiter_cases with ⟨closer, opens⟩ | closes | plain
  · rw [pending_opener opens] at settled
    rw [if_pos (Kind.isOpener_of_partner opens), Nested, pending_opener opens]
    exact pending_skip [closer] halts settled
  · rw [inside] at closes
    cases closes
  · rw [pending_plain plain] at settled
    rw [Kind.isOpener_of_plain plain, if_neg Bool.false_ne_true]
    exact (Nested.plain plain).append (pending_skip [] halts settled)

theorem nested_construct {below ks : List Kind} (settled : pending below ks = some []) :
    Nested (ks.take (constructLength ks)) := by
  induction ks with
  | nil => exact .nil
  | cons k ks ih =>
      rw [constructLength]
      split
      case isTrue => exact .nil
      case isFalse inside =>
        split
        case isTrue opener =>
          have notCloser : k.isCloser = false := by simp_all
          have whole := nested_recover (fun _ => true) notCloser (fun _ _ => rfl) settled
          rwa [if_pos opener] at whole
        case isFalse opener =>
          have plain : k.isDelimiter = false := by simp_all [Kind.isDelimiter]
          rw [pending_plain plain] at settled
          rw [List.take_succ_cons]
          exact (Nested.plain plain).append (ih settled)

end Grammar
end ConfigSyntax
