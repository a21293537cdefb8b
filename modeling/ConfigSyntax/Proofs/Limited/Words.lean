import ConfigSyntax.Proofs.Delimiters
import ConfigSyntax.Proofs.Reading

/-! Skips inside of sentences. Sentences are properly nested, so a skip that starts at a construct
of a list takes whole groups and stays in the list. Main statements: `balanced_construct`,
`lands_items`, `lands_file`. -/

namespace ConfigSyntax

open scoped Computability

namespace Sentence

def Balanced (l : Language Kind) : Prop := ∀ w ∈ l, Nested w

section

variable {l m : Language Kind} {constructs : Construct → Language Kind}

theorem balanced_one : Balanced 1 := by
  intro w empty
  rw [(Language.mem_one w).mp empty]
  exact .nil

theorem balanced_word {k : Kind} (plain : k.isDelimiter = false) : Balanced (word k) := by
  intro w same
  rw [show w = [k] from same]
  exact .plain plain

theorem balanced_wordOf {ks : List Kind} (plain : ∀ k ∈ ks, k.isDelimiter = false) :
    Balanced (wordOf ks) := by
  intro w member
  obtain ⟨k, within, rfl⟩ := member
  exact .plain (plain k within)

theorem Balanced.add (first : Balanced l) (second : Balanced m) : Balanced (l + m) := by
  intro w word
  rcases word with word | word
  · exact first w word
  · exact second w word

theorem Balanced.mul (first : Balanced l) (second : Balanced m) : Balanced (l * m) := by
  intro w word
  obtain ⟨a, left, b, right, rfl⟩ := word
  exact (first a left).append (second b right)

theorem Balanced.star (each : Balanced l) : Balanced l∗ := by
  intro w word
  obtain ⟨items, rfl, inside⟩ := word
  induction items with
  | nil => exact .nil
  | cons item items ih =>
      exact (each item (inside item List.mem_cons_self)).append
        (ih fun w member => inside w (List.mem_cons_of_mem _ member))

theorem inner_of_group {g : Group} (balanced : Balanced (constructs g.holds)) {w : List Kind}
    (word : w ∈ group constructs g) :
    ∃ inner, w = g.opener :: inner ++ [g.closer] ∧ Nested inner := by
  obtain ⟨front, ⟨o, opener, inner, items, rfl⟩, c, closer, rfl⟩ := word
  obtain rfl : o = [g.opener] := opener
  obtain rfl : c = [g.closer] := closer
  exact ⟨inner, rfl, (balanced.mul (balanced_one.add (balanced_word rfl))).star inner items⟩

theorem balanced_group {g : Group} (balanced : Balanced (constructs g.holds)) :
    Balanced (group constructs g) := by
  intro w word
  obtain ⟨inner, rfl, nested⟩ := inner_of_group balanced word
  exact nested.group g

theorem balanced_reference : Balanced reference :=
  (balanced_word rfl).mul ((balanced_word rfl).mul (balanced_word rfl)).star

theorem balanced_string : Balanced string := balanced_wordOf (by decide)

theorem balanced_literal : Balanced literal := balanced_string.add (balanced_wordOf (by decide))

theorem balanced_contextNames : Balanced contextNames := by
  have name : Balanced contextName :=
    ((balanced_wordOf (by decide)).mul (balanced_word rfl)).mul
      (balanced_one.add (balanced_word rfl))
  exact name.mul name.star

variable (balanced : ∀ c, Balanced (constructs c))

include balanced

theorem balanced_invocation : Balanced (invocation constructs) :=
  balanced_reference.mul (balanced_group (balanced _))

theorem balanced_statement : Balanced (statement constructs) := by
  have declaration : Balanced (declaration constructs) :=
    (((balanced_word rfl).mul (balanced_word rfl)).mul (balanced_word rfl)).mul (balanced _)
  have content : Balanced (content constructs) :=
    (balanced_one.add ((balanced_word rfl).mul (balanced _))).add (balanced_group (balanced _))
  exact ((balanced_invocation balanced).add declaration).add
    ((balanced_literal.add balanced_reference).mul content)

theorem balanced_element : Balanced (element constructs) := by
  have block : Balanced (group constructs .contextBlock) := balanced_group (balanced _)
  have statement := balanced_statement balanced
  exact ((balanced_contextNames.mul block).add (balanced_contextNames.mul statement)).add statement

theorem balanced_value : Balanced (value constructs) := by
  have invocation := balanced_invocation balanced
  have names := ((balanced_one.add invocation).add balanced_reference).add balanced_string
  have object : Balanced (group constructs .object) := balanced_group (balanced _)
  have dotted := (balanced_word (k := .dot) rfl).mul balanced_reference
  exact ((((names.mul object).add balanced_literal).add invocation).add dotted).add
    balanced_reference

end

theorem balanced_construct (depth : Nat) (c : Construct) : Balanced (construct depth c) := by
  induction depth generalizing c with
  | zero => exact fun w none => absurd none (Language.notMem_zero w)
  | succ depth ih =>
      cases c with
      | element => exact balanced_element ih
      | value => exact balanced_value ih

end Sentence

namespace Grammar

/-- Inside of a group a skip goes over what is nested. -/
theorem skipLength_pending {stack stack' ks : List Kind} (answer : pending stack ks = some stack')
    (stop : Kind → Bool) (depth : Nat) (rest : List Kind) :
    skipLength stop (stack.length + depth + 1) (ks ++ rest) =
      ks.length + skipLength stop (stack'.length + depth + 1) rest := by
  induction ks generalizing stack with
  | nil =>
      rw [Option.some.inj answer]
      exact (Nat.zero_add _).symm
  | cons k ks ih =>
      rcases k.delimiter_cases with ⟨closer, opens⟩ | closes | plain
      · rw [pending_opener opens] at answer
        have inside := ih answer
        rw [List.length_cons, Nat.add_right_comm _ 1] at inside
        rw [List.cons_append, skipLength_opener (Kind.isOpener_of_partner opens), inside,
          List.length_cons, Nat.add_right_comm]
      · obtain ⟨below, rfl, matched⟩ := pending_closer_eq_some closes answer
        have inside := ih matched
        rw [List.cons_append, skipLength_closer closes, List.length_cons, List.length_cons,
          Nat.add_right_comm _ 1, inside, Nat.add_right_comm]
      · rw [pending_plain plain] at answer
        rw [List.cons_append, skipLength_plain plain, ih answer, List.length_cons,
          Nat.add_right_comm]

theorem skipLength_group {inner : List Kind} (nested : Nested inner) {closer : Kind}
    (closes : closer.isCloser = true) (stop : Kind → Bool) (rest : List Kind) :
    skipLength stop 1 (inner ++ closer :: rest) = inner.length + 1 + skipLength stop 0 rest := by
  have inside := skipLength_pending nested stop 0 (closer :: rest)
  rw [skipLength_closer closes] at inside
  rw [Nat.add_assoc, Nat.add_comm 1]
  exact inside

theorem constructLength_plain {k : Kind} (plain : k.isDelimiter = false) (other : k ≠ .comma)
    (rest : List Kind) : constructLength (k :: rest) = constructLength rest + 1 := by
  rw [constructLength, Kind.isOpener_of_plain plain, Kind.isCloser_of_plain plain]
  simp [other]

theorem constructLength_group (g : Group) {inner : List Kind} (nested : Nested inner)
    (rest : List Kind) :
    constructLength (g.opener :: inner ++ g.closer :: rest) = inner.length + 2 := by
  have opener : (g.opener = .comma || g.opener.isCloser) = false ∧ g.opener.isOpener = true := by
    cases g <;> decide
  have ends : skipLength (fun _ => true) 0 rest = 0 := by cases rest <;> rfl
  rw [List.cons_append, constructLength, opener.1, opener.2, if_neg Bool.false_ne_true, if_pos rfl,
    skipLength_group nested g.isCloser_closer, ends]

end Grammar

namespace Sentence

open Grammar (constructLength)

def braced : Language Kind :=
  {w | ∃ inner, w = .openBrace :: inner ++ [.closeBrace] ∧ Nested inner}

def tail (items : Language Kind) : Language Kind := (1 + word .comma) * items

theorem mem_tail {items : Language Kind} {w : List Kind} :
    w ∈ tail items ↔ w ∈ items ∨ ∃ w' ∈ items, w = .comma :: w' := by
  constructor
  · intro word
    obtain ⟨c, comma, w', goes, rfl⟩ := word
    rcases comma with empty | comma
    · rw [(Language.mem_one c).mp empty]
      exact Or.inl goes
    · obtain rfl : c = [.comma] := comma
      exact Or.inr ⟨w', goes, rfl⟩
  · rintro (goes | ⟨w', goes, rfl⟩)
    · exact Language.append_mem_mul (a := []) (Or.inl Language.nil_mem_one) goes
    · have comma : [.comma] ∈ (1 + word .comma : Language Kind) := Or.inr rfl
      exact Language.append_mem_mul comma goes

/-- `after` is where a list goes on, or it is cut off from what is in front of it: at the comma
behind a context name, or at the body behind arguments. -/
inductive Resumes (items next : Language Kind) (before : List Kind) : List Kind → Prop
  | next {after} (goes : after ∈ next) : Resumes items next before after
  | name {after} (cut : after ∈ items ∨ after ∈ braced * next)
    (ends : before.getLast? = some .identifier) : Resumes items next before (.comma :: after)
  | paren {after} (cut : after ∈ braced * next)
    (ends : before.getLast? = some .closeParen) : Resumes items next before after

/-- A skip from the start of `w` ends in the list, before the closer or the end behind it. -/
def Lands (items next : Language Kind) (w : List Kind) : Prop :=
  ∃ before after, w = before ++ after ∧ Resumes items next before after ∧
    ∀ rest, (∀ k ∈ rest.head?, k.isCloser = true) → constructLength (w ++ rest) = before.length

section

variable {items next : Language Kind} {w : List Kind}

theorem lands_nil (empty : [] ∈ next) : Lands items next [] := by
  refine ⟨[], [], rfl, .next empty, fun rest closes => ?_⟩
  cases rest with
  | nil => rfl
  | cons k rest =>
      rw [List.nil_append, constructLength, closes k rfl, Bool.or_true, if_pos rfl, List.length_nil]

theorem lands_comma (goes : .comma :: w ∈ next) : Lands items next (.comma :: w) :=
  ⟨[], .comma :: w, rfl, .next goes, fun _ _ => rfl⟩

theorem lands_name {k : Kind} (marker : k ∈ [.atSign, .bangAt])
    (cut : w ∈ items ∨ w ∈ braced * next) :
    Lands items next (k :: .identifier :: .comma :: w) := by
  refine ⟨[k, .identifier], .comma :: w, rfl, .name cut rfl, fun rest _ => ?_⟩
  have plain : k.isDelimiter = false ∧ k ≠ .comma := by
    revert marker
    cases k <;> decide
  rw [List.cons_append, Grammar.constructLength_plain plain.1 plain.2]
  rfl

theorem lands_plain {k : Kind} (plain : k.isDelimiter = false) (other : k ≠ .comma)
    (lands : Lands items next w) : Lands items next (k :: w) := by
  obtain ⟨before, after, rfl, resumes, length⟩ := lands
  have last {l : Kind} (ends : before.getLast? = some l) : (k :: before).getLast? = some l := by
    rw [List.getLast?_cons, ends]
    rfl
  refine ⟨k :: before, after, rfl, ?_, fun rest closes => ?_⟩
  · cases resumes with
    | next goes => exact .next goes
    | name cut ends => exact .name cut (last ends)
    | paren cut ends => exact .paren cut (last ends)
  · rw [List.cons_append, Grammar.constructLength_plain plain other, length rest closes]
    rfl

theorem lands_group (g : Group) {inner : List Kind} (nested : Nested inner)
    (follows : w ∈ next ∨ g.closer = .closeParen ∧ w ∈ braced * next) :
    Lands items next (g.opener :: inner ++ [g.closer] ++ w) := by
  refine ⟨g.opener :: inner ++ [g.closer], w, rfl, ?_, fun rest _ => ?_⟩
  · rcases follows with goes | ⟨paren, cut⟩
    · exact .next goes
    · apply Resumes.paren cut
      rw [List.getLast?_append, List.getLast?_singleton, paren]
      rfl
  · have length := Grammar.constructLength_group g nested (w ++ rest)
    simpa using length

/-- Nothing in a word stops a skip. -/
def Idle (l : Language Kind) : Prop := ∀ w ∈ l, ∀ k ∈ w, k.isDelimiter = false ∧ k ≠ .comma

theorem idle_word {k : Kind} (plain : k.isDelimiter = false) (other : k ≠ .comma) :
    Idle (word k) := by
  intro w same k' member
  rw [show w = [k] from same] at member
  rw [List.mem_singleton.mp member]
  exact ⟨plain, other⟩

theorem idle_wordOf {ks : List Kind} (idle : ∀ k ∈ ks, k.isDelimiter = false ∧ k ≠ .comma) :
    Idle (wordOf ks) := by
  intro w word k' member
  obtain ⟨k, within, rfl⟩ := word
  rw [List.mem_singleton.mp member]
  exact idle k within

theorem Idle.mul {l m : Language Kind} (first : Idle l) (second : Idle m) : Idle (l * m) := by
  intro w word k member
  obtain ⟨a, left, b, right, rfl⟩ := word
  rcases List.mem_append.mp member with member | member
  · exact first a left k member
  · exact second b right k member

theorem idle_reference : Idle reference := by
  have name : Idle (word .identifier) := idle_word rfl (by decide)
  have segment : Idle (word .dot * word .identifier) := (idle_word rfl (by decide)).mul name
  refine name.mul fun w word k member => ?_
  obtain ⟨segments, rfl, each⟩ := word
  obtain ⟨one, within, inside⟩ := List.mem_flatten.mp member
  exact segment one (each one within) k inside

theorem idle_string : Idle string := idle_wordOf (by decide)

theorem idle_literal : Idle literal := by
  intro w word
  rcases word with string | other
  · exact idle_string w string
  · exact idle_wordOf (by decide) w other

theorem lands_idle {l : Language Kind} (idle : Idle l) {v : List Kind} (word : v ∈ l)
    (lands : Lands items next w) : Lands items next (v ++ w) := by
  have plain := idle v word
  clear word
  induction v with
  | nil => exact lands
  | cons k v ih =>
      obtain ⟨delimiter, comma⟩ := plain k List.mem_cons_self
      exact lands_plain delimiter comma (ih fun k member => plain k (List.mem_cons_of_mem _ member))

variable {constructs : Construct → Language Kind} (balanced : ∀ c, Balanced (constructs c))

include balanced

theorem lands_braces {g : Group} {v : List Kind} (word : v ∈ group constructs g)
    (goes : w ∈ next) : Lands items next (v ++ w) := by
  obtain ⟨inner, rfl, nested⟩ := inner_of_group (balanced _) word
  exact lands_group g nested (Or.inl goes)

theorem lands_invocation {v : List Kind} (word : v ∈ invocation constructs)
    (follows : w ∈ next ∨ w ∈ braced * next) : Lands items next (v ++ w) := by
  obtain ⟨name, reference, arguments, group, rfl⟩ := word
  obtain ⟨inner, rfl, nested⟩ := inner_of_group (balanced _) group
  rw [List.append_assoc]
  refine lands_idle idle_reference reference (lands_group .arguments nested ?_)
  exact follows.imp id fun cut => ⟨rfl, cut⟩

theorem braced_of_group {g : Group} (opener : g.opener = .openBrace) {v : List Kind}
    (word : v ∈ group constructs g) : v ∈ braced := by
  obtain ⟨inner, rfl, nested⟩ := inner_of_group (balanced _) word
  have closer : g.closer = .closeBrace := by
    cases g
    · rfl
    · rfl
    · cases opener
  exact ⟨inner, by rw [opener, closer], nested⟩

theorem lands_value {v : List Kind} (word : v ∈ value constructs) (goes : w ∈ next)
    (lands : Lands items next w) : Lands items next (v ++ w) := by
  rcases word with (((object | literal) | call) | dotted) | name
  · obtain ⟨name, first, body, second, rfl⟩ := object
    have braces : Lands items next (body ++ w) := lands_braces balanced second goes
    have cut := Language.append_mem_mul (braced_of_group balanced rfl second) goes
    rw [List.append_assoc]
    rcases first with ((empty | call) | reference) | string
    · rw [(Language.mem_one name).mp empty]
      exact braces
    · exact lands_invocation balanced call (Or.inr cut)
    · exact lands_idle idle_reference reference braces
    · exact lands_idle idle_string string braces
  · exact lands_idle idle_literal literal lands
  · exact lands_invocation balanced call (Or.inl goes)
  · exact lands_idle ((idle_word (k := .dot) rfl (by decide)).mul idle_reference) dotted lands
  · exact lands_idle idle_reference name lands

omit balanced in
theorem lands_construct {depth : Nat} {v : List Kind} (word : v ∈ construct depth .value)
    (goes : w ∈ next) (lands : Lands items next w) : Lands items next (v ++ w) := by
  cases depth with
  | zero => exact absurd word (Language.notMem_zero v)
  | succ depth => exact lands_value (balanced_construct depth) word goes lands

end

section

variable {items next : Language Kind} {depth : Nat} {v w : List Kind} (goes : w ∈ next)
  (lands : Lands items next w)

include goes lands

theorem lands_declaration (word : v ∈ declaration (construct depth)) : Lands items next (v ++ w) := by
  obtain ⟨front, sign, value, last, rfl⟩ := word
  have idle : Idle (Sentence.word .valWord * Sentence.word .identifier * Sentence.word .equals) :=
    ((idle_word rfl (by decide)).mul (idle_word rfl (by decide))).mul (idle_word rfl (by decide))
  rw [List.append_assoc]
  exact lands_idle idle sign (lands_construct last goes lands)

theorem lands_property (word : v ∈ property (construct depth)) : Lands items next (v ++ w) := by
  obtain ⟨name, first, content, second, rfl⟩ := word
  have behind : Lands items next (content ++ w) := by
    rcases second with (empty | assigned) | object
    · rw [(Language.mem_one content).mp empty]
      exact lands
    · obtain ⟨sign, equals, value, last, rfl⟩ := assigned
      rw [List.append_assoc]
      exact lands_idle (idle_word rfl (by decide)) equals (lands_construct last goes lands)
    · exact lands_braces (balanced_construct depth) object goes
  rw [List.append_assoc]
  rcases first with literal | reference
  · exact lands_idle idle_literal literal behind
  · exact lands_idle idle_reference reference behind

theorem lands_statement (word : v ∈ statement (construct depth)) : Lands items next (v ++ w) := by
  rcases word with (call | declaration) | property
  · exact lands_invocation (balanced_construct depth) call (Or.inl goes)
  · exact lands_declaration goes lands declaration
  · exact lands_property goes lands property

omit lands in
/-- What is behind the comma of a context name is an element, or the block of the names. -/
theorem cut_behind_name (closed : ∀ e ∈ element (construct depth), e ++ w ∈ items)
    {names : List (List Kind)} (each : ∀ name ∈ names, name ∈ contextName)
    (word : v ∈ group (construct depth) .contextBlock ∨ v ∈ statement (construct depth)) :
    names.flatten ++ (v ++ w) ∈ items ∨ names.flatten ++ (v ++ w) ∈ braced * next := by
  cases names with
  | nil =>
      rw [List.flatten_nil, List.nil_append]
      rcases word with block | statement
      · have brace := braced_of_group (balanced_construct depth) rfl block
        exact Or.inr (Language.append_mem_mul brace goes)
      · exact Or.inl (closed v (Or.inr statement))
  | cons name names =>
      have named : (name :: names).flatten ∈ contextNames :=
        Language.append_mem_mul (each name List.mem_cons_self)
          ⟨names, rfl, fun name member => each name (List.mem_cons_of_mem _ member)⟩
      have element : (name :: names).flatten ++ v ∈ element (construct depth) := by
        rcases word with block | statement
        · exact Or.inl (Or.inl (Language.append_mem_mul named block))
        · exact Or.inl (Or.inr (Language.append_mem_mul named statement))
      rw [← List.append_assoc]
      exact Or.inl (closed _ element)

theorem lands_contextual (closed : ∀ e ∈ element (construct depth), e ++ w ∈ items)
    {names : List (List Kind)} (each : ∀ name ∈ names, name ∈ contextName)
    (word : v ∈ group (construct depth) .contextBlock ∨ v ∈ statement (construct depth)) :
    Lands items next (names.flatten ++ (v ++ w)) := by
  induction names with
  | nil =>
      rw [List.flatten_nil, List.nil_append]
      rcases word with block | statement
      · exact lands_braces (balanced_construct depth) block goes
      · exact lands_statement goes lands statement
  | cons name names ih =>
      have within : ∀ name ∈ names, name ∈ contextName :=
        fun name member => each name (List.mem_cons_of_mem _ member)
      obtain ⟨mark, marked, comma, last, rfl⟩ := each _ List.mem_cons_self
      rw [List.flatten_cons, List.append_assoc, List.append_assoc]
      rcases last with empty | single
      · have idle : Idle (wordOf [.atSign, .bangAt] * Sentence.word .identifier) :=
          (idle_wordOf (by decide)).mul (idle_word rfl (by decide))
        rw [(Language.mem_one comma).mp empty]
        exact lands_idle idle marked (ih within)
      · obtain ⟨sign, ⟨k, marker, rfl⟩, name, identifier, rfl⟩ := marked
        obtain rfl : name = [.identifier] := identifier
        obtain rfl : comma = [.comma] := single
        exact lands_name marker (cut_behind_name goes closed within word)

theorem lands_element (closed : ∀ e ∈ element (construct depth), e ++ w ∈ items)
    (word : v ∈ element (construct depth)) : Lands items next (v ++ w) := by
  have named {names content : List Kind} (first : names ∈ contextNames)
      (second : content ∈ group (construct depth) .contextBlock ∨
        content ∈ statement (construct depth)) : Lands items next (names ++ content ++ w) := by
    obtain ⟨names, rfl, each⟩ := mem_kstar_of_mem_mul names first
    rw [List.append_assoc]
    exact lands_contextual goes lands closed each second
  rcases word with (block | contextual) | statement
  · obtain ⟨names, first, content, second, rfl⟩ := block
    exact named first (Or.inl second)
  · obtain ⟨names, first, content, second, rfl⟩ := contextual
    exact named first (Or.inr second)
  · exact lands_statement goes lands statement

end

def items (depth : Nat) (c : Construct) : Language Kind :=
  (construct depth c * (1 + word .comma))∗

theorem append_tail_mem_items {depth : Nat} {c : Construct} {w v : List Kind}
    (word : w ∈ construct depth c) (goes : v ∈ tail (items depth c)) :
    w ++ v ∈ items depth c := by
  obtain ⟨comma, sep, rest, more, rfl⟩ := goes
  have first := Language.append_mem_mul (Language.append_mem_mul word sep) more
  rw [List.append_assoc] at first
  exact mem_kstar_of_mem_mul _ first

theorem lands_one {depth : Nat} {c : Construct} {v w : List Kind} (word : v ∈ construct depth c)
    (goes : w ∈ tail (items depth c)) (lands : Lands (items depth c) (tail (items depth c)) w) :
    Lands (items depth c) (tail (items depth c)) (v ++ w) := by
  cases depth with
  | zero => exact absurd word (Language.notMem_zero v)
  | succ depth =>
      cases c with
      | element =>
          exact lands_element goes lands
            (fun e word => append_tail_mem_items (c := .element) word goes) word
      | value => exact lands_value (balanced_construct depth) word goes lands

theorem lands_items {depth : Nat} {c : Construct} {w : List Kind}
    (word : w ∈ tail (items depth c)) : Lands (items depth c) (tail (items depth c)) w := by
  have list (words : List (List Kind))
      (each : ∀ v ∈ words, v ∈ construct depth c * (1 + Sentence.word .comma)) :
      Lands (items depth c) (tail (items depth c)) words.flatten := by
    induction words with
    | nil => exact lands_nil (mem_tail.mpr (Or.inl (Language.nil_mem_kstar _)))
    | cons v words ih =>
        have within := fun v member => each v (List.mem_cons_of_mem _ member)
        have rest : words.flatten ∈ items depth c := ⟨words, rfl, within⟩
        obtain ⟨e, first, sep, comma, rfl⟩ := each _ List.mem_cons_self
        have goes := Language.append_mem_mul comma rest
        rw [List.flatten_cons, List.append_assoc]
        apply lands_one first goes
        rcases comma with empty | comma
        · rw [(Language.mem_one sep).mp empty]
          exact ih within
        · obtain rfl : sep = [.comma] := comma
          exact lands_comma goes
  rcases mem_tail.mp word with goes | ⟨w, goes, rfl⟩
  · obtain ⟨words, rfl, each⟩ := goes
    exact list words each
  · exact lands_comma word

theorem lands_file_one {depth : Nat} {v w : List Kind}
    (word : v ∈ construct depth .element ∨ ∃ depth, v ∈ construct depth .value)
    (goes : w ∈ file depth) (lands : Lands (file depth) (file depth) w) :
    Lands (file depth) (file depth) (v ++ w) := by
  rcases word with element | ⟨deep, value⟩
  · cases depth with
    | zero => exact absurd element (Language.notMem_zero v)
    | succ depth =>
        apply lands_element goes lands _ element
        exact fun e element => mem_kstar_of_mem_mul _ (Language.append_mem_mul element goes)
  · exact lands_construct value goes lands

theorem lands_file {depth : Nat} {w : List Kind} (word : w ∈ file depth) :
    Lands (file depth) (file depth) w := by
  obtain ⟨words, rfl, each⟩ := word
  induction words with
  | nil => exact lands_nil (Language.nil_mem_kstar _)
  | cons v words ih =>
      have within := fun v member => each v (List.mem_cons_of_mem _ member)
      rw [List.flatten_cons]
      exact lands_file_one (Or.inl (each v List.mem_cons_self)) ⟨words, rfl, within⟩ (ih within)

end Sentence

end ConfigSyntax
