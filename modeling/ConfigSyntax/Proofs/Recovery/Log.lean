import ConfigSyntax.Proofs.Recovery.Omissions
import ConfigSyntax.Proofs.Targets

/-! What the log says: a line for each error of the tree, with its place, and the numbers of it all.
Main statements: `firstRange_of_split`, `parse_logs`. -/

namespace ConfigSyntax

open Token (significant)

namespace Range

theorem toString_eq (r : Range) :
    toString r = toString r.start ++ ".." ++ toString r.stop := rfl

theorem toList_toString (r : Range) :
    (toString r).toList = Nat.toDigits 10 r.start ++ '.' :: '.' :: Nat.toDigits 10 r.stop := by
  rw [toString_eq, String.toList_append, String.toList_append, Nat.toString_eq_repr,
    Nat.toString_eq_repr, Nat.toList_repr, Nat.toList_repr, List.append_assoc]
  rfl

theorem isDigit_toDigits (n : Nat) : ∀ c ∈ Nat.toDigits 10 n, c.isDigit = true :=
  fun _ => Nat.isDigit_of_mem_toDigits (by decide) (by decide)

theorem toString_injective {r r' : Range} (same : toString r = toString r') : r = r' := by
  have chars := congrArg String.toList same
  rw [toList_toString, toList_toString] at chars
  have ends : ∀ n : Nat, ('.' :: '.' :: Nat.toDigits 10 n).takeWhile Char.isDigit = [] :=
    fun _ => rfl
  have starts := congrArg (List.takeWhile Char.isDigit) chars
  rw [List.takeWhile_append_of_pos (isDigit_toDigits _),
    List.takeWhile_append_of_pos (isDigit_toDigits _), ends, ends, List.append_nil,
    List.append_nil] at starts
  rw [starts, List.append_cancel_left_eq] at chars
  have stops := (List.cons.inj (List.cons.inj chars).2).2
  have start := congrArg (Nat.ofDigitChars 10 · 0) starts
  have stop := congrArg (Nat.ofDigitChars 10 · 0) stops
  simp only [Nat.ofDigitChars_ten_toDigits] at start stop
  obtain ⟨a, b, le⟩ := r
  obtain ⟨a', b', le'⟩ := r'
  obtain rfl : a = a' := start
  obtain rfl : b = b' := stop
  rfl

end Range

/-- The text from the first digit on, as far as there are digits and points. -/
def Log.firstRange (message : String) : String :=
  String.ofList ((message.toList.dropWhile (!·.isDigit)).takeWhile fun c => c.isDigit || c = '.')

def Log.Entry.Names (e : Log.Entry) (r : Range) : Prop := Log.firstRange e.message = toString r

namespace Log

theorem firstRange_of_split {front back : String} {r : Range}
    (letters : front.toList.all (!·.isDigit) = true)
    (ends : ∀ c ∈ back.toList.head?, c.isDigit = false ∧ c ≠ '.') :
    firstRange (front ++ toString r ++ back) = toString r := by
  have digits : ∀ c ∈ (toString r).toList, (c.isDigit || c = '.') = true := by
    intro c member
    rw [Range.toList_toString, List.mem_append, List.mem_cons, List.mem_cons] at member
    rcases member with start | rfl | rfl | stop
    · rw [Range.isDigit_toDigits _ c start, Bool.true_or]
    · rfl
    · rfl
    · rw [Range.isDigit_toDigits _ c stop, Bool.true_or]
  have first : ((toString r).toList ++ back.toList).dropWhile (!·.isDigit) =
      (toString r).toList ++ back.toList := by
    rw [Range.toList_toString]
    cases start : Nat.toDigits 10 r.start with
    | nil => exact absurd start Nat.toDigits_ne_nil
    | cons c cs =>
        have digit : c.isDigit = true :=
          Range.isDigit_toDigits r.start c (by rw [start]; exact List.mem_cons_self)
        exact List.dropWhile_cons_of_neg (by simp [digit])
  have rest : back.toList.takeWhile (fun c => c.isDigit || c = '.') = [] := by
    cases chars : back.toList with
    | nil => rfl
    | cons c cs =>
        obtain ⟨notDigit, notPoint⟩ := ends c (by rw [chars]; rfl)
        exact List.takeWhile_cons_of_neg (by simp [notDigit, notPoint])
  rw [firstRange, String.toList_append, String.toList_append, List.append_assoc,
    List.dropWhile_append_of_pos (List.all_eq_true.mp letters), first,
    List.takeWhile_append_of_pos digits, rest, List.append_nil, String.ofList_toList]

theorem firstRange_end {front : String} (letters : front.toList.all (!·.isDigit) = true)
    (r : Range) : firstRange (front ++ toString r) = toString r := by
  have ends : ∀ c ∈ "".toList.head?, c.isDigit = false ∧ c ≠ '.' := nofun
  have found := firstRange_of_split (r := r) letters ends
  rwa [String.append_empty] at found

theorem firstRange_colon {front : String} (letters : front.toList.all (!·.isDigit) = true)
    (r : Range) (message : String) :
    firstRange (front ++ toString r ++ ": " ++ message) = toString r := by
  have ends : ∀ c ∈ (": " ++ message).toList.head?, c.isDigit = false ∧ c ≠ '.' := by
    intro c first
    rw [String.toList_append] at first
    rw [← Option.some.inj first]
    decide
  rw [String.append_assoc]
  exact firstRange_of_split letters ends

end Log

namespace Fault

theorem letters_description (c : Context) : c.description.toList.all (!·.isDigit) = true := by
  cases c <;> decide

theorem letters_around {front back : String} (first : front.toList.all (!·.isDigit) = true)
    (last : back.toList.all (!·.isDigit) = true) (c : Context) :
    (front ++ c.description ++ back).toList.all (!·.isDigit) = true := by
  rw [String.toList_append, String.toList_append, List.all_append, List.all_append, first,
    letters_description c, last]
  rfl

theorem trace?_eq_none {f : Fault} (other : f.isSkip = false) : f.trace? = none := by
  obtain ⟨cause, t⟩ := f
  cases cause with
  | skipped why => cases other
  | _ => rfl

/-- The log speaks of each skip, and gives its range. -/
theorem trace?_of_skip {f : Fault} (skip : f.isSkip = true) :
    ∃ message, f.trace? = some message ∧ Log.firstRange message = toString f.range := by
  obtain ⟨cause, t⟩ := f
  cases cause with
  | skipped why =>
      cases why with
      | unexpected c =>
          have invalid : ("recovering " ++ c.description ++ " at invalid character ").toList.all
              (!·.isDigit) = true := letters_around (by decide) (by decide) c
          have known : ("recovering " ++ c.description ++ " at ").toList.all (!·.isDigit) = true :=
            letters_around (by decide) (by decide) c
          rw [trace?]
          dsimp only
          split
          · exact ⟨_, rfl, Log.firstRange_end invalid t.range⟩
          · exact ⟨_, rfl, Log.firstRange_colon known t.range _⟩
      | noValue c =>
          have letters : ("empty slot " ++ c.description ++ " at ").toList.all
              (!·.isDigit) = true := letters_around (by decide) (by decide) c
          exact ⟨_, rfl, Log.firstRange_colon letters t.range _⟩
      | tooDeep =>
          have letters : "nesting limit reached at ".toList.all (!·.isDigit) = true := by decide
          exact ⟨_, rfl, Log.firstRange_end letters t.range⟩
  | _ => cases skip

end Fault

structure Logs (text : String) (e : Log.Entry) (n : Node) : Prop where
  level : e.level = .trace
  place : ∃ t ∈ tokenize text, t.isTrivia = false ∧ t.offset = n.range.start ∧
    ∀ r, e.Names r ↔ r = t.range

theorem logs_of_kept {text : String} {n : Node} {m : Omission} {message : String}
    (kept : m.Kept text.utf8ByteSize n) (led : Outline.Led m.tokens)
    (suffix : m.tokens <:+ lex text)
    (range : Log.firstRange message = toString (m.fault (.endAt text.utf8ByteSize)).range) :
    Logs text ⟨.trace, message⟩ n := by
  have head := Token.headD_mem (.endAt text.utf8ByteSize) (significant m.tokens)
  have ahead := (suffix.sublist.filter (!·.isTrivia)).append_right [.endAt text.utf8ByteSize]
  refine ⟨rfl, _, (significant_sublist text).mem (ahead.mem head), Token.visible_of_mem head,
    (Outline.start_of_stem kept.stem led).symm, fun r => ?_⟩
  rw [Log.Entry.Names, range]
  exact ⟨fun same => (Range.toString_injective same).symm, fun same => by rw [same]; rfl⟩

theorem logs_of_omissions {text : String} {nodes : List Node} {ms : List Omission}
    (kept : List.Forall₂ (Omission.Kept text.utf8ByteSize) nodes ms)
    (placed : ∀ m ∈ ms, Outline.Led m.tokens ∧ m.tokens <:+ lex text) :
    List.Forall₂ (Logs text)
      (((ms.map (·.fault (.endAt text.utf8ByteSize))).filterMap (·.trace?)).map (⟨.trace, ·⟩))
      nodes := by
  induction kept with
  | nil => exact .nil
  | @cons n m nodes ms first _ ih =>
      obtain ⟨⟨led, suffix⟩, rest⟩ := List.forall_mem_cons.mp placed
      obtain ⟨message, told, range⟩ := Fault.trace?_of_skip (f := m.fault _) rfl
      rw [List.map_cons, List.filterMap_cons_some told, List.map_cons]
      exact .cons (logs_of_kept first led suffix range) (ih rest)

theorem traces_of_faults (limits : Limits) (text : String) :
    (faults limits text).filterMap (·.trace?) =
      ((omissions limits text).map (·.fault (.endAt text.utf8ByteSize))).filterMap (·.trace?) := by
  rw [← skips_of_faults, List.filterMap_filter]
  congr 1
  funext f
  split
  · rfl
  case isFalse other => exact Fault.trace?_eq_none (by simpa using other)

/-- The log has an entry for each error of the tree, in their order, which gives the range of the
token where the error starts. The last entry gives the bytes, the tokens and the diagnostics. -/
theorem parse_logs (limits : Limits) (text : String) :
    ∃ root : Node, Node.ofTree? (parse limits text).tree = some root ∧
      ∃ traces, List.Forall₂ (Logs text) traces (root.descendants.filter (·.kind = .error)) ∧
        (parse limits text).log = traces ++ [⟨.debug,
          s!"parsed {text.utf8ByteSize} bytes: {(tokenize text).length} tokens, " ++
            s!"{(parse limits text).diagnostics.length} errors"⟩] := by
  have lawful := lawful_of_text limits text (takesInvalid_outline limits (lex text))
  have traces := logs_of_omissions (errors_of_text limits text)
    fun m member => ⟨(lawful m member).1.led, (lawful m member).2⟩
  rw [← traces_of_faults] at traces
  have length : (tokenize text).length = (lex text).length + 1 := List.length_append
  refine ⟨fileNode limits text, ofTree?_parse limits text, _, traces, ?_⟩
  rw [length]
  rfl

end ConfigSyntax
