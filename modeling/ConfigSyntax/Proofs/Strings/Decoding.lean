import ConfigSyntax.Proofs.Strings.Escapes

/-! What a string literal stands for. Main statement: `parse_decodes`, by which it is what the rules
of the escapes make of the text between the quotes, where a plus sign may stand for the first digit
of a code point. -/

namespace ConfigSyntax

namespace Text

def smallDigits : List Char :=
  ['0', '1', '2', '3', '4', '5', '6', '7', '8', '9', 'a', 'b', 'c', 'd', 'e', 'f']

def largeDigits : List Char :=
  ['0', '1', '2', '3', '4', '5', '6', '7', '8', '9', 'A', 'B', 'C', 'D', 'E', 'F']

def IsDigit (c : Char) (n : Nat) : Prop := smallDigits[n]? = some c ∨ largeDigits[n]? = some c

instance (c : Char) (n : Nat) : Decidable (IsDigit c n) := inferInstanceAs (Decidable (_ ∨ _))

theorem toNat_lt_of_hexDigit? {c : Char} {n : Nat} (digit : hexDigit? c = some n) :
    c.toNat < 128 := by
  have below (last : Char) (le : c ≤ last) (small : last.toNat < 128) : c.toNat < 128 :=
    Nat.lt_of_le_of_lt (UInt32.le_iff_toNat_le.mp (Char.le_def.mp le)) small
  unfold hexDigit? at digit
  split_ifs at digit with decimal row row
  · simp only [Char.isDigit, Bool.and_eq_true, decide_eq_true_eq] at decimal
    exact below '9' decimal.2 (by decide)
  · exact below _ row.2 (by decide)
  · exact below _ row.2 (by decide)

theorem isDigit_hexDigit? :
    ∀ k < 128, ∀ n ∈ hexDigit? (Char.ofNat k), IsDigit (Char.ofNat k) n := by
  decide +kernel

theorem hexDigit?_of_getElem? {digits : List Char}
    (each : ∀ n, ∀ bound : n < digits.length, hexDigit? digits[n] = some n) {c : Char} {n : Nat}
    (digit : digits[n]? = some c) : hexDigit? c = some n := by
  obtain ⟨bound, rfl⟩ := List.getElem?_eq_some_iff.mp digit
  exact each n bound

theorem hexDigit?_eq_some_iff {c : Char} {n : Nat} : hexDigit? c = some n ↔ IsDigit c n := by
  constructor
  · intro digit
    have ascii := isDigit_hexDigit? c.toNat (toNat_lt_of_hexDigit? digit)
    rw [Char.ofNat_toNat] at ascii
    exact ascii n digit
  · rintro (digit | digit)
    · exact hexDigit?_of_getElem? (by decide) digit
    · exact hexDigit?_of_getElem? (by decide) digit

abbrev Spelling := Char → Char → Char → Char → Char → Prop

/-- Four digits spell the number of a character. -/
def Spells : Spelling := fun a b c d x =>
  ∃ i j k l, IsDigit a i ∧ IsDigit b j ∧ IsDigit c k ∧ IsDigit d l ∧
    x.toNat = 16 ^ 3 * i + 16 ^ 2 * j + 16 * k + l

/-- A plus sign may take the place of a zero in front. -/
def SpellsSigned : Spelling := fun a b c d x => Spells a b c d x ∨ a = '+' ∧ Spells '0' b c d x

theorem hexNumber?_eq_some_iff {a b c d : Char} {n : Nat} :
    hexNumber? [a, b, c, d] = some n ↔ ∃ i j k l, IsDigit a i ∧ IsDigit b j ∧ IsDigit c k ∧
      IsDigit d l ∧ n = 16 ^ 3 * i + 16 ^ 2 * j + 16 * k + l := by
  simp only [hexNumber?, List.foldlM, Option.bind_eq_bind, Option.bind_eq_some_iff,
    Option.map_eq_some_iff, hexDigit?_eq_some_iff, Option.pure_def, Option.some.injEq]
  constructor
  · rintro ⟨_, ⟨i, hi, rfl⟩, _, ⟨j, hj, rfl⟩, _, ⟨k, hk, rfl⟩, _, ⟨l, hl, rfl⟩, rfl⟩
    exact ⟨i, j, k, l, hi, hj, hk, hl, by omega⟩
  · rintro ⟨i, j, k, l, hi, hj, hk, hl, rfl⟩
    exact ⟨_, ⟨i, hi, rfl⟩, _, ⟨j, hj, rfl⟩, _, ⟨k, hk, rfl⟩, _, ⟨l, hl, rfl⟩, by omega⟩

theorem hexNumber?_zero (cs : List Char) : hexNumber? ('0' :: cs) = hexNumber? cs := rfl

theorem ofNat_eq_some_iff {n : Nat} {x : Char} :
    (if n.isValidChar then some (Char.ofNat n) else none) = some x ↔ x.toNat = n := by
  split_ifs with valid
  · rw [Option.some.injEq]
    constructor
    · rintro rfl
      rw [Char.ofNat, dif_pos valid]
      rfl
    · rintro rfl
      exact Char.ofNat_toNat x
  · refine iff_of_false nofun ?_
    rintro rfl
    exact valid x.valid

theorem codePoint?_eq_some_iff {a b c d x : Char} :
    codePoint? a b c d = some x ↔ SpellsSigned a b c d x := by
  have point (a : Char) : (hexNumber? [a, b, c, d]).bind (fun n =>
      if n.isValidChar then some (Char.ofNat n) else none) = some x ↔ Spells a b c d x := by
    simp only [Option.bind_eq_some_iff, hexNumber?_eq_some_iff, ofNat_eq_some_iff]
    constructor
    · rintro ⟨_, digits, rfl⟩
      exact digits
    · exact fun digits => ⟨_, digits, rfl⟩
  rw [SpellsSigned, ← point a, ← point '0', hexNumber?_zero, codePoint?]
  split_ifs with plus
  · have none : hexNumber? ['+', b, c, d] = none := rfl
    simp [plus, none]
  · simp [plus]

def controls : List (Char × Char) :=
  [('n', '\n'), ('t', '\t'), ('r', '\r'), ('b', '\x08'), ('f', '\x0c')]

def Unspelled (point : Spelling) (cs : List Char) : Prop :=
  ∀ a b c d x, [a, b, c, d] <+: cs → ¬ point a b c d x

/-- What a text stands for, from left to right, where four characters behind `u` may be a code point
of one. -/
inductive Decodes (point : Spelling) : List Char → List Char → Prop
  | nil : Decodes point [] []
  | plain {c : Char} {cs ds : List Char} (other : c ≠ '\\') (rest : Decodes point cs ds) :
    Decodes point (c :: cs) (c :: ds)
  | control {c x : Char} {cs ds : List Char} (known : (c, x) ∈ controls)
    (rest : Decodes point cs ds) : Decodes point ('\\' :: c :: cs) (x :: ds)
  | codePoint {a b c d x : Char} {cs ds : List Char} (spelled : point a b c d x)
    (rest : Decodes point cs ds) : Decodes point ('\\' :: 'u' :: a :: b :: c :: d :: cs) (x :: ds)
  | letter {cs ds : List Char} (unspelled : Unspelled point cs)
    (rest : Decodes point cs ds) : Decodes point ('\\' :: 'u' :: cs) ('u' :: ds)
  | itself {c : Char} {cs ds : List Char} (other : c ≠ 'u') (unknown : ∀ x, (c, x) ∉ controls)
    (rest : Decodes point cs ds) : Decodes point ('\\' :: c :: cs) (c :: ds)
  | last : Decodes point ['\\'] ['\\']

theorem escaped_of_control {c x : Char} (known : (c, x) ∈ controls) : c ≠ 'u' ∧ escaped c = x := by
  revert known
  simp only [controls, List.mem_cons, Prod.mk.injEq, List.not_mem_nil, or_false]
  rintro (⟨rfl, rfl⟩ | ⟨rfl, rfl⟩ | ⟨rfl, rfl⟩ | ⟨rfl, rfl⟩ | ⟨rfl, rfl⟩) <;> exact ⟨by decide, rfl⟩

theorem escaped_cases (c : Char) :
    (c, escaped c) ∈ controls ∨ escaped c = c ∧ ∀ x, (c, x) ∉ controls := by
  by_cases known : (c, escaped c) ∈ controls
  · exact Or.inl known
  · refine Or.inr ⟨?_, fun x member => known ?_⟩
    · unfold escaped at known ⊢
      split at known <;> first | exact absurd (by decide) known | rfl
    · rw [(escaped_of_control member).2]
      exact member

theorem unspelled_of_four {point : Spelling} {a b c d : Char} (none : ∀ x, ¬ point a b c d x)
    (cs : List Char) : Unspelled point (a :: b :: c :: d :: cs) := by
  intro a' b' c' d' x inside
  simp only [List.cons_prefix_cons] at inside
  obtain ⟨rfl, rfl, rfl, rfl, -⟩ := inside
  exact none x

theorem unescape_letter {cs : List Char} (unspelled : Unspelled SpellsSigned cs) :
    unescape ('\\' :: 'u' :: cs) = 'u' :: unescape cs := by
  match cs with
  | a :: b :: c :: d :: cs =>
    have none : codePoint? a b c d = none := Option.eq_none_iff_forall_ne_some.mpr fun x found =>
      unspelled a b c d x (List.prefix_append [a, b, c, d] cs) (codePoint?_eq_some_iff.mp found)
    rw [unescape, none]
  | [] => rfl
  | [_] => rfl
  | [_, _] => rfl
  | [_, _, _] => rfl

theorem decodes_unescape (cs : List Char) : Decodes SpellsSigned cs (unescape cs) := by
  fun_induction unescape cs with
  | case1 => exact .nil
  | case2 a b c d cs x found ih => exact .codePoint (codePoint?_eq_some_iff.mp found) ih
  | case3 a b c d cs none ih =>
      refine .letter (unspelled_of_four (fun x spelled => ?_) cs) ih
      rw [codePoint?_eq_some_iff.mpr spelled] at none
      cases none
  | case4 c cs short ih =>
      by_cases letter : c = 'u'
      · rw [letter] at short ⊢
        refine .letter (fun a b c d x inside => ?_) ih
        obtain ⟨rest, rfl⟩ := inside
        exact (short a b c d rest rfl rfl).elim
      · rcases escaped_cases c with known | ⟨same, unknown⟩
        · exact .control known ih
        · rw [same]
          exact .itself letter unknown ih
  | case5 c cs longer alone ih =>
      by_cases backslash : c = '\\'
      · cases cs with
        | nil => exact backslash ▸ .last
        | cons d cs => exact (alone d cs backslash rfl).elim
      · exact .plain backslash ih

theorem unescape_of_decodes {cs ds : List Char} (decodes : Decodes SpellsSigned cs ds) :
    unescape cs = ds := by
  induction decodes with
  | nil => rfl
  | plain other _ ih => rw [unescape_plain other, ih]
  | control known _ ih =>
      obtain ⟨other, same⟩ := escaped_of_control known
      rw [unescape_pair other, same, ih]
  | codePoint spelled _ ih => rw [unescape, codePoint?_eq_some_iff.mpr spelled, ih]
  | letter unspelled _ ih => rw [unescape_letter unspelled, ih]
  | itself other unknown _ ih =>
      rw [unescape_pair other, ((escaped_cases _).resolve_left (unknown _)).1, ih]
  | last => rfl

theorem decodes_iff {cs ds : List Char} : Decodes SpellsSigned cs ds ↔ unescape cs = ds :=
  ⟨unescape_of_decodes, fun same => same ▸ decodes_unescape cs⟩

/-- What decides is only which code points stand behind a `u`. -/
theorem Decodes.congr {point point' : Spelling} {cs ds : List Char} (decodes : Decodes point cs ds)
    (same : ∀ a, ['\\', 'u', a] <:+: cs → ∀ b c d x, point a b c d x ↔ point' a b c d x) :
    Decodes point' cs ds := by
  induction decodes with
  | nil => exact .nil
  | @plain c cs _ other _ ih =>
      exact .plain other (ih fun a inside => same a (inside.trans (List.suffix_cons _ _).isInfix))
  | @control c _ cs _ known _ ih =>
      exact .control known
        (ih fun a inside => same a (inside.trans (List.suffix_append ['\\', c] cs).isInfix))
  | @codePoint a b c d _ cs _ spelled _ ih =>
      have first := same a (List.prefix_append ['\\', 'u', a] _).isInfix
      exact .codePoint ((first _ _ _ _).mp spelled) (ih fun a' inside =>
        same a' (inside.trans (List.suffix_append ['\\', 'u', a, b, c, d] cs).isInfix))
  | @letter cs _ unspelled _ ih =>
      refine .letter (fun a b c d x inside spelled => unspelled a b c d x inside ?_)
        (ih fun a inside => same a (inside.trans (List.suffix_append ['\\', 'u'] cs).isInfix))
      obtain ⟨rest, rfl⟩ := inside
      exact (same a (List.prefix_append ['\\', 'u', a] _).isInfix _ _ _ _).mpr spelled
  | @itself c cs _ other unknown _ ih =>
      exact .itself other unknown
        (ih fun a inside => same a (inside.trans (List.suffix_append ['\\', c] cs).isInfix))
  | last => exact .last

/-- Without a plus sign behind a `u`, all code points are of four digits. -/
theorem decodes_unsigned {cs ds : List Char} (unsigned : ¬ ['\\', 'u', '+'] <:+: cs) :
    Decodes Spells cs ds ↔ Decodes SpellsSigned cs ds := by
  have same : ∀ a, ['\\', 'u', a] <:+: cs → ∀ b c d x,
      Spells a b c d x ↔ SpellsSigned a b c d x := by
    intro a inside b c d x
    have other : a ≠ '+' := fun plus => unsigned (plus ▸ inside)
    simp [SpellsSigned, other]
  exact ⟨fun decodes => decodes.congr same,
    fun decodes => decodes.congr fun a inside b c d x => (same a inside b c d x).symm⟩

end Text

open Text (Decodes Spells SpellsSigned)

/-- A literal contains what stands between the quotes of its token, or behind the only one. -/
theorem StringLiteral.exists_contents {s : StringLiteral} {t : Token} {cs : List Char}
    (only : s.literalToken? = some t) (string : t.kind.isString = true) (judged : t.Judged cs) :
    t.text.toList = t.quote :: (s.contents ++ if t.isUnterminated then [] else [t.quote]) := by
  have terminated := isTerminated_of_token only string
  have contents {body : List Char} (quoted : t.text.toList = t.quote :: body) :
      s.contents = if s.isTerminated then body.dropLast else body := by
    rw [← literalText_of_token only, ← quote_of_token only] at quoted
    exact contents_eq quoted
  rw [Token.Judged] at judged
  split at judged
  · obtain ⟨quoted, closed⟩ := judged
    rw [contents quoted, terminated, closed]
    simpa using quoted
  · obtain ⟨quoted, unclosed⟩ := judged
    rw [contents quoted, terminated, unclosed]
    simpa using quoted

/-- Whatever the text and the limit, a string literal stands for what its escapes decode to, and
nothing else. Without a plus sign behind `\u`, all code points are of four digits. -/
theorem parse_decodes (limits : Limits) (text : String) :
    ∃ root, Node.ofTree? (parse limits text).tree = some root ∧
      ∀ s : StringLiteral, s.toNode ∈ root.descendants →
        ∃ t ∈ tokenize text, t.kind.isString = true ∧ s.literalToken? = some t ∧
          ∃ body, t.text.toList = t.quote :: (body ++ if t.isUnterminated then [] else [t.quote]) ∧
            (∀ ds, Decodes SpellsSigned body ds ↔ s.value.toList = ds) ∧
            (¬ ['\\', 'u', '+'] <:+: body →
              ∀ ds, Decodes Spells body ds ↔ s.value.toList = ds) := by
  refine ⟨fileNode limits text, ofTree?_parse limits text, fun s member => ?_⟩
  have kind : s.kind = .stringLiteral := by
    simpa [Category.has, Category.kinds] using s.has_kind
  obtain ⟨t, inside, string, only⟩ := token_of_string member kind
  obtain ⟨_, _, -, -, judged⟩ := judged_of_mem inside string
  have value : s.value.toList = Text.unescape s.contents := String.toList_ofList
  refine ⟨t, List.mem_append_left _ inside, string, only, s.contents,
    StringLiteral.exists_contents only string judged, fun ds => ?_, fun unsigned ds => ?_⟩
  · rw [value, Text.decodes_iff]
  · rw [value, Text.decodes_unsigned unsigned, Text.decodes_iff]

/-- A plus sign is no digit, but is read as one. -/
theorem signed_code_point :
    ∃ root, Node.ofTree? (parse {} "a = \"\\u+041\"").tree = some root ∧
      ∃ s : StringLiteral, s.toNode ∈ root.descendants ∧
        (s.literalText, s.isTerminated, s.value) = ("\"\\u+041\"", true, "A") ∧
          Decodes Spells ['\\', 'u', '+', '0', '4', '1'] ['u', '+', '0', '4', '1'] ∧
          ¬ Decodes Spells ['\\', 'u', '+', '0', '4', '1'] s.value.toList := by
  refine ⟨fileNode {} "a = \"\\u+041\"", ofTree?_parse {} _, ?_⟩
  have texts : ((fileNode {} "a = \"\\u+041\"").descendants.filterMap fun n =>
      (n.as? .stringLiteral).map fun s => (s.literalText, StringLiteral.isTerminated s,
        StringLiteral.value s)) = [("\"\\u+041\"", true, "A")] := by
    decide +kernel
  have noDigit : Text.Unspelled Spells ['+', '0', '4', '1'] := by
    refine Text.unspelled_of_four ?_ []
    rintro x ⟨i, -, -, -, digit, -⟩
    have none : Text.hexDigit? '+' = some i := Text.hexDigit?_eq_some_iff.mpr digit
    cases none
  have decodes : Decodes Spells ['\\', 'u', '+', '0', '4', '1'] ['u', '+', '0', '4', '1'] :=
    .letter noDigit (.plain (by decide) (.plain (by decide) (.plain (by decide)
      (.plain (by decide) .nil))))
  obtain ⟨s, member, same⟩ := Node.exists_typed (texts ▸ List.mem_singleton_self _)
  have value : StringLiteral.value s = "A" := congrArg (·.2.2) same
  refine ⟨s, member, same, decodes, fun other => ?_⟩
  rw [value, show "A".toList = ['A'] from rfl] at other
  cases other with
  | control known => exact absurd known (by decide)
  | codePoint spelled => exact noDigit _ _ _ _ _ (List.prefix_refl _) spelled

end ConfigSyntax
