import ConfigSyntax.Proofs.Positions

/-! Spans of a text: positions are ordered as the offsets they are of, so that a span holds just the
positions of the offsets between its ends. Main statements: `compare_position`, `spans_contain`. -/

namespace ConfigSyntax

namespace Position

variable {p q : Position}

theorem lt_iff : p < q ↔ p.line < q.line ∨ p.line = q.line ∧ p.column < q.column := by
  change order p q = .lt ↔ _
  rw [order, Ordering.then_eq_lt, Nat.compare_eq_lt, Nat.compare_eq_eq, Nat.compare_eq_lt]

theorem compare_eq_gt : compare p q = .gt ↔ q < p := by
  change order p q = .gt ↔ _
  rw [order, Ordering.then_eq_gt, Nat.compare_eq_gt, Nat.compare_eq_eq, Nat.compare_eq_gt, lt_iff]
  simp only [eq_comm]

end Position

theorem Span.contains_iff (s : Span) (p : Position) :
    s.contains p = true ↔ s.start ≤ p ∧ p ≤ s.stop := by
  rw [contains, Bool.and_eq_true, decide_eq_true_eq, decide_eq_true_eq]

namespace Lines

variable (bytes : List UInt8)

/-- Offsets in one line are in the line that starts at one place. -/
theorem startOf_congr {a b : Nat} (inside : a ≤ bytes.length) (inside' : b ≤ bytes.length)
    (line : (bytes.take a).count lineFeed = (bytes.take b).count lineFeed) :
    startOf bytes a = startOf bytes b := by
  have first := getElem?_startOf bytes inside
  rw [line, getElem?_startOf bytes inside'] at first
  exact (Option.some.inj first).symm

theorem position_lt {a b : Nat} (before : a < b) (inside : b ≤ bytes.length) :
    (ofBytes bytes).position a < (ofBytes bytes).position b := by
  have inside' : a ≤ bytes.length := by omega
  have front : bytes.take a <+: bytes.take b := List.take_prefix_take_left (Nat.le_of_lt before)
  have lines := front.sublist.count_le lineFeed
  rw [Position.lt_iff, position_of_le bytes inside', position_of_le bytes inside]
  dsimp only
  rcases Nat.lt_or_eq_of_le lines with earlier | line
  · exact Or.inl earlier
  · have start := startOf_congr bytes inside' inside line
    have distance := startOf_add bytes inside'
    exact Or.inr ⟨line, by omega⟩

theorem compare_position {a b : Nat} (inside : a ≤ bytes.length) (inside' : b ≤ bytes.length) :
    compare ((ofBytes bytes).position a) ((ofBytes bytes).position b) = compare a b := by
  rcases Nat.lt_trichotomy a b with less | rfl | more
  · rw [Nat.compare_eq_lt.mpr less]
    exact position_lt bytes less inside'
  · rw [Nat.compare_eq_eq.mpr rfl]
    change Position.order _ _ = .eq
    simp [Position.order]
  · rw [Nat.compare_eq_gt.mpr more]
    exact Position.compare_eq_gt.mpr (position_lt bytes more inside)

theorem position_lt_iff {a b : Nat} (inside : a ≤ bytes.length) (inside' : b ≤ bytes.length) :
    (ofBytes bytes).position a < (ofBytes bytes).position b ↔ a < b := by
  rw [← Nat.compare_eq_lt, ← compare_position bytes inside inside']
  rfl

theorem position_le_iff {a b : Nat} (inside : a ≤ bytes.length) (inside' : b ≤ bytes.length) :
    (ofBytes bytes).position a ≤ (ofBytes bytes).position b ↔ a ≤ b := by
  rw [← Nat.isLE_compare, ← compare_position bytes inside inside']
  rfl

theorem contains_position_iff {r : Range} {offset : Nat} (inside : r.stop ≤ bytes.length)
    (inside' : offset ≤ bytes.length) :
    ((ofBytes bytes).span r).contains ((ofBytes bytes).position offset) = true ↔
      r.start ≤ offset ∧ offset ≤ r.stop := by
  have start := position_le_iff bytes (r.start_le_stop.trans inside) inside'
  have stop := position_le_iff bytes inside' inside
  rw [Span.contains_iff]
  exact and_congr start stop

/-- The line feeds in front of the end of a range are those in front of its start and its own. -/
theorem isSingleLine_iff {r : Range} (inside : r.stop ≤ bytes.length) :
    ((ofBytes bytes).span r).isSingleLine = true ↔
      lineFeed ∉ (bytes.take r.stop).drop r.start := by
  have split := List.take_append_drop r.start (bytes.take r.stop)
  rw [List.take_take, Nat.min_eq_left r.start_le_stop] at split
  have count := congrArg (List.count lineFeed) split
  rw [List.count_append] at count
  rw [Span.isSingleLine, decide_eq_true_eq, span, position_of_le bytes inside,
    position_of_le bytes (r.start_le_stop.trans inside), ← List.count_eq_zero]
  dsimp only
  omega

/-- Positions are ordered as the offsets they are of, by line and then by column, neither of which
is more than the bytes of the text. The span of a range holds the positions of the offsets from its
start to its end, both of them too, and is in one line just if no line feed is in the range. -/
theorem spans_contain {text : String} {r : Range} {offset offset' : Nat}
    (inside : r.stop ≤ text.utf8ByteSize) (within : offset ≤ text.utf8ByteSize)
    (within' : offset' ≤ text.utf8ByteSize) :
    let bytes := text.toByteArray.data.toList
    let lines := ofText text
    compare (lines.position offset) (lines.position offset') = compare offset offset' ∧
      (lines.position offset < lines.position offset' ↔ offset < offset') ∧
      ((lines.position offset).line ≤ text.utf8ByteSize ∧
        (lines.position offset).column ≤ text.utf8ByteSize) ∧
      ((lines.span r).contains (lines.position offset) = true ↔
        r.start ≤ offset ∧ offset ≤ r.stop) ∧
      ((lines.span r).isSingleLine = true ↔ lineFeed ∉ (bytes.take r.stop).drop r.start) := by
  intro bytes lines
  have compared := compare_position bytes within within'
  have before := position_lt_iff bytes within within'
  have numbers := position_le bytes offset
  have contains := contains_position_iff bytes inside within
  have single := isSingleLine_iff bytes inside
  exact ⟨compared, before, numbers, contains, single⟩

/-- A range from one line feed to the next: its last offset is in it, and in the line behind. -/
theorem span_of_line_feeds :
    let r : Range := ⟨2, 6, by decide⟩
    (r.stop ≤ "ab\ncd\n".utf8ByteSize ∧ 6 ≤ "ab\ncd\n".utf8ByteSize ∧ 5 ≤ "ab\ncd\n".utf8ByteSize) ∧
      ((ofText "ab\ncd\n").span r).contains ((ofText "ab\ncd\n").position 6) = true ∧
      ((ofText "ab\ncd\n").span r).isSingleLine = false ∧
      compare ((ofText "ab\ncd\n").position 6) ((ofText "ab\ncd\n").position 5) = .gt := by
  intro r
  have inside : r.stop ≤ "ab\ncd\n".utf8ByteSize := by decide
  have within : 6 ≤ "ab\ncd\n".utf8ByteSize := by decide
  have within' : 5 ≤ "ab\ncd\n".utf8ByteSize := by decide
  obtain ⟨order, -, -, contains, single⟩ := spans_contain inside within within'
  refine ⟨⟨inside, within, within'⟩, contains.mpr (by decide), ?_, order⟩
  rw [← Bool.not_eq_true, single]
  decide

end Lines
end ConfigSyntax
