import ConfigSyntax.Lines
import Mathlib.Data.List.DropRight
import Mathlib.Tactic.SplitIfs

/-! Positions and offsets of a text: where lines start, and that each is read back from the other.
Main statements: `Lines.position_eq_iff`, `Lines.positions_inverse`. -/

namespace ConfigSyntax.Lines

theorem startsAfter_append (offset : Nat) (front back : List UInt8) :
    startsAfter offset (front ++ back) =
      startsAfter offset front ++ startsAfter (offset + front.length) back := by
  induction front generalizing offset with
  | nil => rfl
  | cons b bs ih =>
      have shifted : offset + (b :: bs).length = offset + 1 + bs.length := by
        rw [List.length_cons]
        omega
      rw [List.cons_append, startsAfter, startsAfter, ih, shifted]
      split <;> rfl

theorem mem_startsAfter {offset start : Nat} {bytes : List UInt8}
    (member : start ∈ startsAfter offset bytes) :
    offset < start ∧ start ≤ offset + bytes.length := by
  induction bytes generalizing offset with
  | nil => cases member
  | cons b bs ih =>
      rw [startsAfter] at member
      rw [List.length_cons]
      split at member
      · rcases List.mem_cons.mp member with rfl | member
        · omega
        · have := ih member
          omega
      · have := ih member
        omega

theorem sorted_starts (offset : Nat) (bytes : List UInt8) :
    (offset :: startsAfter offset bytes).Pairwise (· < ·) := by
  induction bytes generalizing offset with
  | nil => exact List.pairwise_singleton _ _
  | cons b bs ih =>
      refine .cons (fun start member => (mem_startsAfter member).1) ?_
      rw [startsAfter]
      split
      · exact ih (offset + 1)
      · exact (ih (offset + 1)).of_cons

theorem length_startsAfter (offset : Nat) (bytes : List UInt8) :
    (startsAfter offset bytes).length = bytes.count lineFeed := by
  induction bytes generalizing offset with
  | nil => rfl
  | cons b bs ih =>
      rw [startsAfter]
      by_cases feed : b = lineFeed
      · rw [if_pos feed, feed, List.count_cons_self, List.length_cons, ih]
      · rw [if_neg feed, List.count_cons_of_ne feed, ih]

theorem getLastD_starts (offset : Nat) (bytes : List UInt8) :
    (offset :: startsAfter offset bytes).getLastD 0 + (bytes.rtakeWhile (· ≠ lineFeed)).length =
      offset + bytes.length := by
  induction bytes using List.reverseRecOn with
  | nil => rfl
  | append_singleton bs b ih =>
      rw [startsAfter_append, List.length_append, List.length_singleton]
      by_cases feed : b = lineFeed
      · have last : startsAfter (offset + bs.length) [b] = [offset + bs.length + 1] := by
          rw [startsAfter, if_pos feed]
          rfl
        rw [List.rtakeWhile_concat_neg _ _ _ (by simp [feed]), last, ← List.cons_append,
          List.getLastD_concat]
        rfl
      · have none : startsAfter (offset + bs.length) [b] = [] := by
          rw [startsAfter, if_neg feed]
          rfl
        rw [List.rtakeWhile_concat_pos _ _ _ (by simp [feed]), none, List.append_nil,
          List.length_append, List.length_singleton]
        omega

section

variable (bytes : List UInt8)

def startsTo (offset : Nat) : List Nat := 0 :: startsAfter 0 (bytes.take offset)

def startOf (offset : Nat) : Nat := (startsTo bytes offset).getLastD 0

theorem length_startsTo (offset : Nat) :
    (startsTo bytes offset).length = (bytes.take offset).count lineFeed + 1 := by
  rw [startsTo, List.length_cons, length_startsAfter]

theorem startOf_add {offset : Nat} (inside : offset ≤ bytes.length) :
    startOf bytes offset + ((bytes.take offset).rtakeWhile (· ≠ lineFeed)).length = offset := by
  have last := getLastD_starts 0 (bytes.take offset)
  rwa [List.length_take_of_le inside, Nat.zero_add] at last

theorem le_of_mem_startsTo {offset start : Nat} (member : start ∈ startsTo bytes offset) :
    start ≤ offset := by
  rcases List.mem_cons.mp member with rfl | member
  · exact Nat.zero_le _
  · have bound := (mem_startsAfter member).2
    have := List.length_take_le offset bytes
    omega

theorem starts_split {offset : Nat} (inside : offset ≤ bytes.length) :
    (ofBytes bytes).starts = startsTo bytes offset ++ startsAfter offset (bytes.drop offset) := by
  have split := startsAfter_append 0 (bytes.take offset) (bytes.drop offset)
  rw [List.take_append_drop, List.length_take_of_le inside, Nat.zero_add] at split
  rw [ofBytes, split]
  rfl

theorem filter_starts {offset : Nat} (inside : offset ≤ bytes.length) :
    (ofBytes bytes).starts.filter (· ≤ offset) = startsTo bytes offset := by
  have front : (startsTo bytes offset).filter (· ≤ offset) = startsTo bytes offset :=
    List.filter_eq_self.mpr fun start member => by simpa using le_of_mem_startsTo bytes member
  have back : (startsAfter offset (bytes.drop offset)).filter (· ≤ offset) = [] :=
    List.filter_eq_nil_iff.mpr fun start member => by simpa using (mem_startsAfter member).1
  rw [starts_split bytes inside, List.filter_append, front, back, List.append_nil]

theorem position_of_le {offset : Nat} (inside : offset ≤ bytes.length) :
    (ofBytes bytes).position offset =
      ⟨(bytes.take offset).count lineFeed, offset - startOf bytes offset⟩ := by
  have clamped : min offset (ofBytes bytes).size = offset := Nat.min_eq_left inside
  simp only [position, clamped, filter_starts bytes inside, length_startsTo, Nat.add_sub_cancel]
  rfl

/-- Offsets behind the text mean its end. -/
theorem position_min (offset : Nat) :
    (ofBytes bytes).position offset = (ofBytes bytes).position (min offset bytes.length) := by
  have size : (ofBytes bytes).size = bytes.length := rfl
  simp only [position, size, Nat.min_assoc, Nat.min_self]

/-- The line feeds in front of an offset, and the bytes behind the last of them. -/
theorem position_eq (offset : Nat) :
    (ofBytes bytes).position offset = ⟨(bytes.take offset).count lineFeed,
      ((bytes.take offset).rtakeWhile (· ≠ lineFeed)).length⟩ := by
  have column := startOf_add bytes (Nat.min_le_right offset bytes.length)
  rw [position_min, position_of_le bytes (Nat.min_le_right _ _), ← List.take_eq_take_min]
  rw [← List.take_eq_take_min] at column
  congr 1
  omega

theorem getElem?_startOf {offset : Nat} (inside : offset ≤ bytes.length) :
    (ofBytes bytes).starts[(bytes.take offset).count lineFeed]? = some (startOf bytes offset) := by
  have length := length_startsTo bytes offset
  have last : (startsTo bytes offset)[(bytes.take offset).count lineFeed]? =
      (startsTo bytes offset).getLast? := by
    rw [List.getLast?_eq_getElem?, length, Nat.add_sub_cancel]
  rw [starts_split bytes inside, List.getElem?_append_left (by omega), last, startOf,
    List.getLastD_eq_getLast?]
  rfl

theorem lt_start_iff {offset i start : Nat} (inside : offset ≤ bytes.length)
    (starts : (ofBytes bytes).starts[i]? = some start) :
    offset < start ↔ (bytes.take offset).count lineFeed < i := by
  have length := length_startsTo bytes offset
  rw [starts_split bytes inside] at starts
  by_cases front : i < (startsTo bytes offset).length
  · rw [List.getElem?_append_left front] at starts
    have := le_of_mem_startsTo bytes (List.mem_of_getElem? starts)
    omega
  · rw [List.getElem?_append_right (by omega)] at starts
    have := (mem_startsAfter (List.mem_of_getElem? starts)).1
    omega

theorem position_eq_iff {offset : Nat} (inside : offset ≤ bytes.length) (p : Position) :
    (ofBytes bytes).position offset = p ↔
      ∃ start, (ofBytes bytes).starts[p.line]? = some start ∧ offset = start + p.column ∧
        ∀ next ∈ (ofBytes bytes).starts[p.line + 1]?, offset < next := by
  have own := getElem?_startOf bytes inside
  have le := (lt_start_iff bytes inside own).not.mpr (Nat.lt_irrefl _)
  rw [position_of_le bytes inside]
  constructor
  · rintro rfl
    refine ⟨_, own, by dsimp only; omega, fun next starts => ?_⟩
    exact (lt_start_iff bytes inside starts).mpr (Nat.lt_succ_self _)
  · rintro ⟨start, starts, distance, behind⟩
    have line : p.line = (bytes.take offset).count lineFeed := by
      have := (lt_start_iff bytes inside starts).not.mp (by omega)
      by_contra other
      have bound : p.line + 1 < (ofBytes bytes).starts.length := by
        have := (List.getElem?_eq_some_iff.mp own).1
        omega
      have next := List.getElem?_eq_getElem bound
      have := (lt_start_iff bytes inside next).mp (behind _ next)
      omega
    rw [line, own] at starts
    have column : p.column = offset - startOf bytes offset := by
      rw [Option.some.inj starts]
      omega
    rw [← line, ← column]

/-- Line `i` starts behind `i` line feeds, and directly behind the last of them. -/
def StartsLine (i start : Nat) : Prop :=
  start ≤ bytes.length ∧ (bytes.take start).count lineFeed = i ∧
    ∀ b ∈ (bytes.take start).getLast?, b = lineFeed

theorem column_eq_zero_iff (front : List UInt8) :
    (front.rtakeWhile (· ≠ lineFeed)).length = 0 ↔ ∀ b ∈ front.getLast?, b = lineFeed := by
  rw [List.length_eq_zero_iff, List.rtakeWhile_eq_nil_iff]
  cases front using List.reverseRecOn <;> simp

theorem start_le_length {i start : Nat} (starts : (ofBytes bytes).starts[i]? = some start) :
    start ≤ bytes.length := by
  rcases List.mem_cons.mp (List.mem_of_getElem? starts) with rfl | member
  · exact Nat.zero_le _
  · have := (mem_startsAfter member).2
    omega

theorem start_lt_next {i start next : Nat} (starts : (ofBytes bytes).starts[i]? = some start)
    (starts' : (ofBytes bytes).starts[i + 1]? = some next) : start < next := by
  obtain ⟨bound, rfl⟩ := List.getElem?_eq_some_iff.mp starts
  obtain ⟨bound', rfl⟩ := List.getElem?_eq_some_iff.mp starts'
  exact List.pairwise_iff_getElem.mp (sorted_starts 0 bytes) i (i + 1) bound bound' (by omega)

theorem getElem?_starts_iff {i start : Nat} :
    (ofBytes bytes).starts[i]? = some start ↔ StartsLine bytes i start := by
  have meaning (inside : start ≤ bytes.length) :
      (ofBytes bytes).position start = ⟨i, 0⟩ ↔ StartsLine bytes i start := by
    rw [position_eq, Position.mk.injEq, column_eq_zero_iff, StartsLine, and_iff_right inside]
  constructor
  · intro starts
    have inside := start_le_length bytes starts
    refine (meaning inside).mp ((position_eq_iff bytes inside _).mpr ⟨start, starts, rfl, ?_⟩)
    exact fun next starts' => start_lt_next bytes starts starts'
  · intro line
    obtain ⟨_, starts, rfl, -⟩ :=
      (position_eq_iff bytes line.1 _).mp ((meaning line.1).mpr line)
    exact starts

theorem position_le (offset : Nat) :
    ((ofBytes bytes).position offset).line ≤ bytes.length ∧
      ((ofBytes bytes).position offset).column ≤ bytes.length := by
  have taken := List.length_take_le' offset bytes
  rw [position_eq]
  exact ⟨List.count_le_length.trans taken,
    (List.rtakeWhile_suffix _ _).length_le.trans taken⟩

theorem offset?_position (offset : Nat) :
    (ofBytes bytes).offset? ((ofBytes bytes).position offset) = some (min offset bytes.length) := by
  have inside := Nat.min_le_right offset bytes.length
  obtain ⟨start, starts, distance, -⟩ := (position_eq_iff bytes inside _).mp rfl
  rw [position_min, offset?, starts, Option.map_some, ← distance]
  exact congrArg some (Nat.min_eq_left inside)

theorem offset?_eq_none_iff (p : Position) :
    (ofBytes bytes).offset? p = none ↔ (ofBytes bytes).count ≤ p.line := by
  rw [offset?, Option.map_eq_none_iff, List.getElem?_eq_none_iff, count]

/-- A position is read back if its column is in its line. -/
theorem position_offset?_iff {p : Position} {start : Nat}
    (starts : (ofBytes bytes).starts[p.line]? = some start) :
    (ofBytes bytes).position (min (start + p.column) bytes.length) = p ↔
      match (ofBytes bytes).starts[p.line + 1]? with
      | some next => start + p.column < next
      | none => start + p.column ≤ bytes.length := by
  rw [position_eq_iff bytes (Nat.min_le_right _ _), starts]
  cases following : (ofBytes bytes).starts[p.line + 1]? with
  | none =>
      constructor
      · rintro ⟨_, same, distance, -⟩
        obtain rfl := Option.some.inj same
        exact distance ▸ Nat.min_le_right _ _
      · exact fun inside => ⟨start, rfl, Nat.min_eq_left inside, nofun⟩
  | some next =>
      have inside := start_le_length bytes following
      constructor
      · rintro ⟨_, same, distance, behind⟩
        obtain rfl := Option.some.inj same
        rw [← distance]
        exact behind next rfl
      · intro before
        have distance : min (start + p.column) bytes.length = start + p.column :=
          Nat.min_eq_left (by omega)
        refine ⟨start, rfl, distance, fun other same => ?_⟩
        rw [distance, ← Option.some.inj same]
        exact before

end

/-- The position of an offset counts the line feeds in front of it and the bytes behind the last of
them, which are never more than the text has bytes, and the offset is read back from it. A position
has an offset just if there is its line, and is read back from that just if its column is in front
of the next line, or in the text on the last line. -/
theorem positions_inverse (text : String) :
    let bytes := text.toByteArray.data.toList
    let lines := ofText text
    (∀ i start, lines.starts[i]? = some start ↔ StartsLine bytes i start) ∧
      (∀ offset,
        (lines.position offset).line =
            (bytes.take (min offset text.utf8ByteSize)).count lineFeed ∧
          (lines.position offset).column =
            ((bytes.take (min offset text.utf8ByteSize)).rtakeWhile (· ≠ lineFeed)).length ∧
          (lines.position offset).line ≤ text.utf8ByteSize ∧
          (lines.position offset).column ≤ text.utf8ByteSize ∧
          lines.offset? (lines.position offset) = some (min offset text.utf8ByteSize)) ∧
      ∀ p : Position, (lines.offset? p = none ↔ lines.count ≤ p.line) ∧
        ∀ offset ∈ lines.offset? p, ∃ start, lines.starts[p.line]? = some start ∧
          (lines.position offset = p ↔
            match lines.starts[p.line + 1]? with
            | some next => start + p.column < next
            | none => start + p.column ≤ text.utf8ByteSize) := by
  intro bytes lines
  have size : text.utf8ByteSize = bytes.length := rfl
  refine ⟨fun i start => getElem?_starts_iff bytes, fun offset => ?_, fun p => ?_⟩
  · rw [size, ← List.take_eq_take_min]
    have position := position_eq bytes offset
    obtain ⟨line, column⟩ := position_le bytes offset
    exact ⟨congrArg Position.line position, congrArg Position.column position, line, column,
      offset?_position bytes offset⟩
  · refine ⟨offset?_eq_none_iff bytes p, fun offset found => ?_⟩
    obtain ⟨start, starts, rfl⟩ := Option.map_eq_some_iff.mp found
    exact ⟨start, starts, position_offset?_iff bytes starts⟩

example : ((ofText "ab\ncd").offset? ⟨0, 3⟩).map (ofText "ab\ncd").position = some ⟨1, 0⟩ := by
  decide

end ConfigSyntax.Lines
