import ConfigSyntax.Proofs.Join.Faults
import ConfigSyntax.Proofs.Join.Trees
import ConfigSyntax.Proofs.Limited.Diagnostics
import ConfigSyntax.Proofs.Stable.Rules

/-! Behind a text without errors and a line break, another text is read as it is alone. Main
statement: `parse_join`. -/

namespace ConfigSyntax

open Outline (kindsOfAll kindsBefore faultsOfAll growAll filed)
open Token (leaves significant blankFaults)

theorem nodes_outline (limits : Limits) (tokens : List Token) :
    ∀ p ∈ outline limits tokens, ∃ k c, p.symbol = .node k c := by
  intro p member
  have nodes : Schema.Over (fun s => ∃ k c, s = .node k c) (Schema.production Schema.gap .file) :=
    Schema.over_star (Schema.over_construct .element fun k c _ => ⟨k, c, rfl⟩)
  exact nodes _ (outline_reading limits tokens).symbols _ (List.mem_map_of_mem member)

theorem length_outline (limits : Limits) (tokens : List Token) :
    (kindsOfAll (outline limits tokens)).length = (significant tokens).length := by
  rw [kinds_outline, kindsBefore, List.length_map]

theorem Token.significant_of_blank {ts : List Token} (blank : ∀ t ∈ ts, t.kind = .whitespace) :
    significant ts = [] := by
  apply List.filter_eq_nil_iff.mpr
  intro t member
  rw [isTrivia, blank t member]
  decide

theorem Token.fault?_of_blank {t : Token} (blank : t.kind = .whitespace) : t.fault? = none := by
  rw [fault?, blank]

theorem Token.significant_shift (d : Nat) (ts : List Token) :
    significant (ts.map (·.shift d)) = (significant ts).map (·.shift d) := List.filter_map

namespace Seam

variable {a b : String} (seam : Seam a b)

theorem significant_first : significant (lex a) = significant seam.front := by
  rw [seam.first, Token.significant_append, Token.significant_of_blank seam.trailing,
    List.append_nil]

theorem significant_second : significant (lex b) = significant seam.back := by
  rw [seam.second, Token.significant_append, Token.significant_of_blank seam.leading,
    List.nil_append]

theorem significant_gap : significant [seam.gap] = [] :=
  Token.significant_of_blank (List.forall_mem_singleton.mpr seam.between)

include seam

theorem significant_join : significant (lex (a ++ "\n" ++ b)) =
    significant (lex a) ++ (significant (lex b)).map (·.shift (a.utf8ByteSize + 1)) := by
  rw [seam.join, seam.significant_first, seam.significant_second,
    ← List.singleton_append (x := seam.gap), Token.significant_append, Token.significant_append,
    seam.significant_gap, List.nil_append, Token.significant_shift]

/-- The blanks of the second text have the same faults, further on, where those of the first have
none. -/
theorem blankFaults_join (sound : ∀ t ∈ lex a, t.fault? = none) :
    List.Forall₂ (Fault.Alike (Range.Moved (a.utf8ByteSize + 1))) (blankFaults (lex b))
      (blankFaults (lex (a ++ "\n" ++ b))) := by
  have front : blankFaults (seam.front ++ [seam.gap]) = [] := by
    rw [Token.blankFaults_eq_nil]
    intro t member _
    rcases List.mem_append.mp member with member | member
    · exact sound t (seam.first ▸ List.mem_append_left _ member)
    · rw [List.mem_singleton.mp member]
      exact Token.fault?_of_blank seam.between
  have lead : blankFaults seam.lead = [] :=
    Token.blankFaults_eq_nil.mpr fun t member _ => Token.fault?_of_blank (seam.leading t member)
  rw [seam.join, seam.second, List.append_cons seam.front, Token.blankFaults_append,
    Token.blankFaults_append, front, lead, List.nil_append, List.nil_append]
  exact Outline.blankFaults_alike (Token.map_shift_alike _ _)

/-- The trees of both texts stay as they are, but for the blanks between them. -/
theorem filed_join {ps qs : List Outline} (filled : ∀ p ∈ ps, p.Filled)
    (count : (kindsOfAll ps).length = (significant (lex a)).length)
    (nodes : ∀ q ∈ qs, ∃ k c, q.symbol = .node k c) :
    ∃ (first second : List Tree) (trail gap lead : List Token),
      filed ps (lex a) = first ++ leaves trail ∧ filed qs (lex b) = leaves lead ++ second ∧
        filed (ps ++ qs) (lex (a ++ "\n" ++ b)) = first ++ leaves gap ++ second ∧
        Tree.widthOfAll (first ++ leaves gap) =
          a.utf8ByteSize + 1 + Tree.widthOfAll (leaves lead) := by
  let grown := growAll ps seam.front
  rw [seam.significant_first] at count
  have enough := Nat.le_of_eq count
  -- The parts of the first text take all its tokens and none of those behind them.
  have rest : significant (grown.2 ++ [seam.gap]) = [] := by
    rw [Token.significant_append, seam.significant_gap, Outline.significant_growAll, count,
      List.drop_length, List.append_nil]
  have lead : significant seam.lead = [] := Token.significant_of_blank seam.leading
  have moved := Token.map_shift_alike (a.utf8ByteSize + 1) seam.back
  refine ⟨grown.1, filed qs seam.back, grown.2 ++ seam.trail, grown.2 ++ [seam.gap], seam.lead,
    ?_, ?_, ?_, ?_⟩
  · rw [seam.first]
    exact Outline.filed_front ps seam.trail filled enough
  · rw [seam.second]
    exact Outline.filed_lead nodes lead seam.back
  · rw [seam.join, Outline.filed_append, Outline.growAll_front ps _ filled enough,
      List.append_cons, Outline.filed_lead nodes rest, ← Outline.filed_alike qs moved]
    exact (List.append_assoc ..).symm
  · have tiled := lex_tiled a
    rw [seam.first] at tiled
    have front := (Outline.tiled_growAll ps tiled.initial).stop_eq
    have width := seam.width
    rw [Token.leaves_append, Tree.widthOfAll_append] at width
    rw [Token.leaves_append, Tree.widthOfAll_append, Tree.widthOfAll_append]
    change _ = 0 + Tree.widthOfAll grown.1 + Tree.widthOfAll (leaves grown.2) at front
    omega

end Seam

section

variable {limits : Limits} {a b : String} (accepted : (parse limits a).diagnostics = [])
  (starts : ∀ t ∈ (significant (lex b)).head?, t.kind ∈ Kind.objectElementFirst)
  (seam : Seam a b)

theorem sound_of_accepted (accepted : (parse limits a).diagnostics = []) :
    ∀ t ∈ lex a, t.fault? = none := by
  intro t member
  cases fault : t.fault? with
  | none => rfl
  | some f =>
      have quiet := diagnostics_eq_nil.mp accepted f (fault_mem_faults_of_token limits member fault)
      rw [Token.not_silent_of_fault? fault] at quiet
      cases quiet

include accepted starts seam

theorem outline_join :
    outline limits (lex (a ++ "\n" ++ b)) = outline limits (lex a) ++ outline limits (lex b) := by
  have kinds : kindsBefore (lex (a ++ "\n" ++ b)) = kindsBefore (lex a) ++ kindsBefore (lex b) := by
    rw [kindsBefore, seam.significant_join, List.map_append, List.map_map]
    rfl
  have ends : Grammar.Avoids Grammar.extenders (kindsBefore (lex b)) := by
    have others : ∀ k ∈ Kind.objectElementFirst, k ∉ Grammar.extenders := by decide
    intro k first
    rw [kindsBefore, List.head?_map] at first
    obtain ⟨t, head, rfl⟩ := Option.map_eq_some_iff.mp first
    exact others _ (starts t head)
  calc
    _ = Grammar.file limits.maxDepth (kindsBefore (lex a) ++ kindsBefore (lex b)) :=
      congrArg _ kinds
    _ = _ := Grammar.file_append (clean_of_accepted accepted) ends

theorem faults_join : List.Forall₂ (Fault.Alike (Range.Moved (a.utf8ByteSize + 1)))
    (faults limits b) (faults limits (a ++ "\n" ++ b)) := by
  have sound := sound_of_accepted accepted
  have size : (a ++ "\n" ++ b).utf8ByteSize = b.utf8ByteSize + (a.utf8ByteSize + 1) := by
    rw [String.utf8ByteSize_append, String.utf8ByteSize_append, Nat.add_comm]
    rfl
  have last : (Token.endAt b.utf8ByteSize).Alike (Range.Moved (a.utf8ByteSize + 1))
      (.endAt (a ++ "\n" ++ b).utf8ByteSize) := by
    rw [size]
    exact Token.shift_alike _ _
  have count := length_outline limits (lex a)
  have parts := Outline.faultsOfAll_append (.endAt (a ++ "\n" ++ b).utf8ByteSize) none
    (nodes_outline limits (lex a)) (outline limits (lex b)) (significant (lex (a ++ "\n" ++ b)))
  -- The parts of the first text lack nothing, so all they tell of is tokens, and those are sound.
  have first : (faultsOfAll (.endAt (a ++ "\n" ++ b).utf8ByteSize) none (outline limits (lex a))
      (significant (lex (a ++ "\n" ++ b)))).1 = [] := by
    rw [Outline.own_of_clean _ _ _ (clean_of_accepted accepted), seam.significant_join, count,
      List.take_left, List.filterMap_eq_nil_iff]
    exact fun t member => sound t (List.mem_of_mem_filter member)
  rw [first, List.nil_append, seam.significant_join, count, List.drop_left,
    ← outline_join accepted starts seam, ← seam.significant_join] at parts
  apply Fault.foldr_insert_alike (seam.blankFaults_join sound)
  change List.Forall₂ _ _ (faultsOfAll _ _ _ (significant _)).1
  rw [parts]
  exact Outline.faultsOfAll_alike last _ .none (Token.map_shift_alike _ _)

/-- The children of both texts are those of one file, the second ones further on. -/
theorem children_join : Node.Joined (a.utf8ByteSize + 1) (fileNode limits a) (fileNode limits b)
    (fileNode limits (a ++ "\n" ++ b)) := by
  have filled : ∀ p ∈ outline limits (lex a), p.Filled :=
    (Grammar.file_builds limits.maxDepth (kindsBefore (lex a))).filled
      (outline_reading limits (lex a)).shaped (clean_of_accepted accepted)
  obtain ⟨front, back, trail, gap, lead, first, second, root, width⟩ :=
    seam.filed_join filled (length_outline limits (lex a)) (nodes_outline limits (lex b))
  rw [← outline_join accepted starts seam] at root
  have start : 0 + Tree.widthOfAll (front ++ leaves gap) =
      0 + Tree.widthOfAll (leaves lead) + (a.utf8ByteSize + 1) := by omega
  exact Node.joined_of_trees first second root rfl start

end

/-- Where a text is read without a diagnostic, and what follows in the next line can start an
element if there is anything, the elements of both are the children of one file, and the diagnostics
are those of what follows, further on by what is in front of it. -/
theorem parse_join (limits : Limits) {a : String} (accepted : (parse limits a).diagnostics = [])
    (b : String)
    (starts : ∀ t ∈ (significant (lex b)).head?, t.kind ∈ Kind.objectElementFirst) :
    (∃ first second root : Node, Node.ofTree? (parse limits a).tree = some first ∧
      Node.ofTree? (parse limits b).tree = some second ∧
      Node.ofTree? (parse limits (a ++ "\n" ++ b)).tree = some root ∧ root.kind = .file ∧
      Node.Joined (a.utf8ByteSize + 1) first second root) ∧
    (parse limits (a ++ "\n" ++ b)).diagnostics =
      (parse limits b).diagnostics.map (·.shift (a.utf8ByteSize + 1)) := by
  have ended : ∀ t ∈ lex a, t.kind = .blockComment → t.isUnterminated = false :=
    fun t member _ => (Token.fault?_eq_none.mp (sound_of_accepted accepted t member)).2
  obtain ⟨seam⟩ := lex_join b ended
  constructor
  · exact ⟨_, _, _, ofTree?_parse limits a, ofTree?_parse limits b, ofTree?_parse limits _, rfl,
      children_join accepted starts seam⟩
  · have faults := faults_join accepted starts seam
    exact Diagnostic.eq_map_shift (Fault.diagnostics_alike faults)

theorem joined_behind_comment :
    (parse {} "x = 1 // c").diagnostics = [] ∧ (parse {} " y = f(2").diagnostics ≠ [] ∧
      (∃ first second root : Node, Node.ofTree? (parse {} "x = 1 // c").tree = some first ∧
        Node.ofTree? (parse {} " y = f(2").tree = some second ∧
        Node.ofTree? (parse {} ("x = 1 // c" ++ "\n" ++ " y = f(2")).tree = some root ∧
        root.kind = .file ∧ Node.Joined 11 first second root) ∧
      (parse {} ("x = 1 // c" ++ "\n" ++ " y = f(2")).diagnostics =
        (parse {} " y = f(2").diagnostics.map (·.shift 11) := by
  have accepted : (parse {} "x = 1 // c").diagnostics = [] := by decide +kernel
  exact ⟨accepted, by decide +kernel, parse_join {} accepted " y = f(2" (by decide +kernel)⟩

end ConfigSyntax
