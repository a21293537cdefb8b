import ConfigSyntax.Proofs.Join.Trees
import ConfigSyntax.Proofs.Stable.Rules
import ConfigSyntax.Proofs.Truncated.Rules

/-! An element that is read cleanly is read alike from its own kinds alone, wherever it stands. Main
statements: `alone_of_nested`, `file_elements`. -/

namespace ConfigSyntax

namespace Outline

inductive Elements (p : Outline → Prop) : Outline → Prop
  | token (k : Kind) : Elements p (.token k)
  | gap (g : Gap) : Elements p (.gap g)
  | skipped (why : Skip) (ks : List Kind) : Elements p (.skipped why ks)
  | node {k : Kind} {parts : List Outline} (own : k ∈ Kind.objectElements → p (.node k parts))
    (within : ∀ q ∈ parts, Elements p q) : Elements p (.node k parts)

variable {p : Outline → Prop}

mutual

theorem elements_origins {origin : Origin} : ∀ (o : Outline) {ts : List Token} (_ : o.Elements p)
    (_ : o.Clean) (_ : origin ∈ o.origins ts), (∀ q ∈ origin.parts, q.Clean) ∧
      (origin.kind ∈ Kind.objectElements → p (.node origin.kind origin.parts))
  | .token _, _, _, _, member => nomatch member
  | .gap _, _, _, _, member => nomatch member
  | .skipped why ks, _, _, clean, _ => absurd clean (not_clean_skipped why ks)
  | .node k parts, ts, each, clean, member => by
      have whole := clean_node.mp clean
      cases each with
      | node own within =>
          rcases List.mem_cons.mp member with rfl | member
          · exact ⟨whole, own⟩
          · exact elements_originsOfAll parts within whole member

/-- The nodes that come of parts without gaps and skips are as clean, and elements among them
have `p`. -/
theorem elements_originsOfAll {origin : Origin} : ∀ (ps : List Outline) {ts : List Token}
    (_ : ∀ q ∈ ps, q.Elements p) (_ : ∀ q ∈ ps, q.Clean) (_ : origin ∈ originsOfAll ps ts),
    (∀ q ∈ origin.parts, q.Clean) ∧
      (origin.kind ∈ Kind.objectElements → p (.node origin.kind origin.parts))
  | [], _, _, _, member => nomatch member
  | q :: ps, ts, each, clean, member => by
      rcases List.mem_append.mp member with member | member
      · exact elements_origins q (each q List.mem_cons_self) (clean q List.mem_cons_self) member
      · exact elements_originsOfAll ps (fun r inside => each r (List.mem_cons_of_mem q inside))
          (fun r inside => clean r (List.mem_cons_of_mem q inside)) member

end

end Outline

namespace Grammar

open Outline (Elements)

theorem Nests.elements {p : Outline → Prop} {rules : Construct → Rule} {n levels : Nat}
    {parts : List Outline} (nests : Nests rules n levels parts)
    (own : 0 < levels → ∀ ks read, element rules ks = some read → p read.1)
    (each : ∀ c ks read, rules c ks = some read → read.1.Elements p) :
    ∀ q ∈ parts, q.Elements p := by
  induction nests with
  | nil => nofun
  | token => simpa using Elements.token _
  | gap => simpa using Elements.gap _
  | skipped => simpa using Elements.skipped _ _
  | construct _ answer => simpa using each _ _ _ answer
  | append _ _ first second =>
      intro q member
      rcases List.mem_append.mp member with member | member
      · exact first own q member
      · exact second own q member
  | @leaf _ _ parts other flat =>
      have inside : ∀ q ∈ parts, q.Elements p := by
        intro q member
        rcases Outline.cases_of_flat flat q member with ⟨k, rfl⟩ | ⟨g, rfl⟩
        · exact .token k
        · exact .gap g
      simpa using Elements.node (fun element => absurd element other) inside
  | @node levels k parts read _ inside =>
      have reads : k ∈ Kind.objectElements → p (.node k parts) := by
        intro element
        obtain ⟨ks, rest, answer⟩ := read element
        exact own (Nat.succ_pos levels) ks _ answer
      simpa using Elements.node reads (inside fun _ => own (Nat.succ_pos levels))

/-- The kinds of the element are read as the element, and nothing else. -/
def Alone (depth : Nat) (o : Outline) : Prop := nested depth .element o.kinds = some (o, [])

theorem Alone.file {depth : Nat} {o : Outline} (alone : Alone depth o) :
    Grammar.file depth o.kinds = [o] := by
  have step : fileItem (nested depth .element) o.kinds = some ([o], []) := by
    rw [fileItem, if_neg, show nested depth .element o.kinds = some (o, []) from alone]
    · rfl
    · intro none
      rw [Alone, List.isEmpty_iff.mp none] at alone
      cases depth <;> cases alone
  rw [Grammar.file, repeated_of_some (fileItem_advances (nested_advances depth .element)) step]
  rfl

theorem Alone.filled {depth : Nat} {k : Kind} {parts : List Outline}
    (alone : Alone depth (.node k parts)) (shaped : Outline.Shaped (.node k parts))
    (clean : Outline.Clean (.node k parts)) : ∀ p ∈ parts, p.Filled := by
  have builds := nested_built depth .element .topLevel _ _ alone
  have filled := builds.filled (List.forall_mem_singleton.mpr shaped)
    (List.forall_mem_singleton.mpr clean) _ (List.mem_singleton_self _)
  cases filled with
  | node _ _ within => exact within

/-- An element without gaps and skips takes nothing from what follows it, and reads the same where
more nesting is allowed. -/
theorem alone_of_nested {depth deeper : Nat} (le : depth ≤ deeper) {ks : List Kind} {read : Read}
    (answer : nested depth .element ks = some read) (clean : read.1.Clean) :
    Alone deeper read.1 := by
  obtain ⟨o, rest⟩ := read
  have split := (nested_built depth .element .topLevel ks (o, rest) answer).split
  rw [Outline.kindsOfAll_singleton] at split
  rw [← split] at answer
  have shorter : nested depth .element o.kinds = some (o, []) := by
    rcases ((nested_cuts rest depth).rule .element).some _ _ answer clean with
      ⟨read', alone, cut⟩ | ⟨-, -, beyond⟩
    · rcases cut.outcome with same | ⟨beyond, -⟩
      · have parts : o = read'.1 := by
          have parts := congrArg Prod.fst same
          exact (List.cons.inj parts).1
        have left : rest = read'.2 ++ rest := congrArg Prod.snd same
        have none : read'.2 = [] := List.append_left_eq_self.mp left.symm
        rw [alone, parts, ← none]
      · simp [single] at beyond
    · exact absurd beyond (Nat.lt_irrefl _)
  have deepened := (nested_extends (avoids_nil extenders) le .element).some _ _ shorter
    clean.stable (absurd rfl)
  rwa [List.append_nil, followed_nil] at deepened

theorem first_of_element {rules : Construct → Rule} {k : Kind} {ks : List Kind} {read : Read}
    (answer : element rules (k :: ks) = some read) : k ∈ Construct.element.first := by
  rw [element] at answer
  split at answer
  case isTrue marker => rcases cases_of_marker marker with rfl | rfl <;> decide
  case isFalse => cases k <;> first | decide | cases answer

/-- Every element in what is read with `depth` levels left is read alone with as many or more. -/
theorem nested_elements {total : Nat} (depth : Nat) (le : depth ≤ total) (c : Construct)
    (ks : List Kind) (read : Read) (answer : nested depth c ks = some read) :
    read.1.Elements fun o => o.Clean → Alone total o := by
  induction depth generalizing c ks read with
  | zero =>
      obtain ⟨k, ks, rfl, -, rfl⟩ := nested_zero answer
      exact .skipped _ _
  | succ depth ih =>
      have own (ks : List Kind) (read : Read) (answer : element (nested depth) ks = some read) :
          read.1.Clean → Alone total read.1 := by
        cases ks with
        | nil => cases answer
        | cons k ks =>
            have first := List.contains_iff_mem.mpr (first_of_element answer)
            have starts : nested (depth + 1) .element (k :: ks) = some read := by
              rw [nested, if_pos first]
              exact answer
            exact alone_of_nested le starts
      have nests := nested_nests depth c ks read answer
      exact nests.elements (fun _ => own) (ih (Nat.le_of_succ_le le)) read.1 List.mem_cons_self

theorem file_elements (depth : Nat) (ks : List Kind) :
    ∀ p ∈ file depth ks, p.Elements fun o => o.Clean → Alone depth o :=
  (file_nests depth ks).elements nofun (nested_elements depth (Nat.le_refl depth))

end Grammar
end ConfigSyntax
