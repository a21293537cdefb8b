import ConfigSyntax.Proofs.Builds

/-! What constructs are made of: at most three nodes above the constructs inside, which are read
from fewer kinds. Main statements: `height_file`, `shallow_file`. -/

namespace ConfigSyntax

namespace Outline

mutual

def height : Outline → Nat
  | .token _ => 0
  | .gap _ => 0
  | .skipped _ _ => 1
  | .node _ parts => heightOfAll parts + 1

def heightOfAll : List Outline → Nat
  | [] => 0
  | p :: ps => max (height p) (heightOfAll ps)

end

theorem heightOfAll_append (front back : List Outline) :
    heightOfAll (front ++ back) = max (heightOfAll front) (heightOfAll back) := by
  induction front with
  | nil => simp [heightOfAll]
  | cons head tail ih => simp [heightOfAll, ih, Nat.max_assoc]

@[simp] theorem heightOfAll_singleton (o : Outline) : heightOfAll [o] = o.height := by
  simp [heightOfAll]

inductive Shallow : Outline → Prop
  | token (k : Kind) : Shallow (.token k)
  | gap (g : Gap) : Shallow (.gap g)
  | skipped {why : Skip} (other : why ≠ .tooDeep) (ks : List Kind) : Shallow (.skipped why ks)
  | node (k : Kind) {parts : List Outline} (within : ∀ p ∈ parts, Shallow p) :
    Shallow (.node k parts)

theorem shallow_node {k : Kind} {parts : List Outline} :
    Shallow (.node k parts) ↔ ∀ p ∈ parts, Shallow p :=
  ⟨fun shallow => by cases shallow; assumption, .node k⟩

theorem not_shallow_tooDeep (ks : List Kind) : ¬ Shallow (.skipped .tooDeep ks) := by
  intro shallow
  cases shallow with
  | skipped other => exact other rfl

theorem cases_of_flat {parts : List Outline} (flat : heightOfAll parts = 0) :
    ∀ p ∈ parts, (∃ k, p = .token k) ∨ ∃ g, p = .gap g := by
  induction parts with
  | nil => nofun
  | cons head tail ih =>
      rw [heightOfAll, Nat.max_eq_zero_iff] at flat
      intro p member
      rcases List.mem_cons.mp member with rfl | member
      · cases p with
        | token k => exact Or.inl ⟨k, rfl⟩
        | gap g => exact Or.inr ⟨g, rfl⟩
        | skipped => cases flat.1
        | node => cases flat.1
      · exact ih flat.2 p member

end Outline

namespace Grammar

open Outline (heightOfAll heightOfAll_append Shallow kindsOfAll)

/-- Parts with at most `levels` nodes above what the rules answer to fewer than `n` kinds. A node
over nothing but tokens is no level, and a node that is an element is read as one. -/
inductive Nests (rules : Construct → Rule) (n : Nat) : Nat → List Outline → Prop
  | nil {levels} : Nests rules n levels []
  | token {levels k} : Nests rules n levels [.token k]
  | gap {levels g} : Nests rules n levels [.gap g]
  | skipped {levels why ks} (other : why ≠ .tooDeep) : Nests rules n levels [.skipped why ks]
  | construct {levels c ks read} (fewer : ks.length < n) (answer : rules c ks = some read) :
    Nests rules n levels [read.1]
  | append {levels front back} (first : Nests rules n levels front)
    (second : Nests rules n levels back) : Nests rules n levels (front ++ back)
  | leaf {levels k parts} (other : k ∉ Kind.objectElements) (flat : heightOfAll parts = 0) :
    Nests rules n levels [.node k parts]
  | node {levels k parts}
    (own : k ∈ Kind.objectElements → ∃ ks rest, element rules ks = some (.node k parts, rest))
    (inside : Nests rules n levels parts) : Nests rules n (levels + 1) [.node k parts]

namespace Nests

variable {rules : Construct → Rule} {n levels : Nat} {parts : List Outline}

theorem mono {more : Nat} (nests : Nests rules n levels parts) (le : levels ≤ more) :
    Nests rules n more parts := by
  induction nests generalizing more with
  | nil => exact .nil
  | token => exact .token
  | gap => exact .gap
  | skipped other => exact .skipped other
  | construct fewer answer => exact .construct fewer answer
  | append _ _ first second => exact .append (first le) (second le)
  | leaf other flat => exact .leaf other flat
  | node own _ inside =>
      obtain ⟨more, rfl⟩ := Nat.exists_eq_add_of_le' (Nat.le_trans (Nat.le_add_left 1 _) le)
      exact .node own (inside (Nat.le_of_succ_le_succ le))

theorem wrap {k : Kind} (other : k ∉ Kind.objectElements) (nests : Nests rules n levels parts) :
    Nests rules n (levels + 1) [.node k parts] := .node (fun own => absurd own other) nests

theorem cons (k : Kind) (nests : Nests rules n levels parts) :
    Nests rules n levels (.token k :: parts) := Nests.token.append nests

/-- The own nodes add to the height of the constructs inside. -/
theorem height_le {h : Nat} (nests : Nests rules n levels parts) (positive : 1 ≤ h)
    (each : ∀ c ks read, ks.length < n → rules c ks = some read → read.1.height ≤ h) :
    heightOfAll parts ≤ levels + h := by
  induction nests with
  | nil => simp [heightOfAll]
  | token => simp [Outline.height]
  | gap => simp [Outline.height]
  | skipped =>
      simp only [Outline.heightOfAll_singleton, Outline.height]
      omega
  | construct fewer answer =>
      have inside := each _ _ _ fewer answer
      rw [Outline.heightOfAll_singleton]
      omega
  | append _ _ first second =>
      rw [heightOfAll_append]
      exact Nat.max_le.mpr ⟨first, second⟩
  | leaf _ flat =>
      simp only [Outline.heightOfAll_singleton, Outline.height, flat]
      omega
  | node _ _ inside =>
      simp only [Outline.heightOfAll_singleton, Outline.height]
      omega

theorem shallow (nests : Nests rules n levels parts)
    (each : ∀ c ks read, ks.length < n → rules c ks = some read → read.1.Shallow) :
    ∀ p ∈ parts, p.Shallow := by
  induction nests with
  | nil => nofun
  | token => simpa using Shallow.token _
  | gap => simpa using Shallow.gap _
  | skipped other => simpa using Shallow.skipped other _
  | construct fewer answer => simpa using each _ _ _ fewer answer
  | append _ _ first second =>
      intro p member
      rcases List.mem_append.mp member with member | member
      · exact first p member
      · exact second p member
  | @leaf _ _ parts _ flat =>
      have inside : ∀ p ∈ parts, p.Shallow := by
        intro p member
        rcases Outline.cases_of_flat flat p member with ⟨k, rfl⟩ | ⟨g, rfl⟩
        · exact .token k
        · exact .gap g
      simpa using Shallow.node _ inside
  | node _ _ inside => simpa using Shallow.node _ inside

end Nests

theorem Builds.length_le {c : Context} {ks rest : List Kind} {parts : List Outline}
    (builds : Builds c ks parts rest) : rest.length ≤ ks.length := by
  have split := congrArg List.length builds.split
  rw [List.length_append] at split
  omega

section

variable {rules : Construct → Rule} {n : Nat}

theorem segments_flat (ks : List Kind) : heightOfAll (segments ks).1 = 0 := by
  fun_induction segments ks with
  | case1 ks more ih => simpa [heightOfAll, Outline.height] using ih
  | case2 ks => rfl

theorem reference_nests (ks : List Kind) : Nests rules n 0 [(reference ks).1] := by
  refine .leaf (by decide) ?_
  simp [heightOfAll, Outline.height, segments_flat]

theorem literal_nests {k kind : Kind} (known : literalKind? k = some kind) :
    Nests rules n 0 [.node kind [.token k]] := by
  refine .leaf ?_ (by simp [Outline.height])
  cases k <;> cases known <;> decide

theorem comma?_nests {levels : Nat} (ks : List Kind) : Nests rules n levels (comma? ks).1 := by
  unfold comma?
  split
  · exact .token
  · exact .nil

theorem recover_nests {levels : Nat} (c : Context) (ks : List Kind) :
    Nests rules n levels [(recover c ks).1] := by
  cases ks <;> exact .skipped nofun

theorem closing_nests {levels : Nat} (g : Group) (ks : List Kind) :
    Nests rules n levels (closing g ks).1 := by
  cases ks with
  | nil => exact .gap
  | cons k ks =>
      rw [closing]
      split
      · exact .token
      · exact .gap

theorem steps_nests {step : List Kind → Option (List Outline × List Kind)} {levels : Nat}
    {bound : Nat} (each : ∀ ks out, ks.length < bound → step ks = some out →
      Nests rules n levels out.1)
    (advances : ∀ ks out, step ks = some out → out.2.length < ks.length) (count : Nat)
    {ks : List Kind} (fewer : ks.length < bound) :
    Nests rules n levels (steps step count ks).1 := by
  induction count generalizing ks with
  | zero => exact .nil
  | succ count ih =>
      rw [steps]
      cases answer : step ks with
      | none => exact .nil
      | some out =>
          have shorter := advances ks out answer
          exact (each ks out fewer answer).append (ih (by omega))

theorem contextName_nests {levels : Nat} (ks : List Kind) (out : List Outline × List Kind)
    (applies : contextName ks = some out) : Nests rules n levels out.1 := by
  revert applies
  fun_cases contextName ks with
  | case1 => rintro ⟨⟩
  | case2 k marker ks comma =>
      intro applies
      rw [← Option.some.inj applies]
      exact (Nests.leaf (by decide) (by simp [heightOfAll, Outline.height])).append
        (comma?_nests ks)
  | case3 k marker ks none comma =>
      intro applies
      rw [← Option.some.inj applies]
      exact (Nests.leaf (by decide) (by simp [heightOfAll, Outline.height])).append
        (comma?_nests ks)
  | case4 => rintro ⟨⟩

variable (advances : ∀ c, (rules c).Advances)

theorem getD_recover_nests (construct : Construct) (c : Context) {ks : List Kind}
    (fewer : ks.length < n) :
    Nests rules n 0 [((rules construct ks).getD (recover c ks)).1] := by
  cases answer : rules construct ks with
  | none => exact recover_nests c ks
  | some read => exact .construct fewer answer

theorem groupItem_nests (g : Group) (ks : List Kind) (out : List Outline × List Kind)
    (fewer : ks.length < n) (applies : groupItem g (rules g.holds) ks = some out) :
    Nests rules n 0 out.1 := by
  obtain ⟨k, ks, rfl, -, rfl⟩ := groupItem_some applies
  exact (getD_recover_nests g.holds g.context fewer).append (comma?_nests _)

include advances

theorem group_nests (g : Group) {ks : List Kind} (fewer : ks.length < n) :
    Nests rules n 0 (group g rules ks).1 := by
  have items := steps_nests (groupItem_nests g) (groupItem_advances g (advances g.holds))
    ks.length fewer
  exact (items.cons g.opener).append (closing_nests g _)

theorem invocation_nests {callee : Outline} {ks : List Kind} (named : Nests rules n 0 [callee])
    (fewer : ks.length < n) : Nests rules n 1 [(invocation rules callee ks).1] :=
  (named.append (group_nests advances .arguments fewer)).wrap (by decide)

theorem constructed_nests {name : Outline} {levels : Nat} {ks : List Kind}
    (named : Nests rules n levels [name]) (enough : ks.length ≤ n) :
    Nests rules n (levels + 2) [(constructed rules name ks).1] := by
  unfold constructed
  split
  case h_1 ks =>
    have body := (group_nests advances .object (Nat.lt_of_succ_le enough)).mono
      (Nat.zero_le (levels + 1))
    exact ((named.wrap (by decide)).append body).wrap (by decide)
  case h_2 => exact named.mono (by omega)

theorem value_nests (built : ∀ c, (rules c).Built) {ks : List Kind} {read : Read}
    (enough : ks.length ≤ n) (answer : value rules ks = some read) : Nests rules n 3 [read.1] := by
  revert answer
  fun_cases value rules ks with
  | case1 ks body =>
      rintro ⟨⟩
      have body := group_nests advances .object (Nat.lt_of_succ_le enough)
      exact (body.wrap (by decide)).mono (by decide)
  | case2 ks name =>
      rintro ⟨⟩
      exact (((reference_nests ks).cons .dot).wrap (by decide)).mono (by decide)
  | case3 ks name rest opens call =>
      rintro ⟨⟩
      have callee := reference_builds (c := .topLevel) ks
      rw [show (reference ks).2 = .openParen :: rest from opens] at callee
      have shorter := callee.length_le
      have behind := (invocation_builds built advances callee).length_le
      simp only [List.length_cons] at enough shorter behind
      have called : Nests rules n 1 [(invocation rules (reference ks).1 rest).1] :=
        invocation_nests advances (reference_nests ks) (by omega)
      exact constructed_nests advances called (Nat.le_trans behind enough)
  | case4 ks name closed =>
      rintro ⟨⟩
      have behind := (reference_builds (c := .topLevel) ks).length_le
      exact (constructed_nests advances (reference_nests ks) (Nat.le_trans behind enough)).mono
        (by decide)
  | case5 k ks notBrace notDot notName =>
      intro answer
      obtain ⟨name, found, rfl⟩ := Option.map_eq_some_iff.mp answer
      obtain ⟨kind, known, rfl⟩ := literal?_eq_some found
      have name : Nests rules n 0 [.node kind [.token k]] := literal_nests known
      split
      · exact (constructed_nests advances name (Nat.le_of_succ_le enough)).mono (by decide)
      · exact name.mono (by decide)
  | case6 => rintro ⟨⟩

omit advances in
theorem assigned_nests (c : Context) {ks : List Kind} (fewer : ks.length < n) :
    Nests rules n 0 [(assigned rules c ks).1] := by
  unfold assigned
  cases answer : rules .value ks with
  | none => exact .skipped nofun
  | some read => exact .construct fewer answer

omit advances in
theorem cases_of_marker {k : Kind} (marker : Kind.contextMarkers.contains k = true) :
    k = .atSign ∨ k = .bangAt := by simpa [Kind.contextMarkers] using marker

omit advances in
theorem element_of_statement {ks : List Kind} {read : Read}
    (answer : statement rules ks = some read) : element rules ks = some read := by
  cases ks with
  | nil => cases answer
  | cons k ks =>
      rw [element, if_neg]
      · exact answer
      · intro marker
        rcases cases_of_marker marker with rfl | rfl
        · cases answer
        · cases answer

theorem property_nests {name : Outline} {ks ks' : List Kind} (named : Nests rules n 0 [name])
    (enough : ks.length ≤ n) (own : element rules ks' = some (property rules name ks)) :
    Nests rules n 2 [(property rules name ks).1] := by
  revert own
  fun_cases property rules name ks with
  | case1 ks value =>
      intro own
      have value : Nests rules n 0 [(assigned rules .propertyValue ks).1] :=
        assigned_nests .propertyValue (Nat.lt_of_succ_le enough)
      exact ((named.append (value.cons .equals)).node fun _ => ⟨_, _, own⟩).mono (by decide)
  | case2 ks body =>
      intro own
      have object := (group_nests advances .object (Nat.lt_of_succ_le enough)).wrap (k := .object)
        (by decide)
      exact ((named.mono (by decide)).append object).node fun _ => ⟨_, _, own⟩
  | case3 => exact fun own => (named.node fun _ => ⟨_, _, own⟩).mono (by decide)

omit advances in
theorem declaration_nests {ks ks' : List Kind} (fewer : ks.length < n)
    (own : element rules ks' = some (declaration rules ks)) :
    Nests rules n 1 [(declaration rules ks).1] := by
  revert own
  fun_cases declaration rules ks with
  | case1 ks value =>
      intro own
      rw [List.length_cons, List.length_cons] at fewer
      have value : Nests rules n 0 [(assigned rules .variableDeclaration ks).1] :=
        assigned_nests .variableDeclaration (by omega)
      exact (((value.cons .equals).cons .identifier).cons .valWord).node fun _ => ⟨_, _, own⟩
  | case2 ks notAssigned =>
      exact fun own => ((Nests.gap.cons .identifier).cons .valWord).node fun _ => ⟨_, _, own⟩
  | case3 ks notAssigned notNamed =>
      exact fun own => (Nests.gap.cons .valWord).node fun _ => ⟨_, _, own⟩

theorem statement_nests {ks : List Kind} {read : Read} (enough : ks.length ≤ n)
    (answer : statement rules ks = some read) : Nests rules n 2 [read.1] := by
  have own := element_of_statement answer
  revert answer own
  fun_cases statement rules ks with
  | case1 ks =>
      rintro ⟨⟩ own
      exact (declaration_nests (Nat.lt_of_succ_le enough) own).mono (by decide)
  | case2 ks name rest opens call =>
      rintro ⟨⟩ own
      have shorter := (reference_builds (c := .topLevel) ks).length_le
      rw [show (reference ks).2 = .openParen :: rest from opens, List.length_cons] at shorter
      have called : Nests rules n 1 [(invocation rules (reference ks).1 rest).1] :=
        invocation_nests advances (reference_nests ks) (by omega)
      exact called.node fun _ => ⟨_, _, own⟩
  | case3 ks name closed =>
      rintro ⟨⟩ own
      have behind := (reference_builds (c := .topLevel) ks).length_le
      exact property_nests advances (reference_nests ks) (Nat.le_trans behind enough) own
  | case4 k ks notVal notName =>
      intro answer own
      obtain ⟨name, found, rfl⟩ := Option.map_eq_some_iff.mp answer
      obtain ⟨kind, known, rfl⟩ := literal?_eq_some found
      exact property_nests advances (literal_nests known) (Nat.le_of_succ_le enough) own
  | case5 => rintro ⟨⟩

theorem contextual_nests {ks ks' : List Kind} (enough : ks.length ≤ n)
    (own : element rules ks' = some (contextual rules ks)) :
    Nests rules n 3 [(contextual rules ks).1] := by
  have names {levels : Nat} : Nests rules n levels (repeated contextName ks).1 :=
    steps_nests (fun ks out _ => contextName_nests ks out) contextName_advances ks.length
      (Nat.lt_succ_self _)
  have behind := (steps_builds (contextName_builds (c := .topLevel)) ks.length ks).length_le
  revert own
  fun_cases contextual rules ks with
  | case1 found rest opens body =>
      intro own
      rw [show (steps contextName ks.length ks).2 = .openBrace :: rest from opens] at behind
      have block := group_nests advances .contextBlock (Nat.le_trans behind enough)
      exact ((names.append block).node fun _ => ⟨_, _, own⟩).mono (by decide)
  | case2 found body rest notBrace answer =>
      intro own
      have inside := statement_nests advances (Nat.le_trans behind enough) answer
      exact (names.append inside).node fun _ => ⟨_, _, own⟩
  | case3 found notBrace answer =>
      exact fun own => ((names.append .gap).node fun _ => ⟨_, _, own⟩).mono (Nat.le_refl 3)

theorem element_nests {ks : List Kind} {read : Read} (enough : ks.length ≤ n)
    (answer : element rules ks = some read) : Nests rules n 3 [read.1] := by
  have own := answer
  revert answer
  fun_cases element rules ks with
  | case1 => rintro ⟨⟩
  | case2 k ks marker =>
      rintro ⟨⟩
      exact contextual_nests advances enough own
  | case3 k ks notMarker =>
      intro answer
      exact (statement_nests advances enough answer).mono (by decide)

theorem construct_nests (built : ∀ c, (rules c).Built) (c : Construct) {ks : List Kind}
    {read : Read} (enough : ks.length ≤ n) (answer : construct rules c ks = some read) :
    Nests rules n 3 [read.1] := by
  cases c with
  | element => exact element_nests advances enough answer
  | value => exact value_nests advances built enough answer

end

/-- What is read with a level left nests what is read with one less. -/
theorem nested_nests (depth : Nat) (c : Construct) (ks : List Kind) (read : Read)
    (answer : nested (depth + 1) c ks = some read) :
    Nests (nested depth) ks.length 3 [read.1] := by
  obtain ⟨k, ks, rfl, -, answer⟩ := nested_succ answer
  exact construct_nests (nested_advances depth) (nested_built depth) c (Nat.le_refl _) answer

theorem nested_height (depth : Nat) (c : Construct) (ks : List Kind) (read : Read)
    (answer : nested depth c ks = some read) : read.1.height ≤ 3 * depth + 1 := by
  induction depth generalizing c ks read with
  | zero =>
      obtain ⟨k, ks, rfl, -, rfl⟩ := nested_zero answer
      exact Nat.le_refl 1
  | succ depth ih =>
      have nests := nested_nests depth c ks read answer
      have bound := nests.height_le (Nat.le_add_left 1 _) fun c ks read _ => ih c ks read
      rw [Outline.heightOfAll_singleton] at bound
      omega

/-- A level for each kind is enough. -/
theorem nested_shallow (depth : Nat) (c : Construct) (ks : List Kind) (read : Read)
    (enough : ks.length ≤ depth) (answer : nested depth c ks = some read) : read.1.Shallow := by
  induction depth generalizing c ks read with
  | zero =>
      rw [List.length_eq_zero_iff.mp (Nat.le_zero.mp enough)] at answer
      cases answer
  | succ depth ih =>
      have nests := nested_nests depth c ks read answer
      refine nests.shallow (fun c ks read fewer => ih c ks read ?_) read.1 List.mem_cons_self
      omega

theorem file_nests (depth : Nat) (ks : List Kind) :
    Nests (nested depth) (ks.length + 1) 0 (file depth ks) := by
  have each : ∀ ks' out, ks'.length < ks.length + 1 →
      fileItem (nested depth .element) ks' = some out →
      Nests (nested depth) (ks.length + 1) 0 out.1 := by
    intro ks' out fewer applies
    obtain ⟨k, ks', rfl, rfl⟩ := fileItem_some applies
    exact getD_recover_nests .element .topLevel fewer
  exact steps_nests each (fileItem_advances (nested_advances depth .element)) ks.length
    (Nat.lt_succ_self _)

theorem height_file (depth : Nat) (ks : List Kind) :
    heightOfAll (file depth ks) ≤ 3 * depth + 1 := by
  have bound := (file_nests depth ks).height_le (Nat.le_add_left 1 _)
    fun c ks read _ => nested_height depth c ks read
  rwa [Nat.zero_add] at bound

theorem shallow_file {depth : Nat} {ks : List Kind} (enough : ks.length ≤ depth) :
    ∀ p ∈ file depth ks, p.Shallow := by
  refine (file_nests depth ks).shallow fun c ks' read fewer => nested_shallow depth c ks' read ?_
  omega

end Grammar
end ConfigSyntax
