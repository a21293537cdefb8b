import ConfigSyntax.Grammar
import ConfigSyntax.Proofs.Schema

/-! What each rule of the grammar reads: an outline whose nodes are of the schema, over the kinds it
takes away, which are a sentence of the rule unless something is missing or skipped. -/

namespace ConfigSyntax

open scoped Computability

theorem mem_kstar_of_mem_mul {α : Type} {l : Language α} :
    ∀ w ∈ l * l∗, w ∈ l∗ := by
  intro w member
  rw [← Language.one_add_self_mul_kstar_eq_kstar]
  exact Or.inr member

theorem mem_kstar_of_mem_one {α : Type} {l : Language α} :
    ∀ w ∈ (1 : Language α), w ∈ l∗ := by
  intro w empty
  rw [(Language.mem_one w).mp empty]
  exact Language.nil_mem_kstar l

namespace Outline

mutual

def kinds : Outline → List Kind
  | .token k => [k]
  | .gap _ => []
  | .skipped _ ks => ks
  | .node _ parts => kindsOfAll parts

def kindsOfAll : List Outline → List Kind
  | [] => []
  | p :: ps => kinds p ++ kindsOfAll ps

end

theorem kindsOfAll_append (front back : List Outline) :
    kindsOfAll (front ++ back) = kindsOfAll front ++ kindsOfAll back := by
  induction front with
  | nil => rfl
  | cons head tail ih => simp [kindsOfAll, ih]

@[simp] theorem kindsOfAll_singleton (o : Outline) : kindsOfAll [o] = o.kinds := by
  simp [kindsOfAll]

/-- Each node has the parts its kind asks for. -/
inductive Shaped : Outline → Prop
  | token (k : Kind) : Shaped (.token k)
  | gap (g : Gap) : Shaped (.gap g)
  | skipped (why : Skip) (ks : List Kind) : Shaped (.skipped why ks)
  | node (k : Kind) (parts : List Outline)
      (symbols : parts.map symbol ∈ Schema.production Schema.gap k)
      (within : ∀ p ∈ parts, Shaped p) : Shaped (.node k parts)

/-- Nothing is missing, and nothing was skipped. -/
inductive Clean : Outline → Prop
  | token (k : Kind) : Clean (.token k)
  | node (k : Kind) (parts : List Outline) (within : ∀ p ∈ parts, Clean p) : Clean (.node k parts)

theorem clean_node {k : Kind} {parts : List Outline} :
    Clean (.node k parts) ↔ ∀ p ∈ parts, Clean p :=
  ⟨fun clean => by cases clean; assumption, .node k parts⟩

theorem not_clean_gap (g : Gap) : ¬ Clean (.gap g) := nofun

theorem not_clean_skipped (why : Skip) (ks : List Kind) : ¬ Clean (.skipped why ks) := nofun

end Outline

namespace Grammar

open Outline (kindsOfAll kindsOfAll_append)

/-- What is made of `ks`: parts that spell a word of `shape`, and the kinds left after them. When
nothing is wrong the kinds before those are a word of `words`. -/
structure Reading (ks : List Kind) (shape : Language Symbol) (words : Language Kind)
    (out : List Outline × List Kind) : Prop where
  split : kindsOfAll out.1 ++ out.2 = ks
  shaped : ∀ o ∈ out.1, o.Shaped
  symbols : out.1.map Outline.symbol ∈ shape
  sentence : (∀ o ∈ out.1, o.Clean) → kindsOfAll out.1 ∈ words

namespace Reading

variable {ks : List Kind} {shape shape' : Language Symbol} {words words' : Language Kind}
  {out out' : List Outline × List Kind}

theorem length_le (reading : Reading ks shape words out) : out.2.length ≤ ks.length := by
  have split := congrArg List.length reading.split
  rw [List.length_append] at split
  omega

theorem mono (reading : Reading ks shape words out)
    (shapes : ∀ w ∈ shape, w ∈ shape') (sentences : ∀ w ∈ words, w ∈ words') :
    Reading ks shape' words' out where
  split := reading.split
  shaped := reading.shaped
  symbols := shapes _ reading.symbols
  sentence := fun clean => sentences _ (reading.sentence clean)

theorem widen (reading : Reading ks shape words out) (sentences : ∀ w ∈ words, w ∈ words') :
    Reading ks shape words' out := reading.mono (fun _ part => part) sentences

theorem orRight (other : Language Symbol) (reading : Reading ks shape words out) :
    Reading ks (shape + other) words out :=
  reading.mono (fun _ => Or.inl) fun _ word => word

theorem orLeft (other : Language Symbol) (reading : Reading ks shape words out) :
    Reading ks (other + shape) words out :=
  reading.mono (fun _ => Or.inr) fun _ word => word

theorem nil (ks : List Kind) : Reading ks 1 1 ([], ks) where
  split := rfl
  shaped := by simp
  symbols := Language.nil_mem_one
  sentence := fun _ => Language.nil_mem_one

theorem append (first : Reading ks shape words out) (second : Reading out.2 shape' words' out') :
    Reading ks (shape * shape') (words * words') (out.1 ++ out'.1, out'.2) where
  split := by rw [kindsOfAll_append, List.append_assoc, second.split, first.split]
  shaped := by
    intro o member
    rcases List.mem_append.mp member with member | member
    · exact first.shaped o member
    · exact second.shaped o member
  symbols := by
    rw [List.map_append]
    exact Language.append_mem_mul first.symbols second.symbols
  sentence := by
    intro clean
    rw [kindsOfAll_append]
    exact Language.append_mem_mul
      (first.sentence fun o member => clean o (List.mem_append_left _ member))
      (second.sentence fun o member => clean o (List.mem_append_right _ member))

theorem token (k : Kind) (ks : List Kind) :
    Reading (k :: ks) (Schema.token k) (Sentence.word k) ([.token k], ks) where
  split := rfl
  shaped := by
    intro o member
    rw [List.mem_singleton.mp member]
    exact .token k
  symbols := rfl
  sentence := fun _ => rfl

theorem cons (k : Kind) (reading : Reading ks shape words out) :
    Reading (k :: ks) (Schema.token k * shape) (Sentence.word k * words)
      (.token k :: out.1, out.2) :=
  (token k ks).append reading

theorem gap (g : Gap) (ks : List Kind) (words : Language Kind) :
    Reading ks (Schema.gap g) words ([.gap g], ks) where
  split := rfl
  shaped := by
    intro o member
    rw [List.mem_singleton.mp member]
    exact .gap g
  symbols := rfl
  sentence := fun clean => absurd (clean _ (List.mem_singleton_self _)) (Outline.not_clean_gap g)

theorem skip (why : Skip) (n : Nat) (ks : List Kind) (words : Language Kind) :
    Reading ks Schema.skipped words ([(Grammar.skip why n ks).1], (Grammar.skip why n ks).2) where
  split := by simp [Grammar.skip, Outline.kindsOfAll, Outline.kinds]
  shaped := by
    intro o member
    rw [List.mem_singleton.mp member]
    exact .skipped why _
  symbols := ⟨.error, List.mem_singleton_self _, false, rfl⟩
  sentence := fun clean =>
    absurd (clean _ (List.mem_singleton_self _)) (Outline.not_clean_skipped why _)

/-- Parts that a node of kind `k` may have are put into one. -/
theorem wrap (k : Kind) (reading : Reading ks (Schema.production Schema.gap k) words out) :
    Reading ks {[.node k (out.1.any (·.isNode .constructorReference))]} words
      ([.node k out.1], out.2) where
  split := by simpa [Outline.kinds] using reading.split
  shaped := by
    intro o member
    rw [List.mem_singleton.mp member]
    exact .node k _ reading.symbols reading.shaped
  symbols := rfl
  sentence := by
    intro clean
    have within := Outline.clean_node.mp (clean _ (List.mem_singleton_self _))
    simpa [Outline.kinds] using reading.sentence within

theorem star (reading : Reading ks (shape * shape∗) (words * words∗) out) :
    Reading ks shape∗ words∗ out :=
  reading.mono mem_kstar_of_mem_mul mem_kstar_of_mem_mul

theorem nil_star (ks : List Kind) : Reading ks shape∗ words∗ ([], ks) :=
  (nil ks).mono mem_kstar_of_mem_one mem_kstar_of_mem_one

theorem node (k : Kind) (reading : Reading ks (Schema.production Schema.gap k) words out) :
    Reading ks (Schema.node k) words ([.node k out.1], out.2) :=
  (reading.wrap k).mono (fun _ same => ⟨k, List.mem_singleton_self _, _, same⟩) fun _ word => word

theorem nodeOf {k : Kind} (kinds : List Kind) (member : k ∈ kinds)
    (reading : Reading ks (Schema.node k) words out) :
    Reading ks (Schema.nodeOf kinds) words out := by
  refine reading.mono (fun w one => ?_) fun _ word => word
  obtain ⟨k', same, c, rfl⟩ := one
  rw [List.mem_singleton.mp same]
  exact ⟨k, member, c, rfl⟩

end Reading

def Rule.Reads (rule : Rule) (shape : Language Symbol) (words : Language Kind) : Prop :=
  ∀ ks read, rule ks = some read → Reading ks shape words ([read.1], read.2)

end Grammar
end ConfigSyntax
