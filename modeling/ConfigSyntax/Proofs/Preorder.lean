import ConfigSyntax.Proofs.Visits

/-! The nodes below a node in pre-order: which they are, where they stand in the text, and which of
them are come to when not all are entered. Main statements: `exists_parent`,
`apart_preorderOfAll`, `below_eq_filter`. -/

namespace ConfigSyntax.Node

mutual

theorem descendants_preorderOf : ∀ (t : Tree) (above : List Frame) (start : Nat)
    (before : List Tree), ∀ n ∈ preorderOf (fun _ => true) above start before t,
      n.descendants ⊆ preorderOf (fun _ => true) above start before t
  | .token _ _, _, _, _ => nofun
  | .node k ts, above, start, before => by
      intro n member
      rw [preorderOf, if_pos rfl] at member
      rcases List.mem_cons.mp member with rfl | below
      · exact List.Subset.refl _
      · exact List.subset_cons_of_subset _ (descendants_preorderOfAll ts _ _ _ n below)

theorem descendants_preorderOfAll : ∀ (ts : List Tree) (above : List Frame) (start : Nat)
    (before : List Tree), ∀ n ∈ preorderOfAll (fun _ => true) above start before ts,
      n.descendants ⊆ preorderOfAll (fun _ => true) above start before ts
  | [], _, _, _ => nofun
  | t :: ts, above, start, before => by
      intro n member
      rw [preorderOfAll] at member ⊢
      rcases List.mem_append.mp member with first | later
      · exact List.subset_append_of_subset_left _ (descendants_preorderOf t _ _ _ n first)
      · exact List.subset_append_of_subset_right _ (descendants_preorderOfAll ts _ _ _ n later)

end

theorem descendants_subset {n m : Node} (member : m ∈ n.descendants) :
    m.descendants ⊆ n.descendants :=
  descendants_preorderOf (.node n.kind n.trees) n.above n.start n.before m member

mutual

theorem parent_preorderOf : ∀ (t : Tree) (above : List Frame) (start : Nat) (before : List Tree),
    ∀ n ∈ preorderOf (fun _ => true) above start before t,
      n ∈ (Part.ofTrees above start before [t]).filterMap (·.node?) ∨
        ∃ p ∈ preorderOf (fun _ => true) above start before t, n ∈ p.children
  | .token _ _, _, _, _ => nofun
  | .node k ts, above, start, before => by
      intro n member
      rw [preorderOf, if_pos rfl] at member ⊢
      rcases List.mem_cons.mp member with rfl | below
      · exact Or.inl (List.mem_singleton_self _)
      · rcases parent_preorderOfAll ts _ _ _ n below with child | ⟨p, inside, child⟩
        · exact Or.inr ⟨_, List.mem_cons_self, child⟩
        · exact Or.inr ⟨p, List.mem_cons_of_mem _ inside, child⟩

theorem parent_preorderOfAll : ∀ (ts : List Tree) (above : List Frame) (start : Nat)
    (before : List Tree), ∀ n ∈ preorderOfAll (fun _ => true) above start before ts,
      n ∈ (Part.ofTrees above start before ts).filterMap (·.node?) ∨
        ∃ p ∈ preorderOfAll (fun _ => true) above start before ts, n ∈ p.children
  | [], _, _, _ => nofun
  | t :: ts, above, start, before => by
      intro n member
      have split : Part.ofTrees above start before (t :: ts) =
          Part.ofTrees above start before [t] ++
            Part.ofTrees above (start + t.width) (t :: before) ts := rfl
      rw [preorderOfAll] at member ⊢
      rw [split, List.filterMap_append]
      rcases List.mem_append.mp member with first | later
      · rcases parent_preorderOf t _ _ _ n first with child | ⟨p, inside, child⟩
        · exact Or.inl (List.mem_append_left _ child)
        · exact Or.inr ⟨p, List.mem_append_left _ inside, child⟩
      · rcases parent_preorderOfAll ts _ _ _ n later with child | ⟨p, inside, child⟩
        · exact Or.inl (List.mem_append_right _ child)
        · exact Or.inr ⟨p, List.mem_append_right _ inside, child⟩

end

theorem exists_parent {n m : Node} (member : m ∈ n.descendants) :
    m = n ∨ ∃ p ∈ n.descendants, m ∈ p.children := by
  have parent := parent_preorderOf (.node n.kind n.trees) n.above n.start n.before m member
  exact parent.imp_left List.mem_singleton.mp

theorem mem_ancestorsOf {n : Node} {above : List Frame} :
    n ∈ ancestorsOf above ↔ n.path <:+ above := by
  induction above with
  | nil => simp [ancestorsOf, path]
  | cons f above ih =>
      have same : n = ⟨f, above⟩ ↔ n.path = f :: above := by
        obtain ⟨frame, more⟩ := n
        simp [path]
      rw [ancestorsOf, List.mem_cons, List.suffix_cons_iff, ih, same]

theorem path_irrefl {n m : Node} (below : n ∈ m.ancestors) : ¬ m.path <:+ n.path := by
  intro inside
  have longer := (mem_ancestorsOf.mp below).length_le.trans' inside.length_le
  simp only [path, List.length_cons] at longer
  omega

theorem mem_ancestors_of_below {enters : Node → Bool} {n m : Node} (member : m ∈ n.below enters) :
    n ∈ m.ancestors := by
  obtain ⟨f, -, through⟩ := path_preorderOfAll _ _ _ _ m member
  rw [ancestors, mem_ancestorsOf]
  rcases List.suffix_cons_iff.mp through with same | inside
  · rw [← (List.cons.inj same).2]
    exact List.suffix_rfl
  · exact (List.suffix_cons f _).trans inside

section

variable (enters : Node → Bool)

mutual

theorem inside_preorderOf : ∀ (t : Tree) (above : List Frame) (start : Nat) (before : List Tree),
    ∀ m ∈ preorderOf enters above start before t,
      start ≤ m.range.start ∧ m.range.stop ≤ start + t.width
  | .token _ _, _, _, _ => nofun
  | .node k ts, above, start, before => by
      intro m member
      rw [preorderOf] at member
      rcases List.mem_cons.mp member with rfl | below
      · exact ⟨Nat.le_refl _, Nat.le_refl _⟩
      · split at below
        · exact inside_preorderOfAll ts _ _ _ m below
        · cases below

theorem inside_preorderOfAll : ∀ (ts : List Tree) (above : List Frame) (start : Nat)
    (before : List Tree), ∀ m ∈ preorderOfAll enters above start before ts,
      start ≤ m.range.start ∧ m.range.stop ≤ start + Tree.widthOfAll ts
  | [], _, _, _ => nofun
  | t :: ts, above, start, before => by
      intro m member
      rw [preorderOfAll] at member
      rw [Tree.widthOfAll]
      rcases List.mem_append.mp member with member | member
      · have := inside_preorderOf t _ _ _ m member
        omega
      · have := inside_preorderOfAll ts _ _ _ m member
        omega

end

mutual

theorem apart_preorderOf : ∀ (t : Tree) (above : List Frame) (start : Nat) (before : List Tree),
    (preorderOf enters above start before t).Pairwise fun a b =>
      a ∈ b.ancestors ∨ a.range.stop ≤ b.range.start
  | .token _ _, _, _, _ => .nil
  | .node k ts, above, start, before => by
      rw [preorderOf]
      split
      · refine .cons (fun b below => Or.inl ?_) (apart_preorderOfAll ts _ _ _)
        exact mem_ancestors_of_below (n := ⟨⟨k, ts, start, before⟩, above⟩) below
      · exact List.pairwise_singleton _ _

/-- Of two nodes, the first is above the second, or ends before it starts. -/
theorem apart_preorderOfAll : ∀ (ts : List Tree) (above : List Frame) (start : Nat)
    (before : List Tree), (preorderOfAll enters above start before ts).Pairwise fun a b =>
      a ∈ b.ancestors ∨ a.range.stop ≤ b.range.start
  | [], _, _, _ => .nil
  | t :: ts, above, start, before => by
      rw [preorderOfAll, List.pairwise_append]
      refine ⟨apart_preorderOf t _ _ _, apart_preorderOfAll ts _ _ _, ?_⟩
      intro a first b later
      exact Or.inr ((inside_preorderOf enters t _ _ _ a first).2.trans
        (inside_preorderOfAll enters ts _ _ _ b later).1)

end

end

section

variable {enters enters' : Node → Bool}

mutual

theorem preorderOf_congr : ∀ (t : Tree) (above : List Frame) (start : Nat) (before : List Tree),
    (∀ m ∈ preorderOf enters above start before t, enters m = enters' m) →
      preorderOf enters above start before t = preorderOf enters' above start before t
  | .token _ _, _, _, _, _ => rfl
  | .node k ts, above, start, before, same => by
      have top := same ⟨⟨k, ts, start, before⟩, above⟩ List.mem_cons_self
      rw [preorderOf] at same ⊢
      rw [preorderOf, ← top]
      split
      · rename_i entered
        rw [if_pos entered] at same
        have below := preorderOfAll_congr ts _ _ _ fun m member =>
          same m (List.mem_cons_of_mem _ member)
        rw [below]
      · rfl

/-- What is come to depends on whether the nodes come to are entered, and on no others. -/
theorem preorderOfAll_congr : ∀ (ts : List Tree) (above : List Frame) (start : Nat)
    (before : List Tree),
    (∀ m ∈ preorderOfAll enters above start before ts, enters m = enters' m) →
      preorderOfAll enters above start before ts = preorderOfAll enters' above start before ts
  | [], _, _, _, _ => rfl
  | t :: ts, above, start, before, same => by
      rw [preorderOfAll] at same ⊢
      have first := preorderOf_congr t _ _ _ fun m member =>
        same m (List.mem_append_left _ member)
      have rest := preorderOfAll_congr ts _ _ _ fun m member =>
        same m (List.mem_append_right _ member)
      rw [first, rest, preorderOfAll]

end

end

theorem mem_ancestorsOf_path {n a : Node} (member : a ∈ ancestorsOf n.path) :
    n ∉ a.ancestors := by
  intro below
  exact path_irrefl below (mem_ancestorsOf.mp member)

open scoped Classical in
/-- Below `n` those nodes are come to that nothing between is in the way of. -/
theorem below_eq_filter (enters : Node → Bool) (n : Node) :
    n.below enters = (n.below fun _ => true).filter fun m =>
      ∀ a ∈ m.ancestors, n ∈ a.ancestors → enters a = true := by
  -- Nothing is asked of `n` and of what is above it, which are entered already.
  let free : Node → Bool := fun a => n ∈ a.ancestors → enters a = true
  have reached : (ancestorsOf n.path).all free = true := by
    rw [List.all_eq_true]
    exact fun a member => decide_eq_true fun below => absurd below (mem_ancestorsOf_path member)
  have same : n.below enters = n.below free :=
    preorderOfAll_congr _ _ _ _ fun m member => by
      simp [free, mem_ancestors_of_below member]
  have filtered := filter_preorderOfAll free n.trees n.path n.start []
  rw [if_pos reached] at filtered
  rw [same]
  refine filtered.symm.trans (List.filter_congr fun m _ => ?_)
  rw [Bool.eq_iff_iff, List.all_eq_true, decide_eq_true_iff]
  simp only [free, decide_eq_true_iff]

end ConfigSyntax.Node
