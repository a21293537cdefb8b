import ConfigSyntax.Proofs.Skips

/-! How far a skip goes: up to the first place where its context can be resumed, with the groups on
its way as a whole. Main statements: `exists_opener`, `resumes_outline`. -/

namespace ConfigSyntax

open Outline (Law Obeys ObeysAll kindsBefore)

/-- How many groups are open behind the kind, where `n` are open in front of it. A closer is passed
over where nothing is open. -/
def Kind.opened (n : Nat) (k : Kind) : Nat :=
  if k.isOpener then n + 1 else if k.isCloser then n - 1 else n

def openGroups (n : Nat) (ks : List Kind) : Nat := ks.foldl Kind.opened n

/-- The first kind opens a group, and at no place behind it as many groups are closed as opened. -/
structure Unclosed (k : Kind) (ks : List Kind) : Prop where
  opens : k.isOpener = true
  holds : ∀ front, front <+: ks →
    (k :: front).countP (·.isCloser) < (k :: front).countP (·.isOpener)

section

variable {k : Kind} {ks : List Kind}

theorem openGroups_cons (n : Nat) (k : Kind) (ks : List Kind) :
    openGroups n (k :: ks) = openGroups (k.opened n) ks := rfl

theorem openGroups_append (n : Nat) (front back : List Kind) :
    openGroups n (front ++ back) = openGroups (openGroups n front) back := List.foldl_append

theorem opened_zero (k : Kind) : k.opened 0 = if k.isOpener then 1 else 0 := by
  cases k <;> rfl

/-- A kind opens a group, or closes one that is open, or neither. -/
theorem opened_count (k : Kind) {n : Nat} (inside : 0 < n) :
    k.opened n + [k].countP (·.isCloser) = n + [k].countP (·.isOpener) := by
  rw [Kind.opened, List.countP_singleton, List.countP_singleton]
  cases opens : k.isOpener with
  | true => simp [Kind.isCloser_of_opener opens]
  | false =>
      cases k.isCloser with
      | true => simp; omega
      | false => simp

theorem opened_ge (n : Nat) (k : Kind) :
    n + [k].countP (·.isOpener) ≤ k.opened n + [k].countP (·.isCloser) := by
  rcases Nat.eq_zero_or_pos n with rfl | inside
  · rw [opened_zero, List.countP_singleton]
    omega
  · exact Nat.le_of_eq (opened_count k inside).symm

theorem openGroups_ge (n : Nat) (ks : List Kind) :
    n + ks.countP (·.isOpener) ≤ openGroups n ks + ks.countP (·.isCloser) := by
  induction ks generalizing n with
  | nil => exact Nat.le_refl n
  | cons k ks ih =>
      have first := opened_ge n k
      have rest := ih (k.opened n)
      rw [openGroups_cons, ← List.singleton_append, List.countP_append, List.countP_append]
      omega

/-- A group that nothing closes is open at the end. -/
theorem Unclosed.openGroups_pos (unclosed : Unclosed k ks) (before : List Kind) :
    0 < openGroups 0 (before ++ k :: ks) := by
  have more := openGroups_ge (openGroups 0 before) (k :: ks)
  have fewer := unclosed.holds ks (List.prefix_refl ks)
  rw [openGroups_append]
  omega

/-- Where a group is open, it was opened where none was, and has not been closed. -/
theorem exists_opener (inside : 0 < openGroups 0 ks) :
    ∃ before k middle, ks = before ++ k :: middle ∧ openGroups 0 before = 0 ∧
      Unclosed k middle ∧ openGroups 0 ks + (k :: middle).countP (·.isCloser) =
        (k :: middle).countP (·.isOpener) := by
  -- The last kind opens the group, or it was open before; then the count says that it stays open.
  induction ks using List.reverseRecOn with
  | nil => cases inside
  | append_singleton ks last ih =>
      have step : openGroups 0 (ks ++ [last]) = last.opened (openGroups 0 ks) :=
        openGroups_append 0 ks [last]
      rw [step] at inside ⊢
      rcases Nat.eq_zero_or_pos (openGroups 0 ks) with none | some
      · have opens : last.isOpener = true := by
          rw [none, opened_zero] at inside
          by_contra other
          rw [if_neg other] at inside
          cases inside
        have closes := Kind.isCloser_of_opener opens
        refine ⟨ks, last, [], rfl, none, ⟨opens, fun front ahead => ?_⟩, ?_⟩
        · rw [List.prefix_nil.mp ahead]
          simp [opens, closes]
        · simp [none, opened_zero, opens, closes]
      · obtain ⟨before, k, middle, rfl, start, unclosed, count⟩ := ih some
        have next := opened_count last some
        have total : last.opened (openGroups 0 (before ++ k :: middle)) +
            (k :: (middle ++ [last])).countP (·.isCloser) =
              (k :: (middle ++ [last])).countP (·.isOpener) := by
          rw [← List.cons_append, List.countP_append, List.countP_append]
          omega
        refine ⟨before, k, middle ++ [last], List.append_assoc .., start, ⟨unclosed.opens, ?_⟩,
          total⟩
        intro front ahead
        rcases List.prefix_concat_iff.mp ahead with rfl | ahead
        · omega
        · exact unclosed.holds front ahead

end

namespace Grammar

theorem skipLength_cons (stop : Kind → Bool) (n : Nat) (k : Kind) (ks : List Kind) :
    skipLength stop n (k :: ks) =
      if n = 0 ∧ stop k = true then 0 else skipLength stop (k.opened n) ks + 1 := by
  cases n with
  | zero =>
      rw [opened_zero]
      cases goes : stop k <;> simp [skipLength, goes]
  | succ n => simp [skipLength, Kind.opened]

/-- A skip stops in front of a kind that it has to stop at, and with no group open. -/
theorem skipLength_stops (stop : Kind → Bool) (n : Nat) (ks : List Kind) :
    ∀ k ∈ (ks.drop (skipLength stop n ks)).head?,
      stop k = true ∧ openGroups n (ks.take (skipLength stop n ks)) = 0 := by
  induction ks generalizing n with
  | nil => nofun
  | cons k ks ih =>
      rw [skipLength_cons]
      split
      case isTrue here =>
        intro first same
        rw [← Option.some.inj same]
        exact ⟨here.2, here.1⟩
      case isFalse => exact ih (k.opened n)

/-- What a skip has to stop at it takes in a group only. -/
theorem skipLength_inside {stop : Kind → Bool} {n : Nat} {k : Kind} {ks front back : List Kind}
    (taken : ks.take (skipLength stop n ks) = front ++ k :: back) (stops : stop k = true) :
    0 < openGroups n front := by
  induction ks generalizing n front with
  | nil => simp at taken
  | cons first ks ih =>
      rw [skipLength_cons] at taken
      split at taken
      case isTrue => simp at taken
      case isFalse goes =>
        rw [List.take_succ_cons] at taken
        cases front with
        | nil =>
            obtain ⟨rfl, -⟩ := List.cons.inj taken
            exact Nat.pos_of_ne_zero fun none => goes ⟨none, stops⟩
        | cons other front =>
            obtain ⟨rfl, rest⟩ := List.cons.inj taken
            rw [openGroups_cons]
            exact ih rest

/-- A skip in the context takes the kinds `run` in front of `rest`. If it is `forced`, it takes the
first kind whatever that is. -/
structure Halts (c : Context) (forced : Bool) (run rest : List Kind) : Prop where
  stops : ∀ k ∈ rest.head?, c.stopsAt k = true ∧ openGroups 0 run = 0
  inside : ∀ front k back, run = front ++ k :: back → c.stopsAt k = true →
    front = [] ∧ forced = true ∨ 0 < openGroups 0 front
  filled : forced = true → run ≠ []

theorem slot_halts (c : Context) (ks : List Kind) :
    Halts c false (ks.take (skipLength c.stopsAt 0 ks)) (ks.drop (skipLength c.stopsAt 0 ks)) where
  stops := skipLength_stops c.stopsAt 0 ks
  inside _ _ _ taken stops := Or.inr (skipLength_inside taken stops)
  filled := nofun

theorem recover_halts (c : Context) (k : Kind) (ks : List Kind) :
    Halts c true (k :: ks.take (skipLength c.stopsAt (k.opened 0) ks))
      (ks.drop (skipLength c.stopsAt (k.opened 0) ks)) where
  stops := skipLength_stops c.stopsAt (k.opened 0) ks
  inside front last back taken stops := by
    cases front with
    | nil => exact Or.inl ⟨rfl, rfl⟩
    | cons first front =>
        obtain ⟨rfl, rest⟩ := List.cons.inj taken
        rw [openGroups_cons]
        exact Or.inr (skipLength_inside rest stops)
  filled _ := List.cons_ne_nil _ _

/-- A skip takes the kinds in front, and stops where it may. One for the depth takes some. -/
def resumes : Law where
  node _ _ := True
  gap _ := True
  skip why run ks := run <+: ks ∧
    match why with
    | .unexpected c => Halts c true run (ks.drop run.length)
    | .noValue c => Halts c false run (ks.drop run.length)
    | .tooDeep => run ≠ []

theorem drop_length_take (n : Nat) (ks : List Kind) : ks.drop (ks.take n).length = ks.drop n := by
  have split := List.take_append_drop n ks
  calc
    ks.drop (ks.take n).length = (ks.take n ++ ks.drop n).drop (ks.take n).length := by rw [split]
    _ = ks.drop n := List.drop_left

theorem Builds.resumes {c : Context} {ks rest : List Kind} {parts : List Outline}
    (builds : Builds c ks parts rest) : ObeysAll resumes parts ks := by
  refine Builds.obeys (fun _ _ => trivial) (fun _ => trivial) ?_ ?_ ?_ builds
  · intro c k ks
    refine ⟨List.take_prefix _ _, ?_⟩
    rw [drop_length_take, ← opened_zero]
    exact recover_halts c k ks
  · intro c ks
    refine ⟨List.take_prefix _ _, ?_⟩
    rw [drop_length_take]
    exact slot_halts c ks
  · intro construct k ks first
    refine ⟨List.take_prefix _ _, ?_⟩
    have filled : (k :: ks).take (constructLength (k :: ks)) ≠ [] := by
      rw [ne_eq, List.take_eq_nil_iff, not_or]
      exact ⟨Nat.ne_of_gt (constructLength_pos first ks), List.cons_ne_nil k ks⟩
    exact filled

theorem resumes_outline (limits : Limits) (tokens : List Token) :
    ObeysAll resumes (outline limits tokens) (kindsBefore tokens) :=
  (file_builds limits.maxDepth (kindsBefore tokens)).resumes

end Grammar
end ConfigSyntax
