import ConfigSyntax.Proofs.Anomalies

/-! Laws for outlines: what a node may be made of, what may be missing, and what may be skipped
where. What an outline obeys its nodes and its faults obey. Main statements: `skips_faultsOfAll`,
`gap_of_fault`, `node_of_origin`. -/

namespace ConfigSyntax

def Fault.isSkip (f : Fault) : Bool :=
  match f.cause with
  | .skipped .. => true
  | _ => false

theorem Fault.diagnostic?_range {f : Fault} {d : Diagnostic} (told : f.diagnostic? = some d) :
    d.range = f.range := by
  rw [diagnostic?] at told
  rw [← Option.some.inj (Option.ite_none_left_eq_some.mp told).2]

theorem Token.not_skip_of_fault? {t : Token} {f : Fault} (fault : t.fault? = some f) :
    f.isSkip = false := by
  have own := Token.own_of_fault? fault
  revert own
  unfold Fault.isOwn Fault.isSkip
  split <;> split <;> simp_all

theorem filter_skips_tokens (ts : List Token) :
    (ts.filterMap Token.fault?).filter (·.isSkip) = [] := by
  rw [List.filter_eq_nil_iff]
  intro f member
  obtain ⟨t, -, fault⟩ := List.mem_filterMap.mp member
  rw [Token.not_skip_of_fault? fault]
  exact Bool.false_ne_true

theorem exists_of_mem_right {α β : Type} {r : α → β → Prop} {as : List α} {bs : List β}
    (pairs : List.Forall₂ r as bs) {b : β} (member : b ∈ bs) : ∃ a ∈ as, r a b := by
  induction pairs with
  | nil => cases member
  | cons pair _ ih =>
      rcases List.mem_cons.mp member with rfl | member
      · exact ⟨_, List.mem_cons_self, pair⟩
      · obtain ⟨a, present, pair⟩ := ih member
        exact ⟨a, List.mem_cons_of_mem _ present, pair⟩

theorem exists_of_mem_left {α β : Type} {r : α → β → Prop} {as : List α} {bs : List β}
    (pairs : List.Forall₂ r as bs) {a : α} (member : a ∈ as) : ∃ b ∈ bs, r a b :=
  exists_of_mem_right pairs.flip member

namespace Outline

open Token (significant)
open Event (triviaLength)

/-- Of a node the law sees its kind and its parts, of a skip the kinds it takes and all kinds from
there on. -/
structure Law where
  node : Kind → List Outline → Prop
  gap : Gap → Prop
  skip : Skip → List Kind → List Kind → Prop

mutual

/-- The outline keeps the law where it starts at the kinds `ks`. No node is an error but one around
what is skipped. -/
def Obeys (law : Law) : Outline → List Kind → Prop
  | .token _, _ => True
  | .gap g, _ => law.gap g
  | .skipped why run, ks => law.skip why run ks
  | .node k parts, ks => k ≠ .error ∧ law.node k parts ∧ ObeysAll law parts ks

def ObeysAll (law : Law) : List Outline → List Kind → Prop
  | [], _ => True
  | p :: ps, ks => Obeys law p ks ∧ ObeysAll law ps (ks.drop p.kinds.length)

end

section

variable {law : Law}

theorem obeysAll_append {front back : List Outline} {ks rest : List Kind}
    (split : kindsOfAll front ++ rest = ks) (first : ObeysAll law front ks)
    (second : ObeysAll law back rest) : ObeysAll law (front ++ back) ks := by
  induction front generalizing ks with
  | nil =>
      rw [← split]
      exact second
  | cons p ps ih =>
      refine ⟨first.1, ih ?_ first.2⟩
      rw [← split, kindsOfAll, List.append_assoc, List.drop_left]

theorem obeysAll_singleton {o : Outline} {ks : List Kind} :
    ObeysAll law [o] ks ↔ Obeys law o ks := by
  simp only [ObeysAll, and_true]

mutual

theorem Obeys.mono {law' : Law} (node : ∀ k ps, law.node k ps → law'.node k ps)
    (gap : ∀ g, law.gap g → law'.gap g)
    (skip : ∀ why run ks, law.skip why run ks → law'.skip why run ks) :
    ∀ (o : Outline) {ks : List Kind} (_ : Obeys law o ks), Obeys law' o ks
  | .token _, _, _ => trivial
  | .gap _, _, obeys => gap _ obeys
  | .skipped .., _, obeys => skip _ _ _ obeys
  | .node _ parts, _, obeys =>
      ⟨obeys.1, node _ _ obeys.2.1, ObeysAll.mono node gap skip parts obeys.2.2⟩

theorem ObeysAll.mono {law' : Law} (node : ∀ k ps, law.node k ps → law'.node k ps)
    (gap : ∀ g, law.gap g → law'.gap g)
    (skip : ∀ why run ks, law.skip why run ks → law'.skip why run ks) :
    ∀ (ps : List Outline) {ks : List Kind} (_ : ObeysAll law ps ks), ObeysAll law' ps ks
  | [], _, _ => trivial
  | p :: ps, _, obeys =>
      ⟨Obeys.mono node gap skip p obeys.1, ObeysAll.mono node gap skip ps obeys.2⟩

end

theorem kindsBefore_behind (ts : List Token) :
    kindsBefore (ts.drop (triviaLength ts)) = kindsBefore ts := by
  rw [kindsBefore, Token.significant_behind]
  rfl

theorem kindsBefore_grow (o : Outline) (ts : List Token) :
    kindsBefore (o.grow ts).2 = (kindsBefore ts).drop o.kinds.length := by
  rw [kindsBefore, significant_grow, List.map_drop]
  rfl

structure Skips (law : Law) (last : Token) (f : Fault) (o : Origin) : Prop where
  shown : f.token = (significant o.tokens).headD last
  lawful : ∃ why run, f.cause = .skipped why ∧ o.kind = .error ∧ o.parts = run.map .token ∧
    law.skip why run (kindsBefore o.tokens)

theorem Skips.token_mem {text : String} {f : Fault} {o : Origin}
    (skips : Skips law (.endAt text.utf8ByteSize) f o) (suffix : o.tokens <:+ lex text) :
    f.token ∈ tokenize text := by
  rw [skips.shown, tokenize]
  cases first : significant o.tokens with
  | nil => exact List.mem_append_right _ (List.mem_singleton_self _)
  | cons t ts =>
      have member : t ∈ significant o.tokens := by
        rw [first]
        exact List.mem_cons_self
      exact List.mem_append_left _ (suffix.subset (List.mem_of_mem_filter member))

mutual

theorem skips_faults (last : Token) (opener : Option Token) : ∀ (o : Outline) {ts : List Token}
    (_ : Obeys law o (kindsBefore ts)), List.Forall₂ (Skips law last)
      ((faults last opener o (significant ts)).1.filter (·.isSkip))
      ((o.origins ts).filter (·.kind = .error))
  | .token _, ts, _ => by
      rw [faults, Token.head?_faults, filter_skips_tokens]
      exact .nil
  | .gap _, _, _ => .nil
  | .skipped why run, ts, obeys => by
      rw [faults, List.filter_cons_of_pos rfl, filter_skips_tokens]
      refine .cons ⟨?_, why, run, rfl, rfl, rfl, ?_⟩ .nil
      · rw [Token.significant_behind]
      · rw [kindsBefore_behind]
        exact obeys
  | .node k parts, ts, obeys => by
      have inside : ObeysAll law parts (kindsBefore (ts.drop (triviaLength ts))) := by
        rw [kindsBefore_behind]
        exact obeys.2.2
      have pairs := skips_faultsOfAll last none parts inside
      rw [Token.significant_behind] at pairs
      rw [origins, List.filter_cons_of_neg (by simpa using obeys.1)]
      exact pairs

/-- What is skipped gives one fault and one error, in the same order. -/
theorem skips_faultsOfAll (last : Token) (opener : Option Token) :
    ∀ (ps : List Outline) {ts : List Token} (_ : ObeysAll law ps (kindsBefore ts)),
    List.Forall₂ (Skips law last)
      ((faultsOfAll last opener ps (significant ts)).1.filter (·.isSkip))
      ((originsOfAll ps ts).filter (·.kind = .error))
  | [], _, _ => .nil
  | p :: ps, ts, obeys => by
      have rest : ObeysAll law ps (kindsBefore (p.grow ts).2) := by
        rw [kindsBefore_grow]
        exact obeys.2
      have more := skips_faultsOfAll last (opener? opener p (significant ts)) ps rest
      rw [significant_grow] at more
      rw [faultsOfAll, List.filter_append, faults_rest, originsOfAll, List.filter_append]
      exact List.rel_append (skips_faults last opener p obeys.1) more

end

mutual

theorem gap_of_fault_one (last : Token) (opener : Option Token) {g : Gap} {found : Option Token}
    {t : Token} : ∀ (o : Outline) {ks : List Kind} {ts : List Token} (_ : Obeys law o ks)
      (_ : ⟨.gap g found, t⟩ ∈ (faults last opener o ts).1), law.gap g
  | .token _, _, ts, _, member => by
      obtain ⟨u, -, fault⟩ := Option.bind_eq_some_iff.mp (Option.mem_toList.mp member)
      cases Token.own_of_fault? fault
  | .gap _, _, _, obeys, member => by
      cases List.mem_singleton.mp member
      exact obeys
  | .skipped _ run, _, ts, _, member => by
      rcases List.mem_cons.mp member with same | member
      · cases same
      · obtain ⟨u, -, fault⟩ := List.mem_filterMap.mp member
        cases Token.own_of_fault? fault
  | .node _ parts, _, _, obeys, member => gap_of_fault last none parts obeys.2.2 member

theorem gap_of_fault (last : Token) (opener : Option Token) {g : Gap} {found : Option Token}
    {t : Token} : ∀ (ps : List Outline) {ks : List Kind} {ts : List Token} (_ : ObeysAll law ps ks)
      (_ : ⟨.gap g found, t⟩ ∈ (faultsOfAll last opener ps ts).1), law.gap g
  | [], _, _, _, member => by cases member
  | p :: ps, _, _, obeys, member => by
      rcases List.mem_append.mp member with member | member
      · exact gap_of_fault_one last opener p obeys.1 member
      · exact gap_of_fault last _ ps obeys.2 member

end

mutual

theorem node_of_origin_one {origin : Origin} (other : origin.kind ≠ .error) : ∀ (o : Outline)
    {ks : List Kind} {ts : List Token} (_ : Obeys law o ks) (_ : origin ∈ o.origins ts),
      law.node origin.kind origin.parts
  | .token _, _, _, _, member => by cases member
  | .gap _, _, _, _, member => by cases member
  | .skipped _ _, _, _, _, member => by
      rw [List.mem_singleton.mp member] at other
      exact absurd rfl other
  | .node _ parts, _, _, obeys, member => by
      rcases List.mem_cons.mp member with rfl | member
      · exact obeys.2.1
      · exact node_of_origin other parts obeys.2.2 member

theorem node_of_origin {origin : Origin} (other : origin.kind ≠ .error) :
    ∀ (ps : List Outline) {ks : List Kind} {ts : List Token} (_ : ObeysAll law ps ks)
      (_ : origin ∈ originsOfAll ps ts), law.node origin.kind origin.parts
  | [], _, _, _, member => by cases member
  | p :: ps, _, _, obeys, member => by
      rcases List.mem_append.mp member with member | member
      · exact node_of_origin_one other p obeys.1 member
      · exact node_of_origin other ps obeys.2 member

end

end

end Outline

open Outline (originsOfAll kindsBefore Law ObeysAll Skips)

theorem mem_faults_of_outline {limits : Limits} {text : String} {f : Fault}
    (member : f ∈ faults limits text) (other : f.isOwn = false) :
    f ∈ (Outline.faultsOfAll (.endAt text.utf8ByteSize) none (outline limits (lex text))
      (Token.significant (lex text))).1 := by
  rw [faults, (Fault.ofParts_perm _ _ _).mem_iff, List.mem_append] at member
  rcases member with member | member
  · obtain ⟨t, -, fault⟩ := List.mem_filterMap.mp member
    rw [Token.own_of_fault? fault] at other
    cases other
  · exact member

theorem skips_of_text {law : Law} (limits : Limits) (text : String)
    (obeys : ObeysAll law (outline limits (lex text)) (kindsBefore (lex text))) :
    ∃ fs, fs.Perm ((faults limits text).filter (·.isSkip)) ∧
      List.Forall₂ (Skips law (.endAt text.utf8ByteSize)) fs
        ((originsOfAll (outline limits (lex text)) (lex text)).filter (·.kind = .error)) := by
  refine ⟨_, ?_, Outline.skips_faultsOfAll _ none _ obeys⟩
  have all := (Fault.ofParts_perm (outline limits (lex text)) (lex text)
    (.endAt text.utf8ByteSize)).filter (·.isSkip)
  rw [List.filter_append, filter_skips_tokens, List.nil_append] at all
  exact all.symm

theorem origin_of_skip {law : Law} {limits : Limits} {text : String} {f : Fault}
    (obeys : ObeysAll law (outline limits (lex text)) (kindsBefore (lex text)))
    (fault : f ∈ faults limits text) (skip : f.isSkip = true) :
    ∃ o ∈ originsOfAll (outline limits (lex text)) (lex text),
      Skips law (.endAt text.utf8ByteSize) f o := by
  obtain ⟨fs, perm, skips⟩ := skips_of_text limits text obeys
  obtain ⟨o, error, pair⟩ := exists_of_mem_left skips
    (perm.mem_iff.mpr (List.mem_filter.mpr ⟨fault, skip⟩))
  exact ⟨o, List.mem_of_mem_filter error, pair⟩

end ConfigSyntax
