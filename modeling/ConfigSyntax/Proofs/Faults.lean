import ConfigSyntax.Parse
import ConfigSyntax.Proofs.Reading

/-! Which outlines and tokens are without a fault. Main statements: `clean_of_silent`,
`faults_of_clean`. -/

namespace ConfigSyntax

namespace Token

theorem fault?_eq_none {t : Token} :
    t.fault? = none ↔ t.kind ≠ .error ∧ t.isUnterminated = false := by
  obtain ⟨kind, text, offset⟩ := t
  cases kind <;> simp [fault?, isUnterminated]

theorem cause_of_fault? {t : Token} {f : Fault} (fault : t.fault? = some f) :
    f.cause ∈ [.invalidCharacter, .unterminatedString, .unterminatedComment] := by
  revert fault
  unfold fault?
  split
  · intro fault
    rw [← Option.some.inj fault]
    exact List.mem_cons_self
  · intro fault
    rw [← Option.some.inj (Option.ite_none_right_eq_some.mp fault).2]
    simp
  · intro fault
    rw [← Option.some.inj (Option.ite_none_right_eq_some.mp fault).2]
    simp
  · intro fault
    rw [← Option.some.inj (Option.ite_none_right_eq_some.mp fault).2]
    simp
  · nofun

theorem not_silent_of_fault? {t : Token} {f : Fault} (fault : t.fault? = some f) :
    f.isSilent = false := by
  have cause := cause_of_fault? fault
  obtain ⟨cause, t⟩ := f
  unfold Fault.isSilent
  split
  · simp_all
  · rfl

theorem head?_faults (ts : List Token) :
    (ts.head?.bind fault?).toList = (ts.take 1).filterMap fault? := by
  cases ts with
  | nil => rfl
  | cons t ts => cases fault : t.fault? <;> simp [fault]

def blankFaults (ts : List Token) : List Fault := (ts.filter (·.isTrivia)).filterMap fault?

theorem blankFaults_append (front back : List Token) :
    blankFaults (front ++ back) = blankFaults front ++ blankFaults back := by
  simp [blankFaults]

theorem blankFaults_eq_nil {ts : List Token} :
    blankFaults ts = [] ↔ ∀ t ∈ ts, t.isTrivia = true → t.fault? = none := by
  rw [blankFaults, List.filterMap_eq_nil_iff]
  simp only [List.mem_filter, and_imp]

end Token

namespace Fault

theorem insert_perm (f : Fault) (fs : List Fault) : (f.insert fs).Perm (f :: fs) := by
  have split := List.takeWhile_append_dropWhile (p := (·.range.start < f.range.start)) (l := fs)
  have moved : (f.insert fs).Perm (f :: (fs.takeWhile _ ++ fs.dropWhile _)) := List.perm_middle
  rwa [split] at moved

theorem foldr_insert_perm (fs gs : List Fault) : (fs.foldr insert gs).Perm (fs ++ gs) := by
  induction fs with
  | nil => exact .refl gs
  | cons f fs ih => exact (insert_perm f _).trans (ih.cons f)

/-- The order of the faults apart, they are those of the blanks and those of the parts. -/
theorem ofParts_perm (parts : List Outline) (tokens : List Token) (last : Token) :
    (ofParts parts tokens last).Perm
      ((tokens.filter (·.isTrivia)).filterMap Token.fault? ++
        (Outline.faultsOfAll last none parts (tokens.filter (!·.isTrivia))).1) :=
  foldr_insert_perm _ _

theorem diagnostic?_eq_none {f : Fault} : f.diagnostic? = none ↔ f.isSilent = true := by
  unfold diagnostic?
  split
  case isTrue silent => exact ⟨fun _ => silent, fun _ => rfl⟩
  case isFalse loud => exact ⟨nofun, fun silent => absurd silent loud⟩

end Fault

namespace Outline

mutual

theorem faults_rest (last : Token) (opener : Option Token) : ∀ (o : Outline) (ts : List Token),
    (faults last opener o ts).2 = ts.drop o.kinds.length
  | .token _, _ => rfl
  | .gap _, _ => rfl
  | .skipped _ _, _ => rfl
  | .node _ parts, ts => faultsOfAll_rest last none parts ts

theorem faultsOfAll_rest (last : Token) (opener : Option Token) :
    ∀ (ps : List Outline) (ts : List Token),
    (faultsOfAll last opener ps ts).2 = ts.drop (kindsOfAll ps).length
  | [], _ => rfl
  | p :: ps, ts => by
      rw [faultsOfAll, faultsOfAll_rest last _ ps, faults_rest last opener p, List.drop_drop,
        kindsOfAll, List.length_append]

end

mutual

theorem fault_mem_faults (last : Token) (opener : Option Token) {f : Fault} :
    ∀ (o : Outline) {ts : List Token} {t : Token}, t ∈ ts.take o.kinds.length →
      t.fault? = some f → f ∈ (faults last opener o ts).1
  | .token _, ts, t, taken, fault => by
      cases ts with
      | nil => cases taken
      | cons head tail =>
          rw [List.mem_singleton.mp taken] at fault
          rw [faults, List.head?_cons, Option.bind_some, fault]
          exact List.mem_singleton_self f
  | .gap _, _, _, taken, _ => by cases taken
  | .skipped _ _, _, t, taken, fault =>
      List.mem_cons_of_mem _ (List.mem_filterMap.mpr ⟨t, taken, fault⟩)
  | .node _ parts, _, _, taken, fault => fault_mem_faultsOfAll last none parts taken fault

theorem fault_mem_faultsOfAll (last : Token) (opener : Option Token) {f : Fault} :
    ∀ (ps : List Outline) {ts : List Token} {t : Token}, t ∈ ts.take (kindsOfAll ps).length →
      t.fault? = some f → f ∈ (faultsOfAll last opener ps ts).1
  | [], _, _, taken, _ => by cases taken
  | p :: ps, ts, t, taken, fault => by
      rw [kindsOfAll, List.length_append, List.take_add] at taken
      rcases List.mem_append.mp taken with taken | taken
      · exact List.mem_append_left _ (fault_mem_faults last opener p taken fault)
      · rw [← faults_rest last opener p] at taken
        exact List.mem_append_right _ (fault_mem_faultsOfAll last _ ps taken fault)

end

/-- A skip speaks up unless it starts at a character that is invalid. -/
theorem skipped_loud {last : Token} {ts : List Token} (known : ∀ t ∈ last :: ts, t.kind ≠ .error)
    (why : Skip) : (⟨.skipped why, ts.headD last⟩ : Fault).isSilent = false := by
  have valid : (ts.headD last).kind ≠ .error := by
    cases ts with
    | nil => exact known last List.mem_cons_self
    | cons t ts => exact known t (List.mem_cons_of_mem _ List.mem_cons_self)
  cases why with
  | unexpected c => exact decide_eq_false valid
  | noValue c => rfl
  | tooDeep => rfl

mutual

theorem clean_of_silent {last : Token} (opener : Option Token) :
    ∀ (o : Outline) {ts : List Token}, (∀ t ∈ last :: ts, t.kind ≠ .error) →
      (∀ f ∈ (faults last opener o ts).1, f.isSilent = true) → o.Clean
  | .token k, _, _, _ => .token k
  | .gap _, _, _, silent => by
      have := silent _ (List.mem_singleton_self _)
      cases this
  | .skipped why _, _, known, silent => by
      have := silent _ List.mem_cons_self
      rw [skipped_loud known why] at this
      cases this
  | .node k parts, _, known, silent => .node k parts (clean_of_all_silent none parts known silent)

theorem clean_of_all_silent {last : Token} (opener : Option Token) :
    ∀ (ps : List Outline) {ts : List Token}, (∀ t ∈ last :: ts, t.kind ≠ .error) →
      (∀ f ∈ (faultsOfAll last opener ps ts).1, f.isSilent = true) → ∀ p ∈ ps, p.Clean
  | [], _, _, _, _, member => by cases member
  | p :: ps, ts, known, silent, o, member => by
      rcases List.mem_cons.mp member with same | member
      · rw [same]
        exact clean_of_silent opener p known fun f present =>
          silent f (List.mem_append_left _ present)
      · have behind : ∀ t ∈ last :: (faults last opener p ts).2, t.kind ≠ .error := by
          intro t inside
          rw [faults_rest] at inside
          exact known t (List.cons_subset_cons last (List.drop_subset _ ts) inside)
        exact clean_of_all_silent _ ps behind
          (fun f present => silent f (List.mem_append_right _ present)) o member

end

mutual

theorem faults_of_clean (last : Token) (opener : Option Token) : ∀ (o : Outline) {ts : List Token},
    o.Clean → (faults last opener o ts).1 = (ts.take o.kinds.length).filterMap Token.fault?
  | .token _, ts, _ => Token.head?_faults ts
  | .gap g, _, clean => absurd clean (not_clean_gap g)
  | .skipped why ks, _, clean => absurd clean (not_clean_skipped why ks)
  | .node _ parts, _, clean => own_of_clean last none parts (clean_node.mp clean)

theorem own_of_clean (last : Token) (opener : Option Token) :
    ∀ (ps : List Outline) {ts : List Token}, (∀ p ∈ ps, p.Clean) →
      (faultsOfAll last opener ps ts).1 =
        (ts.take (kindsOfAll ps).length).filterMap Token.fault?
  | [], _, _ => rfl
  | p :: ps, ts, clean => by
      rw [faultsOfAll, faults_of_clean last opener p (clean p List.mem_cons_self),
        own_of_clean last _ ps fun q member => clean q (List.mem_cons_of_mem _ member),
        faults_rest, kindsOfAll, List.length_append, List.take_add, List.filterMap_append]

end

theorem faultsOfAll_of_clean (last : Token) (opener : Option Token) (ps : List Outline)
    {ts : List Token} (clean : ∀ p ∈ ps, p.Clean) (sound : ∀ t ∈ ts, t.fault? = none) :
    (faultsOfAll last opener ps ts).1 = [] := by
  rw [own_of_clean last opener ps clean, List.filterMap_eq_nil_iff]
  exact fun t member => sound t (List.mem_of_mem_take member)

end Outline

def faults (limits : Limits) (text : String) : List Fault :=
  Fault.ofParts (outline limits (lex text)) (lex text) (.endAt text.utf8ByteSize)

theorem parse_diagnostics (limits : Limits) (text : String) :
    (parse limits text).diagnostics = (faults limits text).filterMap (·.diagnostic?) := rfl

end ConfigSyntax
