import ConfigSyntax.Proofs.Builds
import ConfigSyntax.Proofs.Laws
import ConfigSyntax.Proofs.Places

/-! What is skipped is told where the error stands that holds it, and errors hold all invalid
characters. Main statement: `parse_tells_skips`. -/

namespace ConfigSyntax

open Outline (Law Obeys ObeysAll Skips Stems Led originsOfAll kindsOfAll kindsBefore)
open Token (significant)

/-- A skip that starts with an invalid character takes it, and is not for the depth. -/
def takesInvalid : Law where
  node _ _ := True
  gap _ := True
  skip why run ks := ks.head? = some .error → why ≠ .tooDeep ∧ run ≠ []

namespace Grammar

theorem closing_obeys {law : Law} (g : Group) (ks : List Kind) (missing : law.gap (.closer g)) :
    ObeysAll law (closing g ks).1 ks := by
  cases ks with
  | nil => exact Outline.obeysAll_singleton.mpr missing
  | cons k ks =>
      rw [closing]
      split
      · exact Outline.obeysAll_singleton.mpr trivial
      · exact Outline.obeysAll_singleton.mpr missing

/-- A law for skips alone is kept by all outlines, if each way to skip keeps it. -/
theorem Builds.obeys {law : Law} (nodes : ∀ k parts, law.node k parts) (gaps : ∀ g, law.gap g)
    (recovers : ∀ c k ks, Obeys law (Grammar.recover c (k :: ks)).1 (k :: ks))
    (slots : ∀ c ks, Obeys law (Grammar.slot c ks).1 ks)
    (deep : ∀ construct : Construct, ∀ k ks, k ∈ construct.first →
      Obeys law (Grammar.tooDeep (k :: ks)).1 (k :: ks))
    {c : Context} {ks rest : List Kind} {parts : List Outline} (builds : Builds c ks parts rest) :
    ObeysAll law parts ks := by
  induction builds with
  | nil => trivial
  | token => exact Outline.obeysAll_singleton.mpr trivial
  | gap => exact Outline.obeysAll_singleton.mpr (gaps _)
  | append first _ front back => exact Outline.obeysAll_append first.split front back
  | node other _ inside => exact Outline.obeysAll_singleton.mpr ⟨other.1, nodes _ _, inside⟩
  | @group c ks mid items g inside _ within =>
      have split : kindsOfAll (.token g.opener :: items) ++ mid = g.opener :: ks := by
        rw [← inside.split]
        rfl
      exact Outline.obeysAll_append split ⟨trivial, within⟩ (closing_obeys g mid (gaps _))
  | recover => exact Outline.obeysAll_singleton.mpr (recovers _ _ _)
  | slot => exact Outline.obeysAll_singleton.mpr (slots _ _)
  | tooDeep construct first => exact Outline.obeysAll_singleton.mpr (deep construct _ _ first)

theorem Builds.takesInvalid {c : Context} {ks rest : List Kind} {parts : List Outline}
    (builds : Builds c ks parts rest) : ObeysAll takesInvalid parts ks := by
  refine Builds.obeys (fun _ _ => trivial) (fun _ => trivial) ?_ ?_ ?_ builds
  · exact fun _ _ _ _ => ⟨nofun, nofun⟩
  · intro c ks invalid
    refine ⟨nofun, ?_⟩
    obtain ⟨rest, rfl⟩ := List.head?_eq_some_iff.mp invalid
    have goes : c.stopsAt .error = false := by cases c <;> rfl
    rw [skipLength_start goes]
    nofun
  · intro construct k ks first invalid
    have starts : .error ∉ construct.first := by cases construct <;> decide
    cases invalid
    exact absurd first starts

end Grammar

theorem takesInvalid_outline (limits : Limits) (tokens : List Token) :
    ObeysAll takesInvalid (outline limits tokens) (kindsBefore tokens) :=
  (Grammar.file_builds limits.maxDepth (kindsBefore tokens)).takesInvalid

namespace Schema

open scoped Computability

theorem not_invalid_group (g : Group) : Over (· ≠ .token .error) (group gap g) := by
  have opener : Symbol.token g.opener ≠ .token .error := by cases g <;> decide
  have closer : Symbol.token g.closer ≠ .token .error := by cases g <;> decide
  have items : Over (· ≠ .token .error) (construct g.holds * (1 + token .comma))∗ :=
    over_items _ (fun _ _ _ => nofun) (by decide)
  exact over_mul (over_mul (over_token opener) items)
    (over_add (over_token closer) (over_gap nofun))

/-- Invalid characters stand in errors only. -/
theorem kind_of_invalid {k : Kind} {w : List Symbol} (member : w ∈ production gap k)
    (invalid : .token .error ∈ w) : k = .error := by
  have nodes (ks : List Kind) : Over (· ≠ .token .error) (nodeOf ks) :=
    over_nodeOf fun _ _ _ => nofun
  have names : Over (· ≠ .token .error) contextNames :=
    over_contextNames (fun _ => nofun) (by decide)
  have missing (g : Gap) : Over (· ≠ .token .error) (gap g) := over_gap nofun
  have constructs (c : Construct) : Over (· ≠ .token .error) (construct c) :=
    over_construct c fun _ _ _ => nofun
  have valid {l : Language Symbol} (sound : Over (· ≠ .token .error) l) (within : w ∈ l) :
      k = .error := absurd rfl (sound w within _ invalid)
  cases k with
  | file => exact valid (over_star (constructs _)) member
  | object => exact valid (over_mul (over_add over_one (nodes _)) (not_invalid_group _)) member
  | contextBlock => exact valid (over_mul names (not_invalid_group _)) member
  | contextualStatement => exact valid (over_mul names (over_add (nodes _) (missing _))) member
  | contextName =>
      exact valid (over_mul (over_tokenOf (by decide))
        (over_add (over_token (by decide)) (missing _))) member
  | invocationElement => exact valid (nodes _) member
  | invocationExpression => exact valid (over_mul (nodes _) (not_invalid_group _)) member
  | variableDeclaration =>
      exact valid (over_mul (over_token (by decide)) (over_add (missing _)
        (over_mul (over_token (by decide)) (over_add (missing _)
          (over_mul (over_token (by decide)) (constructs _)))))) member
  | property =>
      have object : Over (· ≠ .token .error) plainObject := by
        intro w same s present
        rw [show w = [.node .object false] from same] at present
        rw [List.mem_singleton.mp present]
        nofun
      exact valid (over_mul (nodes _) (over_add (over_add over_one
        (over_mul (over_token (by decide)) (constructs _))) object)) member
  | constructorReference => exact valid (nodes _) member
  | referenceExpression =>
      exact valid (over_mul (over_token (by decide))
        (over_star (over_mul (over_token (by decide)) (over_token (by decide))))) member
  | contextualPropertyReference =>
      exact valid (over_mul (over_token (by decide)) (nodes _)) member
  | stringLiteral => exact valid (over_tokenOf (by decide)) member
  | numberLiteral => exact valid (over_token (by decide)) member
  | booleanLiteral => exact valid (over_tokenOf (by decide)) member
  | nullLiteral => exact valid (over_token (by decide)) member
  | error => rfl
  | _ => exact absurd member (Language.notMem_zero w)

end Schema

theorem Outline.kind_of_invalid {k : Kind} {parts : List Outline} {ts : List Token} {t : Token}
    (symbols : parts.map symbol ∈ Schema.production Schema.gap k)
    (fits : kindsOfAll parts <+: ts.map (·.kind)) (member : t ∈ own parts ts)
    (invalid : t.kind = .error) : k = .error := by
  have part := mem_own fits member
  rw [invalid] at part
  exact Schema.kind_of_invalid symbols (List.mem_map_of_mem part)

theorem exists_error {text : String} (limits : Limits) {t : Token} (member : t ∈ lex text)
    (invalid : t.kind = .error) :
    ∃ n ∈ (fileNode limits text).descendants, n.kind = .error ∧ t ∈ n.tokens := by
  have visible : t ∈ significant (lex text) :=
    List.mem_filter.mpr ⟨member, by simp [Token.isTrivia, invalid, Kind.isTrivia]⟩
  obtain ⟨n, present, child⟩ :=
    List.mem_flatMap.mp ((tokens_descendants limits text).mem_iff.mpr visible)
  refine ⟨n, present, ?_, List.mem_of_mem_filter child⟩
  obtain ⟨nodes, list, stems⟩ := descendants_fileNode limits text
  rw [list] at present
  rcases List.mem_cons.mp present with rfl | present
  · rw [significant_tokens_fileNode] at child
    have reading := outline_reading limits (lex text)
    have fits : kindsOfAll (outline limits (lex text)) <+: kindsBefore (lex text) := by
      rw [kinds_outline]
    cases Outline.kind_of_invalid reading.symbols fits child invalid
  · obtain ⟨o, origin, stem⟩ := Outline.exists_origin stems present
    have sound := sound_outline limits text o origin
    rw [significant, Outline.tokens_of_stem stem] at child
    rw [stem.kind]
    exact Outline.kind_of_invalid sound.symbols sound.fits child invalid

structure Shows (text : String) (f : Fault) (n : Node) : Prop where
  place : f.token.offset = n.start
  token : f.token ∈ tokenize text
  skip : f.isSkip = true
  invalid : f.token.kind = .error → f.cause ≠ .skipped .tooDeep ∧ f.token ∈ significant n.tokens

theorem shows_of_skips {text : String} {f : Fault} {n : Node} {o : Outline.Origin}
    (skips : Skips takesInvalid (.endAt text.utf8ByteSize) f o)
    (stem : Stems text.utf8ByteSize n o) (led : Led o.tokens)
    (suffix : o.tokens <:+ lex text) : Shows text f n := by
  obtain ⟨why, run, cause, -, parts, lawful⟩ := skips.lawful
  refine ⟨?_, skips.token_mem suffix, ?_, ?_⟩
  · rw [Outline.start_of_stem stem led, skips.shown]
  · rw [Fault.isSkip, cause]
  · intro invalid
    have own := Outline.tokens_of_stem stem
    rw [parts, Outline.own_tokens] at own
    rw [skips.shown] at invalid ⊢
    rw [cause, significant, own]
    cases first : significant o.tokens with
    | nil =>
        rw [first] at invalid
        cases invalid
    | cons t ts =>
        rw [first] at invalid
        have head : (kindsBefore o.tokens).head? = some .error := by
          rw [kindsBefore, first]
          exact congrArg some invalid
        obtain ⟨other, filled⟩ := lawful head
        refine ⟨fun same => other (Fault.Cause.skipped.inj same), ?_⟩
        obtain ⟨k, ks, rfl⟩ := List.exists_cons_of_ne_nil filled
        exact List.mem_cons_self

theorem shows_of_stems {text : String} {fs : List Fault} {nodes : List Node}
    {origins : List Outline.Origin}
    (skips : List.Forall₂ (Skips takesInvalid (.endAt text.utf8ByteSize)) fs origins)
    (stems : List.Forall₂ (Stems text.utf8ByteSize) nodes origins)
    (placed : ∀ o ∈ origins, Led o.tokens ∧ o.tokens <:+ lex text) :
    List.Forall₂ (Shows text) fs nodes := by
  induction skips generalizing nodes with
  | nil =>
      cases stems
      exact .nil
  | @cons f o fs origins first _ ih =>
      cases stems with
      | cons stem stems =>
          obtain ⟨led, suffix⟩ := placed o List.mem_cons_self
          exact .cons (shows_of_skips first stem led suffix)
            (ih stems fun o member => placed o (List.mem_cons_of_mem _ member))

/-- Each error of the tree has its fault, and no other fault is a skip. -/
theorem shows_of_text (limits : Limits) (text : String) :
    ∃ fs, fs.Perm ((faults limits text).filter (·.isSkip)) ∧
      List.Forall₂ (Shows text) fs
        ((fileNode limits text).descendants.filter (·.kind = .error)) := by
  obtain ⟨fs, perm, skips⟩ := skips_of_text limits text (takesInvalid_outline limits (lex text))
  obtain ⟨nodes, list, stems⟩ := descendants_fileNode limits text
  have errors : List.Forall₂ (Stems text.utf8ByteSize) (nodes.filter (·.kind = .error))
      ((originsOfAll (outline limits (lex text)) (lex text)).filter (·.kind = .error)) := by
    refine List.rel_filter (fun n o stem => ?_) stems
    change decide (n.kind = .error) = true ↔ decide (o.kind = .error) = true
    rw [stem.kind]
  refine ⟨fs, perm, ?_⟩
  rw [list, List.filter_cons_of_neg (by simp [fileNode])]
  refine shows_of_stems skips errors fun o member => ?_
  have origin := List.mem_of_mem_filter member
  exact ⟨Outline.originsOfAll_led _ _ o origin, Outline.originsOfAll_suffix _ _ o origin⟩

def Code.isRecovery (c : Code) : Bool :=
  [unexpectedCloser, tooDeep, missingValue, invalidArgument, unexpectedToken].contains c

namespace Fault

theorem report_isRecovery (f : Fault) : f.report.code.isRecovery = f.isSkip := by
  obtain ⟨cause, t⟩ := f
  cases cause with
  | gap g opener =>
      have others : ∀ c : Code, c.isMissing = true → c.isRecovery = false := by
        intro c
        cases c <;> decide
      rw [report, gapDiagnostic_code, others _ (gapCode_isMissing g)]
      rfl
  | skipped why =>
      have skips : ∀ c ∈ [Code.unexpectedCloser, .invalidArgument, .unexpectedToken,
          .missingValue, .tooDeep], c.isRecovery = true := by decide
      exact skips _ (skipDiagnostic_code why t)
  | invalidCharacter => rfl
  | unterminatedString => rfl
  | unterminatedComment => rfl

theorem kind_of_silent {f : Fault} (silent : f.isSilent = true) : f.token.kind = .error := by
  revert silent
  unfold isSilent
  split
  · exact of_decide_eq_true
  · nofun

/-- Of the skips at an invalid character only one for a value is told. -/
theorem code_of_invalid {f : Fault} {d : Diagnostic} (told : f.diagnostic? = some d)
    (skip : f.isSkip = true) (invalid : f.token.kind = .error)
    (shallow : f.cause ≠ .skipped .tooDeep) : d.code = .missingValue := by
  rw [diagnostic?_code told]
  obtain ⟨cause, t⟩ := f
  cases cause with
  | skipped why =>
      cases why with
      | unexpected c =>
          have silent : isSilent ⟨.skipped (.unexpected c), t⟩ = true := decide_eq_true invalid
          rw [diagnostic?, if_pos silent] at told
          cases told
      | noValue c => rfl
      | tooDeep => exact absurd rfl shallow
  | _ => cases skip

end Fault

def Parse.recoveriesAt (p : Parse) (offset : Nat) : List Diagnostic :=
  p.diagnostics.filter fun d => d.code.isRecovery && d.range.start = offset

def Node.errorsAt (n : Node) (offset : Nat) : List Node :=
  n.descendants.filter fun n => n.kind = .error && n.range.start = offset

theorem recoveriesAt_eq (limits : Limits) (text : String) (offset : Nat) :
    (parse limits text).recoveriesAt offset =
      (((faults limits text).filter (·.isSkip)).filter (·.token.offset = offset)).filterMap
        (·.diagnostic?) := by
  rw [Parse.recoveriesAt, parse_diagnostics, List.filter_filterMap, List.filter_filter,
    List.filterMap_filter]
  congr 1
  funext f
  cases told : f.diagnostic? with
  | none => simp
  | some d =>
      rw [Option.filter_some, Fault.diagnostic?_code told, Fault.report_isRecovery,
        Fault.diagnostic?_range told, Bool.and_comm]
      rfl

/-- The faults of the errors at one place, of which all that are told are told there. -/
theorem shows_at (limits : Limits) (text : String) (offset : Nat) :
    ∃ fs, List.Forall₂ (Shows text) fs ((fileNode limits text).errorsAt offset) ∧
      (fs.filterMap (·.diagnostic?)).Perm ((parse limits text).recoveriesAt offset) ∧
      ∀ f ∈ fs, f.token.offset = offset := by
  obtain ⟨fs, perm, shows⟩ := shows_of_text limits text
  refine ⟨fs.filter (·.token.offset = offset), ?_, ?_, ?_⟩
  · have errors : (fileNode limits text).errorsAt offset =
        ((fileNode limits text).descendants.filter (·.kind = .error)).filter
          (·.range.start = offset) := by
      rw [Node.errorsAt, List.filter_filter]
      simp only [Bool.and_comm]
    rw [errors]
    refine List.rel_filter (fun f n pair => ?_) shows
    change decide (f.token.offset = offset) = true ↔ decide (n.start = offset) = true
    rw [pair.place]
  · rw [recoveriesAt_eq]
    exact (perm.filter _).filterMap _
  · intro f member
    exact of_decide_eq_true (List.mem_filter.mp member).2

theorem recoveries_le_errors (limits : Limits) (text : String) (offset : Nat) :
    ((parse limits text).recoveriesAt offset).length ≤
      ((fileNode limits text).errorsAt offset).length := by
  obtain ⟨fs, shows, perm, -⟩ := shows_at limits text offset
  rw [← perm.length_eq, ← shows.length_eq]
  exact List.length_filterMap_le _ _

/-- Where no invalid character stands every skip is told. -/
theorem errors_eq_recoveries (limits : Limits) {text : String} {offset : Nat}
    (valid : ∀ t ∈ tokenize text, t.offset = offset → t.kind ≠ .error) :
    ((fileNode limits text).errorsAt offset).length =
      ((parse limits text).recoveriesAt offset).length := by
  obtain ⟨fs, shows, perm, place⟩ := shows_at limits text offset
  rw [← perm.length_eq, ← shows.length_eq, List.length_filterMap_eq_countP, eq_comm,
    List.countP_eq_length]
  intro f member
  obtain ⟨n, -, pair⟩ := exists_of_mem_left shows member
  rw [Option.isSome_iff_ne_none, ne_eq, Fault.diagnostic?_eq_none]
  intro silent
  exact valid f.token pair.token (place f member) (Fault.kind_of_silent silent)

/-- Errors that hold one token are one error. -/
theorem errors_at_invalid (limits : Limits) {text : String} {t : Token} (member : t ∈ tokenize text)
    (invalid : t.kind = .error) :
    ((fileNode limits text).errorsAt t.offset).length ≤ 1 := by
  obtain ⟨fs, shows, -, place⟩ := shows_at limits text t.offset
  have holds : ∀ n ∈ (fileNode limits text).errorsAt t.offset, t ∈ significant n.tokens := by
    intro n present
    obtain ⟨f, fault, pair⟩ := exists_of_mem_right shows present
    obtain rfl := token_of_offset pair.token member (place f fault)
    exact (pair.invalid invalid).2
  have sorted : (significant (lex text)).Nodup :=
    ((lex_tiled text).sorted.filter _).imp fun less same => by
      rw [same] at less
      exact Nat.lt_irrefl _ less
  have apart := (List.nodup_flatMap.mp
    ((tokens_descendants limits text).nodup_iff.mpr sorted)).2.filter
      fun n => n.kind = .error && n.range.start = t.offset
  change List.Pairwise _ ((fileNode limits text).errorsAt t.offset) at apart
  match errors : (fileNode limits text).errorsAt t.offset with
  | [] => exact Nat.zero_le 1
  | [_] => exact Nat.le_refl 1
  | m :: n :: more =>
      rw [errors] at holds apart
      have disjoint := List.rel_of_pairwise_cons apart List.mem_cons_self
      exact absurd (holds n (by simp)) (disjoint (holds m List.mem_cons_self))

theorem code_at_invalid {limits : Limits} {text : String} {t : Token} {d : Diagnostic}
    (member : t ∈ tokenize text) (invalid : t.kind = .error)
    (present : d ∈ (parse limits text).recoveriesAt t.offset) : d.code = .missingValue := by
  obtain ⟨fs, shows, perm, place⟩ := shows_at limits text t.offset
  obtain ⟨f, fault, told⟩ := List.mem_filterMap.mp (perm.mem_iff.mpr present)
  obtain ⟨n, -, pair⟩ := exists_of_mem_left shows fault
  obtain rfl := token_of_offset pair.token member (place f fault)
  exact Fault.code_of_invalid told pair.skip invalid (pair.invalid invalid).1

/-- An invalid character is told, whatever else is. -/
theorem diagnostics_of_invalid (limits : Limits) {text : String} {t : Token}
    (member : t ∈ lex text) (invalid : t.kind = .error) :
    (parse limits text).diagnostics ≠ [] := by
  have fault : t.fault? = some ⟨.invalidCharacter, t⟩ := by
    rw [Token.fault?, invalid]
  have present : ⟨.invalidCharacter, t⟩ ∈ faults limits text :=
    List.mem_of_mem_filter ((filter_own_faults limits text).mem_iff.mpr
      (List.mem_filterMap.mpr ⟨t, member, fault⟩))
  rw [parse_diagnostics]
  exact List.ne_nil_of_mem (List.mem_filterMap.mpr ⟨_, present, rfl⟩)

theorem mem_lex_of_invalid {text : String} {t : Token} (member : t ∈ tokenize text)
    (invalid : t.kind = .error) : t ∈ lex text := by
  rcases List.mem_append.mp member with member | last
  · exact member
  · rw [List.mem_singleton.mp last] at invalid
    cases invalid

/-- Where no invalid character stands, as many errors start as skips are told. At an invalid
character one error may start, and then a value may be told to be missing there; the character is
in an error in any case. So there are errors just where something is told. -/
theorem parse_tells_skips (limits : Limits) (text : String) :
    ∃ root : Node, Node.ofTree? (parse limits text).tree = some root ∧
      (∀ offset, (∀ t ∈ tokenize text, t.offset = offset → t.kind ≠ .error) →
        (root.errorsAt offset).length = ((parse limits text).recoveriesAt offset).length) ∧
      (∀ t ∈ tokenize text, t.kind = .error →
        (root.errorsAt t.offset).length ≤ 1 ∧
        ((parse limits text).recoveriesAt t.offset).length ≤ (root.errorsAt t.offset).length ∧
        (∀ d ∈ (parse limits text).recoveriesAt t.offset, d.code = .missingValue) ∧
        ∃ n ∈ root.descendants, n.kind = .error ∧ t ∈ n.tokens) ∧
      (∀ n ∈ root.descendants, n.kind = .error → (parse limits text).diagnostics ≠ []) ∧
      ∀ d ∈ (parse limits text).diagnostics, d.code.isRecovery = true →
        ∃ n ∈ root.descendants, n.kind = .error ∧ n.range.start = d.range.start := by
  refine ⟨fileNode limits text, ofTree?_parse limits text, ?_, ?_, ?_, ?_⟩
  · exact fun offset valid => errors_eq_recoveries limits valid
  · intro t member invalid
    have inside := mem_lex_of_invalid member invalid
    exact ⟨errors_at_invalid limits member invalid, recoveries_le_errors limits text t.offset,
      fun d told => code_at_invalid member invalid told, exists_error limits inside invalid⟩
  · intro n member error none
    by_cases invalid : ∃ t ∈ tokenize text, t.offset = n.range.start ∧ t.kind = .error
    · obtain ⟨t, member, -, invalid⟩ := invalid
      exact diagnostics_of_invalid limits (mem_lex_of_invalid member invalid) invalid none
    · have equal := errors_eq_recoveries limits
        fun t (member : t ∈ tokenize text) place kind => invalid ⟨t, member, place, kind⟩
      have present : n ∈ (fileNode limits text).errorsAt n.range.start :=
        List.mem_filter.mpr ⟨member, by simp [error]⟩
      have positive := List.length_pos_of_mem present
      rw [Parse.recoveriesAt, none] at equal
      rw [equal] at positive
      cases positive
  · intro d member recovery
    have present : d ∈ (parse limits text).recoveriesAt d.range.start :=
      List.mem_filter.mpr ⟨member, by simp [recovery]⟩
    have positive := Nat.lt_of_lt_of_le (List.length_pos_of_mem present)
      (recoveries_le_errors limits text d.range.start)
    obtain ⟨n, error⟩ := List.exists_mem_of_length_pos positive
    obtain ⟨member, kind⟩ := List.mem_filter.mp error
    simp only [Bool.and_eq_true, decide_eq_true_eq] at kind
    exact ⟨n, member, kind⟩

end ConfigSyntax
