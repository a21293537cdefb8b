import ConfigSyntax.Proofs.Faults
import ConfigSyntax.Proofs.Growth
import Mathlib.Data.List.Forall2

/-! The same tokens in other places make the same trees, and have the same faults in those places.
Main statements: `growAll_alike`, `faultsOfAll_alike`, `diagnostics_alike`. -/

namespace ConfigSyntax

structure Token.Alike (place : Range → Range → Prop) (t t' : Token) : Prop where
  kind : t.kind = t'.kind
  text : t.text = t'.text
  range : place t.range t'.range

structure Related.Alike (place : Range → Range → Prop) (r r' : Related) : Prop where
  message : r.message = r'.message
  range : place r.range r'.range

structure Diagnostic.Alike (place : Range → Range → Prop) (d d' : Diagnostic) : Prop where
  code : d.code = d'.code
  message : d.message = d'.message
  expected : d.expected = d'.expected
  hint : d.hint = d'.hint
  range : place d.range d'.range
  related : List.Forall₂ (Related.Alike place) d.related d'.related

inductive Fault.Cause.Alike (place : Range → Range → Prop) : Cause → Cause → Prop
  | invalidCharacter : Alike place .invalidCharacter .invalidCharacter
  | unterminatedString : Alike place .unterminatedString .unterminatedString
  | unterminatedComment : Alike place .unterminatedComment .unterminatedComment
  | gap (g : Gap) {opener opener' : Option Token}
    (openers : Option.Rel (Token.Alike place) opener opener') :
    Alike place (.gap g opener) (.gap g opener')
  | skipped (why : Skip) : Alike place (.skipped why) (.skipped why)

structure Fault.Alike (place : Range → Range → Prop) (f f' : Fault) : Prop where
  cause : f.cause.Alike place f'.cause
  token : f.token.Alike place f'.token

section

variable {place : Range → Range → Prop}

namespace Fault

theorem skipDiagnostic_related (why : Skip) (t : Token) : (skipDiagnostic why t).related = [] := by
  cases why with
  | unexpected c =>
      simp only [skipDiagnostic, unexpectedDiagnostic]
      split
      · rfl
      · split <;> rfl
  | noValue c => rfl
  | tooDeep => rfl

theorem gapDiagnostic_alike (g : Gap) {opener opener' : Option Token} {r r' : Range}
    (openers : Option.Rel (Token.Alike place) opener opener') (range : place r r') :
    Diagnostic.Alike place { gapDiagnostic g opener with range := r }
      { gapDiagnostic g opener' with range := r' } := by
  cases g with
  | closer group =>
      refine ⟨rfl, rfl, rfl, rfl, range, ?_⟩
      cases openers with
      | none => exact .nil
      | some alike => exact .cons ⟨rfl, alike.range⟩ .nil
  | _ => exact ⟨rfl, rfl, rfl, rfl, range, .nil⟩

theorem skipDiagnostic_congr (why : Skip) {t t' : Token} (kind : t.kind = t'.kind)
    (text : t.text = t'.text) : skipDiagnostic why t = skipDiagnostic why t' := by
  obtain ⟨k, s, offset⟩ := t
  obtain ⟨k', s', offset'⟩ := t'
  cases kind
  cases text
  rfl

theorem isSilent_congr {f f' : Fault} (alike : f.Alike place f') : f.isSilent = f'.isSilent := by
  obtain ⟨cause, t⟩ := f
  obtain ⟨cause', t'⟩ := f'
  obtain ⟨causes, tokens⟩ := alike
  cases causes with
  | skipped why =>
      cases why with
      | unexpected c =>
          simp only [isSilent]
          rw [show t.kind = t'.kind from tokens.kind]
      | _ => rfl
  | _ => rfl

theorem report_alike {f f' : Fault} (alike : f.Alike place f') :
    Diagnostic.Alike place { f.report with range := f.range }
      { f'.report with range := f'.range } := by
  obtain ⟨cause, t⟩ := f
  obtain ⟨cause', t'⟩ := f'
  obtain ⟨causes, tokens⟩ := alike
  have range : place t.range t'.range := tokens.range
  cases causes with
  | gap g openers => exact gapDiagnostic_alike g openers range
  | skipped why =>
      have same : report ⟨.skipped why, t⟩ = report ⟨.skipped why, t'⟩ :=
        skipDiagnostic_congr why tokens.kind tokens.text
      have none : (report ⟨.skipped why, t'⟩).related = [] := skipDiagnostic_related why t'
      rw [same]
      refine ⟨rfl, rfl, rfl, rfl, range, ?_⟩
      simp only [none]
      exact .nil
  | invalidCharacter =>
      have text : t.text = t'.text := tokens.text
      refine ⟨rfl, ?_, rfl, rfl, range, .nil⟩
      simp only [report, text]
  | unterminatedString => exact ⟨rfl, rfl, rfl, rfl, range, .nil⟩
  | unterminatedComment => exact ⟨rfl, rfl, rfl, rfl, range, .nil⟩

theorem diagnostic?_alike {f f' : Fault} (alike : f.Alike place f') :
    Option.Rel (Diagnostic.Alike place) f.diagnostic? f'.diagnostic? := by
  rw [diagnostic?, diagnostic?, isSilent_congr alike]
  split
  · exact .none
  · exact .some (report_alike alike)

theorem diagnostics_alike {fs fs' : List Fault} (alike : List.Forall₂ (Alike place) fs fs') :
    List.Forall₂ (Diagnostic.Alike place) (fs.filterMap (·.diagnostic?))
      (fs'.filterMap (·.diagnostic?)) := by
  have each : Relator.LiftFun (Alike place) (Option.Rel (Diagnostic.Alike place))
      (·.diagnostic?) (·.diagnostic?) := fun _ _ => diagnostic?_alike
  exact List.rel_filterMap each alike

end Fault

theorem Token.fault?_alike {t t' : Token} (alike : t.Alike place t') :
    Option.Rel (Fault.Alike place) t.fault? t'.fault? := by
  have unterminated : t.isUnterminated = t'.isUnterminated := by
    rw [isUnterminated, isUnterminated, alike.kind, alike.text]
  rw [fault?, fault?, unterminated, alike.kind]
  split
  · exact .some ⟨.invalidCharacter, alike⟩
  · split
    · exact .some ⟨.unterminatedString, alike⟩
    · exact .none
  · split
    · exact .some ⟨.unterminatedString, alike⟩
    · exact .none
  · split
    · exact .some ⟨.unterminatedComment, alike⟩
    · exact .none
  · exact .none

theorem Fault.toList_alike {f f' : Option Fault} (alike : Option.Rel (Fault.Alike place) f f') :
    List.Forall₂ (Fault.Alike place) f.toList f'.toList := by
  cases alike with
  | none => exact .nil
  | some alike => exact .cons alike .nil

namespace Outline

theorem ownFaults_alike {ts ts' : List Token} (alike : List.Forall₂ (Token.Alike place) ts ts') :
    List.Forall₂ (Fault.Alike place) (ts.filterMap Token.fault?) (ts'.filterMap Token.fault?) := by
  have each : Relator.LiftFun (Token.Alike place) (Option.Rel (Fault.Alike place))
      Token.fault? Token.fault? := fun _ _ => Token.fault?_alike
  exact List.rel_filterMap each alike

theorem blankFaults_alike {ts ts' : List Token} (alike : List.Forall₂ (Token.Alike place) ts ts') :
    List.Forall₂ (Fault.Alike place) (Token.blankFaults ts) (Token.blankFaults ts') := by
  apply ownFaults_alike
  apply List.rel_filter _ alike
  intro t t' same
  simp only [Token.isTrivia, same.kind]

theorem headD_alike {last last' : Token} {ts ts' : List Token} (ends : last.Alike place last')
    (alike : List.Forall₂ (Token.Alike place) ts ts') :
    (ts.headD last).Alike place (ts'.headD last') := by
  cases alike with
  | nil => exact ends
  | cons first _ => exact first

theorem head?_alike {ts ts' : List Token} (alike : List.Forall₂ (Token.Alike place) ts ts') :
    Option.Rel (Token.Alike place) ts.head? ts'.head? := by
  cases alike with
  | nil => exact .none
  | cons first _ => exact .some first

theorem opener?_alike (o : Outline) {opener opener' : Option Token} {ts ts' : List Token}
    (openers : Option.Rel (Token.Alike place) opener opener')
    (alike : List.Forall₂ (Token.Alike place) ts ts') :
    Option.Rel (Token.Alike place) (opener? opener o ts) (opener? opener' o ts') := by
  cases o with
  | token k =>
      rw [opener?, opener?]
      split
      · exact head?_alike alike
      · exact openers
  | _ => exact openers

mutual

theorem faults_alike {last last' : Token} (ends : last.Alike place last') :
    ∀ (o : Outline) {opener opener' : Option Token} {ts ts' : List Token}
    (_ : Option.Rel (Token.Alike place) opener opener')
    (_ : List.Forall₂ (Token.Alike place) ts ts'),
    List.Forall₂ (Fault.Alike place) (faults last opener o ts).1 (faults last' opener' o ts').1
  | .token k, _, _, ts, ts', _, alike => by
      cases alike with
      | nil => exact .nil
      | cons first _ => exact Fault.toList_alike (Token.fault?_alike first)
  | .gap g, _, _, ts, ts', openers, alike => .cons ⟨.gap g openers, headD_alike ends alike⟩ .nil
  | .skipped why ks, _, _, ts, ts', _, alike =>
      .cons ⟨.skipped why, headD_alike ends alike⟩
        (ownFaults_alike (List.forall₂_take ks.length alike))
  | .node k parts, _, _, ts, ts', _, alike => faultsOfAll_alike ends parts .none alike

theorem faultsOfAll_alike {last last' : Token} (ends : last.Alike place last') :
    ∀ (ps : List Outline) {opener opener' : Option Token} {ts ts' : List Token}
    (_ : Option.Rel (Token.Alike place) opener opener')
    (_ : List.Forall₂ (Token.Alike place) ts ts'),
    List.Forall₂ (Fault.Alike place) (faultsOfAll last opener ps ts).1
      (faultsOfAll last' opener' ps ts').1
  | [], _, _, ts, ts', _, _ => .nil
  | p :: ps, opener, opener', ts, ts', openers, alike => by
      have rest : List.Forall₂ (Token.Alike place) (faults last opener p ts).2
          (faults last' opener' p ts').2 := by
        rw [faults_rest, faults_rest]
        exact List.forall₂_drop _ alike
      exact List.rel_append (faults_alike ends p openers alike)
        (faultsOfAll_alike ends ps (opener?_alike p openers alike) rest)

end

end Outline

open Event (triviaLength)
open Token (leaves)

theorem Token.leaves_alike {ts ts' : List Token} (alike : List.Forall₂ (Token.Alike place) ts ts') :
    leaves ts = leaves ts' := by
  induction alike with
  | nil => rfl
  | cons first _ ih => rw [leaves_cons, leaves_cons, leaf, leaf, first.kind, first.text, ih]

theorem Token.kinds_alike {ts ts' : List Token} (alike : List.Forall₂ (Token.Alike place) ts ts') :
    ts.map (·.kind) = ts'.map (·.kind) := by
  induction alike with
  | nil => rfl
  | cons first _ ih => rw [List.map_cons, List.map_cons, first.kind, ih]

theorem Event.triviaLength_alike {ts ts' : List Token}
    (alike : List.Forall₂ (Token.Alike place) ts ts') : triviaLength ts = triviaLength ts' := by
  induction alike with
  | nil => rfl
  | cons first _ ih =>
      simp only [triviaLength, List.takeWhile_cons, Token.isTrivia, first.kind] at ih ⊢
      split
      · exact congrArg (· + 1) ih
      · rfl

namespace Outline

theorem reach_alike (n : Nat) {ts ts' : List Token}
    (alike : List.Forall₂ (Token.Alike place) ts ts') : reach n ts = reach n ts' := by
  induction n generalizing ts ts' with
  | zero => rfl
  | succ n ih =>
      rw [reach, reach, Event.triviaLength_alike alike, ih (List.forall₂_drop _ alike)]

mutual

theorem grow_alike : ∀ (o : Outline) {ts ts' : List Token}
    (_ : List.Forall₂ (Token.Alike place) ts ts'),
    (o.grow ts).1 = (o.grow ts').1 ∧ List.Forall₂ (Token.Alike place) (o.grow ts).2 (o.grow ts').2
  | .token _, ts, ts', alike => by
      rw [grow, grow, reach_alike 1 alike]
      exact ⟨Token.leaves_alike (List.forall₂_take _ alike), List.forall₂_drop _ alike⟩
  | .gap _, ts, ts', alike => ⟨rfl, alike⟩
  | .skipped _ ks, ts, ts', alike => by
      have inside := List.forall₂_drop (triviaLength ts') alike
      have lead := List.forall₂_take (triviaLength ts') alike
      simp only [grow, Event.triviaLength_alike alike, reach_alike _ inside]
      rw [Token.leaves_alike lead, Token.leaves_alike (List.forall₂_take _ inside)]
      exact ⟨rfl, List.forall₂_drop _ inside⟩
  | .node k parts, ts, ts', alike => by
      have inside := List.forall₂_drop (triviaLength ts') alike
      have lead := List.forall₂_take (triviaLength ts') alike
      obtain ⟨trees, rest⟩ := growAll_alike parts inside
      simp only [grow, Event.triviaLength_alike alike]
      rw [Token.leaves_alike lead, trees]
      exact ⟨rfl, rest⟩

theorem growAll_alike : ∀ (ps : List Outline) {ts ts' : List Token}
    (_ : List.Forall₂ (Token.Alike place) ts ts'),
    (growAll ps ts).1 = (growAll ps ts').1 ∧
      List.Forall₂ (Token.Alike place) (growAll ps ts).2 (growAll ps ts').2
  | [], ts, ts', alike => ⟨rfl, alike⟩
  | p :: ps, ts, ts', alike => by
      obtain ⟨first, rest⟩ := grow_alike p alike
      obtain ⟨more, rest⟩ := growAll_alike ps rest
      rw [growAll, growAll, first, more]
      exact ⟨rfl, rest⟩

end

end Outline

end

end ConfigSyntax
