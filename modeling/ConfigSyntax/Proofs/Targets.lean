import ConfigSyntax.Proofs.Join.Faults
import ConfigSyntax.Proofs.Laws
import ConfigSyntax.Proofs.Patterns.Munch
import ConfigSyntax.Proofs.Places

/-! Where diagnostics point: to tokens of the text, in the order of the text. Main statements:
`aims_faultsOfAll`, `between_faultsOfAll`, `parse_targets`. -/

namespace ConfigSyntax

open Outline (kindsOfAll kindsBefore fits_head fits_tail)
open Token (significant)

theorem Kind.isOpener_iff {k : Kind} : k.isOpener = true ↔ k = .openBrace ∨ k = .openParen := by
  cases k <;> decide

namespace Token

theorem Tiled.size_pos {start stop : Nat} {ts : List Token} (tiled : Tiled start stop ts) :
    ∀ t ∈ ts, 0 < t.text.utf8ByteSize := by
  induction ts generalizing start with
  | nil => nofun
  | cons t ts ih => exact List.forall_mem_cons.mpr ⟨tiled.2.1, ih tiled.2.2⟩

/-- A token ends in front of all that come behind it, and of the end of the text. -/
theorem Tiled.apart {start stop : Nat} {ts : List Token} (tiled : Tiled start stop ts) :
    (ts ++ [endAt stop]).Pairwise fun t u : Token => t.range.stop ≤ u.range.start := by
  induction ts generalizing start with
  | nil => exact List.pairwise_singleton _ _
  | cons t ts ih =>
      obtain ⟨first, -, rest⟩ := tiled
      refine .cons (fun u member => ?_) (ih rest)
      change t.offset + t.text.utf8ByteSize ≤ u.offset
      rw [first]
      rcases List.mem_append.mp member with member | last
      · exact rest.le_offset member
      · rw [List.mem_singleton.mp last]
        exact (Nat.le_add_right _ _).trans (Nat.le_of_eq rest.stop_eq.symm)

theorem headD_mem (last : Token) (ts : List Token) : ts.headD last ∈ ts ++ [last] := by
  cases ts with
  | nil => exact List.mem_singleton_self last
  | cons t ts => exact List.mem_cons_self

theorem visible_of_mem {ts : List Token} {stop : Nat} {t : Token}
    (member : t ∈ significant ts ++ [endAt stop]) : t.isTrivia = false := by
  rcases List.mem_append.mp member with visible | last
  · simpa using (List.mem_filter.mp visible).2
  · rw [List.mem_singleton.mp last]
    rfl

/-- Of the blanks and comments only a comment without its end has a fault. -/
theorem comment_of_fault? {t : Token} {f : Fault} (fault : t.fault? = some f)
    (blank : t.isTrivia = true) : t.kind = .blockComment ∧ t.isUnterminated = true := by
  obtain ⟨kind, text, offset⟩ := t
  cases kind with
  | blockComment => exact ⟨rfl, (Option.ite_none_right_eq_some.mp fault).1⟩
  | whitespace => cases fault
  | lineComment => cases fault
  | _ => cases blank

end Token

/-- The range is that of a token, and there are characters of the text at its ends, or the end of
the text. -/
structure Range.Marks (text : String) (r : Range) (t : Token) : Prop where
  token : t ∈ tokenize text
  range : r = t.range
  start : String.Pos.Raw.IsValid text ⟨r.start⟩
  stop : String.Pos.Raw.IsValid text ⟨r.stop⟩

theorem marks_of_mem {text : String} {t : Token} (member : t ∈ tokenize text) :
    t.range.Marks text t := by
  rcases List.mem_append.mp member with inside | last
  · obtain ⟨start, stop⟩ := (munch_lex text).boundary t inside
    exact ⟨member, rfl, start, stop⟩
  · obtain rfl := List.mem_singleton.mp last
    have ends : String.Pos.Raw.IsValid text text.rawEndPos := String.Pos.Raw.isValid_rawEndPos
    exact ⟨member, rfl, ends, ends⟩

theorem text_of_empty {text : String} {t : Token} (member : t ∈ tokenize text)
    (nothing : t.range = .empty 0) : text = "" := by
  have start : t.offset = 0 := congrArg Range.start nothing
  have stop : t.offset + t.text.utf8ByteSize = 0 := congrArg Range.stop nothing
  rcases List.mem_append.mp member with inside | last
  · have positive := (lex_tiled text).size_pos t inside
    omega
  · rw [List.mem_singleton.mp last] at start
    exact String.utf8ByteSize_eq_zero_iff.mp start

namespace Fault

def opener? (f : Fault) : Option Token :=
  match f.cause with
  | .gap _ opener => opener
  | _ => none

def tokens (f : Fault) : List Token := f.opener?.toList ++ [f.token]

structure Aims (ts : List Token) (f : Fault) : Prop where
  tokens : f.tokens.Sublist ts
  opens : ∀ t ∈ f.opener?, t.kind.isOpener = true

theorem opener?_of_own {f : Fault} (own : f.isOwn = true) : f.opener? = none := by
  obtain ⟨cause, t⟩ := f
  cases cause with
  | gap g opener => cases own
  | _ => rfl

theorem Aims.of_none {ts : List Token} {f : Fault} (none : f.opener? = none)
    (member : f.token ∈ ts) : f.Aims ts where
  tokens := by
    rw [Fault.tokens, none]
    exact List.singleton_sublist.mpr member
  opens t known := by
    rw [none] at known
    cases known

theorem Aims.token_mem {ts : List Token} {f : Fault} (aims : f.Aims ts) : f.token ∈ ts :=
  aims.tokens.mem (List.mem_append_right _ (List.mem_singleton_self f.token))

theorem Aims.mono {ts us : List Token} {f : Fault} (aims : f.Aims ts) (more : ts.Sublist us) :
    f.Aims us :=
  ⟨aims.tokens.trans more, aims.opens⟩

theorem report_related {f : Fault} {r : Related} (member : r ∈ f.report.related) :
    ∃ t ∈ f.opener?, r.range = t.range := by
  obtain ⟨cause, t⟩ := f
  cases cause with
  | gap g opener =>
      cases g with
      | closer group =>
          obtain ⟨u, known, rfl⟩ := List.mem_map.mp member
          exact ⟨u, Option.mem_toList.mp known, rfl⟩
      | _ => cases member
  | skipped why =>
      rw [report, skipDiagnostic_related] at member
      cases member
  | _ => cases member

theorem diagnostic?_related {f : Fault} {d : Diagnostic} (told : f.diagnostic? = some d) :
    d.related = f.report.related := by
  rw [diagnostic?] at told
  rw [← Option.some.inj (Option.ite_none_left_eq_some.mp told).2]

end Fault

namespace Outline

open Fault (Aims)

/-- The opener is one of the tokens that the part takes, if it is not the one from before. -/
theorem opener?_sublist (opener : Option Token) (p : Outline) (ts : List Token) :
    ((opener? opener p ts).toList ++ ts.drop p.kinds.length).Sublist (opener.toList ++ ts) := by
  cases p with
  | token k =>
      rw [opener?]
      split
      · have taken : ts.head?.toList ++ ts.drop 1 = ts := by cases ts <;> rfl
        rw [kinds, List.length_singleton, taken]
        exact List.sublist_append_right _ _
      · exact (List.drop_sublist _ _).append_left _
  | _ => exact (List.drop_sublist _ _).append_left _

theorem opener?_opens {opener : Option Token} {p : Outline} {ts : List Token}
    (fits : p.kinds <+: ts.map (·.kind)) (opens : ∀ t ∈ opener, t.kind.isOpener = true) :
    ∀ t ∈ opener? opener p ts, t.kind.isOpener = true := by
  cases p with
  | token k =>
      obtain ⟨more, split⟩ := fits
      obtain ⟨u, rest, rfl, rfl, -⟩ := List.map_eq_cons_iff.mp split.symm
      rw [opener?]
      split
      case isTrue opener =>
        intro t same
        rwa [← Option.some.inj same]
      case isFalse => exact opens
  | _ => exact opens

theorem opens_none : ∀ t ∈ (none : Option Token), t.kind.isOpener = true := nofun

mutual

theorem aims_faults (last : Token) : ∀ (o : Outline) {opener : Option Token} {ts : List Token}
    (_ : o.kinds <+: ts.map (·.kind)) (_ : ∀ t ∈ opener, t.kind.isOpener = true),
    ∀ f ∈ (faults last opener o ts).1, f.Aims (opener.toList ++ (ts ++ [last]))
  | .token _, opener, ts, _, _, f, member => by
      obtain ⟨t, first, fault⟩ := Option.bind_eq_some_iff.mp (Option.mem_toList.mp member)
      apply Aims.of_none (Fault.opener?_of_own (Token.own_of_fault? fault))
      rw [Token.token_of_fault? fault]
      exact List.mem_append_right _ (List.mem_append_left _ (List.mem_of_head? first))
  | .gap g, opener, ts, _, opens, f, member => by
      rw [List.mem_singleton.mp member]
      refine ⟨List.Sublist.append_left ?_ _, opens⟩
      exact List.singleton_sublist.mpr (Token.headD_mem last ts)
  | .skipped why ks, opener, ts, _, _, f, member => by
      rcases List.mem_cons.mp member with rfl | member
      · exact Aims.of_none rfl (List.mem_append_right _ (Token.headD_mem last ts))
      · obtain ⟨t, taken, fault⟩ := List.mem_filterMap.mp member
        apply Aims.of_none (Fault.opener?_of_own (Token.own_of_fault? fault))
        rw [Token.token_of_fault? fault]
        exact List.mem_append_right _ (List.mem_append_left _ (List.mem_of_mem_take taken))
  | .node _ parts, opener, ts, fits, _, f, member =>
      (aims_faultsOfAll last parts fits opens_none f member).mono (List.sublist_append_right _ _)

/-- A fault is about a token that is left, or about the end, and about an opener in front of it. -/
theorem aims_faultsOfAll (last : Token) : ∀ (ps : List Outline) {opener : Option Token}
    {ts : List Token} (_ : kindsOfAll ps <+: ts.map (·.kind))
    (_ : ∀ t ∈ opener, t.kind.isOpener = true),
    ∀ f ∈ (faultsOfAll last opener ps ts).1, f.Aims (opener.toList ++ (ts ++ [last]))
  | [], _, _, _, _, _, member => by cases member
  | p :: ps, opener, ts, fits, opens, f, member => by
      rcases List.mem_append.mp member with member | member
      · exact aims_faults last p (fits_head fits) opens f member
      · rw [faults_rest] at member
        have known := opener?_opens (fits_head fits) opens
        have aims := aims_faultsOfAll last ps (fits_tail fits) known f member
        have fewer := (opener?_sublist opener p ts).append_right [last]
        rw [List.append_assoc, List.append_assoc] at fewer
        exact aims.mono fewer

end

end Outline

namespace Fault

def Sorted (fs : List Fault) : Prop := fs.Pairwise fun f g => f.range.start ≤ g.range.start

theorem insert_sorted {fs : List Fault} (f : Fault) (sorted : Sorted fs) :
    Sorted (f.insert fs) := by
  induction fs with
  | nil => exact List.pairwise_singleton _ _
  | cons g fs ih =>
      obtain ⟨first, rest⟩ := List.pairwise_cons.mp sorted
      rw [insert_cons]
      split
      case isTrue before =>
        refine .cons (fun h member => ?_) (ih rest)
        rcases List.mem_cons.mp ((insert_perm f fs).mem_iff.mp member) with rfl | member
        · exact Nat.le_of_lt before
        · exact first h member
      case isFalse behind =>
        have next := Nat.not_lt.mp behind
        exact .cons (List.forall_mem_cons.mpr ⟨next, fun h member => next.trans (first h member)⟩)
          sorted

theorem foldr_insert_sorted (fs : List Fault) {gs : List Fault} (sorted : Sorted gs) :
    Sorted (fs.foldr insert gs) := by
  induction fs with
  | nil => exact sorted
  | cons f fs ih => exact insert_sorted f ih

/-- The faults are in order, none in front of `low` and none behind `high`. -/
structure Between (low high : Nat) (fs : List Fault) : Prop where
  le : low ≤ high
  lower : ∀ f ∈ fs, low ≤ f.range.start
  upper : ∀ f ∈ fs, f.range.start ≤ high
  sorted : Sorted fs

theorem Between.nil {low high : Nat} (le : low ≤ high) : Between low high [] :=
  ⟨le, List.forall_mem_nil _, List.forall_mem_nil _, .nil⟩

theorem Between.append {low mid high : Nat} {fs gs : List Fault} (first : Between low mid fs)
    (second : Between mid high gs) : Between low high (fs ++ gs) where
  le := first.le.trans second.le
  lower := List.forall_mem_append.mpr
    ⟨first.lower, fun g member => first.le.trans (second.lower g member)⟩
  upper := List.forall_mem_append.mpr
    ⟨fun f member => (first.upper f member).trans second.le, second.upper⟩
  sorted := List.pairwise_append.mpr ⟨first.sorted, second.sorted, fun f member g member' =>
    (first.upper f member).trans (second.lower g member')⟩

theorem Between.cons {low high : Nat} {f : Fault} {fs : List Fault} (start : f.range.start = low)
    (between : Between low high fs) : Between low high (f :: fs) := by
  have first : Between low low [f] := by
    refine ⟨Nat.le_refl low, ?_, ?_, List.pairwise_singleton _ _⟩ <;> simp [start]
  exact first.append between

end Fault

namespace Outline

open Fault (Between)

def front (last : Token) (ts : List Token) : Nat := (ts.headD last).offset

section

variable {last : Token} {ts : List Token}

theorem front_le (sorted : (ts ++ [last]).Pairwise (·.offset < ·.offset)) :
    ∀ t ∈ ts ++ [last], front last ts ≤ t.offset := by
  cases ts with
  | nil =>
      intro t member
      rw [List.mem_singleton.mp member]
      exact Nat.le_refl _
  | cons u ts =>
      have less := (List.pairwise_cons.mp sorted).1
      exact List.forall_mem_cons.mpr ⟨Nat.le_refl _, fun t member => Nat.le_of_lt (less t member)⟩

theorem between_run (sorted : (ts ++ [last]).Pairwise (·.offset < ·.offset)) (n : Nat) :
    Between (front last ts) (front last (ts.drop n)) ((ts.take n).filterMap Token.fault?) := by
  have split : ts.take n ++ (ts.drop n ++ [last]) = ts ++ [last] := by
    rw [← List.append_assoc, List.take_append_drop]
  have apart := sorted
  rw [← split, List.pairwise_append] at apart
  obtain ⟨taken, -, less⟩ := apart
  have ahead : ∀ t ∈ ts.take n, front last ts ≤ t.offset := fun t member =>
    front_le sorted t (List.mem_append_left _ (List.mem_of_mem_take member))
  have behind := Token.headD_mem last (ts.drop n)
  refine ⟨front_le sorted _ ?_, ?_, ?_, ?_⟩
  · rw [← split]
    exact List.mem_append_right _ behind
  · intro f member
    obtain ⟨t, present, fault⟩ := List.mem_filterMap.mp member
    rw [← Token.token_of_fault? fault] at present
    exact ahead _ present
  · intro f member
    obtain ⟨t, present, fault⟩ := List.mem_filterMap.mp member
    rw [← Token.token_of_fault? fault] at present
    exact Nat.le_of_lt (less _ present _ behind)
  · refine taken.filterMap _ fun t u before f fault g fault' => ?_
    rw [← Token.token_of_fault? fault, ← Token.token_of_fault? fault'] at before
    exact Nat.le_of_lt before

theorem sorted_drop (sorted : (ts ++ [last]).Pairwise (·.offset < ·.offset)) (n : Nat) :
    (ts.drop n ++ [last]).Pairwise (·.offset < ·.offset) :=
  sorted.sublist ((List.drop_sublist n ts).append_right [last])

end

mutual

theorem between_faults {last : Token} : ∀ (o : Outline) (opener : Option Token) {ts : List Token}
    (_ : (ts ++ [last]).Pairwise (·.offset < ·.offset)),
    Between (front last ts) (front last (ts.drop o.kinds.length)) (faults last opener o ts).1
  | .token _, opener, ts, sorted => by
      rw [faults, Token.head?_faults]
      exact between_run sorted 1
  | .gap g, opener, ts, _ => .cons rfl (.nil (Nat.le_refl _))
  | .skipped why ks, opener, ts, sorted => .cons rfl (between_run sorted ks.length)
  | .node _ parts, opener, ts, sorted => between_faultsOfAll parts none sorted

/-- The faults of an outline are told in the order of the tokens. -/
theorem between_faultsOfAll {last : Token} : ∀ (ps : List Outline) (opener : Option Token)
    {ts : List Token} (_ : (ts ++ [last]).Pairwise (·.offset < ·.offset)),
    Between (front last ts) (front last (ts.drop (kindsOfAll ps).length))
      (faultsOfAll last opener ps ts).1
  | [], _, _, _ => .nil (Nat.le_refl _)
  | p :: ps, opener, ts, sorted => by
      have first := between_faults p opener sorted
      have more := between_faultsOfAll ps (opener? opener p ts) (sorted_drop sorted p.kinds.length)
      rw [List.drop_drop] at more
      rw [faultsOfAll, faults_rest, kindsOfAll, List.length_append]
      exact first.append more

end

end Outline

theorem significant_sublist (text : String) :
    (significant (lex text) ++ [Token.endAt text.utf8ByteSize]).Sublist (tokenize text) :=
  List.filter_sublist.append_right _

theorem faults_sorted (limits : Limits) (text : String) : Fault.Sorted (faults limits text) := by
  have tokens := (tokenize_sorted text).sublist (significant_sublist text)
  have parts := Outline.between_faultsOfAll (outline limits (lex text)) none tokens
  exact Fault.foldr_insert_sorted _ parts.sorted

/-- Where a fault is: at a comment that does not end, or else at a token that the grammar sees, and
then behind the opener that it knows. -/
theorem aims_of_fault {limits : Limits} {text : String} {f : Fault}
    (member : f ∈ faults limits text) :
    f.Aims (tokenize text) ∧
      if f.report.code = .unterminatedComment
      then f.token.kind = .blockComment ∧ f.token.isUnterminated = true
      else f.token.isTrivia = false := by
  cases own : f.isOwn with
  | true =>
      have kept := List.mem_filter.mpr ⟨member, own⟩
      obtain ⟨t, inside, fault⟩ :=
        List.mem_filterMap.mp ((filter_own_faults limits text).mem_iff.mp kept)
      obtain rfl := Token.token_of_fault? fault
      have anomaly := Token.anomaly?_eq_unterminatedComment f.token
      rw [Token.anomaly?, fault, Option.map_some, Option.some_inj] at anomaly
      refine ⟨Fault.Aims.of_none (Fault.opener?_of_own own) (List.mem_append_left _ inside), ?_⟩
      split
      case isTrue code => exact anomaly.mp code
      case isFalse other =>
        rw [← Bool.not_eq_true]
        exact fun blank => other (anomaly.mpr (Token.comment_of_fault? fault blank))
  | false =>
      have inside := mem_faults_of_outline member own
      have fits : kindsOfAll (outline limits (lex text)) <+:
          (significant (lex text)).map (·.kind) := by
        rw [kinds_outline]
        exact List.prefix_refl _
      have aims : f.Aims (significant (lex text) ++ [Token.endAt text.utf8ByteSize]) :=
        Outline.aims_faultsOfAll _ _ fits Outline.opens_none f inside
      refine ⟨aims.mono (significant_sublist text), ?_⟩
      have other : f.report.code ≠ .unterminatedComment := by
        intro code
        have lexical : f.isOwn = true := Fault.own_of_lexical (by rw [code]; rfl)
        rw [own] at lexical
        cases lexical
      rw [if_neg other]
      exact Token.visible_of_mem aims.token_mem

theorem diagnostics_of_empty (limits : Limits) : (parse limits "").diagnostics = [] := rfl

/-- Each diagnostic is at a token that the grammar sees, the one that ends the text among them, or
at a comment that does not end. What it relates to is an opener that comes before. The diagnostics
are told in the order of their places. -/
theorem parse_targets (limits : Limits) (text : String) :
    (∀ d ∈ (parse limits text).diagnostics,
      (∃ t, d.range.Marks text t ∧
        if d.code = .unterminatedComment then t.kind = .blockComment ∧ t.isUnterminated = true
        else t.isTrivia = false) ∧
      d.range ≠ .empty 0 ∧
      ∀ r ∈ d.related, r.range ≠ .empty 0 ∧ r.range.stop ≤ d.range.start ∧
        ∃ t, r.range.Marks text t ∧ (t.kind = .openBrace ∨ t.kind = .openParen)) ∧
    ((parse limits text).diagnostics.map (·.range.start)).Pairwise (· ≤ ·) := by
  have filled {d : Diagnostic} (told : d ∈ (parse limits text).diagnostics) {t : Token}
      (member : t ∈ tokenize text) : t.range ≠ .empty 0 := by
    intro nothing
    rw [text_of_empty member nothing, diagnostics_of_empty] at told
    cases told
  refine ⟨fun d member => ?_, ?_⟩
  · obtain ⟨f, fault, told⟩ := List.mem_filterMap.mp member
    obtain ⟨aims, place⟩ := aims_of_fault fault
    have range : d.range = f.token.range := Fault.diagnostic?_range told
    rw [range, Fault.diagnostic?_code told, Fault.diagnostic?_related told]
    refine ⟨⟨f.token, marks_of_mem aims.token_mem, place⟩, filled member aims.token_mem, ?_⟩
    intro r related
    obtain ⟨t, known, same⟩ := Fault.report_related related
    have both : [t, f.token].Sublist (tokenize text) := by
      have tokens := aims.tokens
      rwa [Fault.tokens, Option.mem_def.mp known] at tokens
    have inside : t ∈ tokenize text := both.mem List.mem_cons_self
    have apart := (lex_tiled text).apart.sublist both
    rw [same]
    refine ⟨filled member inside, List.rel_of_pairwise_cons apart (List.mem_singleton_self _), ?_⟩
    exact ⟨t, marks_of_mem inside, Kind.isOpener_iff.mp (aims.opens t known)⟩
  · rw [List.pairwise_map, parse_diagnostics]
    refine (faults_sorted limits text).filterMap _ fun f g before d told d' told' => ?_
    rw [Fault.diagnostic?_range told, Fault.diagnostic?_range told']
    exact before

end ConfigSyntax
