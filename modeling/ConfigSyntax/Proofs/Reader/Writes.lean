import ConfigSyntax.Proofs.Conformance
import ConfigSyntax.Proofs.Gaps
import ConfigSyntax.Proofs.Reader.Stream
import ConfigSyntax.Reader.Rules
import Mathlib.Data.List.TakeWhile

/-! What a reader writes while it goes over the tokens, as outlines. Main statements:
`Writes.append`, `Writes.complete`, `Writes.precede`. -/

namespace ConfigSyntax

open Outline (kindsOfAll entriesOfAll faultsOfAll openerOf)

namespace Outline

/-- What is wrong with the later parts is seen from where they start, with the opener that the
earlier ones leave. -/
theorem faultsOfAll_split (last : Token) (opener : Option Token) (front back : List Outline)
    (ts : List Token) :
    (faultsOfAll last opener (front ++ back) ts).1 = (faultsOfAll last opener front ts).1 ++
      (faultsOfAll last (openerOf opener front ts) back (ts.drop (kindsOfAll front).length)).1 := by
  induction front generalizing opener ts with
  | nil => rfl
  | cons p ps ih =>
      simp only [List.cons_append, faultsOfAll, faults_rest, ih, openerOf, List.append_assoc,
        List.drop_drop, kindsOfAll, List.length_append]

theorem openerOf_append (opener : Option Token) (front back : List Outline) (ts : List Token) :
    openerOf opener (front ++ back) ts =
      openerOf (openerOf opener front ts) back (ts.drop (kindsOfAll front).length) := by
  induction front generalizing opener ts with
  | nil => rfl
  | cons p ps ih =>
      simp only [List.cons_append, openerOf, ih, List.drop_drop, kindsOfAll, List.length_append]

/-- What is wrong in a node has nothing to do with the parts around it. -/
theorem faults_of_node {o : Outline} {k : Kind} (node : o.kind? = some k) (opener : Option Token)
    (last : Token) (ts : List Token) : faults last opener o ts = faults last none o ts := by
  cases o with
  | token | gap => cases node
  | skipped => rfl
  | node => rfl

end Outline

namespace Reader

def ahead (r : Reader) : List Token := (r.significant.drop r.pos).takeWhile (·.kind ≠ .eof)

def kindsAhead (r : Reader) : List Kind := r.ahead.map (·.kind)

def last (r : Reader) : Token :=
  ((r.significant.drop r.pos).dropWhile (·.kind ≠ .eof)).headD
    (.endAt ((r.tokens.getLast?.map (·.range.stop)).getD 0))

variable {r r' : Reader}

theorem here_eq (r : Reader) : r.here = r.ahead.headD r.last := by
  rw [here, ← List.head?_drop, ahead, last]
  cases r.significant.drop r.pos with
  | nil => rfl
  | cons t ts => by_cases ended : t.kind = .eof <;> simp [ended]

theorem kind_eq (r : Reader) : r.kind = r.kindsAhead.headD .eof := by
  rw [kind, nth, Nat.add_zero, ← List.head?_drop, kindsAhead, ahead]
  cases r.significant.drop r.pos with
  | nil => rfl
  | cons t ts => by_cases ended : t.kind = .eof <;> simp [ended]

theorem nth_one {k : Kind} {ks : List Kind} (kinds : r.kindsAhead = k :: ks) :
    r.nth 1 = ks.headD .eof := by
  have next : r.significant[r.pos + 1]? = (r.significant.drop r.pos).tail.head? := by
    rw [List.tail_drop, List.head?_drop]
  rw [kindsAhead, ahead] at kinds
  rw [nth, next]
  revert kinds
  cases r.significant.drop r.pos with
  | nil => simp
  | cons t ts =>
      by_cases ended : t.kind = .eof
      · simp [ended]
      · rw [List.takeWhile_cons_of_pos (by simpa using ended), List.map_cons]
        intro kinds
        obtain ⟨-, rfl⟩ := List.cons.inj kinds
        cases ts with
        | nil => rfl
        | cons u us => by_cases ended : u.kind = .eof <;> simp [ended]

theorem ne_eof_of_mem {k : Kind} (member : k ∈ r.kindsAhead) : k ≠ .eof := by
  obtain ⟨t, within, rfl⟩ := List.mem_map.mp member
  simpa using List.mem_takeWhile_imp within

theorem takeWhile_drop {α : Type} {p : α → Bool} {n : Nat} {l : List α}
    (short : n ≤ (l.takeWhile p).length) :
    (l.drop n).takeWhile p = (l.takeWhile p).drop n ∧ (l.drop n).dropWhile p = l.dropWhile p := by
  induction l generalizing n with
  | nil => simp
  | cons a l ih =>
      cases n with
      | zero => simp
      | succ n =>
          by_cases holds : p a = true
          · simp only [List.takeWhile_cons_of_pos holds, List.length_cons,
              Nat.add_le_add_iff_right] at short
            simpa [holds] using ih short
          · simp [holds] at short

theorem ahead_of_pos {n : Nat} (tokens : r'.tokens = r.tokens) (pos : r'.pos = r.pos + n)
    (short : n ≤ r.ahead.length) : r'.ahead = r.ahead.drop n ∧ r'.last = r.last := by
  have front := takeWhile_drop short
  rw [List.drop_drop] at front
  unfold ahead last significant at *
  rw [tokens, pos, front.1, front.2]
  exact ⟨rfl, rfl⟩

theorem filterMap_one {α β : Type} (f : α → Option β) (a : α) : [a].filterMap f = (f a).toList := by
  cases answer : f a <;> simp [answer]

def write (op : Option Token) (parts : List Outline) (r : Reader) : Reader :=
  let faults := (faultsOfAll r.last op parts r.ahead).1
  { r with
    pos := r.pos + (kindsOfAll parts).length
    entries := r.entries ++ entriesOfAll parts
    diagnostics := r.diagnostics ++ faults.filterMap (·.diagnostic?)
    log := r.log ++ faults.filterMap (·.trace?) }

/-- From `r` to `r'` the reader goes over the parts `out.1`, with `out.2` left ahead. The opener
that a missing closer would belong to is `op` before and `op'` after that. -/
structure Writes (op : Option Token) (r : Reader) (out : List Outline × List Kind)
    (op' : Option Token) (r' : Reader) : Prop where
  same : r' = r.write op out.1
  split : kindsOfAll out.1 ++ out.2 = r.kindsAhead
  opener : op' = openerOf op out.1 r.ahead

namespace Writes

variable {op op' op'' : Option Token} {out : List Outline × List Kind} {r'' : Reader}

theorem short (writes : Writes op r out op' r') :
    (kindsOfAll out.1).length ≤ r.ahead.length := by
  have length := congrArg List.length writes.split
  rw [kindsAhead, List.length_map, List.length_append] at length
  omega

theorem ahead_last (writes : Writes op r out op' r') :
    r'.ahead = r.ahead.drop (kindsOfAll out.1).length ∧ r'.last = r.last := by
  rw [writes.same]
  exact ahead_of_pos rfl rfl writes.short

theorem kindsAhead (writes : Writes op r out op' r') : r'.kindsAhead = out.2 := by
  rw [Reader.kindsAhead, writes.ahead_last.1, List.map_drop, ← Reader.kindsAhead, ← writes.split,
    List.drop_left]

theorem levels (writes : Writes op r out op' r') : r'.levels = r.levels := by
  rw [writes.same]
  rfl

theorem pos (writes : Writes op r out op' r') :
    r'.pos = r.pos + (kindsOfAll out.1).length := by
  rw [writes.same]
  rfl

theorem pos_lt (writes : Writes op r out op' r')
    (shorter : out.2.length < r.kindsAhead.length) : r.pos < r'.pos := by
  have length := congrArg List.length writes.split
  rw [List.length_append] at length
  rw [writes.pos]
  omega

theorem nil (op : Option Token) (r : Reader) : Writes op r ([], r.kindsAhead) op r where
  same := by simp [write, Outline.kindsOfAll, Outline.entriesOfAll, Outline.faultsOfAll]
  split := rfl
  opener := rfl

theorem append {parts : List Outline} {rest : List Kind} (first : Writes op r out op' r')
    (second : Writes op' r' (parts, rest) op'' r'') :
    Writes op r (out.1 ++ parts, rest) op'' r'' where
  same := by
    have faults := Outline.faultsOfAll_split r.last op out.1 parts r.ahead
    rw [second.same, write, first.ahead_last.1, first.ahead_last.2, first.opener, first.same]
    simp [write, faults, Outline.kindsOfAll_append, Outline.entriesOfAll_append, Nat.add_assoc]
  split := by rw [Outline.kindsOfAll_append, List.append_assoc, second.split, first.kindsAhead,
    first.split]
  opener := by
    rw [second.opener, first.ahead_last.1, first.opener, Outline.openerOf_append]

theorem ahead_cons {k : Kind} {ks : List Kind} (kinds : r.kindsAhead = k :: ks) :
    ∃ t ts, r.ahead = t :: ts ∧ t.kind = k ∧ r.significant[r.pos]? = some t := by
  obtain ⟨t, ts, ahead, rfl, -⟩ := List.map_eq_cons_iff.mp kinds
  refine ⟨t, ts, ahead, rfl, ?_⟩
  rw [Reader.ahead] at ahead
  rw [← List.head?_drop, ← List.takeWhile_append_dropWhile (p := (·.kind ≠ .eof))
    (l := r.significant.drop r.pos), ahead]
  rfl

theorem token (op : Option Token) {k : Kind} {ks : List Kind} (kinds : r.kindsAhead = k :: ks) :
    Writes op r ([.token k], ks) (if k.isOpener then some r.here else op) r.next where
  same := by
    obtain ⟨t, ts, ahead, rfl, here⟩ := ahead_cons kinds
    have inner : t.kind ≠ .eof := ne_eof_of_mem (kinds ▸ List.mem_cons_self)
    rw [next, here]
    simp only [inner, if_false, write, ahead]
    cases fault : t.fault? <;>
      simp [fault, say, Outline.faultsOfAll, Outline.faults, Outline.kindsOfAll, Outline.kinds,
        Outline.entriesOfAll, Outline.entries, filterMap_one]
  split := kinds.symm
  opener := by
    obtain ⟨t, ts, ahead, -, -⟩ := ahead_cons kinds
    simp [openerOf, Outline.opener?, here_eq, ahead]

theorem gap (g : Gap) (op : Option Token) (r : Reader) :
    Writes op r ([.gap g], r.kindsAhead) op (r.say ⟨.gap g op, r.here⟩) where
  same := by
    simp [write, say, here_eq, Outline.faultsOfAll, Outline.faults, Outline.kindsOfAll,
      Outline.kinds, Outline.entriesOfAll, Outline.entries, filterMap_one]
  split := rfl
  opener := rfl

end Writes

/-- The reader has opened a node, with `front` behind it that the node is opened around. The
entries of `front` are `links` now. -/
structure Opens (r : Reader) (front : List Outline) (links : List Entry) (mid : List Kind)
    (r' : Reader) : Prop where
  same : r' = (r.write none front).withEntries (r.entries ++ links ++ [.blank])
  split : kindsOfAll front ++ mid = r.kindsAhead
  opener : openerOf none front r.ahead = none

def opened (r : Reader) : Reader := r.withEntries (r.entries ++ [.blank])

theorem run_start (r : Reader) : start.run r = some (⟨r.entries.length⟩, r.opened) := rfl

theorem opens_start (r : Reader) : Opens r [] [] r.kindsAhead r.opened where
  same := by simp [opened, write, withEntries, Outline.kindsOfAll, Outline.faultsOfAll]
  split := rfl
  opener := rfl

theorem Writes.precede {op : Option Token} {o : Outline} {k : Kind} {mid : List Kind}
    (writes : Writes op r ([o], mid) op r') (node : o.kind? = some k) :
    ∃ es, (precede ⟨r.entries.length + o.head⟩).run r' =
        some (⟨r.entries.length + o.size⟩, r'.withEntries es) ∧
      Opens r [o] (o.entries (some o.distance)) mid (r'.withEntries es) := by
  have entries : r'.entries = r.entries ++ o.entries none := by
    simp [writes.same, write, Outline.entriesOfAll]
  have within : o.head < (o.entries none).length := by
    rw [Outline.length_entries]
    exact Outline.head_lt_size node
  have start :
      (r'.entries ++ [Entry.blank])[r.entries.length + o.head]? = some (.start k none) := by
    rw [entries, List.append_assoc, List.getElem?_append_right (Nat.le_add_right ..),
      Nat.add_sub_cancel_left, List.getElem?_append_left within]
    exact Outline.start_entries node none
  have distance : r.entries.length + o.size - (r.entries.length + o.head) = o.distance := by
    rw [Outline.distance]
    omega
  have length : r'.entries.length = r.entries.length + o.size := by
    rw [entries, List.length_append, Outline.length_entries]
  refine ⟨r.entries ++ o.entries (some o.distance) ++ [.blank], ?_, ?_⟩
  · have set : (r'.entries ++ [Entry.blank]).set (r.entries.length + o.head)
        (.start k (some o.distance)) = r.entries ++ o.entries (some o.distance) ++ [.blank] := by
      rw [entries, Outline.entries_eq_set node (some o.distance) none, List.append_assoc,
        List.set_append_right _ _ (Nat.le_add_right ..), Nat.add_sub_cancel_left,
        List.set_append_left _ _ within, List.append_assoc]
    simp only [Reader.precede, StateT.run_bind, run_start, opened]
    simp [withEntries, start, Entry.withParent, length, distance, set]
  · have same : r.write op [o] = r.write none [o] := by
      simp [write, Outline.faultsOfAll, Outline.faults_of_node node op]
    refine ⟨?_, writes.split, ?_⟩
    · rw [writes.same, same]
    · cases o with
      | token | gap => cases node
      | _ => rfl

theorem Writes.withEntries {op op' : Option Token} {out : List Outline × List Kind}
    (es : List Entry) (writes : Writes op (r.withEntries es) out op' r') :
    Writes op r out op' (r.write op out.1) where
  same := rfl
  split := writes.split
  opener := writes.opener

theorem write_node (op : Option Token) (k : Kind) (parts : List Outline) (r : Reader) :
    r.write op [.node k parts] =
      (r.write none parts).withEntries (r.entries ++ (Outline.node k parts).entries none) := by
  simp [write, withEntries, Outline.faultsOfAll, Outline.faults, Outline.kindsOfAll,
    Outline.kinds, Outline.entriesOfAll]

theorem Opens.complete {front parts : List Outline} {links : List Entry} {mid rest : List Kind}
    {op : Option Token} {k : Kind} {r'' : Reader} (opens : Opens r front links mid r')
    (inside : Writes none r' (parts, rest) op r'')
    (fits : Outline.entriesWithin k none (front ++ parts) =
      links ++ .start k none :: entriesOfAll parts) :
    ∃ es, (complete ⟨r.entries.length + links.length⟩ k).run r'' =
        some (⟨r.entries.length + links.length⟩, r''.withEntries es) ∧
      Writes none r ([.node k (front ++ parts)], rest) none (r''.withEntries es) := by
  have before : Writes none r (front, mid) none (r.write none front) :=
    ⟨rfl, opens.split, opens.opener.symm⟩
  have all := before.append (Writes.withEntries _ (opens.same ▸ inside))
  have entries : r''.entries = r.entries ++ links ++ Entry.blank :: entriesOfAll parts := by
    simp [inside.same, opens.same, write, Reader.withEntries]
  have index : (r.entries ++ links).length = r.entries.length + links.length := by simp
  have node : r''.entries.set (r.entries.length + links.length) (.start k none) ++ [.finish] =
      r.entries ++ (Outline.node k (front ++ parts)).entries none := by
    rw [Outline.entries, fits, entries, ← index, List.set_append_right _ _ le_rfl]
    simp
  have written : r''.withEntries (r.entries ++ (Outline.node k (front ++ parts)).entries none) =
      r.write none [.node k (front ++ parts)] := by
    rw [write_node, ← all.same, inside.same, opens.same]
    rfl
  have there : r''.entries[r.entries.length + links.length]? = some .blank := by
    rw [entries, ← index]
    simp
  refine ⟨r.entries ++ (Outline.node k (front ++ parts)).entries none, ?_, written, ?_, rfl⟩
  · rw [← node]
    simp [Reader.complete, there, Entry.blank, Entry.withKind]
  · rw [← all.split]
    simp [Outline.kinds]

theorem Writes.complete {parts : List Outline} {rest : List Kind} {op : Option Token} {k : Kind}
    (inside : Writes none r.opened (parts, rest) op r')
    (plain : ∀ p ∈ parts.head?, Outline.wraps k p = false) :
    ∃ es, (complete ⟨r.entries.length⟩ k).run r' =
        some (⟨r.entries.length⟩, r'.withEntries es) ∧
      Writes none r ([.node k parts], rest) none (r'.withEntries es) :=
  (opens_start r).complete inside (Outline.entriesWithin_plain plain none)

theorem Writes.of_node {o : Outline} {k : Kind} {rest : List Kind}
    (writes : Writes none r ([o], rest) none r') (node : o.kind? = some k) (op : Option Token) :
    Writes op r ([o], rest) op r' where
  same := by
    rw [writes.same]
    simp [write, Outline.faultsOfAll, Outline.faults_of_node node op]
  split := writes.split
  opener := by
    cases o with
    | token | gap => cases node
    | _ => rfl

theorem faultsOfAll_tokens (last : Token) (op : Option Token) (ks : List Kind) (ts : List Token) :
    (faultsOfAll last op (ks.map .token) ts).1 = (ts.take ks.length).filterMap Token.fault? := by
  induction ks generalizing op ts with
  | nil => simp [Outline.faultsOfAll]
  | cons k ks ih =>
      rw [List.map_cons, Outline.faultsOfAll, Outline.faults, ih, Token.head?_faults,
        ← List.filterMap_append, List.length_cons, Nat.add_comm, List.take_add]

theorem entriesOfAll_tokens (ks : List Kind) :
    entriesOfAll (ks.map .token) = ks.map fun _ => .token := by
  induction ks with
  | nil => rfl
  | cons k ks ih => simp [Outline.entriesOfAll, Outline.entries, ih]

structure Takes (r : Reader) (n : Nat) (r' : Reader) : Prop where
  same : r' = r.write none ((r.kindsAhead.take n).map .token)
  short : n ≤ r.kindsAhead.length

namespace Takes

variable {m n : Nat} {r'' : Reader}

theorem writes (takes : Takes r n r') (op : Option Token) : ∃ op',
    Writes op r ((r.kindsAhead.take n).map .token, r.kindsAhead.drop n) op' r' := by
  refine ⟨_, ?_, ?_, rfl⟩
  · rw [takes.same]
    simp only [write, faultsOfAll_tokens]
  · rw [Outline.kindsOfAll_tokens, List.take_append_drop]

theorem kindsAhead (takes : Takes r n r') : r'.kindsAhead = r.kindsAhead.drop n := by
  obtain ⟨op, writes⟩ := takes.writes none
  exact writes.kindsAhead

theorem levels (takes : Takes r n r') : r'.levels = r.levels := by
  rw [takes.same]
  rfl

theorem zero (r : Reader) : Takes r 0 r := ⟨(Writes.nil none r).same, Nat.zero_le _⟩

theorem one {k : Kind} {ks : List Kind} (kinds : r.kindsAhead = k :: ks) : Takes r 1 r.next := by
  have token := Writes.token none kinds
  exact ⟨by simpa [kinds] using token.same, by simp [kinds]⟩

theorem append (first : Takes r m r') (second : Takes r' n r'') : Takes r (m + n) r'' := by
  obtain ⟨op, front⟩ := first.writes none
  obtain ⟨op', back⟩ := second.writes op
  have short := second.short
  rw [first.kindsAhead] at back short
  have all := front.append back
  rw [← List.map_append, ← List.take_add] at all
  have bound := first.short
  rw [List.length_drop] at short
  exact ⟨all.same, by omega⟩

end Takes

/-- The tokens of an error are taken after it is told of. -/
theorem Takes.complete {why : Skip} {n : Nat}
    (takes : Takes (r.say ⟨.skipped why, r.here⟩).opened n r') :
    ∃ s, (complete ⟨r.entries.length⟩ .error).run r' = some (⟨r.entries.length⟩, s) ∧
      Writes none r ([.skipped why (r.kindsAhead.take n)], r.kindsAhead.drop n) none s := by
  obtain ⟨same, short⟩ := takes
  have split := List.take_append_drop n r.kindsAhead
  replace same : r' = (r.say ⟨.skipped why, r.here⟩).opened.write none
    ((r.kindsAhead.take n).map .token) := same
  generalize r.kindsAhead.take n = ks at *
  have entries : r'.entries = r.entries ++ Entry.blank :: entriesOfAll (ks.map .token) := by
    simp [same, opened, write, withEntries, say]
  have there : r'.entries[r.entries.length]? = some .blank := by simp [entries]
  have faults : (faultsOfAll r.last none [.skipped why ks] r.ahead).1 =
      ⟨.skipped why, r.here⟩ :: (faultsOfAll r.last none (ks.map .token) r.ahead).1 := by
    simp [Outline.faultsOfAll, Outline.faults, faultsOfAll_tokens, here_eq]
  have written :
      r'.withEntries (r'.entries.set r.entries.length (.start .error none) ++ [.finish]) =
        r.write none [.skipped why ks] := by
    have told {α : Type} (tell : Fault → Option α) (fs : List Fault) :
        (tell ⟨.skipped why, r.here⟩).toList ++ fs.filterMap tell =
          (⟨.skipped why, r.here⟩ :: fs).filterMap tell := by
      rw [← filterMap_one, ← List.filterMap_append]
      rfl
    have tokens : kindsOfAll [.skipped why ks] = kindsOfAll (ks.map .token) := by
      simp [Outline.kindsOfAll_tokens, Outline.kinds]
    have stream : r'.entries.set r.entries.length (.start .error none) ++ [.finish] =
        r.entries ++ entriesOfAll [.skipped why ks] := by
      simp [entries, Outline.entriesOfAll, Outline.entries, entriesOfAll_tokens]
    rw [stream]
    simp only [write, faults, ← told, tokens, same, ← List.append_assoc]
    rfl
  refine ⟨r.write none [.skipped why ks], ?_, rfl, ?_, rfl⟩
  · rw [← written]
    simp [Reader.complete, there, Entry.blank, Entry.withKind]
  · simpa [Outline.kinds] using split

end Reader
end ConfigSyntax
