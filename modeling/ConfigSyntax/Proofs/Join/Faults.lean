import ConfigSyntax.Proofs.Alike
import ConfigSyntax.Proofs.Origin
import ConfigSyntax.Proofs.Seam.Tokens

/-! What is wrong with tokens further on in a text: the same, further on, in the same order. Main
statements: `foldr_insert_alike`, `faultsOfAll_append`. -/

namespace ConfigSyntax

open Outline (kindsOfAll)

def Range.shift (d : Nat) (r : Range) : Range :=
  ⟨r.start + d, r.stop + d, Nat.add_le_add_right r.start_le_stop d⟩

def Related.shift (d : Nat) (r : Related) : Related := { r with range := r.range.shift d }

def Diagnostic.shift (d : Nat) (x : Diagnostic) : Diagnostic :=
  { x with range := x.range.shift d, related := x.related.map (·.shift d) }

def Range.Moved (d : Nat) (r r' : Range) : Prop := r' = r.shift d

theorem Range.shift_ofWidth (d start width : Nat) :
    (ofWidth start width).shift d = ofWidth (start + d) width := by
  simp only [ofWidth, shift, Nat.add_right_comm start width d]

theorem Token.shift_alike (d : Nat) (t : Token) : t.Alike (Range.Moved d) (t.shift d) :=
  ⟨rfl, rfl, (Range.shift_ofWidth d _ _).symm⟩

theorem Token.map_shift_alike (d : Nat) (ts : List Token) :
    List.Forall₂ (Token.Alike (Range.Moved d)) ts (ts.map (·.shift d)) := by
  induction ts with
  | nil => exact .nil
  | cons t ts ih => exact .cons (shift_alike d t) ih

theorem Related.eq_map_shift {d : Nat} {rs rs' : List Related}
    (alike : List.Forall₂ (Related.Alike (Range.Moved d)) rs rs') :
    rs' = rs.map (·.shift d) := by
  induction alike with
  | nil => rfl
  | @cons r r' _ _ first _ ih =>
      obtain ⟨message, range⟩ := r
      obtain ⟨message', range'⟩ := r'
      obtain ⟨rfl, rfl⟩ := first
      rw [ih]
      rfl

theorem Diagnostic.eq_map_shift {d : Nat} {xs xs' : List Diagnostic}
    (alike : List.Forall₂ (Diagnostic.Alike (Range.Moved d)) xs xs') :
    xs' = xs.map (·.shift d) := by
  induction alike with
  | nil => rfl
  | @cons x x' _ _ first _ ih =>
      have related := Related.eq_map_shift first.related
      obtain ⟨code, message, range, expected, hint, rs⟩ := x
      obtain ⟨code', message', range', expected', hint', rs'⟩ := x'
      obtain ⟨rfl, rfl, rfl, rfl, rfl, -⟩ := first
      cases related
      rw [ih]
      rfl

namespace Fault

theorem insert_cons (f g : Fault) (fs : List Fault) :
    f.insert (g :: fs) =
      if g.range.start < f.range.start then g :: f.insert fs else f :: g :: fs := by
  simp only [insert, List.takeWhile_cons, List.dropWhile_cons, decide_eq_true_eq]
  split <;> rfl

theorem start_of_alike {d : Nat} {f f' : Fault} (alike : f.Alike (Range.Moved d) f') :
    f'.range.start = f.range.start + d :=
  congrArg Range.start alike.token.range

theorem insert_alike {d : Nat} {f f' : Fault} {fs fs' : List Fault}
    (alike : f.Alike (Range.Moved d) f')
    (others : List.Forall₂ (Fault.Alike (Range.Moved d)) fs fs') :
    List.Forall₂ (Fault.Alike (Range.Moved d)) (f.insert fs) (f'.insert fs') := by
  induction others with
  | nil => exact .cons alike .nil
  | cons first rest ih =>
      rw [insert_cons, insert_cons, start_of_alike alike, start_of_alike first]
      simp only [Nat.add_lt_add_iff_right]
      split
      · exact .cons first ih
      · exact .cons alike (.cons first rest)

theorem foldr_insert_alike {d : Nat} {fs fs' gs gs' : List Fault}
    (alike : List.Forall₂ (Fault.Alike (Range.Moved d)) fs fs')
    (others : List.Forall₂ (Fault.Alike (Range.Moved d)) gs gs') :
    List.Forall₂ (Fault.Alike (Range.Moved d)) (fs.foldr insert gs) (fs'.foldr insert gs') := by
  have each : Relator.LiftFun (Fault.Alike (Range.Moved d))
      (Relator.LiftFun (List.Forall₂ (Fault.Alike (Range.Moved d)))
        (List.Forall₂ (Fault.Alike (Range.Moved d)))) insert insert :=
    fun _ _ first _ _ => insert_alike first
  exact List.rel_foldr each others alike

end Fault

theorem Outline.faultsOfAll_append (last : Token) (opener : Option Token) {front : List Outline}
    (nodes : ∀ p ∈ front, ∃ k c, p.symbol = .node k c) (back : List Outline) (ts : List Token) :
    (faultsOfAll last opener (front ++ back) ts).1 = (faultsOfAll last opener front ts).1 ++
      (faultsOfAll last opener back (ts.drop (kindsOfAll front).length)).1 := by
  induction front generalizing ts with
  | nil => rfl
  | cons p ps ih =>
      have same : opener? opener p ts = opener := by
        cases p with
        | token k =>
            obtain ⟨k', c, symbol⟩ := nodes _ List.mem_cons_self
            cases symbol
        | _ => rfl
      have more := ih (fun q member => nodes q (List.mem_cons_of_mem _ member))
        (faults last opener p ts).2
      rw [faults_rest, List.drop_drop] at more
      simp only [List.cons_append, faultsOfAll, same, faults_rest, more, List.append_assoc,
        kindsOfAll, List.length_append]

end ConfigSyntax
