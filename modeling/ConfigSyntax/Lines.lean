import ConfigSyntax.Range

/-! Lines and columns. Both count from zero, and columns count bytes. -/

namespace ConfigSyntax

structure Position where
  line : Nat
  column : Nat
  deriving DecidableEq, Repr

namespace Position

def order (p q : Position) : Ordering := (compare p.line q.line).then (compare p.column q.column)

instance : Ord Position := ⟨order⟩
instance : LE Position := leOfOrd
instance : LT Position := ltOfOrd

instance (p q : Position) : Decidable (p ≤ q) :=
  inferInstanceAs (Decidable ((order p q).isLE = true))
instance (p q : Position) : Decidable (p < q) := inferInstanceAs (Decidable (order p q = .lt))

end Position

structure Span where
  start : Position
  stop : Position
  deriving DecidableEq, Repr

namespace Span

def contains (s : Span) (p : Position) : Bool := s.start ≤ p && p ≤ s.stop

def isSingleLine (s : Span) : Bool := s.start.line = s.stop.line

end Span

structure Lines where
  starts : List Nat
  size : Nat
  deriving DecidableEq, Repr

namespace Lines

def lineFeed : UInt8 := 10

def startsAfter (offset : Nat) : List UInt8 → List Nat
  | [] => []
  | b :: bs =>
    if b = lineFeed then (offset + 1) :: startsAfter (offset + 1) bs
    else startsAfter (offset + 1) bs

def ofBytes (bytes : List UInt8) : Lines := ⟨0 :: startsAfter 0 bytes, bytes.length⟩

def ofText (text : String) : Lines := ofBytes text.toByteArray.data.toList

def count (l : Lines) : Nat := l.starts.length

/-- The position of an offset. Offsets behind the text mean its end. -/
def position (l : Lines) (offset : Nat) : Position :=
  let offset := min offset l.size
  let before := l.starts.filter (· ≤ offset)
  ⟨before.length - 1, offset - before.getLastD 0⟩

def offset? (l : Lines) (p : Position) : Option Nat :=
  l.starts[p.line]?.map fun start => min (start + p.column) l.size

def span (l : Lines) (r : Range) : Span := ⟨l.position r.start, l.position r.stop⟩

end Lines
end ConfigSyntax
