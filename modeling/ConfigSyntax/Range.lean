/-! Ranges of byte offsets. -/

namespace ConfigSyntax

structure Range where
  start : Nat
  stop : Nat
  start_le_stop : start ≤ stop
  deriving DecidableEq, Repr

namespace Range

def ofBounds? (start stop : Nat) : Option Range :=
  if h : start ≤ stop then some ⟨start, stop, h⟩ else none

def ofWidth (start width : Nat) : Range := ⟨start, start + width, Nat.le_add_right ..⟩

def empty (offset : Nat) : Range := ofWidth offset 0

protected def toString (r : Range) : String := s!"{r.start}..{r.stop}"

instance : ToString Range := ⟨Range.toString⟩

end Range
end ConfigSyntax
