/-! How deep elements and values may nest. -/

namespace ConfigSyntax

/-- Each object element and each value counts one level: `a = 1` takes two, `a = f(1)` three. -/
structure Limits where
  maxDepth : Nat := 128
  deriving DecidableEq, Repr

namespace Limits

instance : Inhabited Limits := ⟨{}⟩

/-- A property and its value. -/
def leastDepth : Nat := 2

/-- A limit under which no property could have a value is raised to the least one. -/
def withMaxDepth (l : Limits) (depth : Nat) : Limits := { l with maxDepth := max leastDepth depth }

end Limits
end ConfigSyntax
