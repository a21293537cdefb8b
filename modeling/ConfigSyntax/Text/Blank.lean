/-! Blank characters, and text without them at its ends. -/

namespace ConfigSyntax.Text

/-- The characters with the property White_Space. -/
def isBlank (c : Char) : Bool :=
  let n := c.toNat
  (9 ≤ n && n ≤ 13) || n = 0x20 || n = 0x85 || n = 0xa0 || n = 0x1680 ||
    (0x2000 ≤ n && n ≤ 0x200a) || n = 0x2028 || n = 0x2029 || n = 0x202f || n = 0x205f ||
    n = 0x3000

def trimStart (cs : List Char) : List Char := cs.dropWhile isBlank

def trim (cs : List Char) : List Char := (trimStart (trimStart cs).reverse).reverse

/-- The lines of a text, at least one. -/
def lines : List Char → List (List Char)
  | [] => [[]]
  | c :: cs =>
    match c, lines cs with
    | '\n', ls => [] :: ls
    | c, [] => [[c]]
    | c, l :: ls => (c :: l) :: ls

end ConfigSyntax.Text
