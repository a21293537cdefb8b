/-! Quoted text: where it ends, and what it stands for. -/

namespace ConfigSyntax.Text

/-- The text starts with some quote and ends with `quote`, and the closing one is not escaped: an
even number of backslashes stands before it. -/
def isClosed (quote : Char) : List Char → Bool
  | [] => false
  | _ :: text =>
    match text.reverse with
    | [] => false
    | last :: body => last = quote && (body.takeWhile (· = '\\')).length % 2 = 0

/-- What stands after the opening quote, which is one byte long. -/
def afterQuote : List Char → List Char
  | [] => []
  | c :: cs => if c.utf8Size = 1 then cs else []

def hexDigit? (c : Char) : Option Nat :=
  if c.isDigit then some (c.toNat - '0'.toNat)
  else if 'a' ≤ c ∧ c ≤ 'f' then some (c.toNat - 'a'.toNat + 10)
  else if 'A' ≤ c ∧ c ≤ 'F' then some (c.toNat - 'A'.toNat + 10)
  else none

def hexNumber? (cs : List Char) : Option Nat :=
  cs.foldlM (fun n c => (hexDigit? c).map (16 * n + ·)) 0

/-- The character that four characters after `\u` stand for. A plus sign may take the place of the
first digit. -/
def codePoint? (a b c d : Char) : Option Char := do
  let n ← hexNumber? (if a = '+' then [b, c, d] else [a, b, c, d])
  if n.isValidChar then some (Char.ofNat n) else none

def escaped : Char → Char
  | 'n' => '\n'
  | 't' => '\t'
  | 'r' => '\r'
  | 'b' => '\x08'
  | 'f' => '\x0c'
  | c => c

/-- Resolves the escapes of a text. A backslash at its end stands for itself, and so does the `u` of
an escape that is no character. -/
def unescape : List Char → List Char
  | [] => []
  | '\\' :: 'u' :: a :: b :: c :: d :: cs =>
    match codePoint? a b c d with
    | some x => x :: unescape cs
    | none => 'u' :: unescape (a :: b :: c :: d :: cs)
  | '\\' :: c :: cs => escaped c :: unescape cs
  | c :: cs => c :: unescape cs

end ConfigSyntax.Text
