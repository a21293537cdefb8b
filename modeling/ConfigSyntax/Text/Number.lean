/-! The numbers that texts write: whole ones of 64 bits, and doubles by their bit patterns. -/

namespace ConfigSyntax.Text

def digitsValue (ds : List Char) : Nat := ds.foldl (fun n d => 10 * n + (d.toNat - '0'.toNat)) 0

def isDigits (ds : List Char) : Bool := !ds.isEmpty && ds.all Char.isDigit

def sign? : List Char → Bool × List Char
  | '-' :: cs => (true, cs)
  | '+' :: cs => (false, cs)
  | cs => (false, cs)

def wholeNumber? (cs : List Char) : Option Int :=
  let (negative, ds) := sign? cs
  if isDigits ds then some (if negative then -(digitsValue ds : Int) else digitsValue ds) else none

def int64? (cs : List Char) : Option Int :=
  (wholeNumber? cs).filter fun n => Int64.minValue.toInt ≤ n ∧ n ≤ Int64.maxValue.toInt

namespace Double

def infinity : Nat := 0x7ff <<< 52

def notANumber : Nat := 0x7ff8 <<< 48

def signBit : Nat := 1 <<< 63

/-- The quotient, to the nearest whole number; halfway between two, to the even one. -/
def roundQuotient (a b : Nat) : Nat :=
  let q := a / b
  let r := a % b
  if 2 * r < b then q else if b < 2 * r then q + 1 else q + q % 2

/-- The double nearest to `a / b`. Its unit is a power of two, the least one for which the quotient
has no more than 53 bits, and 2 ^ -1074 at least. Unit and quotient together are the bit pattern:
a quotient that rounds up to 54 bits carries into the exponent. -/
def nearest (a b : Nat) : Nat :=
  let bits : Int := (a.log2 : Int) - b.log2
  let scaled (unit : Int) : Nat × Nat :=
    if 0 ≤ unit then (a, b <<< unit.toNat) else (a <<< (-unit).toNat, b)
  let small := scaled (bits - 53)
  let unit := max (-1074) (if small.1 < small.2 <<< 53 then bits - 53 else bits - 52)
  let quotient := scaled unit
  min infinity (((unit + 1074).toNat <<< 52) + roundQuotient quotient.1 quotient.2)

/-- The double nearest to `m * 10 ^ e`. Numbers of more than 309 digits are infinite, and those
below 10 ^ -330 are zero. -/
def ofDecimal (m : Nat) (e : Int) : Nat :=
  let size := (Nat.toDigits 10 m).length + e
  if m = 0 || size < -330 then 0
  else if 310 < size then infinity
  else if 0 ≤ e then nearest (m * Nat.pow 10 e.toNat) 1
  else nearest m (Nat.pow 10 (-e).toNat)

def exponent? : List Char → Option Int
  | [] => some 0
  | c :: cs => if c = 'e' || c = 'E' then wholeNumber? cs else none

def decimal? (cs : List Char) : Option Nat := do
  let whole := cs.takeWhile Char.isDigit
  let rest := cs.dropWhile Char.isDigit
  let (part, rest) :=
    match rest with
    | '.' :: rest => (rest.takeWhile Char.isDigit, rest.dropWhile Char.isDigit)
    | rest => ([], rest)
  if whole.isEmpty && part.isEmpty then none
  else
    let e ← exponent? rest
    some (ofDecimal (digitsValue (whole ++ part)) (e - part.length))

def magnitude? (cs : List Char) : Option Nat :=
  let word := String.ofList (cs.map Char.toLower)
  if word = "inf" || word = "infinity" then some infinity
  else if word = "nan" then some notANumber
  else decimal? cs

end Double

/-- The bit pattern of the double that a text writes. -/
def double? (cs : List Char) : Option UInt64 :=
  let (negative, rest) := sign? cs
  (Double.magnitude? rest).map fun n => .ofNat (if negative then Double.signBit + n else n)

end ConfigSyntax.Text
