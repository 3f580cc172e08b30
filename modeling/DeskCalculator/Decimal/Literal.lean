/-!
Decimal literals: an optional sign, then digits with at most one point among or around them. The
value counts the digits as an integer over `10^k`, where `k` digits follow the point; `k` is kept in
32 bits.
-/
namespace DeskCalculator.Decimal

/-- A count as 32 bits keep it. -/
def counted (n : Nat) : Nat :=
  n % UInt32.size

def splitAtPoint (cs : List Char) : List Char × List Char :=
  (cs.takeWhile (· != '.'), (cs.dropWhile (· != '.')).drop 1)

def ofUnsigned? (cs : List Char) : Option Rat :=
  let (whole, frac) := splitAtPoint cs
  let digits := whole ++ frac
  if digits.all Char.isDigit && !digits.isEmpty then
    some ((Nat.ofDigitChars 10 digits 0 : Nat) / 10 ^ counted frac.length)
  else none

def ofChars? : List Char → Option Rat
  | '-' :: cs => (ofUnsigned? cs).map fun v => -v
  | '+' :: cs => ofUnsigned? cs
  | cs => ofUnsigned? cs

def ofString? (s : String) : Option Rat :=
  ofChars? s.toList

/-- The scale that a spelling announces: the bytes after its first point, zero without a point. -/
def writtenScale (s : String) : Nat :=
  counted (String.ofList (splitAtPoint s.toList).2).utf8ByteSize

end DeskCalculator.Decimal
