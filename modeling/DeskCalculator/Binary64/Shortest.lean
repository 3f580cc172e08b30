import DeskCalculator.Binary64.Basic

/-!
The shortest decimal that reads back as a given binary64 number. The decimals that read back are
those up to the midpoints towards the two neighbouring magnitudes, the midpoints included when the
code is even. The coarsest decimal grid with such a point wins; on it the point nearest to the
number, and of two equally near ones the larger.
-/
namespace DeskCalculator.Binary64

def lowerMidpoint (code : Nat) : Rat :=
  (magnitude (code - 1) + magnitude code) / 2

def upperMidpoint (code : Nat) : Rat :=
  (magnitude code + magnitude (code + 1)) / 2

def readsBack (code : Nat) (x : Rat) : Bool :=
  if code % 2 = 0 then decide (lowerMidpoint code ≤ x) && decide (x ≤ upperMidpoint code)
  else decide (lowerMidpoint code < x) && decide (x < upperMidpoint code)

/-- The point of the grid `10^k` that stands for a code, when one of the two next to its magnitude
reads back. -/
def onGrid? (code : Nat) (k : Int) : Option Rat :=
  let v := magnitude code
  let n := (v / 10 ^ k).floor
  let low : Rat := n * 10 ^ k
  let high : Rat := (n + 1) * 10 ^ k
  match readsBack code low, readsBack code high with
  | true, true => some (if v - low < high - v then low else high)
  | true, false => some low
  | false, true => some high
  | false, false => none

def leadingExponent (v : Rat) : Int :=
  if v.num.natAbs < v.den then 1 - ((Nat.toDigits 10 (v.den / v.num.natAbs)).length : Int)
  else (Nat.toDigits 10 (v.num.natAbs / v.den)).length - 1

def firstOnGrid (code : Nat) (k : Int) : Nat → Rat
  | 0 => magnitude code
  | count + 1 => (onGrid? code k).getD (firstOnGrid code (k - 1) count)

/-- Seventeen digits tell any two binary64 numbers apart, one more grid allows for a leading
exponent that is one too large. -/
def shortestMagnitude (code : Nat) : Rat :=
  if code = 0 then 0
  else firstOnGrid code (leadingExponent (upperMidpoint code)) 18

def shortest? (bits : UInt64) : Option Rat :=
  if isFinite bits then
    some (if isNegative bits then -shortestMagnitude (code bits) else shortestMagnitude (code bits))
  else none

end DeskCalculator.Binary64
