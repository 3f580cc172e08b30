import DeskCalculator.Binary64.Basic
import DeskCalculator.Rounding

/-!
The binary64 number nearest to a rational, a tie going to the even code. Magnitudes from half a
unit above the largest finite one on go to infinity.
-/
namespace DeskCalculator.Binary64

/-- The exponent of the spacing of the magnitudes around `v`, or one less: the bit lengths of the
two parts of a fraction fix its leading bit up to one place. Never below `-1074`. -/
def fineExponent (v : Rat) : Int :=
  max (-1074) ((v.num.natAbs.log2 : Int) - v.den.log2 - 53)

def spacingExponent (v : Rat) : Int :=
  if v < 2 ^ (fineExponent v + 53) then fineExponent v else fineExponent v + 1

def nearestCode (v : Rat) : Nat :=
  if v = 0 then 0
  else
    let e := spacingExponent v
    let significand := RoundingMode.toEven.toInteger (v / 2 ^ e)
    -- a significand rounded up to the next power of two carries into the exponent
    min infinityCode (((e + 1074) * leadingBit + significand).toNat)

def nearest (v : Rat) : UInt64 :=
  if v < 0 then ofCode true (nearestCode (-v)) else ofCode false (nearestCode v)

end DeskCalculator.Binary64
