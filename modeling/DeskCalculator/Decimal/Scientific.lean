import DeskCalculator.Binary64.Nearest

/-!
Decimals with an exponent. The size of one is judged from the number of its digits, so that no
power of a large exponent is ever computed.
-/
namespace DeskCalculator

structure Scientific where
  digits : Nat
  exponent : Int
  deriving DecidableEq

namespace Scientific

def value (s : Scientific) : Rat :=
  s.digits * 10 ^ s.exponent

def order (s : Scientific) : Int :=
  (Nat.toDigits 10 s.digits).length + s.exponent

/-- The nearest binary64 number is finite. The largest finite one has 309 digits before its point. -/
def fitsBinary64 (s : Scientific) : Bool :=
  s.digits == 0 || decide (s.order < 309)
    || (s.order == 309 && decide (Binary64.nearestCode s.value < Binary64.infinityCode))

end Scientific

end DeskCalculator
