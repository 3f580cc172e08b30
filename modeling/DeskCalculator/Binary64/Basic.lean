/-!
The IEEE 754 binary64 format on exact rationals. A finite magnitude is numbered by the lower 63
bits of its encoding, so that a larger code stands for a larger magnitude; the next code after the
finite ones is infinity, and the codes after it are no numbers.
-/
namespace DeskCalculator.Binary64

def leadingBit : Nat := 0x10000000000000

def infinityCode : Nat := 2047 * leadingBit

/-- The magnitude that a code stands for: a multiple of `2^-1074` while the exponent is zero, and
after that a significand of 53 bits whose leading bit is not written. -/
def magnitude (code : Nat) : Rat :=
  if code < leadingBit then (code : Rat) * 2 ^ (-1074 : Int)
  else ((code % leadingBit + leadingBit : Nat) : Rat) * 2 ^ ((code / leadingBit : Nat) - 1075 : Int)

def signBit : UInt64 := 0x8000000000000000

def code (bits : UInt64) : Nat :=
  bits.toNat % signBit.toNat

def isNegative (bits : UInt64) : Bool :=
  decide (signBit ≤ bits)

def isFinite (bits : UInt64) : Bool :=
  decide (code bits < infinityCode)

def ofCode (negative : Bool) (code : Nat) : UInt64 :=
  UInt64.ofNat code ||| (if negative then signBit else 0)

def value (bits : UInt64) : Rat :=
  if isNegative bits then -magnitude (code bits) else magnitude (code bits)

/-- The power of two encodings, with the rounding of the platform's mathematical library. -/
def power (base exponent : UInt64) : UInt64 :=
  (Float.pow (Float.ofBits base) (Float.ofBits exponent)).toBits

end DeskCalculator.Binary64
