import DeskCalculator.Rounding

/-!
Decimal text of a rational. A value that has at most `maxScale` decimals prints exactly, with as
few decimals as possible; any other one prints the decimals up to there, cut off towards zero.
-/
namespace DeskCalculator.Decimal

def maxScale : Nat := 64

/-- `v` has an exact decimal form with `scale` decimals. -/
def HasScale (v : Rat) (scale : Nat) : Prop :=
  (v * 10 ^ scale).den = 1

instance (v : Rat) (scale : Nat) : Decidable (HasScale v scale) :=
  inferInstanceAs (Decidable ((v * 10 ^ scale).den = 1))

/-- The first scale that fits `v` among `start` and the `count` scales before `start + count`;
`start + count` when none of them does. -/
def leastScaleWithin (v : Rat) (start : Nat) : Nat → Nat
  | 0 => start
  | count + 1 => if HasScale v start then start else leastScaleWithin v (start + 1) count

def leastScale (v : Rat) (start : Nat) : Nat :=
  leastScaleWithin v (min start maxScale) (maxScale - start)

def paddedDigits (width n : Nat) : List Char :=
  let digits := Nat.toDigits 10 n
  List.replicate (width - digits.length) '0' ++ digits

/-- The text of `n / 10^scale` with exactly `scale` decimals: the digits of `n`, and the point
before the last `scale` of them. -/
def fixedPoint (n : Int) (scale : Nat) : List Char :=
  let digits := paddedDigits (scale + 1) n.natAbs
  let (whole, frac) := digits.splitAt (digits.length - scale)
  (if n < 0 then ['-'] else []) ++ whole ++ (if frac.isEmpty then [] else '.' :: frac)

def truncated (v : Rat) : Rat :=
  roundTo .toZero maxScale v

def exactChars (v : Rat) (scale : Nat) : List Char :=
  fixedPoint (v * 10 ^ scale).num scale

def toChars (v : Rat) : List Char :=
  exactChars (truncated v) (leastScale (truncated v) 0)

def toText (v : Rat) : String :=
  String.ofList (toChars v)

/-- The text of `v` with exactly `scale` decimals where that is exact, else its `toText`. -/
def toTextAt (v : Rat) (scale : Nat) : String :=
  if HasScale v scale then String.ofList (exactChars v scale) else toText v

/-! ### The printer, step by step -/

def pow10 (k : Nat) : Nat :=
  Nat.pow 10 k

def scaledChars (n : Int) (digits : Nat) : List Char :=
  let sign := if n < 0 then ['-'] else []
  let whole := Nat.toDigits 10 (n.natAbs / pow10 digits)
  if digits = 0 then sign ++ whole
  else sign ++ whole ++ '.' :: paddedDigits digits (n.natAbs % pow10 digits)

def trimmed (cs : List Char) : List Char :=
  if '.' ∈ cs then
    match cs.reverse.dropWhile (· == '0') with
    | '.' :: rest => rest.reverse
    | rest => rest.reverse
  else cs

def printed (v : Rat) : String :=
  let digits := leastScale v 0
  String.ofList (trimmed (scaledChars ((v.num * pow10 digits).tdiv v.den) digits))

def printedAt (v : Rat) (scale : Nat) : String :=
  let n := v.num * pow10 scale
  if n.tmod v.den = 0 then String.ofList (scaledChars (n.tdiv v.den) scale) else printed v

end DeskCalculator.Decimal
