/-!
Rounding to a number of decimals. A value between two neighbours on the grid of multiples of
`10^-d` goes to the one that the mode names; a value on the grid stays.
-/
namespace DeskCalculator

inductive RoundingMode
  | toEven
  | awayFromZero
  | toZero
  | toNegativeInfinity
  | toPositiveInfinity
  deriving DecidableEq

namespace RoundingMode

def all : List RoundingMode :=
  [toEven, awayFromZero, toZero, toNegativeInfinity, toPositiveInfinity]

def name : RoundingMode → String
  | toEven => "ToEven"
  | awayFromZero => "AwayFromZero"
  | toZero => "ToZero"
  | toNegativeInfinity => "ToNegativeInfinity"
  | toPositiveInfinity => "ToPositiveInfinity"

def ofName? (s : String) : Option RoundingMode :=
  all.find? fun m => m.name == s

theorem ofName?_name (m : RoundingMode) : ofName? m.name = some m := by
  cases m <;> decide

def looseKey (s : String) : List Char :=
  (s.toList.filter fun c => c != '-' && c != '_').map Char.toLower

def ofLooseName? (s : String) : Option RoundingMode :=
  all.find? fun m => looseKey m.name == looseKey s

theorem ofLooseName?_name (m : RoundingMode) : ofLooseName? m.name = some m := by
  cases m <;> decide

/-- The nearest integer; at a tie the lower neighbour when `lowerAtTie` holds of it. -/
def nearestInteger (lowerAtTie : Int → Bool) (x : Rat) : Int :=
  let low := x.floor
  if x - low < 1 / 2 then low
  else if 1 / 2 < x - low then low + 1
  else if lowerAtTie low then low else low + 1

def toInteger : RoundingMode → Rat → Int
  | toEven, x => nearestInteger (fun low => low % 2 == 0) x
  | awayFromZero, x => nearestInteger (fun low => decide (low < 0)) x
  | toZero, x => if x < 0 then x.ceil else x.floor
  | toNegativeInfinity, x => x.floor
  | toPositiveInfinity, x => x.ceil

end RoundingMode

/-- The multiple of `10^-digits` that the mode chooses for `v`. -/
def roundTo (mode : RoundingMode) (digits : Nat) (v : Rat) : Rat :=
  mode.toInteger (v * 10 ^ digits) / 10 ^ digits

end DeskCalculator
