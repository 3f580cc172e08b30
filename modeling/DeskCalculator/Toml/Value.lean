import DeskCalculator.Decimal.Scientific

/-!
Values of TOML documents. Of a float only the magnitude is kept, which infinity and what is no
number do not have, and dates keep their spelling. Numbers may be written in any size; whether one
is in range is asked of the values that are used.
-/
namespace DeskCalculator.Toml

inductive Value
  | string (text : String)
  | integer (n : Int)
  | boolean (b : Bool)
  | float (magnitude : Option Scientific)
  | moment (spelling : String)
  | array (elements : List Value)
  | table (entries : List (String × Value))

def integerInRange (n : Int) : Bool :=
  decide (-0x80000000000000000000000000000000 ≤ n) && decide (n < 0x100000000000000000000000000000000)

mutual

def Value.inRange : Value → Bool
  | .integer n => integerInRange n
  | .float (some magnitude) => magnitude.fitsBinary64
  | .array vs => elementsInRange vs
  | .table es => entriesInRange es
  | _ => true

def elementsInRange : List Value → Bool
  | [] => true
  | v :: vs => v.inRange && elementsInRange vs

def entriesInRange : List (String × Value) → Bool
  | [] => true
  | (_, v) :: es => v.inRange && entriesInRange es

end

/-- A reader takes a value from the front of a text and leaves the rest, or refuses the text. -/
abbrev Reader (α : Type) := List Char → Option (α × List Char)

end DeskCalculator.Toml
