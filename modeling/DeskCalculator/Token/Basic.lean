import DeskCalculator.Decimal.Literal
import DeskCalculator.Operator

/-!
Tokens of expressions. A number keeps its spelling, which fixes its scale.
-/
namespace DeskCalculator

structure Literal where
  value : Rat
  text : String
  deriving DecidableEq

namespace Literal

def ofString? (s : String) : Option Literal :=
  (Decimal.ofString? s).map fun v => ⟨v, s⟩

def scale (l : Literal) : Nat :=
  Decimal.writtenScale l.text

end Literal

inductive Token
  | number (l : Literal)
  | operator (op : Operator)
  | lparen
  | rparen
  deriving DecidableEq

namespace Token

def isParen : Token → Bool
  | lparen | rparen => true
  | _ => false

def text : Token → String
  | number l => l.text
  | operator op => op.symbol
  | lparen => "("
  | rparen => ")"

def joinTexts (tokens : List Token) : String :=
  " ".intercalate (tokens.map text)

end Token

end DeskCalculator
