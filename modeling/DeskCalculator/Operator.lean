import DeskCalculator.Binary64.Nearest
import DeskCalculator.Binary64.Shortest
import DeskCalculator.Decimal.Printed
import DeskCalculator.Fault

/-!
The operators: five that stand between two operands and two signs that stand before one. All but
the power are exact on rationals; the power is computed on binary64 numbers.
-/
namespace DeskCalculator

inductive Associativity
  | left
  | right
  deriving DecidableEq

inductive Fixity
  | unary
  | binary
  deriving DecidableEq

inductive BinaryOp
  | add
  | subtract
  | multiply
  | divide
  | power
  deriving DecidableEq

inductive Sign
  | plus
  | negate
  deriving DecidableEq

inductive Operator
  | sign (s : Sign)
  | binary (op : BinaryOp)
  deriving DecidableEq

namespace BinaryOp

def all : List BinaryOp :=
  [add, subtract, multiply, divide, power]

def char : BinaryOp → Char
  | add => '+'
  | subtract => '-'
  | multiply => '*'
  | divide => '/'
  | power => '^'

def symbol (op : BinaryOp) : String :=
  String.singleton op.char

def precedence : BinaryOp → Nat
  | add | subtract => 1
  | multiply | divide => 2
  | power => 3

def associativity : BinaryOp → Associativity
  | power => .right
  | _ => .left

def ofChar? (c : Char) : Option BinaryOp :=
  all.find? fun op => op.char == c

theorem ofChar?_char (op : BinaryOp) : ofChar? op.char = some op := by
  cases op <;> decide

end BinaryOp

def toBinary64 (v : Rat) : UInt64 :=
  Binary64.nearest (Decimal.truncated v)

/-- The power of two rationals, each first taken to the nearest binary64 number of its printed
form; the result is the shortest decimal that reads back as what comes out. -/
def power (base exponent : Rat) : Except Fault Rat :=
  match Binary64.shortest? (Binary64.power (toBinary64 base) (toBinary64 exponent)) with
  | some v => .ok v
  | none => .error .powerNotFinite

namespace Operator

def symbol : Operator → String
  | sign .plus => "u+"
  | sign .negate => "u-"
  | binary op => op.symbol

def fixity : Operator → Fixity
  | sign _ => .unary
  | binary _ => .binary

def arity (op : Operator) : Nat :=
  match op.fixity with
  | .unary => 1
  | .binary => 2

def precedence : Operator → Nat
  | sign _ => 4
  | binary op => op.precedence

def associativity : Operator → Associativity
  | sign _ => .right
  | binary op => op.associativity

def ofBinarySymbol (symbol : String) : Except Fault Operator :=
  match BinaryOp.all.find? fun op => op.symbol == symbol with
  | some op => .ok (binary op)
  | none => .error (.unsupportedOperator symbol)

def ofSignSymbol (symbol : String) : Except Fault Operator :=
  if symbol = "+" then .ok (sign .plus)
  else if symbol = "-" then .ok (sign .negate)
  else .error (.unsupportedOperator symbol)

def applyBinary (op : Operator) (left right : Rat) : Except Fault Rat :=
  match op with
  | binary .add => .ok (left + right)
  | binary .subtract => .ok (left - right)
  | binary .multiply => .ok (left * right)
  | binary .divide => if right = 0 then .error .divisionByZero else .ok (left / right)
  | binary .power => power left right
  | sign _ => .error (.unsupportedOperator op.symbol)

def applyUnary (op : Operator) (operand : Rat) : Except Fault Rat :=
  match op with
  | sign .plus => .ok operand
  | sign .negate => .ok (-operand)
  | binary _ => .error (.unsupportedOperator op.symbol)

/-- The scale of a result, from the scales of its operands. A quotient and a power take as many
decimals as they need, a quotient at least as many as the dividend has more than the divisor. -/
def resultScale (op : Operator) (left right : Nat) (result : Rat) : Nat :=
  match op with
  | binary .add | binary .subtract => max left right
  | binary .multiply => left + right
  | binary .divide => Decimal.leastScale result (left - right)
  | binary .power => Decimal.leastScale result 0
  | sign _ => left

end Operator

end DeskCalculator
