/-!
Why a request fails. Each cause is a constructor; its kind, its category and its text are functions
of the cause.
-/
namespace DeskCalculator

inductive ParenFault
  | unmatchedClosing
  | unclosedOpening
  | mismatched
  deriving DecidableEq

def ParenFault.message : ParenFault → String
  | unmatchedClosing => "closing parenthesis without matching opening parenthesis"
  | unclosedOpening => "unbalanced parentheses detected"
  | mismatched => "mismatched parentheses detected"

inductive Fault
  | invalidLiteral (text : String)
  | unexpectedCharacter (c : Char) (position : Nat)
  | scannedParens (fault : ParenFault)
  | convertedParens (fault : ParenFault)
  | missingOperands (symbol : String) (arity : Nat)
  | stackUnderflow
  | parenOnTape
  | leftoverOperands
  | powerNotFinite
  | divisionByZero
  | unsupportedOperator (symbol : String)
  | expressionRequired
  | parenInPostfix
  | precisionOutOfRange (digits : Nat)
  | unknownRounding (name : String)
  | sessionRequired
  | valueRequired
  deriving DecidableEq

inductive FaultKind
  | tokenization
  | conversion
  | evaluation
  | divideByZero
  | unsupportedOperator
  | validation
  deriving DecidableEq

inductive FaultCategory
  | domainViolation
  | divideByZero
  | invalidRequest
  deriving DecidableEq

namespace FaultKind

def code : FaultKind → String
  | tokenization => "tokenization"
  | conversion => "conversion"
  | evaluation => "evaluation"
  | divideByZero => "divide_by_zero"
  | unsupportedOperator => "unsupported_operator"
  | validation => "validation"

def category : FaultKind → FaultCategory
  | tokenization | conversion | evaluation | unsupportedOperator => .domainViolation
  | divideByZero => .divideByZero
  | validation => .invalidRequest

end FaultKind

namespace FaultCategory

def title : FaultCategory → String
  | domainViolation => "Domain violation"
  | divideByZero => "Divide by zero"
  | invalidRequest => "Invalid request"

def exitCode : FaultCategory → Nat
  | domainViolation => 2
  | divideByZero => 3
  | invalidRequest => 4

end FaultCategory

namespace Fault

def kind : Fault → FaultKind
  | invalidLiteral _ | unexpectedCharacter _ _ | scannedParens _ => .tokenization
  | convertedParens _ => .conversion
  | missingOperands _ _ | stackUnderflow | parenOnTape | leftoverOperands | powerNotFinite =>
    .evaluation
  | divisionByZero => .divideByZero
  | unsupportedOperator _ => .unsupportedOperator
  | expressionRequired | parenInPostfix | precisionOutOfRange _ | unknownRounding _
  | sessionRequired | valueRequired => .validation

def category (f : Fault) : FaultCategory :=
  f.kind.category

def message : Fault → String
  | invalidLiteral text => "invalid numeric literal '" ++ text ++ "'"
  | unexpectedCharacter c position =>
    "unexpected character '" ++ String.singleton c ++ "' at position " ++ position.repr
  | scannedParens fault | convertedParens fault => fault.message
  | missingOperands symbol arity =>
    "operator '" ++ symbol ++ "' requires " ++ arity.repr ++ " operand(s)"
  | stackUnderflow => "stack underflow"
  | parenOnTape => "unexpected parenthesis in postfix expression"
  | leftoverOperands => "expression evaluation ended with unexpected stack state"
  | powerNotFinite => "operator '^' produced a non-finite result"
  | divisionByZero => "division by zero"
  | unsupportedOperator symbol => "unsupported operator '" ++ symbol ++ "'"
  | expressionRequired => "expression is required"
  | parenInPostfix => "postfix expression cannot contain parentheses"
  | precisionOutOfRange digits =>
    "precision must be between 1 and 28 (got " ++ digits.repr ++ ")"
  | unknownRounding name => "unknown rounding mode '" ++ name ++ "'"
  | sessionRequired => "session id is required"
  | valueRequired => "value required"

def report (f : Fault) : String :=
  f.category.title ++ ": " ++ f.message

end Fault

end DeskCalculator
