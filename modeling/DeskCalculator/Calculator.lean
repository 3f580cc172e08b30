import DeskCalculator.Keys
import DeskCalculator.Machine
import DeskCalculator.Postfix.Conversion
import DeskCalculator.Postfix.Words
import DeskCalculator.Token.Scan

/-!
Requests: the value of an expression, or of what a sequence of keys enters, in one of the two
modes and under settings that the request may override.
-/
namespace DeskCalculator

def Mode.toPostfix (mode : Mode) (expression : String) : Except Fault (List Token) :=
  match mode with
  | .algebraic => (Token.scan expression).bind Postfix.convert
  | .rpn => Postfix.ofText expression

structure Request where
  expression : String
  mode : Mode := .algebraic
  withTrace : Bool := false
  overrides : Overrides := {}
  deriving DecidableEq

structure KeyRequest where
  keys : List String
  mode : Mode := .algebraic
  withTrace : Bool := false
  overrides : Overrides := {}
  deriving DecidableEq

namespace KeyRequest

def entered (r : KeyRequest) : Entered :=
  Entered.ofKeys r.mode r.keys

def toRequest (r : KeyRequest) : Request :=
  ⟨r.entered.expression, r.mode, r.withTrace, r.overrides⟩

end KeyRequest

structure Calculator where
  defaults : Settings := {}

namespace Calculator

/-- The value of an expression. A blank one is refused before its settings are looked at, and these
before the expression is read. -/
def answer (c : Calculator) (r : Request) : Except Fault Evaluation :=
  if Text.IsBlankText r.expression then .error .expressionRequired
  else do
    let settings ← r.overrides.resolve c.defaults
    let tokens ← r.mode.toPostfix r.expression
    evaluate settings r.withTrace tokens

def answerKeys (c : Calculator) (r : KeyRequest) : Except Fault Evaluation :=
  if Text.IsBlankText r.entered.expression then .ok Evaluation.blank
  else c.answer r.toRequest

end Calculator

end DeskCalculator
