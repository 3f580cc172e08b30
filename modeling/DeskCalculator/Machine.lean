import DeskCalculator.Settings
import DeskCalculator.Token.Basic

/-!
The stack machine. It reads a postfix expression from left to right; a number is pushed, an
operator replaces its operands by its result. Every value that is pushed is first rounded to the
precision of the settings, and its scale is capped there too.
-/
namespace DeskCalculator

structure Entry where
  value : Rat
  scale : Nat
  deriving DecidableEq

namespace Entry

def text (e : Entry) : String :=
  Decimal.toTextAt e.value e.scale

def settle (settings : Settings) (e : Entry) : Entry :=
  ⟨roundTo settings.rounding settings.precision.digits e.value,
    min e.scale settings.precision.digits⟩

end Entry

structure Step where
  token : Token
  pushed : Entry
  deriving DecidableEq

def Step.line (s : Step) : String :=
  match s.token with
  | .operator op => "apply " ++ op.symbol ++ " -> " ++ s.pushed.text
  | _ => "push " ++ s.pushed.text

namespace Machine

def pop : List Entry → Except Fault (Entry × List Entry)
  | [] => .error .stackUnderflow
  | e :: stack => .ok (e, stack)

/-- The result of an operator on the operands that it takes from the stack, before rounding, and
the stack that remains. The right operand is the last one pushed. -/
def operate (op : Operator) (stack : List Entry) : Except Fault (Entry × List Entry) :=
  if stack.length < op.arity then .error (.missingOperands op.symbol op.arity)
  else
    match op.fixity with
    | .unary => do
      let (operand, stack) ← pop stack
      let v ← op.applyUnary operand.value
      return (⟨v, op.resultScale operand.scale 0 v⟩, stack)
    | .binary => do
      let (right, stack) ← pop stack
      let (left, stack) ← pop stack
      let v ← op.applyBinary left.value right.value
      return (⟨v, op.resultScale left.scale right.scale v⟩, stack)

def step (settings : Settings) (stack : List Entry) : Token → Except Fault (Entry × List Entry)
  | .number l => .ok (Entry.settle settings ⟨l.value, l.scale⟩, stack)
  | .operator op => (operate op stack).map fun r => (r.1.settle settings, r.2)
  | .lparen | .rparen => .error .parenOnTape

structure Run where
  steps : List Step
  outcome : Except Fault (List Entry)

def run (settings : Settings) : List Entry → List Token → Run
  | stack, [] => ⟨[], .ok stack⟩
  | stack, t :: ts =>
    match step settings stack t with
    | .error fault => ⟨[], .error fault⟩
    | .ok (e, below) =>
      let rest := run settings (e :: below) ts
      ⟨⟨t, e⟩ :: rest.steps, rest.outcome⟩

end Machine

structure Evaluation where
  value : Rat
  scale : Nat
  postfixTokens : List Token
  trace : List String
  deriving DecidableEq

namespace Evaluation

def blank : Evaluation := ⟨0, 0, [], []⟩

def text (e : Evaluation) : String :=
  Decimal.toTextAt e.value e.scale

end Evaluation

def evaluate (settings : Settings) (withTrace : Bool) (tokens : List Token) :
    Except Fault Evaluation :=
  let run := Machine.run settings [] tokens
  match run.outcome with
  | .error fault => .error fault
  | .ok [e] => .ok ⟨e.value, e.scale, tokens, if withTrace then run.steps.map Step.line else []⟩
  | .ok _ => .error .leftoverOperands

/-! ### The machine with its notes -/

namespace Machine

/-- A machine that notes a line for every step, as long as it is told to. -/
structure Noted where
  noting : Bool
  stack : List Entry := []
  lines : List String := []

namespace Noted

def note (m : Noted) (line : String) : Noted :=
  if m.noting then { m with lines := m.lines ++ [line] } else m

def push (m : Noted) (e : Entry) : Noted :=
  { m with stack := e :: m.stack }

def pushNumber (settings : Settings) (m : Noted) (l : Literal) : Noted :=
  let e := Entry.settle settings ⟨l.value, l.scale⟩
  (m.note ("push " ++ e.text)).push e

def apply (settings : Settings) (m : Noted) (op : Operator) : Except Fault Noted := do
  let (result, stack) ← operate op m.stack
  let e := result.settle settings
  return ({ m with stack }.note ("apply " ++ op.symbol ++ " -> " ++ e.text)).push e

def read (settings : Settings) (m : Noted) : Token → Except Fault Noted
  | .number l => .ok (m.pushNumber settings l)
  | .operator op => m.apply settings op
  | .lparen | .rparen => .error .parenOnTape

def evaluate (settings : Settings) (withTrace : Bool) (tokens : List Token) :
    Except Fault Evaluation := do
  let m ← tokens.foldlM (read settings) ⟨withTrace, [], []⟩
  if m.stack.length = 1 then
    let (e, _) ← pop m.stack
    return ⟨e.value, e.scale, tokens, m.lines⟩
  else throw .leftoverOperands

end Noted

end Machine

end DeskCalculator
