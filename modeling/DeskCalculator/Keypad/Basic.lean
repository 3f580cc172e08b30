import DeskCalculator.Calculator
import DeskCalculator.Memory

/-!
The keypad: what has been entered, what is shown, and one memory register. In RPN mode digits first
gather in a pending number, which becomes a key of its own when it is pushed.
-/
namespace DeskCalculator

structure Keypad where
  mode : Mode := .algebraic
  keys : List String := []
  pending : String := ""
  expression : String := ""
  display : String := "0"
  postfixText : String := ""
  trace : List String := []
  error : String := ""
  last : Option Rat := none
  memoryText : String := "0"
  store : Memory.Store := {}
  settings : Settings := {}
  withTrace : Bool := true
  deriving DecidableEq

namespace Keypad

def session : String := "local"

def shownExpression (mode : Mode) (keys : List String) (pending : String) : String :=
  let entered := (Entered.ofKeys mode keys).expression
  if pending = "" then entered
  else if entered = "" then pending
  else entered ++ " " ++ pending

def refresh (k : Keypad) : Keypad :=
  { k with expression := shownExpression k.mode k.keys k.pending }

def commit (k : Keypad) : Keypad :=
  if k.pending = "" then k else { k with keys := k.keys ++ [k.pending], pending := "" }

def enter (k : Keypad) (keys : List String) : Keypad :=
  { k.commit with keys := k.commit.keys ++ keys }

def clearEntry (k : Keypad) : Keypad :=
  { k with keys := [], pending := "" }

def request (k : Keypad) : KeyRequest :=
  ⟨(k.enter [Key.equals]).keys, k.mode, k.withTrace, k.settings.toOverrides⟩

def showResult (k : Keypad) (e : Evaluation) : Keypad :=
  { k with
    error := ""
    display := e.text
    postfixText := Token.joinTexts e.postfixTokens
    trace := e.trace
    last := some e.value }

def showFault (k : Keypad) (fault : Fault) : Keypad :=
  { k with error := fault.report, postfixText := "", trace := [] }

def evaluate (k : Keypad) : Keypad :=
  match Calculator.answerKeys {} k.request with
  | .ok e => k.clearEntry.showResult e
  | .error fault => k.clearEntry.showFault fault

def strike (k : Keypad) (key : String) : Keypad :=
  match Stroke.ofKey key with
  | .equals => k.evaluate
  | .clear | .clearEntry => k.clearEntry
  | .backspace =>
    if k.pending = "" then k.enter [key]
    else { k with pending := String.ofList k.pending.toList.dropLast }
  | .symbol _ =>
    if k.mode = .rpn ∧ Key.isNumeral key then { k with pending := k.pending ++ key }
    else k.enter [key]

def press (k : Keypad) (key : String) : Keypad :=
  (k.strike key).refresh

def push (k : Keypad) : Keypad :=
  k.commit.refresh

/-- Another mode starts with an empty entry and an empty display; settings and memory stay. -/
def selectMode (k : Keypad) (mode : Mode) : Keypad :=
  if mode = k.mode then k
  else
    { mode, memoryText := k.memoryText, store := k.store, settings := k.settings,
      withTrace := k.withTrace }

def endsWithOperand (k : Keypad) : Bool :=
  match k.mode, k.expression.toList.getLast? with
  | .algebraic, some c => c.isDigit || c == '.' || c == ')'
  | _, _ => false

/-- Enters the value of the register: as a sign and its characters in algebraic mode, as one word
in RPN mode. -/
def insertValue (k : Keypad) (v : Rat) : Keypad :=
  match k.mode with
  | .algebraic =>
    let sign := if v < 0 then ["-"] else []
    let digits := (Decimal.toChars v).dropWhile (· == '-')
    (k.enter (sign ++ digits.map String.singleton)).refresh
  | .rpn => (k.enter [Decimal.toText v]).refresh

def runMemory (k : Keypad) (command : Memory.Command) (operand : Option Rat) : Keypad :=
  match Memory.apply k.store session command operand with
  | (.error fault, store) => { k with store }.showFault fault
  | (.ok v, store) =>
    let k := { k with store, memoryText := Decimal.toText v }
    if command = .recall then k.insertValue v else k

/-- The memory keys. Storing, adding and subtracting need a result; recalling needs a place where
an operand may stand. -/
def memory (k : Keypad) (command : Memory.Command) : Keypad :=
  match command with
  | .store | .add | .subtract =>
    match k.last with
    | none => { k with error := "Invalid request: no result to store" }
    | some v => k.runMemory command (some v)
  | .recall =>
    if k.endsWithOperand then { k with error := "Invalid request: type an operator before MR" }
    else k.runMemory .recall none
  | .clear => k.runMemory .clear none

def setDigits (k : Keypad) (n : Int) : Keypad :=
  { k with settings := { k.settings with precision := Precision.clamp n } }

def setRounding (k : Keypad) (mode : RoundingMode) : Keypad :=
  { k with settings := { k.settings with rounding := mode } }

end Keypad

end DeskCalculator
