import DeskCalculator.Journal.Event
import DeskCalculator.Keypad.Keyboard
import DeskCalculator.Keypad.Panel

/-!
Which entries each piece of work leaves in the journal, in the order in which they are made.
-/
namespace DeskCalculator.Journal

def ofScan (expression : String) : List Event :=
  match Token.scan expression with
  | .ok tokens => [.scanned tokens.length]
  | .error _ => []

def ofConversion (tokens : List Token) : List Event :=
  match Postfix.convert tokens with
  | .ok converted => [.converted (Token.joinTexts converted)]
  | .error _ => []

def ofWords (expression : String) : List Event :=
  match Postfix.ofText expression with
  | .ok tokens => [.wordsRead tokens.length]
  | .error _ => []

def ofReading (mode : Mode) (expression : String) : List Event :=
  match mode with
  | .algebraic =>
    match Token.scan expression with
    | .ok tokens => ofScan expression ++ ofConversion tokens
    | .error _ => []
  | .rpn => ofWords expression

/-- The steps of the machine are noted only when the trace is asked for, those before a fault
too. -/
def ofMachine (settings : Settings) (withTrace : Bool) (tokens : List Token) : List Event :=
  if withTrace then (Machine.run settings [] tokens).steps.map fun s => .stepped s.line else []

def ofEvaluation (settings : Settings) (r : Request) : List Event :=
  ofReading r.mode r.expression
    ++ (match r.mode.toPostfix r.expression with
      | .ok tokens => ofMachine settings r.withTrace tokens
      | .error _ => [])

def ofAnswer (c : Calculator) (r : Request) : List Event :=
  let work := if Text.IsBlankText r.expression then []
    else
      match r.overrides.resolve c.defaults with
      | .ok settings => ofEvaluation settings r
      | .error _ => []
  let outcome := match c.answer r with
    | .error fault => [.failed fault r.expression]
    | .ok e =>
      match r.overrides.resolve c.defaults with
      | .ok settings => [.evaluated r.mode settings e.text]
      | .error _ => []
  work ++ outcome

def ofAnswerKeys (c : Calculator) (r : KeyRequest) : List Event :=
  .keysRead r.entered
    :: (if Text.IsBlankText r.entered.expression then [] else ofAnswer c r.toRequest)

def ofPress (k : Keypad) (key : String) : List Event :=
  if Stroke.ofKey key = .equals then ofAnswerKeys {} k.request else []

def ofTyped : Keypad → List Keypad.Typed → List Event
  | _, [] => []
  | k, t :: ts =>
    (match t with
      | .key name => ofPress k name
      | .push => [])
    ++ ofTyped (k.strikeTyped t) ts

def ofKeyEvents (k : Keypad) (events : List Keypad.KeyEvent) : List Event :=
  ofTyped k (events.flatMap Keypad.KeyEvent.typedKeys)

def ofClick (p : Panel) (label : String) : List Event :=
  match p.actionOf? label with
  | some (some (.press key)) => ofPress p.keypad key
  | _ => []

end DeskCalculator.Journal
