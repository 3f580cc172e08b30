import DeskCalculator.Calculator

/-!
What the calculator notes about its work. An entry has a level and is one line: the level, the
message if there is one, then fields.
-/
namespace DeskCalculator.Journal

inductive Level
  | error
  | warn
  | info
  | debug
  | trace
  deriving DecidableEq

namespace Level

def all : List Level :=
  [error, warn, info, debug, trace]

def name : Level → String
  | error => "ERROR"
  | warn => "WARN"
  | info => "INFO"
  | debug => "DEBUG"
  | trace => "TRACE"

def rank : Level → Nat
  | error => 1
  | warn => 2
  | info => 3
  | debug => 4
  | trace => 5

end Level

inductive Event
  | scanned (tokens : Nat)
  | converted (text : String)
  | wordsRead (tokens : Nat)
  | stepped (line : String)
  | evaluated (mode : Mode) (settings : Settings) (text : String)
  | failed (fault : Fault) (expression : String)
  | keysRead (entered : Entered)
  | openingKeypad (settings : Settings)
  | keypadFailed
  deriving DecidableEq

def modeName : Mode → String
  | .algebraic => "Infix"
  | .rpn => "Postfix"

def boolName (b : Bool) : String :=
  if b then "true" else "false"

namespace Event

def level : Event → Level
  | stepped _ => .trace
  | failed _ _ => .warn
  | keypadFailed => .error
  | _ => .debug

def message : Event → String
  | scanned _ => "infix tokenized"
  | converted _ => "infix converted"
  | wordsRead _ => "postfix parsed"
  | stepped _ => ""
  | evaluated _ _ _ => "expression evaluated"
  | failed _ _ => "evaluation failed"
  | keysRead _ => "keys interpreted"
  | openingKeypad _ => "opening keypad"
  | keypadFailed => "keypad failed"

def settingsFields (s : Settings) : List (String × String) :=
  [("precision", s.precision.digits.repr), ("rounding", s.rounding.name)]

def fields : Event → List (String × String)
  | scanned tokens | wordsRead tokens => [("jetons", tokens.repr)]
  | converted text => [("rpn", text)]
  | stepped line => [("etape", line)]
  | evaluated mode settings text =>
    ("mode", modeName mode) :: settingsFields settings ++ [("valeur", text)]
  | failed fault expression =>
    [("code", "\"" ++ fault.kind.code ++ "\""), ("erreur", fault.message),
      ("expression", expression)]
  | keysRead entered =>
    [("expression", entered.expression), ("evaluer", boolName entered.evaluates)]
  | openingKeypad settings => settingsFields settings
  | keypadFailed => []

def line (e : Event) : String :=
  let words := if e.message = "" then [e.level.name] else [e.level.name, e.message]
  " ".intercalate (words ++ e.fields.map fun f => f.1 ++ "=" ++ f.2)

end Event

end DeskCalculator.Journal
