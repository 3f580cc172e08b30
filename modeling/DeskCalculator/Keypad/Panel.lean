import DeskCalculator.Keypad.Basic

/-!
The panel that shows a keypad. One layout says which texts and controls stand on it, in which
order, and what each control does; showing the panel and clicking on it both read that layout.
-/
namespace DeskCalculator

inductive PanelAction
  | press (key : String)
  | push
  | selectMode (mode : Mode)
  | memory (command : Memory.Command)
  | toggleTrace
  | toggleFold
  deriving DecidableEq

inductive PanelItem
  | text (s : String)
  | button (label : String) (enabled : Bool) (action : PanelAction)
  | number (text : String)
  | choice (selected : String)
  | check (label : String) (on : Bool) (action : PanelAction)
  deriving DecidableEq

structure Panel where
  keypad : Keypad := {}
  unfolded : Bool := true
  deriving DecidableEq

namespace Panel

def settingsRow (k : Keypad) : List PanelItem :=
  [.text "Calculatrice RPN",
    .button "Infixe" true (.selectMode .algebraic),
    .button "RPN" true (.selectMode .rpn),
    .text "Précision :",
    .number (k.settings.precision.digits.repr ++ " déc."),
    .choice k.settings.rounding.name,
    .check "Trace" k.withTrace .toggleTrace]

def screen (k : Keypad) : List PanelItem :=
  [.text "Expression :", .text k.expression, .text "Résultat :", .text k.display, .text k.error]

def memoryRow (k : Keypad) : List PanelItem :=
  [.button "MC" true (.memory .clear),
    .button "MR" true (.memory .recall),
    .button "MS" true (.memory .store),
    .button "M+" true (.memory .add),
    .button "M-" true (.memory .subtract),
    .text ("M = " ++ k.memoryText)]

def keyButton (key : String) : PanelItem :=
  .button key true (.press key)

def keyRows (k : Keypad) : List PanelItem :=
  let parens := decide (k.mode = .algebraic)
  [keyButton Key.clearEntry,
    keyButton Key.clear,
    .button "⌫" true (.press Key.backspace),
    .button "(" parens (.press "("),
    .button ")" parens (.press ")")]
  ++ ["7", "8", "9", "/", "4", "5", "6", "*", "1", "2", "3", "-", "0", ".", "^", "+"].map keyButton
  ++ (match k.mode with
    | .algebraic => []
    | .rpn => [.button "⏎" true .push])
  ++ [keyButton Key.equals]

def workings (k : Keypad) : List PanelItem :=
  [.text "RPN :", .text k.postfixText, .text "Trace :", .text ("\n".intercalate k.trace)]

def layout (p : Panel) : List PanelItem :=
  settingsRow p.keypad ++ screen p.keypad ++ memoryRow p.keypad ++ keyRows p.keypad
    ++ [.button "Démarche" true .toggleFold]
    ++ (if p.unfolded then workings p.keypad else [])

def shown (p : Panel) : List PanelItem :=
  p.layout.filter fun item => item != .text ""

def perform (p : Panel) : PanelAction → Panel
  | .press key => { p with keypad := p.keypad.press key }
  | .push => { p with keypad := p.keypad.push }
  | .selectMode mode => { p with keypad := p.keypad.selectMode mode }
  | .memory command => { p with keypad := p.keypad.memory command }
  | .toggleTrace => { p with keypad := { p.keypad with withTrace := !p.keypad.withTrace } }
  | .toggleFold => { p with unfolded := !p.unfolded }

def actionOf? (p : Panel) (label : String) : Option (Option PanelAction) :=
  p.layout.findSome? fun
    | .button l enabled action => if l = label then some (if enabled then some action else none)
      else none
    | .check l _ action => if l = label then some (some action) else none
    | _ => none

/-- Clicks on the control with a label; `none` when the panel shows no such control. -/
def click? (p : Panel) (label : String) : Option Panel :=
  (p.actionOf? label).map fun
    | some action => p.perform action
    | none => p

end Panel

end DeskCalculator
