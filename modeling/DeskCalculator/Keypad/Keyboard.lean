import DeskCalculator.Keypad.Basic

/-!
The keyboard of the keypad. Characters that are typed and three control keys stand for keys of the
pad; everything else is ignored.
-/
namespace DeskCalculator.Keypad

inductive ControlKey
  | enter
  | escape
  | backspace
  | other
  deriving DecidableEq

inductive KeyEvent
  | typed (text : String)
  | control (key : ControlKey) (pressed : Bool)
  deriving DecidableEq

inductive Typed
  | key (name : String)
  | push
  deriving DecidableEq

def typedOf? (c : Char) : Option Typed :=
  if c = ' ' then some .push
  else if c.isDigit || "+-*/^().=".toList.contains c then some (.key (String.singleton c))
  else none

namespace KeyEvent

def typedKeys : KeyEvent → List Typed
  | typed text => text.toList.filterMap typedOf?
  | control .enter true => [.key Key.equals]
  | control .escape true => [.key Key.clearEntry]
  | control .backspace true => [.key Key.backspace]
  | control _ _ => []

end KeyEvent

def strikeTyped (k : Keypad) : Typed → Keypad
  | .key name => k.press name
  | .push => k.push

def typeEvents (k : Keypad) (events : List KeyEvent) : Keypad :=
  (events.flatMap KeyEvent.typedKeys).foldl strikeTyped k

end DeskCalculator.Keypad
