import DeskCalculator.Text.Blank

/-!
Sequences of keys. In algebraic mode keys build one line, where digits and points join and any
other key stands between spaces; in RPN mode each key is a word of its own. Four keys edit what has
been entered or ask for its value.
-/
namespace DeskCalculator

inductive Mode
  | algebraic
  | rpn
  deriving DecidableEq

namespace Key

def clearEntry : String := "CE"

def clear : String := "C"

def backspace : String := "BACKSPACE"

def equals : String := "="

def isNumeral (key : String) : Bool :=
  match key.toList with
  | [c] => c.isDigit || c == '.'
  | _ => false

end Key

inductive Stroke
  | clearEntry
  | clear
  | backspace
  | equals
  | symbol (key : String)
  deriving DecidableEq

def Stroke.ofKey (key : String) : Stroke :=
  if key = Key.clearEntry then clearEntry
  else if key = Key.clear then clear
  else if key = Key.backspace then backspace
  else if key = Key.equals then equals
  else symbol key

structure Entered where
  expression : String
  evaluates : Bool
  deriving DecidableEq

namespace Entered

structure Line where
  reversed : List Char
  evaluates : Bool
  deriving DecidableEq

def Line.append (reversed : List Char) (key : String) : List Char :=
  if Key.isNumeral key then key.toList.reverse ++ reversed
  else
    let spaced := if reversed.isEmpty || reversed.head? == some ' ' then reversed
      else ' ' :: reversed
    ' ' :: (key.toList.reverse ++ spaced)

def Line.press (l : Line) (key : String) : Line :=
  match Stroke.ofKey key with
  | .clearEntry => { l with reversed := [] }
  | .clear => ⟨[], false⟩
  | .backspace => { l with reversed := l.reversed.tail }
  | .equals => { l with evaluates := true }
  | .symbol key => { l with reversed := Line.append l.reversed key }

structure Stack where
  reversed : List String
  evaluates : Bool
  deriving DecidableEq

def Stack.press (s : Stack) (key : String) : Stack :=
  match Stroke.ofKey key with
  | .clearEntry => { s with reversed := [] }
  | .clear => ⟨[], false⟩
  | .backspace => { s with reversed := s.reversed.tail }
  | .equals => { s with evaluates := true }
  | .symbol key => { s with reversed := key :: s.reversed }

def ofKeys (mode : Mode) (keys : List String) : Entered :=
  match mode with
  | .algebraic =>
    let l := keys.foldl Line.press ⟨[], false⟩
    ⟨String.ofList (Text.trim l.reversed.reverse), l.evaluates⟩
  | .rpn =>
    let s := keys.foldl Stack.press ⟨[], false⟩
    ⟨" ".intercalate s.reversed.reverse, s.evaluates⟩

end Entered

end DeskCalculator
