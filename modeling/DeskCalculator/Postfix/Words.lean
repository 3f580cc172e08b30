import DeskCalculator.Text.Blank
import DeskCalculator.Token.Basic

/-!
Postfix text: words separated by white space, each a decimal literal or the name of an operator.
-/
namespace DeskCalculator.Postfix

def ofWord (word : String) : Except Fault Token :=
  match Literal.ofString? word with
  | some l => .ok (.number l)
  | none =>
    if word = "u-" ∨ word = "neg" then .ok (.operator (.sign .negate))
    else if word = "u+" ∨ word = "pos" then .ok (.operator (.sign .plus))
    else (Operator.ofBinarySymbol word).map .operator

def ofText (text : String) : Except Fault (List Token) :=
  (Text.words text.toList).mapM fun w => ofWord (String.ofList w)

def ofTokens (tokens : List Token) : Except Fault (List Token) :=
  if tokens.any Token.isParen then .error .parenInPostfix else .ok tokens

end DeskCalculator.Postfix
