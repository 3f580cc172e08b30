import DeskCalculator.Token.Basic

/-!
From infix order to postfix order. Numbers pass through; an operator waits on a stack until an
operator that binds less tightly, the end of its parentheses or the end of the tokens lets it go.
-/
namespace DeskCalculator.Postfix

def goesBefore (waiting next : Operator) : Bool :=
  match waiting.fixity, next.associativity with
  | .unary, _ => true
  | .binary, .left => decide (next.precedence ≤ waiting.precedence)
  | .binary, .right => decide (next.precedence < waiting.precedence)

def release (next : Operator) : List Token → List Token × List Token
  | .operator waiting :: stack =>
    if goesBefore waiting next then
      (.operator waiting :: (release next stack).1, (release next stack).2)
    else ([], .operator waiting :: stack)
  | stack => ([], stack)

/-- What stands above the nearest opening parenthesis of the stack, and what stands below it. -/
def closeGroup : List Token → Except ParenFault (List Token × List Token)
  | [] => .error .unmatchedClosing
  | .lparen :: stack => .ok ([], stack)
  | .rparen :: _ => .error .mismatched
  | t :: stack => (closeGroup stack).map fun r => (t :: r.1, r.2)

def drain : List Token → Except ParenFault (List Token)
  | [] => .ok []
  | t :: stack => if t.isParen then .error .unclosedOpening else (drain stack).map (t :: ·)

def convertFrom : List Token → List Token → Except ParenFault (List Token)
  | stack, [] => drain stack
  | stack, .number l :: ts => (convertFrom stack ts).map (.number l :: ·)
  | stack, .operator op :: ts =>
    (convertFrom (.operator op :: (release op stack).2) ts).map ((release op stack).1 ++ ·)
  | stack, .lparen :: ts => convertFrom (.lparen :: stack) ts
  | stack, .rparen :: ts =>
    match closeGroup stack with
    | .error fault => .error fault
    | .ok (group, below) => (convertFrom below ts).map (group ++ ·)

def convert (tokens : List Token) : Except Fault (List Token) :=
  (convertFrom [] tokens).mapError .convertedParens

end DeskCalculator.Postfix
