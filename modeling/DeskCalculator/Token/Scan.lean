import DeskCalculator.Text.Blank
import DeskCalculator.Token.Basic

/-!
Scanning infix text. White space separates and is otherwise ignored; digits and points that touch
form one literal; an operator character is a sign where an operand is expected and a binary
operator elsewhere. The parentheses of the result are balanced.
-/
namespace DeskCalculator.Token

def isNumeral (c : Char) : Bool :=
  c.isDigit || c == '.'

/-- After these tokens, and at the start, an operand is expected. -/
def expectsOperand : Option Token → Bool
  | none | some lparen | some (operator _) => true
  | some rparen | some (number _) => false

def operatorAfter (previous : Option Token) (op : BinaryOp) : Except Fault Operator :=
  if expectsOperand previous then Operator.ofSignSymbol op.symbol
  else .ok (.binary op)

def scanFrom (position : Nat) (previous : Option Token) : List Char → Except Fault (List Token)
  | [] => .ok []
  | c :: cs =>
    if Text.isBlank c then scanFrom (position + 1) previous cs
    else if isNumeral c then
      let run := c :: cs.takeWhile isNumeral
      match Literal.ofString? (String.ofList run) with
      | none => .error (.invalidLiteral (String.ofList run))
      | some l =>
        (scanFrom (position + run.length) (some (number l)) (cs.dropWhile isNumeral)).map
          (number l :: ·)
    else if c = '(' then (scanFrom (position + 1) (some lparen) cs).map (lparen :: ·)
    else if c = ')' then (scanFrom (position + 1) (some rparen) cs).map (rparen :: ·)
    else
      match BinaryOp.ofChar? c with
      | none => .error (.unexpectedCharacter c position)
      | some op =>
        match operatorAfter previous op with
        | .error fault => .error fault
        | .ok meant =>
          (scanFrom (position + 1) (some (operator meant)) cs).map (operator meant :: ·)
termination_by cs => cs.length
decreasing_by
  all_goals simp only [List.length_cons]
  all_goals first
    | omega
    | exact Nat.lt_succ_of_le (List.dropWhile_sublist _).length_le

def checkParensFrom (depth : Nat) : List Token → Except ParenFault Unit
  | [] => if depth = 0 then .ok () else .error .unclosedOpening
  | lparen :: ts => checkParensFrom (depth + 1) ts
  | rparen :: ts =>
    match depth with
    | 0 => .error .unmatchedClosing
    | outer + 1 => checkParensFrom outer ts
  | _ :: ts => checkParensFrom depth ts

def checkParens (tokens : List Token) : Except ParenFault Unit :=
  checkParensFrom 0 tokens

/-- The tokens of an infix text. Faults of its characters come before faults of its parentheses. -/
def scan (text : String) : Except Fault (List Token) :=
  if Text.IsBlankText text then .error .expressionRequired
  else
    match scanFrom 0 none text.toList with
    | .error fault => .error fault
    | .ok tokens =>
      match checkParens tokens with
      | .error fault => .error (.scannedParens fault)
      | .ok () => .ok tokens

end DeskCalculator.Token
