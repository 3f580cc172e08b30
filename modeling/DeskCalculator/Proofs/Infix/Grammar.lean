import DeskCalculator.Proofs.Expression.Postorder

/-!
The grammar of infix expressions, one layer for each strength of binding:

  sum    → sum (+|-) term | term
  term   → term (*|/) power | power
  power  → signed ^ power | signed
  signed → (u+|u-)* atom
  atom   → number | ( sum )

A phrase is a derivation. It has its tokens, and the tree that its layers stand for.
-/
namespace DeskCalculator

inductive Layer
  | sum
  | term
  | power
  | signed
  | atom
  deriving DecidableEq

inductive Phrase : Layer → Type
  | number (l : Literal) : Phrase .atom
  | group (inner : Phrase .sum) : Phrase .atom
  | signed (signs : List Sign) (operand : Phrase .atom) : Phrase .signed
  | ofSigned (x : Phrase .signed) : Phrase .power
  | power (base : Phrase .signed) (exponent : Phrase .power) : Phrase .power
  | ofPower (x : Phrase .power) : Phrase .term
  | term (left : Phrase .term) (op : BinaryOp) (hop : op = .multiply ∨ op = .divide)
      (right : Phrase .power) : Phrase .term
  | ofTerm (x : Phrase .term) : Phrase .sum
  | sum (left : Phrase .sum) (op : BinaryOp) (hop : op = .add ∨ op = .subtract)
      (right : Phrase .term) : Phrase .sum

def signTokens (signs : List Sign) : List Token :=
  signs.map fun s => .operator (.sign s)

theorem signTokens_append (as bs : List Sign) :
    signTokens (as ++ bs) = signTokens as ++ signTokens bs :=
  List.map_append

namespace Phrase

def tokens {layer : Layer} : Phrase layer → List Token
  | number l => [.number l]
  | group inner => .lparen :: (inner.tokens ++ [.rparen])
  | signed signs operand => signTokens signs ++ operand.tokens
  | ofSigned x | ofPower x | ofTerm x => x.tokens
  | power base exponent => base.tokens ++ .operator (.binary .power) :: exponent.tokens
  | term left op _ right | sum left op _ right =>
    left.tokens ++ .operator (.binary op) :: right.tokens

/-- The expression that a phrase is read as; the sign nearest to an operand is applied first. -/
def tree {layer : Layer} : Phrase layer → Expression
  | number l => .number l
  | group inner => inner.tree
  | signed signs operand => signs.foldr .sign operand.tree
  | ofSigned x | ofPower x | ofTerm x => x.tree
  | power base exponent => .binary .power base.tree exponent.tree
  | term left op _ right | sum left op _ right => .binary op left.tree right.tree

def AtMostOneSign {layer : Layer} : Phrase layer → Prop
  | number _ => True
  | group inner => inner.AtMostOneSign
  | signed signs operand => signs.length ≤ 1 ∧ operand.AtMostOneSign
  | ofSigned x | ofPower x | ofTerm x => x.AtMostOneSign
  | power base exponent => base.AtMostOneSign ∧ exponent.AtMostOneSign
  | term left _ _ right | sum left _ _ right => left.AtMostOneSign ∧ right.AtMostOneSign

end Phrase

end DeskCalculator
