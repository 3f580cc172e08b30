import DeskCalculator.Main
import DeskCalculator.Proofs.Infix.Conversion
import DeskCalculator.Proofs.Infix.Conservation
import DeskCalculator.Proofs.Infix.SignChains
import DeskCalculator.Proofs.Infix.Placement
import DeskCalculator.Proofs.Token.Grammar
import DeskCalculator.Proofs.Expression.Reuse
import DeskCalculator.Proofs.Expression.Sums
import DeskCalculator.Proofs.Rounding.Laws
import DeskCalculator.Proofs.Memory.Sessions
import DeskCalculator.Proofs.Memory.Interleaving
import DeskCalculator.Proofs.Decimal.Grammar
import DeskCalculator.Proofs.Fault.Requests
import DeskCalculator.Proofs.Keypad.Evaluation
import DeskCalculator.Proofs.Decimal.Printer
import DeskCalculator.Proofs.Infix.Steps
import DeskCalculator.Proofs.Infix.Group
import DeskCalculator.Proofs.Fault.Guards
import DeskCalculator.Proofs.Token.Lexeme
import DeskCalculator.Proofs.Keys.Line
import DeskCalculator.Proofs.Keys.Typed
import DeskCalculator.Proofs.Keys.Shown
import DeskCalculator.Proofs.Token.Continuation
import DeskCalculator.Proofs.Keys.Operand
import DeskCalculator.Proofs.Keypad.Recall
import DeskCalculator.Proofs.Keypad.RecalledValue
import DeskCalculator.Proofs.Machine.Trace
import DeskCalculator.Proofs.Machine.LeastScale
import DeskCalculator.Proofs.Token.Leftmost
import DeskCalculator.Proofs.Keypad.Entry
import DeskCalculator.Proofs.Keypad.Words
import DeskCalculator.Proofs.Keypad.Buttons
import DeskCalculator.Proofs.Keypad.Parentheses
import DeskCalculator.Proofs.Keys.Controls
import DeskCalculator.Proofs.Memory.Entries
import DeskCalculator.Proofs.CommandLine.Report
import DeskCalculator.Proofs.Binary64.RoundTrip
