import DeskCalculator.Toml.Text

/-!
The scalars of TOML that are no strings: integers, floats, booleans, dates and times.
-/
namespace DeskCalculator.Toml

def isDigitRun (isDigit : Char → Bool) : List Char → Bool
  | [] => false
  | [c] => isDigit c
  | c :: '_' :: cs => isDigit c && isDigitRun isDigit cs
  | c :: cs => isDigit c && isDigitRun isDigit cs

def valueIn (base : Nat) (cs : List Char) : Nat :=
  (cs.filterMap hexDigit?).foldl (fun n d => n * base + d) 0

def isDecimal (cs : List Char) : Bool :=
  cs == ['0'] || (isDigitRun Char.isDigit cs && cs.head? != some '0')

def isBinaryDigit (c : Char) : Bool :=
  c == '0' || c == '1'

def isOctalDigit (c : Char) : Bool :=
  decide ('0' ≤ c) && decide (c ≤ '7')

def splitSign : List Char → Bool × List Char
  | '-' :: cs => (true, cs)
  | '+' :: cs => (false, cs)
  | cs => (false, cs)

def signed (negative : Bool) (n : Nat) : Int :=
  if negative then -n else n

def integer? (cs : List Char) : Option Int :=
  match cs with
  | '0' :: 'x' :: ds => if isDigitRun (hexDigit? · |>.isSome) ds then some (valueIn 16 ds) else none
  | '0' :: 'o' :: ds => if isDigitRun isOctalDigit ds then some (valueIn 8 ds) else none
  | '0' :: 'b' :: ds => if isDigitRun isBinaryDigit ds then some (valueIn 2 ds) else none
  | cs =>
    let (negative, ds) := splitSign cs
    if isDecimal ds then some (signed negative (valueIn 10 ds)) else none

def exponent? (cs : List Char) : Option Int :=
  let (negative, ds) := splitSign cs
  if isDigitRun Char.isDigit ds then some (signed negative (valueIn 10 ds)) else none

def float? (cs : List Char) : Option (Option Scientific) :=
  let cs := (splitSign cs).2
  if cs == ['i', 'n', 'f'] || cs == ['n', 'a', 'n'] then some none
  else
    let isMark (c : Char) := c == 'e' || c == 'E'
    let mantissa := cs.takeWhile fun c => !isMark c
    let scaled := cs.dropWhile fun c => !isMark c
    let whole := mantissa.takeWhile (· != '.')
    let frac := mantissa.dropWhile (· != '.')
    if isDecimal whole && (frac.isEmpty || isDigitRun Char.isDigit (frac.drop 1))
        && !(frac.isEmpty && scaled.isEmpty) then
      (if scaled.isEmpty then some 0 else exponent? (scaled.drop 1)).map fun exponent =>
        some ⟨valueIn 10 (whole ++ frac), exponent - (frac.filter Char.isDigit).length⟩
    else none

/-! ### Dates and times -/

def twoDigits (bound : Nat) : Reader Nat
  | a :: b :: cs =>
    let n := Nat.ofDigitChars 10 [a, b] 0
    if a.isDigit && b.isDigit && decide (n < bound) then some (n, cs) else none
  | _ => none

def expectChar (accepts : Char → Bool) : Reader Unit
  | c :: cs => if accepts c then some ((), cs) else none
  | [] => none

def daysIn (year month : Nat) : Nat :=
  if month = 2 then
    if year % 4 = 0 ∧ (year % 100 ≠ 0 ∨ year % 400 = 0) then 29 else 28
  else if month = 4 ∨ month = 6 ∨ month = 9 ∨ month = 11 then 30
  else 31

def date : Reader Unit := fun cs => do
  let (century, cs) ← twoDigits 100 cs
  let (year, cs) ← twoDigits 100 cs
  let (_, cs) ← expectChar (· == '-') cs
  let (month, cs) ← twoDigits 13 cs
  let (_, cs) ← expectChar (· == '-') cs
  let (day, cs) ← twoDigits 32 cs
  if 1 ≤ month ∧ 1 ≤ day ∧ day ≤ daysIn (century * 100 + year) month then some ((), cs) else none

def fraction : Reader Unit := fun cs =>
  let digits := cs.takeWhile Char.isDigit
  if digits.isEmpty then none else some ((), cs.dropWhile Char.isDigit)

def time : Reader Unit := fun cs => do
  let (_, cs) ← twoDigits 24 cs
  let (_, cs) ← expectChar (· == ':') cs
  let (_, cs) ← twoDigits 60 cs
  match cs with
  | ':' :: cs => do
    let (_, cs) ← twoDigits 61 cs
    match cs with
    | '.' :: cs => fraction cs
    | cs => some ((), cs)
  | cs => some ((), cs)

def offset : Reader Unit := fun cs =>
  match cs with
  | 'Z' :: cs | 'z' :: cs => some ((), cs)
  | '+' :: cs | '-' :: cs => do
    let (_, cs) ← twoDigits 24 cs
    let (_, cs) ← expectChar (· == ':') cs
    let (_, cs) ← twoDigits 60 cs
    some ((), cs)
  | _ => none

def isMoment (cs : List Char) : Bool :=
  let endsAt (r : Option (Unit × List Char)) : Bool :=
    match r with
    | some (_, []) => true
    | _ => false
  match date cs with
  | some (_, []) => true
  | some (_, rest) =>
    match (expectChar (fun c => c == 'T' || c == 't' || c == ' ') rest).bind fun r => time r.2 with
    | some (_, []) => true
    | some (_, rest) => endsAt (offset rest)
    | none => false
  | none => endsAt (time cs)

/-! ### Scalars -/

def isScalarChar (c : Char) : Bool :=
  isBare c || c == '+' || c == '.' || c == ':'

/-- The characters of a scalar. A space may stand between a date and a time. -/
def scalarText (cs : List Char) : List Char × List Char :=
  let first := cs.takeWhile isScalarChar
  let rest := cs.dropWhile isScalarChar
  match rest with
  | ' ' :: c :: more =>
    if c.isDigit && (date first == some ((), [])) then
      (first ++ ' ' :: (c :: more).takeWhile isScalarChar, (c :: more).dropWhile isScalarChar)
    else (first, rest)
  | _ => (first, rest)

def scalarValue : Reader Value := fun cs =>
  let (text, rest) := scalarText cs
  let value? : Option Value :=
    if text == "true".toList then some (.boolean true)
    else if text == "false".toList then some (.boolean false)
    else
      match integer? text with
      | some n => some (.integer n)
      | none =>
        match float? text with
        | some magnitude => some (.float magnitude)
        | none => if isMoment text then some (.moment (String.ofList text)) else none
  value?.map fun v => (v, rest)

end DeskCalculator.Toml
