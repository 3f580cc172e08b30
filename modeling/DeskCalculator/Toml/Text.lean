import DeskCalculator.Toml.Value

/-!
The texts of TOML: white space, comments, the four kinds of strings, and keys.
-/
namespace DeskCalculator.Toml

def isSpace (c : Char) : Bool :=
  c == ' ' || c == '\t'

def skipSpaces (cs : List Char) : List Char :=
  cs.dropWhile isSpace

def lineBreak? : List Char → Option (List Char)
  | '\n' :: cs => some cs
  | '\r' :: '\n' :: cs => some cs
  | _ => none

def isText (c : Char) : Bool :=
  c == '\t' || (decide (0x20 ≤ c.toNat) && c.toNat != 0x7F)

def endLine? (cs : List Char) : Option (List Char) :=
  let cs := skipSpaces cs
  let cs := match cs with
    | '#' :: cs => cs.dropWhile isText
    | cs => cs
  match cs with
  | [] => some []
  | cs => lineBreak? cs

def skipBlanksFrom (inComment : Bool) : List Char → Option (List Char)
  | [] => some []
  | '\n' :: cs => skipBlanksFrom false cs
  | '\r' :: '\n' :: cs => skipBlanksFrom false cs
  | c :: cs =>
    if inComment then if isText c then skipBlanksFrom true cs else none
    else if c = '#' then skipBlanksFrom true cs
    else if isSpace c then skipBlanksFrom false cs
    else some (c :: cs)

def skipBlanks? (cs : List Char) : Option (List Char) :=
  skipBlanksFrom false cs

/-! ### Strings -/

def hexDigit? (c : Char) : Option Nat :=
  if c.isDigit then some (c.toNat - '0'.toNat)
  else if 'a' ≤ c ∧ c ≤ 'f' then some (c.toNat - 'a'.toNat + 10)
  else if 'A' ≤ c ∧ c ≤ 'F' then some (c.toNat - 'A'.toNat + 10)
  else none

def codePoint (width : Nat) : Reader Char := fun cs => do
  let digits ← (cs.take width).mapM hexDigit?
  let n := digits.foldl (fun n d => n * 16 + d) 0
  if digits.length = width ∧ n.isValidChar then some (Char.ofNat n, cs.drop width) else none

def escaped : Reader Char
  | 'b' :: cs => some ('\x08', cs)
  | 't' :: cs => some ('\t', cs)
  | 'n' :: cs => some ('\n', cs)
  | 'f' :: cs => some ('\x0c', cs)
  | 'r' :: cs => some ('\r', cs)
  | 'e' :: cs => some ('\x1b', cs)
  | '"' :: cs => some ('"', cs)
  | '\\' :: cs => some ('\\', cs)
  | 'x' :: cs => codePoint 2 cs
  | 'u' :: cs => codePoint 4 cs
  | 'U' :: cs => codePoint 8 cs
  | _ => none

def consTo (c : Char) (r : Option (List Char × List Char)) : Option (List Char × List Char) :=
  r.map fun p => (c :: p.1, p.2)

def singleLine (quote : Char) (escapes : Bool) : Nat → Reader (List Char)
  | 0, _ => none
  | fuel + 1, cs =>
    match cs with
    | [] => none
    | c :: cs =>
      if c = quote then some ([], cs)
      else if escapes && c == '\\' then
        match escaped cs with
        | some (e, cs) => consTo e (singleLine quote escapes fuel cs)
        | none => none
      else if isText c then consTo c (singleLine quote escapes fuel cs)
      else none

/-- A closing delimiter of three quotes, before which up to two more belong to the string. -/
def closingQuotes? (quote : Char) (cs : List Char) : Option (List Char × List Char) :=
  let run := (cs.takeWhile (· == quote)).length
  if run < 3 then none
  else
    let kept := min (run - 3) 2
    some (List.replicate kept quote, cs.drop (kept + 3))

def skipFold : List Char → List Char
  | [] => []
  | '\r' :: '\n' :: cs => skipFold cs
  | c :: cs => if isSpace c || c == '\n' then skipFold cs else c :: cs

/-- What follows a backslash that ends a line: the text after all white space. -/
def foldedLine? (cs : List Char) : Option (List Char) :=
  (lineBreak? (skipSpaces cs)).map skipFold

def multiLine (quote : Char) (escapes : Bool) : Nat → Reader (List Char)
  | 0, _ => none
  | fuel + 1, cs =>
    match closingQuotes? quote cs with
    | some r => some r
    | none =>
      match cs with
      | [] => none
      | '\r' :: '\n' :: cs => consTo '\r' (consTo '\n' (multiLine quote escapes fuel cs))
      | c :: cs =>
        if escapes && c == '\\' then
          match foldedLine? cs with
          | some cs => multiLine quote escapes fuel cs
          | none =>
            match escaped cs with
            | some (e, cs) => consTo e (multiLine quote escapes fuel cs)
            | none => none
        else if isText c || c == '\n' then consTo c (multiLine quote escapes fuel cs)
        else none

def skipFirstBreak (cs : List Char) : List Char :=
  (lineBreak? cs).getD cs

def stringValue : Reader String := fun cs =>
  let read := match cs with
    | '"' :: '"' :: '"' :: cs => multiLine '"' true (cs.length + 1) (skipFirstBreak cs)
    | '\'' :: '\'' :: '\'' :: cs => multiLine '\'' false (cs.length + 1) (skipFirstBreak cs)
    | '"' :: cs => singleLine '"' true (cs.length + 1) cs
    | '\'' :: cs => singleLine '\'' false (cs.length + 1) cs
    | _ => none
  read.map fun r => (String.ofList r.1, r.2)

/-! ### Keys -/

def isBare (c : Char) : Bool :=
  c.isAlphanum || c == '_' || c == '-'

def keyPart : Reader String := fun cs =>
  match cs with
  | '"' :: cs => (singleLine '"' true (cs.length + 1) cs).map fun r => (String.ofList r.1, r.2)
  | '\'' :: cs => (singleLine '\'' false (cs.length + 1) cs).map fun r => (String.ofList r.1, r.2)
  | cs =>
    let bare := cs.takeWhile isBare
    if bare.isEmpty then none else some (String.ofList bare, cs.dropWhile isBare)

def keyPath : Nat → Reader (List String)
  | 0, _ => none
  | fuel + 1, cs => do
    let (part, cs) ← keyPart (skipSpaces cs)
    match skipSpaces cs with
    | '.' :: cs => (keyPath fuel cs).map fun r => (part :: r.1, r.2)
    | cs => some ([part], cs)

end DeskCalculator.Toml
