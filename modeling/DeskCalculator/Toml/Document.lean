import DeskCalculator.Toml.Scalar
import DeskCalculator.Toml.Table

/-!
TOML documents: lines that hold a key and its value or open a table. Between any two tokens of an
array or an inline table there may be line breaks and comments; only a dotted key stays on its line.
-/
namespace DeskCalculator.Toml

def elements (element : Reader Value) : Nat → Reader (List Value)
  | 0, _ => none
  | fuel + 1, cs => do
    match ← skipBlanks? cs with
    | ']' :: cs => some ([], cs)
    | cs => do
      let (v, cs) ← element cs
      match ← skipBlanks? cs with
      | ',' :: cs => (elements element fuel cs).map fun r => (v :: r.1, r.2)
      | ']' :: cs => some ([v], cs)
      | _ => none

def keyValue (skip : List Char → Option (List Char)) (value : Reader Value) :
    Reader (List String × Value) := fun cs => do
  let (path, cs) ← keyPath (cs.length + 1) cs
  match ← skip cs with
  | '=' :: cs => do
    let (v, cs) ← value (← skip cs)
    some ((path, v), cs)
  | _ => none

def pairs (value : Reader Value) : Nat → Reader (List (List String × Value))
  | 0, _ => none
  | fuel + 1, cs => do
    match ← skipBlanks? cs with
    | '}' :: cs => some ([], cs)
    | cs => do
      let (p, cs) ← keyValue skipBlanks? value cs
      match ← skipBlanks? cs with
      | ',' :: cs => (pairs value fuel cs).map fun r => (p :: r.1, r.2)
      | '}' :: cs => some ([p], cs)
      | _ => none

def addPairs (ps : List (List String × Value)) (t : Open) : Option Open :=
  ps.foldlM (fun t p => addValue p.1 p.2 t) t

def maxDepth : Nat := 80

def simpleValue : Reader Value := fun cs =>
  match cs with
  | '"' :: _ | '\'' :: _ => (stringValue cs).map fun r => (.string r.1, r.2)
  | _ => scalarValue cs

def value : Nat → Reader Value
  | 0 => simpleValue
  | depth + 1 => fun cs =>
    match cs with
    | '[' :: cs =>
      (elements (value depth) (cs.length + 1) cs).map fun r => (.array r.1, r.2)
    | '{' :: cs => do
      let (ps, cs) ← pairs (value depth) (cs.length + 1) cs
      let (_, es) ← addPairs ps (.header, [])
      some (.table (entriesToValues es), cs)
    | cs => simpleValue cs

inductive Line
  | pair (path : List String) (v : Value)
  | table (path : List String)
  | element (path : List String)

def header : Reader Line := fun cs =>
  match cs with
  | '[' :: cs => do
    match ← keyPath (cs.length + 1) cs with
    | (path, ']' :: ']' :: cs) => some (.element path, cs)
    | _ => none
  | cs => do
    match ← keyPath (cs.length + 1) cs with
    | (path, ']' :: cs) => some (.table path, cs)
    | _ => none

def lines : Nat → List Char → Option (List Line)
  | 0, _ => none
  | fuel + 1, cs => do
    match ← skipBlanks? cs with
    | [] => some []
    | '[' :: cs => do
      let (l, cs) ← header cs
      (lines fuel (← endLine? cs)).map (l :: ·)
    | cs => do
      let ((path, v), cs) ← keyValue (some <| skipSpaces ·) (value maxDepth) cs
      (lines fuel (← endLine? cs)).map (.pair path v :: ·)

structure Draft where
  current : List String := []
  root : Open := (.header, [])

def Draft.add (d : Draft) : Line → Option Draft
  | .pair path v => (descend false (addValue path v) d.current d.root).map fun root => { d with root }
  | .table path => (openTable path d.root).map fun root => ⟨path, root⟩
  | .element path => (openElement path d.root).map fun root => ⟨path, root⟩

/-- The table that a document describes, `none` for a text that is no document. A byte order mark
at its start is skipped. -/
def parse? (text : String) : Option (List (String × Value)) := do
  let cs := match text.toList with
    | '\uFEFF' :: cs => cs
    | cs => cs
  let ls ← lines (cs.length + 1) cs
  let d ← ls.foldlM Draft.add {}
  some (entriesToValues d.root.2)

end DeskCalculator.Toml
