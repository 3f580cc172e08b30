import DeskCalculator.Toml.Value

/-!
Tables while a document is read. A table remembers how it came to be, because that decides how it
may grow: one that a header opened is opened only once and is closed to dotted keys, one that
dotted keys made grows by dotted keys alone, and one that a longer header implied may still be
opened by a header of its own.
-/
namespace DeskCalculator.Toml

inductive Origin
  | header
  | implied
  | dotted
  deriving DecidableEq

inductive Node
  | leaf (v : Value)
  | table (origin : Origin) (entries : List (String × Node))
  | tables (elements : List (List (String × Node)))

abbrev Entries := List (String × Node)

abbrev Open := Origin × Entries

namespace Entries

def set (es : Entries) (key : String) (n : Node) : Entries :=
  if es.any (·.1 == key) then es.map fun e => if e.1 == key then (key, n) else e
  else es ++ [(key, n)]

end Entries

/-- Changes the table that a path leads to from a table. Tables that are missing on the way are
made; of an array of tables the last one is meant; a dotted path enters no table with a header. -/
def descend (isDotted : Bool) (change : Open → Option Open) : List String → Open → Option Open
  | [], t => change t
  | key :: path, (origin, es) =>
    match es.lookup key with
    | none => do
      let (o, sub) ← descend isDotted change path (if isDotted then .dotted else .implied, [])
      some (origin, es.set key (.table o sub))
    | some (.leaf _) => none
    | some (.table o sub) =>
      if isDotted ∧ o = .header then none
      else do
        let (o, sub) ← descend isDotted change path (o, sub)
        some (origin, es.set key (.table o sub))
    | some (.tables elements) => do
      let last ← elements.getLast?
      let (_, sub) ← descend isDotted change path (.header, last)
      some (origin, es.set key (.tables (elements.dropLast ++ [sub])))

/-- Adds a value under a key that is new in its table. A table made by dotted keys takes no plain
key, and no other table takes a dotted one. -/
def addValue (path : List String) (v : Value) : Open → Option Open :=
  match path.getLast? with
  | none => fun _ => none
  | some key =>
    descend true
      (fun (origin, es) =>
        if (origin = .dotted ↔ path.length = 1) ∨ (es.lookup key).isSome then none
        else some (origin, es.set key (.leaf v)))
      path.dropLast

def openTable (path : List String) : Open → Option Open :=
  match path.getLast? with
  | none => fun _ => none
  | some key =>
    descend false
      (fun (origin, es) =>
        match es.lookup key with
        | none => some (origin, es.set key (.table .header []))
        | some (.table .implied sub) => some (origin, es.set key (.table .header sub))
        | some _ => none)
      path.dropLast

def openElement (path : List String) : Open → Option Open :=
  match path.getLast? with
  | none => fun _ => none
  | some key =>
    descend false
      (fun (origin, es) =>
        match es.lookup key with
        | none => some (origin, es.set key (.tables [[]]))
        | some (.tables elements) => some (origin, es.set key (.tables (elements ++ [[]])))
        | some _ => none)
      path.dropLast

mutual

def Node.toValue : Node → Value
  | .leaf v => v
  | .table _ es => .table (entriesToValues es)
  | .tables elements => .array (elementsToValues elements)

def entriesToValues : List (String × Node) → List (String × Value)
  | [] => []
  | (key, n) :: es => (key, n.toValue) :: entriesToValues es

def elementsToValues : List (List (String × Node)) → List Value
  | [] => []
  | es :: rest => .table (entriesToValues es) :: elementsToValues rest

end

end DeskCalculator.Toml
