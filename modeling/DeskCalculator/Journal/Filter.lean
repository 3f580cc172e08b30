import DeskCalculator.Journal.Event

/-!
Filters of the journal: a list of directives with commas between them. A directive is a level for
everything, or the beginning of a program's name with a level for that program; the directive with
the longest name decides, and of equally long ones the last.
-/
namespace DeskCalculator.Journal

def programName : String := "calculatrice_rpn"

abbrev Threshold := Nat

structure Directive where
  target : String
  threshold : Threshold
  deriving DecidableEq

def thresholdNames : List (String × Threshold) :=
  ("off", 0) :: Level.all.map fun l => (String.ofList (l.name.toList.map Char.toLower), l.rank)

def threshold? (s : String) : Option Threshold :=
  let key := String.ofList (s.toList.map Char.toLower)
  if s = "" then some Level.error.rank
  else
    match thresholdNames.lookup key with
    | some t => some t
    | none => (thresholdNames.find? fun e => e.2.repr == s).map Prod.snd

def isTarget (cs : List Char) : Bool :=
  match cs with
  | [] => false
  | c :: _ =>
    (c.isAlphanum || "-:_".toList.contains c || decide (0x80 ≤ c.toNat))
      && cs.all fun c => c != '[' && c != ']'

def directive? (cs : List Char) : Option Directive :=
  let name := cs.takeWhile (· != '=')
  if !isTarget name then none
  else
    match cs.dropWhile (· != '=') with
    | [] =>
      match threshold? (String.ofList name) with
      | some t => some ⟨"", t⟩
      | none => some ⟨String.ofList name, Level.trace.rank⟩
    | _ :: level => (threshold? (String.ofList level)).map fun t => ⟨String.ofList name, t⟩

def directives? (filter : String) : Option (List Directive) := do
  let parts := (filter.toList.splitOn ',').filter fun p => !p.isEmpty
  let ds ← parts.mapM directive?
  some (if ds.isEmpty then [⟨"", Level.error.rank⟩] else ds)

def thresholdFor (program : String) (ds : List Directive) : Threshold :=
  let apply (best : Option Directive) (d : Directive) : Option Directive :=
    if !d.target.toList.isPrefixOf program.toList then best
    else
      match best with
      | some b => if d.target.length < b.target.length then best else some d
      | none => some d
  ((ds.foldl apply none).map Directive.threshold).getD 0

/-- The first valid filter decides; without one, warnings and errors pass. -/
def effectiveThreshold (filters : List String) : Threshold :=
  match filters.findSome? directives? with
  | some ds => thresholdFor programName ds
  | none => Level.warn.rank

def linesBelow (t : Threshold) (events : List Event) : List String :=
  (events.filter fun e => e.level.rank ≤ t).map Event.line

end DeskCalculator.Journal
