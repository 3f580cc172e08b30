import DeskCalculator.Calculator

/-!
The arguments of the command line. Options may stand anywhere before the keys; an argument that
begins with a hyphen and names no option is taken as the expression or the first key as long as
that is missing. After the first key every argument is a key.
-/
namespace DeskCalculator.CommandLine

structure Options where
  rpn : Bool := false
  trace : Bool := false
  json : Bool := false
  precision : Option Nat := none
  rounding : Option RoundingMode := none
  deriving DecidableEq

namespace Options

def mode (o : Options) : Mode :=
  if o.rpn then .rpn else .algebraic

def overrides (o : Options) : Overrides :=
  ⟨o.precision, o.rounding⟩

end Options

inductive Command
  | keypad
  | eval (options : Options) (expression : String)
  | keys (options : Options) (keys : List String)
  deriving DecidableEq

inductive Page
  | top
  | eval
  | keys
  | help
  deriving DecidableEq

inductive Invocation
  | run (config : Option String) (command : Command)
  | help (page : Page)
  | version
  | misuse
  deriving DecidableEq

inductive Subcommand
  | eval
  | keys
  deriving DecidableEq

def Subcommand.page : Subcommand → Page
  | eval => .eval
  | keys => .keys

inductive Shape
  | escape
  | long (name : String) (value : Option String)
  | short (letters : List Char)
  | plain
  deriving DecidableEq

def Shape.of (arg : String) : Shape :=
  match arg.toList with
  | ['-', '-'] => escape
  | '-' :: '-' :: cs =>
    let name := String.ofList (cs.takeWhile (· != '='))
    match cs.dropWhile (· != '=') with
    | [] => long name none
    | _ :: value => long name (some (String.ofList value))
  | '-' :: c :: cs => short (c :: cs)
  | _ => plain

inductive Valued
  | config
  | precision
  | rounding
  deriving DecidableEq

inductive Named
  | rpn
  | trace
  | json
  | help
  | valued (v : Valued)
  deriving DecidableEq

def Named.ofName? : String → Option Named
  | "rpn" => some rpn
  | "trace" => some trace
  | "json" => some json
  | "help" => some help
  | "config" => some (valued .config)
  | "precision" => some (valued .precision)
  | "rounding" => some (valued .rounding)
  | _ => none

structure Given where
  config : Option String := none
  options : Options := {}
  deriving DecidableEq

def digits? (s : String) : Option Nat :=
  let unsigned? (cs : List Char) : Option Nat :=
    if !cs.isEmpty && cs.all Char.isDigit then some (Nat.ofDigitChars 10 cs 0) else none
  match s.toList with
  | '-' :: cs => (unsigned? cs).filter (· == 0)
  | '+' :: cs => (unsigned? cs).filter (· ≤ Precision.greatestAsked)
  | cs => (unsigned? cs).filter (· ≤ Precision.greatestAsked)

namespace Given

def raise? (g : Given) : Named → Option Given
  | .rpn => if g.options.rpn then none else some { g with options.rpn := true }
  | .trace => if g.options.trace then none else some { g with options.trace := true }
  | .json => if g.options.json then none else some { g with options.json := true }
  | _ => none

def set? (g : Given) (v : Valued) (value : String) : Option Given :=
  match v with
  | .config =>
    if g.config.isSome ∨ value = "" then none else some { g with config := some value }
  | .precision =>
    if g.options.precision.isSome then none
    else (digits? value).map fun n => { g with options.precision := some n }
  | .rounding =>
    if g.options.rounding.isSome then none
    else (RoundingMode.ofLooseName? value).map fun m => { g with options.rounding := some m }

end Given

/-- Whether an argument can be the value of the option before it. One with a hyphen can if it names
no option and the subcommand still waits for its expression or its first key. -/
def isValue (waits : Bool) (arg : String) : Bool :=
  match Shape.of arg with
  | .escape => false
  | .long name _ => waits && (Named.ofName? name).isNone
  | .short letters => waits && letters.any (· != 'h')
  | .plain => true

def finish (sub : Subcommand) (g : Given) (positionals : List String) : Invocation :=
  match sub, positionals with
  | .eval, [expression] => .run g.config (.eval g.options expression)
  | .keys, key :: keys => .run g.config (.keys g.options (key :: keys))
  | _, _ => .misuse

def readSub (sub : Subcommand) (g : Given) (expression : Option String) :
    List String → Invocation
  | [] => finish sub g expression.toList
  | arg :: rest =>
    let waits := expression.isNone
    let positional (_ : Unit) : Invocation :=
      if !waits then .misuse
      else
        match sub with
        | .keys => finish sub g (arg :: rest)
        | .eval => readSub sub g (some arg) rest
    match Shape.of arg with
    | .escape => finish sub g (expression.toList ++ rest)
    | .plain => positional ()
    | .short letters =>
      if waits && letters.any (· != 'h') then positional ()
      else if letters.head? == some 'h' then .help sub.page
      else .misuse
    | .long name value =>
      match Named.ofName? name, value with
      | none, _ => positional ()
      | some (.valued v), some value =>
        match g.set? v value with
        | some g => readSub sub g expression rest
        | none => .misuse
      | some (.valued v), none =>
        match rest with
        | [] => .misuse
        | value :: rest =>
          if isValue waits value then
            match g.set? v value with
            | some g => readSub sub g expression rest
            | none => .misuse
          else .misuse
      | some _, some _ => .misuse
      | some .help, none => .help sub.page
      | some flag, none =>
        match g.raise? flag with
        | some g => readSub sub g expression rest
        | none => .misuse

def readHelp : List String → Invocation
  | [] => .help .top
  | ["eval"] => .help .eval
  | ["keys"] => .help .keys
  | ["help"] => .help .help
  | _ => .misuse

/-- The path given before the subcommand. One that is empty or not the first is refused, but only
once another option or a command to run makes use of it: the help comes before that. -/
inductive OuterPath
  | absent
  | given (path : String)
  | refused
  deriving DecidableEq

namespace OuterPath

def next (o : OuterPath) (path : String) : OuterPath :=
  if o = absent ∧ path ≠ "" then given path else refused

def under : OuterPath → Invocation → Invocation
  | refused, .run _ _ => .misuse
  | given path, .run inner command => .run (inner <|> some path) command
  | _, other => other

end OuterPath

def readTop (outer : OuterPath) : List String → Invocation
  | [] => outer.under (.run none .keypad)
  | "eval" :: rest => outer.under (readSub .eval {} none rest)
  | "keys" :: rest => outer.under (readSub .keys {} none rest)
  | "help" :: rest => readHelp rest
  | arg :: rest =>
    match Shape.of arg with
    | .escape => if rest.isEmpty then outer.under (.run none .keypad) else .misuse
    | .plain => .misuse
    | .short letters =>
      if outer = .refused then .misuse
      else if letters.head? == some 'h' then .help .top
      else if letters.head? == some 'V' then .version
      else .misuse
    | .long "config" (some path) =>
      match outer.next path with
      | .given path => readTop (.given path) rest
      | _ => .misuse
    | .long "config" none =>
      match rest with
      | [] => .misuse
      | path :: rest =>
        if outer ≠ .refused ∧ Shape.of path = .plain then readTop (outer.next path) rest
        else .misuse
    | .long "help" none => if outer = .refused then .misuse else .help .top
    | .long "version" none => if outer = .refused then .misuse else .version
    | .long _ _ => .misuse

def Invocation.ofArguments (args : List String) : Invocation :=
  readTop .absent args

end DeskCalculator.CommandLine
