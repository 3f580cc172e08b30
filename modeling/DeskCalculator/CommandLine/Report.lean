import DeskCalculator.CommandLine.Help
import DeskCalculator.Configuration
import DeskCalculator.Journal.Filter
import DeskCalculator.Journal.Record

/-!
What a call of the program prints and how it exits. The configuration is read first, whatever the
command is; without a path it may be absent. What texts a configuration has and how a response is
printed as JSON is left open.
-/
namespace DeskCalculator.CommandLine

structure Response where
  result : String
  mode : Mode
  rpn : List String
  trace : List String
  deriving DecidableEq

def Response.ofEvaluation (mode : Mode) (e : Evaluation) : Response :=
  ⟨e.text, mode, e.postfixTokens.map Token.text, e.trace⟩

/-- What is left to libraries. Either may fail. -/
structure Formats where
  readConfiguration : String → Option Configuration
  printResponse : Response → Option String

inductive Place
  | empty
  | unreadable
  | holds (text : String)
  deriving DecidableEq

instance : Coe (Option String) Place :=
  ⟨fun text? => match text? with
    | some text => .holds text
    | none => .empty⟩

structure Files where
  given : String → Option String
  standard : Place

def Files.configuration (files : Files) (formats : Formats) :
    Option String → Except ConfigurationFault Configuration
  | some path =>
    match files.given path with
    | some text => Configuration.load formats.readConfiguration text
    | none => .error .unreadable
  | none =>
    match files.standard with
    | .holds text => Configuration.load formats.readConfiguration text
    | .unreadable => .error .unreadable
    | .empty => .ok {}

structure Report where
  exitCode : Nat
  out : String := ""
  err : String := ""
  log : List String := []
  deriving DecidableEq

structure Effects where
  exitCode : Nat
  out : String := ""
  err : String := ""
  events : List Journal.Event := []

def printLines (lines : List String) : String :=
  String.join (lines.map (· ++ "\n"))

def present (formats : Formats) (o : Options) (e : Evaluation) : Option String :=
  if o.json then (formats.printResponse (.ofEvaluation o.mode e)).map (· ++ "\n")
  else some (printLines ((if o.trace then e.trace else []) ++ [e.text]))

def refusal (events : List Journal.Event) (fault : Fault) : Effects :=
  { exitCode := fault.category.exitCode, err := fault.report ++ "\n", events }

def ofOutcome (formats : Formats) (o : Options) (events : List Journal.Event) :
    Except Fault Evaluation → Effects
  | .ok e =>
    match present formats o e with
    | some out => { exitCode := 0, out, events }
    | none => { exitCode := 1, err := "error: the response cannot be printed\n", events }
  | .error fault => refusal events fault

def perform (formats : Formats) (defaults : Settings) : Command → Effects
  | .keypad =>
    { exitCode := 1, err := "error: cannot start the keypad: no display\n",
      events := [.openingKeypad defaults, .keypadFailed] }
  | .eval o expression =>
    let c : Calculator := ⟨defaults⟩
    let r : Request := ⟨expression, o.mode, o.trace, o.overrides⟩
    ofOutcome formats o (Journal.ofAnswer c r) (c.answer r)
  | .keys o keys =>
    let c : Calculator := ⟨defaults⟩
    let r : KeyRequest := ⟨keys, o.mode, o.trace, o.overrides⟩
    ofOutcome formats o (Journal.ofAnswerKeys c r) (c.answerKeys r)

def failure (fault : ConfigurationFault) : Effects :=
  let reason := match fault with
    | .unreadable => "cannot read the file"
    | .malformed => "not a configuration"
    | .settings fault => fault.message
  { exitCode := 1, err := "error: loading configuration: " ++ reason ++ "\n" }

/-- Runs an invocation; `filter` is the journal's filter that the surroundings set. -/
def runInvocation (formats : Formats) (files : Files) (filter : Option String) :
    Invocation → Report
  | .help page => { exitCode := 0, out := page.text ++ "\n" }
  | .version => { exitCode := 0, out := versionText ++ "\n" }
  | .misuse => { exitCode := 2, err := "error: the arguments are not understood\n" }
  | .run path command =>
    let configuration := files.configuration formats path
    let effects := match configuration with
      | .error fault => failure fault
      | .ok c =>
        match c.resolved with
        | .error fault => refusal [] fault
        | .ok defaults => perform formats defaults command
    let filters := filter.toList ++ (configuration.toOption.map Configuration.filter).toList
    { exitCode := effects.exitCode, out := effects.out, err := effects.err,
      log := Journal.linesBelow (Journal.effectiveThreshold filters) effects.events }

end DeskCalculator.CommandLine
