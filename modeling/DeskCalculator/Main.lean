import DeskCalculator.CommandLine.Run

/-!
The program: it gathers its arguments, the configuration file and the journal's filter, and prints
what the run reports.
-/
open DeskCalculator DeskCalculator.CommandLine

def readPlace (path : String) : IO Place := do
  match ← (IO.FS.readFile path).toBaseIO with
  | .ok text => return .holds text
  | .error (.noFileOrDirectory _ _ _) => return .empty
  | .error _ => return .unreadable

def standardPath : IO (Option String) := do
  match ← IO.getEnv "XDG_CONFIG_HOME" with
  | some dir => return some (dir ++ "/calculatrice-rpn/config.toml")
  | none =>
    match ← IO.getEnv "HOME" with
    | some home => return some (home ++ "/.config/calculatrice-rpn/config.toml")
    | none => return none

def gatherFiles (invocation : Invocation) : IO Files := do
  match invocation with
  | .run (some path) _ =>
    let text? := match ← readPlace path with
      | .holds text => some text
      | _ => none
    return ⟨fun _ => text?, .empty⟩
  | _ =>
    match ← standardPath with
    | some path => return ⟨fun _ => none, ← readPlace path⟩
    | none => return ⟨fun _ => none, .empty⟩

def main (args : List String) : IO UInt32 := do
  let invocation := Invocation.ofArguments args
  let files ← gatherFiles invocation
  let report := runInvocation .standard files (← IO.getEnv "RUST_LOG") invocation
  for line in report.log do
    IO.eprintln line
  IO.print report.out
  IO.eprint report.err
  return UInt32.ofNat report.exitCode
