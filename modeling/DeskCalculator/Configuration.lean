import DeskCalculator.Settings

/-!
The configuration: settings below those of a request, and which journal entries are written. How one
is read from a text is left to a library.
-/
namespace DeskCalculator

structure Configuration where
  settings : Overrides := {}
  filter : String := "warn"
  deriving DecidableEq

inductive ConfigurationFault
  | unreadable
  | malformed
  | settings (fault : Fault)
  deriving DecidableEq

def ConfigurationFault.settingsMessage (path : String) (fault : Fault) : String :=
  "invalid settings in " ++ path ++ ": " ++ fault.message

namespace Configuration

def resolved (c : Configuration) : Except Fault Settings :=
  c.settings.resolve {}

/-- What `read?` takes a text for, if its settings are in range. -/
def load (read? : String → Option Configuration) (text : String) :
    Except ConfigurationFault Configuration :=
  match read? text with
  | none => .error .malformed
  | some c =>
    match c.resolved with
    | .error fault => .error (.settings fault)
    | .ok _ => .ok c

end Configuration

end DeskCalculator
