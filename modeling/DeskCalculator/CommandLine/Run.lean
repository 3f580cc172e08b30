import DeskCalculator.CommandLine.Json
import DeskCalculator.Toml.Configuration

/-!
The program with its formats: configurations in TOML, and responses in JSON.
-/
namespace DeskCalculator.CommandLine

def Formats.standard : Formats :=
  ⟨Configuration.ofToml?, fun r => some r.toJson⟩

def run (files : Files) (filter : Option String) (args : List String) : Report :=
  runInvocation .standard files filter (Invocation.ofArguments args)

end DeskCalculator.CommandLine
