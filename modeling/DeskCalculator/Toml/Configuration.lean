import DeskCalculator.Configuration
import DeskCalculator.Toml.Document

/-!
A reader of configurations: TOML, with two tables of known keys. Keys that it does not know are
ignored, and a table of known keys may also be written as an array of its values in order.
-/
namespace DeskCalculator.Configuration

/-- The values of the named fields, each if it is present; `none` for a value without fields, and
for a table with a number out of range under another key. A date has no field with a name of ours,
and what an array holds beyond the fields is not looked at. -/
def fields? (names : List String) : Toml.Value → Option (List (Option Toml.Value))
  | .table entries =>
    if entries.all fun e => names.contains e.1 || e.2.inRange then
      some (names.map fun name => entries.lookup name)
    else none
  | .array vs => some (names.mapIdx fun i _ => vs[i]?)
  | .moment _ => some (names.map fun _ => none)
  | _ => none

def digits? : Toml.Value → Option Nat
  | .integer n => if 0 ≤ n ∧ n ≤ Precision.greatestAsked then some n.toNat else none
  | _ => none

def roundingName? : Toml.Value → Option String
  | .string s => some s
  | .table [(name, .table [])] => some name
  | .table [(name, .array [])] => some name
  | _ => none

def string? : Toml.Value → Option String
  | .string s => some s
  | _ => none

def optional? {α : Type} (read : Toml.Value → Option α) : Option Toml.Value → Option (Option α)
  | none => some none
  | some v => (read v).map some

def overrides? (v : Toml.Value) : Option Overrides := do
  match ← fields? ["precision", "rounding"] v with
  | [precision, rounding] => do
    let precision ← optional? digits? precision
    let rounding ← optional? (fun v => (roundingName? v).bind RoundingMode.ofName?) rounding
    some ⟨precision, rounding⟩
  | _ => none

def filter? (v : Toml.Value) : Option String := do
  match ← fields? ["filter"] v with
  | [filter] => (optional? string? filter).map fun f => f.getD "warn"
  | _ => none

def ofEntries? (entries : List (String × Toml.Value)) : Option Configuration := do
  match ← fields? ["settings", "logging"] (.table entries) with
  | [settings, logging] => do
    let settings ← optional? overrides? settings
    let filter ← optional? filter? logging
    some ⟨settings.getD {}, filter.getD "warn"⟩
  | _ => none

def ofToml? (text : String) : Option Configuration :=
  (Toml.parse? text).bind ofEntries?

def ofText (text : String) : Except ConfigurationFault Configuration :=
  load ofToml? text

end DeskCalculator.Configuration
