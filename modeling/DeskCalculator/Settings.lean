import DeskCalculator.Fault
import DeskCalculator.Rounding

/-!
The precision and the rounding that an evaluation uses. Settings come in layers: what a request
does not set is taken from the layer below.
-/
namespace DeskCalculator

structure Precision where
  digits : Nat
  one_le : 1 ≤ digits
  le_max : digits ≤ 28
  deriving DecidableEq

namespace Precision

def least : Precision := ⟨1, by decide, by decide⟩

def greatest : Precision := ⟨28, by decide, by decide⟩

def standard : Precision := ⟨15, by decide, by decide⟩

def ofNat (digits : Nat) : Except Fault Precision :=
  if h : 1 ≤ digits ∧ digits ≤ 28 then .ok ⟨digits, h.1, h.2⟩
  else .error (.precisionOutOfRange digits)

def greatestAsked : Nat := 0xffffffff

def clamp (n : Int) : Precision :=
  if h : 1 ≤ n ∧ n ≤ 28 then ⟨n.toNat, by omega, by omega⟩
  else if n < 1 then least else greatest

end Precision

structure Settings where
  precision : Precision := Precision.standard
  rounding : RoundingMode := .toEven
  deriving DecidableEq

structure Overrides where
  precision : Option Nat := none
  rounding : Option RoundingMode := none
  deriving DecidableEq

/-- The settings of a layer above `defaults`, each field on its own. -/
def Overrides.resolve (o : Overrides) (defaults : Settings) : Except Fault Settings :=
  let rounding := o.rounding.getD defaults.rounding
  match o.precision with
  | none => .ok ⟨defaults.precision, rounding⟩
  | some digits => (Precision.ofNat digits).map fun p => ⟨p, rounding⟩

def Settings.toOverrides (s : Settings) : Overrides :=
  ⟨some s.precision.digits, some s.rounding⟩

theorem Settings.resolve_toOverrides (s defaults : Settings) :
    s.toOverrides.resolve defaults = .ok s := by
  obtain ⟨⟨digits, one_le, le_max⟩, rounding⟩ := s
  simp [toOverrides, Overrides.resolve, Precision.ofNat, one_le, le_max, Except.map]

end DeskCalculator
