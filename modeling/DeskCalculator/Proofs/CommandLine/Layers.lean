import DeskCalculator.CommandLine.Report
import DeskCalculator.Proofs.Fault.Stages

/-! Where the settings of a call come from: its options, below them the configuration, and below
that the standard settings. -/
namespace DeskCalculator

theorem Precision.ofNat_digits (p : Precision) : ofNat p.digits = .ok p := by
  rw [ofNat, dif_pos ⟨p.one_le, p.le_max⟩]

namespace Overrides

variable {o upper lower : Overrides} {defaults settings : Settings}

theorem resolve_eq (o : Overrides) (defaults : Settings) :
    o.resolve defaults =
      (Precision.ofNat (o.precision.getD defaults.precision.digits)).map fun p =>
        ⟨p, o.rounding.getD defaults.rounding⟩ := by
  unfold resolve
  cases o.precision with
  | none => simp [Precision.ofNat_digits, Except.map]
  | some digits => rfl

theorem getD_of_resolve (h : o.resolve defaults = .ok settings) :
    settings.precision.digits = o.precision.getD defaults.precision.digits ∧
      settings.rounding = o.rounding.getD defaults.rounding := by
  rw [resolve_eq, map_eq_ok] at h
  obtain ⟨p, hp, rfl⟩ := h
  unfold Precision.ofNat at hp
  split at hp
  · obtain rfl := Except.ok.inj hp
    exact ⟨rfl, rfl⟩
  · cases hp

theorem resolve_layers (h : lower.resolve {} = .ok settings) :
    upper.resolve settings =
      (Precision.ofNat ((upper.precision <|> lower.precision).getD 15)).map fun p =>
        ⟨p, (upper.rounding <|> lower.rounding).getD .toEven⟩ := by
  obtain ⟨hprecision, hrounding⟩ := getD_of_resolve h
  have hstandard : ({} : Settings).precision.digits = 15 := rfl
  rw [resolve_eq, hprecision, hrounding, hstandard]
  cases upper.precision <;> cases upper.rounding <;> simp

theorem exists_resolve_iff : (∃ settings, o.resolve defaults = .ok settings) ↔ o.InRange := by
  constructor
  · rintro ⟨settings, h⟩
    by_contra hrange
    obtain ⟨fault, hfault, -⟩ := kind_of_resolve hrange defaults
    simp [h] at hfault
  · intro h
    exact exists_resolve h defaults

end Overrides

namespace Configuration

theorem load_eq_ok_iff {read? : String → Option Configuration} {text : String}
    {c : Configuration} : load read? text = .ok c ↔ read? text = some c ∧ c.settings.InRange := by
  unfold load
  cases hread : read? text with
  | none => simp
  | some c' =>
    have hrange : (∃ settings, c'.resolved = .ok settings) ↔ c'.settings.InRange :=
      Overrides.exists_resolve_iff
    cases hresolved : c'.resolved with
    | error fault =>
      simp only [hresolved, reduceCtorEq, Option.some.injEq, false_iff, not_and]
      rintro rfl
      simpa [hresolved] using hrange
    | ok settings =>
      simp only [hresolved, Except.ok.injEq, Option.some.injEq, iff_self_and]
      rintro rfl
      exact hrange.1 ⟨settings, hresolved⟩

end Configuration

namespace CommandLine.Files

variable {formats : Formats} {files : Files} {path : Option String} {c : Configuration}

def place (files : Files) : Option String → Place
  | some path => (files.given path).elim .unreadable .holds
  | none => files.standard

def Fails (formats : Formats) (files : Files) (path : Option String) : Prop :=
  files.place path = .unreadable ∨
    ∃ text, files.place path = .holds text ∧
      ∀ c, formats.readConfiguration text = some c → ¬ c.settings.InRange

/-- The configuration that applies; one that sets nothing where there is none. -/
def Gives (formats : Formats) (files : Files) (path : Option String) (c : Configuration) : Prop :=
  files.place path = .empty ∧ c = {} ∨
    ∃ text, files.place path = .holds text ∧ formats.readConfiguration text = some c ∧
      c.settings.InRange

theorem configuration_eq (formats : Formats) (files : Files) (path : Option String) :
    files.configuration formats path =
      match files.place path with
      | .holds text => Configuration.load formats.readConfiguration text
      | .unreadable => .error .unreadable
      | .empty => .ok {} := by
  cases path with
  | none => rfl
  | some path =>
    simp only [configuration, place]
    cases files.given path <;> rfl

theorem configuration_eq_ok_iff :
    files.configuration formats path = .ok c ↔ Gives formats files path c := by
  rw [configuration_eq, Gives]
  cases files.place path with
  | empty => simp [eq_comm]
  | unreadable => simp
  | holds text => simp [Configuration.load_eq_ok_iff]

theorem exists_gives_or_fails (formats : Formats) (files : Files) (path : Option String) :
    Fails formats files path ∨ ∃ c, Gives formats files path c := by
  unfold Fails Gives
  cases files.place path with
  | empty => simp
  | unreadable => simp
  | holds text =>
    by_cases h : ∃ c, formats.readConfiguration text = some c ∧ c.settings.InRange
    · simpa using .inr h
    · simpa using .inl (by simpa using h)

theorem not_gives_of_fails (h : Fails formats files path) (c : Configuration) :
    ¬ Gives formats files path c := by
  rintro (⟨hplace, -⟩ | ⟨text, hplace, hread, hrange⟩)
  · simp [Fails, hplace] at h
  · simp only [Fails, hplace, reduceCtorEq, false_or, Place.holds.injEq] at h
    obtain ⟨_, rfl, hall⟩ := h
    exact hall c hread hrange

theorem exists_fault_of_fails (h : Fails formats files path) :
    ∃ fault, files.configuration formats path = .error fault := by
  cases hc : files.configuration formats path with
  | error fault => exact ⟨fault, rfl⟩
  | ok c => exact absurd (configuration_eq_ok_iff.1 hc) (not_gives_of_fails h c)

theorem Gives.exists_resolved (h : Gives formats files path c) :
    ∃ settings, c.resolved = .ok settings := by
  -- the settings were checked when the configuration was read, and are in range once more
  rcases h with ⟨-, rfl⟩ | ⟨_, -, -, hrange⟩
  · exact ⟨_, rfl⟩
  · exact Overrides.exists_resolve hrange {}

end CommandLine.Files

end DeskCalculator
