import DeskCalculator.Proofs.Memory.Sessions

/-! Which registers exist. The values of a store say nothing about it, since a register that is
missing counts as zero; but reading creates it, also for a command that is then refused. -/
namespace DeskCalculator.Memory

namespace Store

variable (s : Store) (session : String)

theorem get?_getOrCreate :
    (s.getOrCreate session).2.get? = Function.update s.get? session (some (s.value session)) := by
  unfold getOrCreate value
  cases h : s.get? session with
  | some v =>
    show s.get? = Function.update s.get? session (some v)
    rw [← h, Function.update_eq_self]
  | none =>
    funext other
    simp [get?_save, Function.update_apply]

theorem get?_getOrCreate_eq_iff :
    (s.getOrCreate session).2.get? = s.get? ↔ (s.get? session).isSome = true := by
  rw [get?_getOrCreate, Function.update_eq_iff, Option.isSome_iff_exists]
  constructor
  · rintro ⟨hvalue, -⟩
    exact ⟨s.value session, hvalue.symm⟩
  · rintro ⟨v, hv⟩
    simp [value, hv]

theorem get?_getOrCreate_of_ne {other : String} (h : other ≠ session) :
    (s.getOrCreate session).2.get? other = s.get? other := by
  rw [get?_getOrCreate, Function.update_of_ne h]

end Store

theorem Effect.get?_apply_of_ne (e : Effect) (s : Store) {session other : String}
    (h : other ≠ session) : (e.apply s session).get? other = s.get? other := by
  cases e with
  | save v => simp [apply, Store.get?_save, h]
  | erase => simp [apply, Store.get?_erase, h]

theorem Command.effect_eq_error_iff {command : Command} {operand : Option Rat} {current : Rat}
    {fault : Fault} : command.effect operand current = .error fault ↔
      fault = .valueRequired ∧ command.takesOperand = true ∧ operand = none := by
  cases command <;> cases operand <;> simp [effect, takesOperand, eq_comm]

variable {s : Store} {session : String} {command : Command} {operand : Option Rat}

theorem apply_of_blank (h : Text.IsBlankText session) :
    apply s session command operand = (.error .sessionRequired, s) := by
  rw [apply, if_pos h]

theorem apply_of_effect_error {fault : Fault} (h : ¬ Text.IsBlankText session)
    (heffect : command.effect operand (s.value session) = .error fault) :
    apply s session command operand = (.error fault, (s.getOrCreate session).2) := by
  rw [Store.value, ← Store.getOrCreate_fst] at heffect
  simp [apply, h, heffect]

theorem apply_of_effect_ok {e : Effect} (h : ¬ Text.IsBlankText session)
    (heffect : command.effect operand (s.value session) = .ok e) :
    apply s session command operand =
      (.ok e.answer, e.apply (s.getOrCreate session).2 session) := by
  rw [Store.value, ← Store.getOrCreate_fst] at heffect
  simp [apply, h, heffect]

/-- The registers after a command. One that is refused changes no value and removes no register; to
a blank session it leaves the registers as they are, and where its operand is missing it creates
the register that it has read. So the registers are the ones before exactly when the session is
blank or had one. A command that is carried out leaves alone those of the other sessions. -/
theorem registers_after_apply (s : Store) (session : String) (command : Command)
    (operand : Option Rat) :
    (∀ fault, (apply s session command operand).1 = .error fault →
      (Text.IsBlankText session ∧ fault = .sessionRequired ∧
          (apply s session command operand).2 = s ∨
        ¬ Text.IsBlankText session ∧ fault = .valueRequired ∧
          command.takesOperand = true ∧ operand = none ∧
          (apply s session command operand).2.get? =
            Function.update s.get? session (some (s.value session))) ∧
      (apply s session command operand).2.value = s.value ∧
      ((apply s session command operand).2.get? = s.get? ↔
        Text.IsBlankText session ∨ (s.get? session).isSome = true)) ∧
    ∀ v, (apply s session command operand).1 = .ok v → ∀ other, other ≠ session →
      (apply s session command operand).2.get? other = s.get? other := by
  by_cases hblank : Text.IsBlankText session
  · rw [apply_of_blank hblank]
    refine ⟨?_, by simp⟩
    intro fault hfault
    obtain rfl := Except.error.inj hfault
    exact ⟨.inl ⟨hblank, rfl, rfl⟩, rfl, by simp [hblank]⟩
  · cases heffect : command.effect operand (s.value session) with
    | error cause =>
      obtain ⟨rfl, htakes, rfl⟩ := Command.effect_eq_error_iff.1 heffect
      rw [apply_of_effect_error hblank heffect]
      refine ⟨?_, by simp⟩
      intro fault hfault
      obtain rfl := Except.error.inj hfault
      refine ⟨.inr ⟨hblank, rfl, htakes, rfl, s.get?_getOrCreate session⟩,
        s.value_getOrCreate_eq session, ?_⟩
      simp [Store.get?_getOrCreate_eq_iff, hblank]
    | ok e =>
      rw [apply_of_effect_ok hblank heffect]
      refine ⟨by simp, ?_⟩
      intro v _ other hother
      rw [e.get?_apply_of_ne _ hother, s.get?_getOrCreate_of_ne session hother]

theorem not_forall_refused_keeps_registers :
    ¬ ∀ (s : Store) (session : String) (command : Command) (operand : Option Rat) (fault : Fault),
      (apply s session command operand).1 = .error fault →
        (apply s session command operand).2.get? = s.get? := by
  intro h
  have hmap := h {} "s" .store none .valueRequired (by decide)
  exact absurd (congrFun hmap "s") (by decide)

end DeskCalculator.Memory
