import DeskCalculator.Proofs.Expression.Reuse
import DeskCalculator.Proofs.Keypad.Recall
import DeskCalculator.Proofs.Rounding.Laws

/-!
The value of a recalled register. Recalled into an empty entry and evaluated, the register is rounded
to the precision. In algebraic mode the minus of a register below zero is a key of its own, so that
its magnitude is rounded and then negated; this differs from rounding the register itself in the two
modes that round towards an infinity.
-/
namespace DeskCalculator

namespace Expression

def signedNumber (negative : Prop) [Decidable negative] (l : Literal) : Expression :=
  if negative then .sign .negate (.number l) else .number l

variable {negative : Prop} [Decidable negative]

theorem convert_signedNumber (l : Literal) :
    Postfix.convert (Token.signedNumber negative l) = .ok (signedNumber negative l).postorder := by
  unfold Token.signedNumber signedNumber
  split <;> rfl

theorem exists_meaning_signedNumber (settings : Settings) (negative : Prop)
    [Decidable negative] (l : Literal) :
    ∃ x, (signedNumber negative l).meaning settings = .ok x ∧
      x.value =
        if negative then -roundTo settings.rounding settings.precision.digits l.value
        else roundTo settings.rounding settings.precision.digits l.value := by
  unfold signedNumber
  split
  · -- the magnitude is on the grid, so that its negative is not rounded again
    have hgrid := Decimal.hasScale_roundTo settings.rounding settings.precision.digits l.value
    exact ⟨_, rfl, Decimal.roundTo_of_hasScale _ hgrid.neg⟩
  · exact ⟨_, rfl, rfl⟩

theorem answer_signedNumber {text : String} {l : Literal} (settings : Settings)
    (withTrace : Bool)
    (hscan : Token.scanFrom 0 none text.toList = .ok (Token.signedNumber negative l)) :
    (Calculator.answer {} ⟨text, .algebraic, withTrace, settings.toOverrides⟩).map
      Evaluation.entry = (signedNumber negative l).meaning settings := by
  have hparens : Token.checkParens (Token.signedNumber negative l) = .ok () := by
    unfold Token.signedNumber
    split <;> rfl
  have hne : Token.signedNumber negative l ≠ [] := by simp [Token.signedNumber]
  have htokens := Token.scan_of_scanFrom hscan hne hparens
  have hsettings := Settings.resolve_toOverrides settings ({} : Calculator).defaults
  rw [Calculator.answer_of_scan rfl hsettings htokens, convert_signedNumber]
  exact entry_evaluate_postorder settings withTrace (signedNumber negative l)

end Expression

namespace Keypad

variable {k : Keypad}

theorem Consistent.press_equals_of_answer (h : Consistent k) {x : Entry}
    (hanswer : (Calculator.answer {} k.shownRequest).map Evaluation.entry = .ok x) :
    (k.press Key.equals).error = "" ∧ (k.press Key.equals).last = some x.value := by
  obtain ⟨e, he, rfl⟩ := map_eq_ok.1 hanswer
  have hblank : ¬ Text.IsBlankText k.expression := by
    intro hblank
    rw [Calculator.answer, shownRequest, if_pos hblank] at he
    cases he
  rw [h.press_equals_of_not_blank hblank {}, he]
  exact ⟨rfl, rfl⟩

theorem Recalled.shownRequest_eq {k' : Keypad} (h : Recalled k k') :
    k'.shownRequest = ⟨k'.expression, k.mode, k.withTrace, k.settings.toOverrides⟩ := by
  have hmode : k'.mode = k.mode := by rw [h.rest]
  have htrace : k'.withTrace = k.withTrace := by rw [h.rest]
  have hsettings : k'.settings = k.settings := by rw [h.rest]
  rw [shownRequest, hmode, htrace, hsettings]

section Empty

variable (h : Consistent k) (hkeys : k.keys = []) (hpending : k.pending = "")
include h hkeys hpending

theorem Consistent.expression_of_empty : k.expression = "" := by
  rw [h.shown, hkeys, hpending, shownExpression_empty]

theorem Consistent.answer_recalled_rpn (hmode : k.mode = .rpn) :
    (Calculator.answer {} (k.memory .recall).shownRequest).map Evaluation.entry =
      (Expression.number ⟨k.register, Decimal.toText k.register⟩).meaning k.settings := by
  obtain ⟨hrecalled, hwords⟩ := h.recall_rpn hmode
  have hreads := (displays_toText h.register.hasScale).reads
  have hliteral : Literal.ofString? (Decimal.toText k.register) =
      some ⟨k.register, Decimal.toText k.register⟩ := Literal.ofString?_eq_some.2 ⟨hreads, rfl⟩
  have halike : Mode.rpn.ReadsAlike (k.memory .recall).expression (Decimal.toText k.register) := by
    have hword := Decimal.isWord_of_ofString? hreads
    rw [h.expression_of_empty hkeys hpending] at hwords
    exact hwords.trans hword.words_eq.symm
  have hsettings := Settings.resolve_toOverrides k.settings ({} : Calculator).defaults
  rw [hrecalled.shownRequest_eq, hmode, halike.answer_eq]
  exact Calculator.answer_of_ofString? hliteral hsettings k.withTrace

theorem Consistent.exists_answer_recalled_algebraic (hmode : k.mode = .algebraic) :
    ∃ l : Literal, l.value = |k.register| ∧
      (Calculator.answer {} (k.memory .recall).shownRequest).map Evaluation.entry =
        (Expression.signedNumber (k.register < 0) l).meaning k.settings := by
  have hempty := h.expression_of_empty hkeys hpending
  have hplace : k.endsWithOperand = false := by
    unfold endsWithOperand
    rw [hmode, hempty]
    rfl
  obtain ⟨l, hl, hvalue, hrecalled, -, hexpression⟩ := h.exists_recall_algebraic hmode hplace
  have hnil : (Entered.shown k.keys).toList = [] := by
    rw [← h.expression_algebraic hmode, hempty]
    rfl
  have hscan : Token.scanFrom 0 none (Entered.shown k.keys).toList = .ok [] := by
    rw [hnil, Token.scanFrom]
  have htokens : Token.scanFrom 0 none (k.memory .recall).expression.toList =
      .ok (Token.signedNumber (k.register < 0) l) := by
    rw [hexpression]
    exact Entered.scanFrom_shown_append_operand hl hscan (by simp [hnil])
  refine ⟨l, hvalue, ?_⟩
  rw [hrecalled.shownRequest_eq, hmode]
  exact Expression.answer_signedNumber k.settings k.withTrace htokens

theorem Consistent.exists_answer_recalled :
    ∃ x, (Calculator.answer {} (k.memory .recall).shownRequest).map Evaluation.entry = .ok x ∧
      x.value =
        if k.mode = .algebraic ∧ k.register < 0 then
          -roundTo k.settings.rounding k.settings.precision.digits |k.register|
        else roundTo k.settings.rounding k.settings.precision.digits k.register := by
  cases hmode : k.mode with
  | rpn => exact ⟨_, h.answer_recalled_rpn hkeys hpending hmode, (if_neg nofun).symm⟩
  | algebraic =>
    obtain ⟨l, hl, hanswer⟩ := h.exists_answer_recalled_algebraic hkeys hpending hmode
    obtain ⟨x, hx, hvalue⟩ :=
      Expression.exists_meaning_signedNumber k.settings (k.register < 0) l
    refine ⟨x, hanswer.trans hx, ?_⟩
    rw [hvalue, hl]
    by_cases hneg : k.register < 0
    · rw [if_pos hneg, if_pos ⟨rfl, hneg⟩]
    · rw [if_neg hneg, if_neg fun hboth => hneg hboth.2, abs_of_nonneg (not_lt.1 hneg)]

end Empty

/-- Recalling the register into an empty entry and evaluating it gives the register rounded, except
that in algebraic mode a register below zero is negated after its magnitude is rounded. So the modes
agree unless the register is below zero and off the grid of the precision, and rounding goes towards
an infinity. -/
theorem Reachable.evaluates_recalled (h : Reachable k) (hkeys : k.keys = [])
    (hpending : k.pending = "") :
    ((k.memory .recall).press Key.equals).error = "" ∧
    ((k.memory .recall).press Key.equals).last =
      some (if k.mode = .algebraic ∧ k.register < 0 then
          -roundTo k.settings.rounding k.settings.precision.digits |k.register|
        else roundTo k.settings.rounding k.settings.precision.digits k.register) ∧
    (((k.memory .recall).press Key.equals).last =
        some (roundTo k.settings.rounding k.settings.precision.digits k.register) ↔
      k.mode = .rpn ∨ 0 ≤ k.register ∨ k.settings.rounding.mirrored = k.settings.rounding ∨
        Decimal.HasScale k.register k.settings.precision.digits) := by
  obtain ⟨x, hanswer, hvalue⟩ := h.consistent.exists_answer_recalled hkeys hpending
  have hnext : Consistent (k.memory .recall) := (h.act (.memory .recall)).consistent
  obtain ⟨herror, hlast⟩ := hnext.press_equals_of_answer hanswer
  rw [hvalue] at hlast
  refine ⟨herror, hlast, ?_⟩
  rw [hlast, Option.some.injEq]
  split
  · rename_i hboth
    obtain ⟨hmode, hneg⟩ := hboth
    have hrpn : ¬ k.mode = .rpn := by simp [hmode]
    rw [abs_of_neg hneg, roundTo_neg, neg_neg, roundTo_mirrored_iff, or_iff_right hrpn,
      or_iff_right (not_le.2 hneg)]
  · rename_i hboth
    refine iff_of_true rfl ?_
    cases hmode : k.mode with
    | rpn => exact .inl rfl
    | algebraic => exact .inr (.inl (not_lt.1 fun hneg => hboth ⟨hmode, hneg⟩))

theorem evaluates_recalled_under_other_settings :
    (((run {} [.press "0", .press "-", .press "1", .press ".", .press "2", .press "5",
        .press Key.equals, .memory .store, .configure ⟨Precision.least, .toPositiveInfinity⟩]).memory
          .recall).press Key.equals).last = some (-13 / 10) := by
  have hreachable := (Reachable.start {}).run [.press "0", .press "-", .press "1", .press ".",
    .press "2", .press "5", .press Key.equals, .memory .store,
    .configure ⟨Precision.least, .toPositiveInfinity⟩]
  obtain ⟨-, hlast, -⟩ :=
    hreachable.evaluates_recalled (by decide +kernel) (by decide +kernel)
  exact hlast.trans (by decide +kernel)

theorem not_forall_evaluates_recalled :
    ¬ ∀ k : Keypad, Reachable k → k.keys = [] → k.pending = "" →
      ((k.memory .recall).press Key.equals).error = "" ∧
      ((k.memory .recall).press Key.equals).last =
        some (roundTo k.settings.rounding k.settings.precision.digits k.register) := by
  intro hall
  have hreachable := (Reachable.start {}).run [.press "0", .press "-", .press "1", .press ".",
    .press "2", .press "5", .press Key.equals, .memory .store,
    .configure ⟨Precision.least, .toPositiveInfinity⟩]
  obtain ⟨-, hlast⟩ := hall _ hreachable (by decide +kernel) (by decide +kernel)
  exact absurd hlast (by decide +kernel)

end Keypad

end DeskCalculator
