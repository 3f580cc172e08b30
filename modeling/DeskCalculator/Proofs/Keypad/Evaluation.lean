import DeskCalculator.Proofs.Fault.Requests
import DeskCalculator.Proofs.Keypad.Reachable

/-!
Evaluating a keypad. The keys that are evaluated include the pending number, so that the text that
they enter need not be the one that is shown; but the two are read alike, and the state after the
evaluation is the one that the answer to the shown expression leads to.
-/
namespace DeskCalculator

/-- Texts that are read alike: in algebraic mode the same text, in RPN mode texts of the same words. -/
def Mode.ReadsAlike (mode : Mode) (text text' : String) : Prop :=
  match mode with
  | .algebraic => text = text'
  | .rpn => Text.words text.toList = Text.words text'.toList

namespace Mode.ReadsAlike

variable {mode : Mode} {text text' : String}

theorem isBlankText_iff (h : mode.ReadsAlike text text') :
    Text.IsBlankText text ↔ Text.IsBlankText text' := by
  cases mode with
  | algebraic =>
    obtain rfl : text = text' := h
    rfl
  | rpn =>
    have hwords : Text.words text.toList = Text.words text'.toList := h
    rw [Text.isBlankText_iff_words, Text.isBlankText_iff_words, hwords]

theorem toPostfix_eq (h : mode.ReadsAlike text text') : mode.toPostfix text = mode.toPostfix text' := by
  cases mode with
  | algebraic =>
    obtain rfl : text = text' := h
    rfl
  | rpn =>
    have hwords : Text.words text.toList = Text.words text'.toList := h
    rw [Mode.toPostfix, Mode.toPostfix, Postfix.ofText, Postfix.ofText, hwords]

theorem answer_eq (h : mode.ReadsAlike text text') (c : Calculator) (withTrace : Bool)
    (overrides : Overrides) :
    c.answer ⟨text, mode, withTrace, overrides⟩ = c.answer ⟨text', mode, withTrace, overrides⟩ := by
  have hblank := h.isBlankText_iff
  unfold Calculator.answer
  simp only [h.toPostfix_eq, hblank]

end Mode.ReadsAlike

theorem Settings.inRange_toOverrides (s : Settings) : s.toOverrides.InRange := by
  intro digits hdigits
  obtain rfl := Option.some.inj hdigits
  exact ⟨s.precision.one_le, s.precision.le_max⟩

theorem Calculator.answer_toOverrides (c c' : Calculator) (text : String) (mode : Mode)
    (withTrace : Bool) (s : Settings) :
    c.answer ⟨text, mode, withTrace, s.toOverrides⟩ =
      c'.answer ⟨text, mode, withTrace, s.toOverrides⟩ := by
  unfold answer
  simp only [Settings.resolve_toOverrides]

namespace Keypad

variable {k : Keypad}

def shownRequest (k : Keypad) : Request :=
  ⟨k.expression, k.mode, k.withTrace, k.settings.toOverrides⟩

theorem Consistent.readsAlike_committed (h : Consistent k) :
    k.mode.ReadsAlike (Entered.ofKeys k.mode k.committedKeys).expression k.expression := by
  rw [h.shown]
  have hform := h.form
  unfold committedKeys shownExpression
  cases hmode : k.mode with
  | algebraic =>
    have hpending := hform.algebraic hmode
    rw [if_pos hpending, if_pos hpending]
    rfl
  | rpn =>
    show Text.words _ = Text.words _
    by_cases hpending : k.pending = ""
    · rw [if_pos hpending, if_pos hpending]
    · have hsymbol : Stroke.ofKey k.pending = .symbol k.pending :=
        Stroke.ofKey_of_chars fun c hc => (hform.numerals c hc).imp_right .inl
      have hspace : Text.isBlank ' ' = true := by decide
      rw [if_neg hpending, if_neg hpending, Entered.words_rpn, Entered.pieces_concat hsymbol,
        List.flatMap_append, ← Entered.words_rpn, List.flatMap_singleton]
      -- an entry that shows nothing still holds pieces, but no words
      split
      · rename_i hempty
        rw [hempty]
        rfl
      · rw [String.toList_append, String.toList_append, List.append_assoc]
        exact (Text.words_append_cons hspace _ _).symm

theorem Consistent.readsAlike (h : Consistent k) :
    k.mode.ReadsAlike k.request.entered.expression k.expression := by
  have hentered : k.request.entered.expression =
      (Entered.ofKeys k.mode k.committedKeys).expression := by
    rw [KeyRequest.entered, request, enter_eq]
    exact Entered.expression_append_equals k.mode k.committedKeys
  rw [hentered]
  exact h.readsAlike_committed

theorem Consistent.evaluate_eq (h : Consistent k) (c : Calculator) :
    k.evaluate =
      if Text.IsBlankText k.expression then k.clearEntry.showResult Evaluation.blank
      else
        match c.answer k.shownRequest with
        | .ok e => k.clearEntry.showResult e
        | .error fault => k.clearEntry.showFault fault := by
  have halike := h.readsAlike
  have hanswer : Calculator.answer {} k.request.toRequest = c.answer k.shownRequest :=
    (halike.answer_eq {} k.withTrace k.settings.toOverrides).trans
      (Calculator.answer_toOverrides {} c k.expression k.mode k.withTrace k.settings)
  unfold Keypad.evaluate Calculator.answerKeys
  rw [hanswer]
  by_cases hblank : Text.IsBlankText k.expression
  · rw [if_pos hblank, if_pos (halike.isBlankText_iff.2 hblank)]
  · have hentered : ¬ Text.IsBlankText k.request.entered.expression :=
      fun hentered => hblank (halike.isBlankText_iff.1 hentered)
    cases c.answer k.shownRequest with
    | ok e => simp only [if_neg hblank, if_neg hentered]
    | error fault => simp only [if_neg hblank, if_neg hentered]

theorem refresh_showResult (k : Keypad) (e : Evaluation) :
    (k.clearEntry.showResult e).refresh =
      { k with
        keys := [], pending := "", expression := "", error := "", display := e.text,
        postfixText := Token.joinTexts e.postfixTokens, trace := e.trace, last := some e.value } := by
  have hshown := shownExpression_empty k.mode
  simp only [refresh, showResult, clearEntry, hshown]

theorem refresh_showFault (k : Keypad) (fault : Fault) :
    (k.clearEntry.showFault fault).refresh =
      { k with
        keys := [], pending := "", expression := "",
        error := fault.category.title ++ ": " ++ fault.message, postfixText := "", trace := [] } := by
  have hshown := shownExpression_empty k.mode
  simp only [refresh, showFault, clearEntry, hshown, Fault.report]

theorem Consistent.press_equals_of_not_blank (h : Consistent k)
    (hblank : ¬ Text.IsBlankText k.expression) (c : Calculator) :
    k.press Key.equals =
      match c.answer k.shownRequest with
      | .ok e =>
        { k with
          keys := [], pending := "", expression := "", error := "", display := e.text,
          postfixText := Token.joinTexts e.postfixTokens, trace := e.trace, last := some e.value }
      | .error fault =>
        { k with
          keys := [], pending := "", expression := "",
          error := fault.category.title ++ ": " ++ fault.message, postfixText := "",
          trace := [] } := by
  have hpress : k.press Key.equals = k.evaluate.refresh := rfl
  rw [hpress, h.evaluate_eq c, if_neg hblank]
  cases c.answer k.shownRequest with
  | ok e => exact refresh_showResult k e
  | error fault => exact refresh_showFault k fault

theorem fault_of_shownRequest {c : Calculator} {fault : Fault}
    (hblank : ¬ Text.IsBlankText k.expression) (h : c.answer k.shownRequest = .error fault) :
    fault.category ≠ .invalidRequest ∧ fault.kind ≠ .conversion := by
  have hvalid : ¬ (Text.IsBlankText k.expression ∨ ¬ k.settings.toOverrides.InRange) := by
    simp [hblank, Settings.inRange_toOverrides]
  unfold Fault.category
  obtain ⟨-, hform⟩ | ⟨-, -, hkind | ⟨hkind, -⟩⟩ | ⟨-, hkind | hkind⟩ := Calculator.kind_of_answer h
  · exact absurd hform hvalid
  all_goals simp [hkind, FaultKind.category]

/-- However a keypad has been used, the key that evaluates it has the outcome of the expression that
it shows, in its mode and under its settings, and empties the entry. A blank expression counts as
zero. A value is shown with its postfix form and its trace; a fault, which is never an invalid request
or one of conversion, is reported and leaves the display and the last result. Nothing else changes. -/
theorem Reachable.press_equals (h : Reachable k) (c : Calculator) :
    (Text.IsBlankText k.expression →
      k.press Key.equals =
        { k with
          keys := [], pending := "", expression := "", error := "", display := "0",
          postfixText := "", trace := [], last := some 0 }) ∧
    (¬ Text.IsBlankText k.expression →
      (∀ e, c.answer ⟨k.expression, k.mode, k.withTrace, k.settings.toOverrides⟩ = .ok e →
        k.press Key.equals =
          { k with
            keys := [], pending := "", expression := "", error := "", display := e.text,
            postfixText := Token.joinTexts e.postfixTokens, trace := e.trace,
            last := some e.value }) ∧
      (∀ fault,
        c.answer ⟨k.expression, k.mode, k.withTrace, k.settings.toOverrides⟩ = .error fault →
        k.press Key.equals =
          { k with
            keys := [], pending := "", expression := "",
            error := fault.category.title ++ ": " ++ fault.message, postfixText := "",
            trace := [] } ∧
        fault.category ≠ .invalidRequest ∧ fault.kind ≠ .conversion)) := by
  have hpress : k.press Key.equals = k.evaluate.refresh := rfl
  rw [hpress, h.consistent.evaluate_eq c]
  refine ⟨fun hblank => ?_, fun hblank => ⟨fun e he => ?_, fun fault hfault => ?_⟩⟩
  · rw [if_pos hblank, refresh_showResult, text_blank]
    rfl
  · have hanswer : c.answer k.shownRequest = .ok e := he
    rw [if_neg hblank, hanswer, refresh_showResult]
  · have hanswer : c.answer k.shownRequest = .error fault := hfault
    refine ⟨?_, fault_of_shownRequest hblank hanswer⟩
    rw [if_neg hblank, hanswer, refresh_showFault]

theorem press_equals_of_empty_piece :
    (run {} [.selectMode .rpn, .press "", .press "5"]).press Key.equals =
      { mode := .rpn, display := "5", postfixText := "5", trace := ["push 5"], last := some 5 } := by
  have hrun : run {} [.selectMode .rpn, .press "", .press "5"] =
      { mode := .rpn, keys := [""], pending := "5", expression := "5" } := by
    decide +kernel
  have hreachable := (Reachable.start {}).run [.selectMode .rpn, .press "", .press "5"]
  rw [hrun] at hreachable ⊢
  have hblank : ¬ Text.IsBlankText "5" := by decide
  have hanswer : Calculator.answer {} ⟨"5", .rpn, true, Settings.toOverrides {}⟩ =
      .ok ⟨5, 0, [.number ⟨5, "5"⟩], ["push 5"]⟩ := by
    decide +kernel
  have htext : Decimal.toTextAt 5 0 = "5" := by decide +kernel
  obtain ⟨-, hanswered⟩ := hreachable.press_equals {}
  obtain ⟨hvalue, -⟩ := hanswered hblank
  rw [hvalue _ hanswer, Evaluation.text, htext]
  rfl

end Keypad

end DeskCalculator
