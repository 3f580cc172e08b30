import DeskCalculator.Calculator
import DeskCalculator.Proofs.Outcome

/-!
An answer, stage by stage: the settings, the postfix form of the text, and the value of that; in
algebraic mode the tokens of the text come before their postfix form.
-/
namespace DeskCalculator

theorem Mode.toPostfix_algebraic_eq_ok {text : String} {out : List Token} :
    Mode.algebraic.toPostfix text = .ok out ↔
      ∃ tokens, Token.scan text = .ok tokens ∧ Postfix.convert tokens = .ok out := by
  rw [Mode.toPostfix, bind_eq_ok]

namespace Calculator

theorem answer_algebraic {c : Calculator} {r : Request} (hmode : r.mode = .algebraic)
    (hblank : ¬ Text.IsBlankText r.expression) :
    c.answer r = (r.overrides.resolve c.defaults).bind fun settings =>
      ((Token.scan r.expression).bind Postfix.convert).bind (evaluate settings r.withTrace) := by
  rw [answer, if_neg hblank, Mode.toPostfix.eq_def, hmode]
  rfl

theorem answer_eq_of_scan {s s' : String} (hs : ¬ Text.IsBlankText s) (hs' : ¬ Text.IsBlankText s')
    (h : Token.scan s = Token.scan s') (c : Calculator) (withTrace : Bool) (overrides : Overrides) :
    c.answer ⟨s, .algebraic, withTrace, overrides⟩ =
      c.answer ⟨s', .algebraic, withTrace, overrides⟩ := by
  have hleft := answer_algebraic (c := c) (r := ⟨s, .algebraic, withTrace, overrides⟩) rfl hs
  have hright := answer_algebraic (c := c) (r := ⟨s', .algebraic, withTrace, overrides⟩) rfl hs'
  simp only [h] at hleft
  exact hleft.trans hright.symm

theorem answer_of_scan {c : Calculator} {r : Request} {settings : Settings} {tokens : List Token}
    (hmode : r.mode = .algebraic) (hsettings : r.overrides.resolve c.defaults = .ok settings)
    (hscan : Token.scan r.expression = .ok tokens) :
    c.answer r = (Postfix.convert tokens).bind (evaluate settings r.withTrace) := by
  have hblank : ¬ Text.IsBlankText r.expression := by
    intro hblank
    rw [Token.scan, if_pos hblank] at hscan
    cases hscan
  rw [answer_algebraic hmode hblank, hsettings, hscan]
  rfl

theorem answer_of_toPostfix {c : Calculator} {r : Request} {tokens : List Token}
    (hblank : ¬ Text.IsBlankText r.expression) (h : r.mode.toPostfix r.expression = .ok tokens) :
    c.answer r = (r.overrides.resolve c.defaults).bind fun settings =>
      evaluate settings r.withTrace tokens := by
  rw [answer, if_neg hblank, h]
  rfl

theorem answer_eq_error_iff {c : Calculator} {r : Request} {fault : Fault} :
    c.answer r = .error fault ↔
      Text.IsBlankText r.expression ∧ fault = .expressionRequired ∨
      ¬ Text.IsBlankText r.expression ∧ (r.overrides.resolve c.defaults = .error fault ∨
        ∃ settings, r.overrides.resolve c.defaults = .ok settings ∧
          (r.mode.toPostfix r.expression = .error fault ∨
            ∃ tokens, r.mode.toPostfix r.expression = .ok tokens ∧
              evaluate settings r.withTrace tokens = .error fault)) := by
  by_cases hblank : Text.IsBlankText r.expression
  · rw [answer, if_pos hblank, Except.error.injEq]
    simp only [hblank, not_true_eq_false, true_and, false_and, or_false, eq_comm]
  · rw [answer, if_neg hblank]
    simp only [hblank, not_false_eq_true, true_and, false_and, false_or]
    refine bind_eq_error.trans (or_congr_right (exists_congr fun settings => ?_))
    exact and_congr_right' bind_eq_error

theorem stages_of_answer_eq_ok {c : Calculator} {r : Request} {e : Evaluation}
    (h : c.answer r = .ok e) :
    ∃ settings tokens, r.overrides.resolve c.defaults = .ok settings ∧
      r.mode.toPostfix r.expression = .ok tokens ∧ evaluate settings r.withTrace tokens = .ok e := by
  by_cases hblank : Text.IsBlankText r.expression
  · rw [answer, if_pos hblank] at h
    cases h
  · rw [answer, if_neg hblank] at h
    obtain ⟨settings, hsettings, h⟩ := bind_eq_ok.1 h
    obtain ⟨tokens, htokens, h⟩ := bind_eq_ok.1 h
    exact ⟨settings, tokens, hsettings, htokens, h⟩

theorem exists_of_answer_eq_ok {c : Calculator} {r : Request} {e : Evaluation}
    (hmode : r.mode = .algebraic) (h : c.answer r = .ok e) :
    ∃ settings tokens out, r.overrides.resolve c.defaults = .ok settings ∧
      Token.scan r.expression = .ok tokens ∧ Postfix.convert tokens = .ok out ∧
      evaluate settings r.withTrace out = .ok e := by
  obtain ⟨settings, out, hsettings, hout, he⟩ := stages_of_answer_eq_ok h
  rw [hmode, Mode.toPostfix_algebraic_eq_ok] at hout
  obtain ⟨tokens, hscan, hout⟩ := hout
  exact ⟨settings, tokens, out, hsettings, hscan, hout, he⟩

end Calculator

end DeskCalculator
