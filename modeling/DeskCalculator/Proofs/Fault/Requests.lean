import DeskCalculator.Proofs.Answer
import DeskCalculator.Proofs.Fault.Stages

/-!
The faults of a request. A request is invalid for its blank expression or its precision alone; of the
other kinds of fault each belongs to one stage, and none to the conversion to postfix order.
-/
namespace DeskCalculator

theorem Token.fault_of_scan {text : String} {fault : Fault} (hblank : ¬ Text.IsBlankText text)
    (h : scan text = .error fault) :
    fault.kind = .tokenization ∨
      ∃ op, fault = .unsupportedOperator op.symbol ∧ Misplaced text.toList op := by
  rw [scan, if_neg hblank] at h
  split at h
  · rename_i hscanned
    obtain rfl := Except.error.inj h
    exact fault_of_scanFrom hscanned
  · split at h
    · exact .inl (Except.error.inj h ▸ rfl)
    · cases h

theorem Token.isBlankText_of_scan {text : String} (h : scan text = .error .expressionRequired) :
    Text.IsBlankText text := by
  by_contra hblank
  rcases fault_of_scan hblank h with hkind | ⟨op, hop, -⟩
  · cases hkind
  · cases hop

namespace Mode

variable {text : String} {fault : Fault}

theorem toPostfix_algebraic_eq_error :
    algebraic.toPostfix text = .error fault ↔ Token.scan text = .error fault := by
  rw [toPostfix, bind_eq_error]
  refine ⟨fun h => h.resolve_right ?_, .inl⟩
  rintro ⟨tokens, hscan, hconvert⟩
  obtain ⟨out, hout⟩ := Postfix.exists_convert_eq_ok_iff.2 (Token.scan_eq_ok hscan).2
  rw [hout] at hconvert
  cases hconvert

theorem kind_of_toPostfix {mode : Mode} (hblank : ¬ Text.IsBlankText text)
    (h : mode.toPostfix text = .error fault) :
    fault.kind = .unsupportedOperator ∨ fault.kind = .tokenization ∧ mode = .algebraic := by
  cases mode with
  | algebraic =>
    have hscan := toPostfix_algebraic_eq_error.1 h
    rcases Token.fault_of_scan hblank hscan with hkind | ⟨op, rfl, -⟩
    · exact .inr ⟨hkind, rfl⟩
    · exact .inl rfl
  | rpn =>
    obtain ⟨word, -, rfl⟩ := Postfix.ofText_eq_error_iff.1 h
    exact .inl rfl

end Mode

namespace Calculator

variable {c : Calculator} {r : Request} {fault : Fault}

theorem kind_of_answer (h : c.answer r = .error fault) :
    (fault.kind = .validation ∧ (Text.IsBlankText r.expression ∨ ¬ r.overrides.InRange)) ∨
    (r.mode.toPostfix r.expression = .error fault ∧ ¬ Text.IsBlankText r.expression ∧
      (fault.kind = .unsupportedOperator ∨
        fault.kind = .tokenization ∧ r.mode = .algebraic)) ∨
    ((∃ tokens, r.mode.toPostfix r.expression = .ok tokens) ∧
      (fault.kind = .evaluation ∨ fault.kind = .divideByZero)) := by
  obtain ⟨hblank, rfl⟩ | ⟨hblank, hsettings | ⟨settings, -, hstage | ⟨tokens, hstage, he⟩⟩⟩ :=
    answer_eq_error_iff.1 h
  · exact .inl ⟨rfl, .inl hblank⟩
  · obtain ⟨hrange, hkind⟩ := Overrides.fault_of_resolve hsettings
    exact .inl ⟨hkind, .inr hrange⟩
  · exact .inr (.inl ⟨hstage, hblank, Mode.kind_of_toPostfix hblank hstage⟩)
  · exact .inr (.inr ⟨⟨tokens, hstage⟩, Machine.kind_of_evaluate he⟩)

theorem exists_validation_iff :
    (∃ fault, c.answer r = .error fault ∧ fault.kind = .validation) ↔
      Text.IsBlankText r.expression ∨ ¬ r.overrides.InRange := by
  constructor
  · rintro ⟨fault, h, hkind⟩
    obtain ⟨-, hform⟩ | ⟨-, -, hother | ⟨hother, -⟩⟩ | ⟨-, hother | hother⟩ := kind_of_answer h
    · exact hform
    all_goals
      rw [hkind] at hother
      cases hother
  · intro h
    by_cases hblank : Text.IsBlankText r.expression
    · exact ⟨.expressionRequired, answer_eq_error_iff.2 (.inl ⟨hblank, rfl⟩), rfl⟩
    · obtain ⟨fault, hfault, hkind⟩ :=
        Overrides.kind_of_resolve (h.resolve_left hblank) c.defaults
      exact ⟨fault, answer_eq_error_iff.2 (.inr ⟨hblank, .inl hfault⟩), hkind⟩

theorem unsupportedOperator_iff {symbol : String} :
    c.answer r = .error (.unsupportedOperator symbol) ↔
      ¬ Text.IsBlankText r.expression ∧ r.overrides.InRange ∧
        r.mode.toPostfix r.expression = .error (.unsupportedOperator symbol) := by
  constructor
  · intro h
    have hvalid : ¬ (Text.IsBlankText r.expression ∨ ¬ r.overrides.InRange) := by
      intro hform
      obtain ⟨fault, hfault, hkind⟩ := exists_validation_iff.2 hform
      rw [h] at hfault
      obtain rfl := Except.error.inj hfault
      cases hkind
    rw [not_or, not_not] at hvalid
    refine ⟨hvalid.1, hvalid.2, ?_⟩
    obtain ⟨hkind, -⟩ | ⟨hstage, -⟩ | ⟨-, hkind | hkind⟩ := kind_of_answer h
    · cases hkind
    · exact hstage
    all_goals cases hkind
  · rintro ⟨hblank, hrange, hstage⟩
    obtain ⟨settings, hsettings⟩ := Overrides.exists_resolve hrange c.defaults
    exact answer_eq_error_iff.2 (.inr ⟨hblank, .inr ⟨settings, hsettings, .inl hstage⟩⟩)

/-- Which faults a request can have. It is invalid exactly when its expression is blank or the
precision that it asks for is out of range. No fault is one of conversion; those of tokenization
occur in algebraic mode only, and those of evaluation and division only where the expression has a
postfix form. An unsupported operator is in RPN mode the first word that names no token, and in
algebraic mode a `*`, `/` or `^` where a sign is expected. -/
theorem answer_faults (c : Calculator) (r : Request) :
    ((∃ fault, c.answer r = .error fault ∧ fault.kind = .validation) ↔
      Text.IsBlankText r.expression ∨
        ∃ digits, r.overrides.precision = some digits ∧ ¬ (1 ≤ digits ∧ digits ≤ 28)) ∧
    (∀ fault, c.answer r = .error fault →
      fault.kind ≠ .conversion ∧
      (fault.kind = .tokenization → r.mode = .algebraic) ∧
      (fault.kind = .evaluation ∨ fault.kind = .divideByZero →
        ∃ tokens, r.mode.toPostfix r.expression = .ok tokens)) ∧
    (r.mode = .rpn → ¬ Text.IsBlankText r.expression → r.overrides.InRange → ∀ symbol,
      c.answer r = .error (.unsupportedOperator symbol) ↔
        ((Text.words r.expression.toList).map String.ofList).find?
          (fun word => ¬ Postfix.NamesToken word) = some symbol) ∧
    (r.mode = .algebraic → ∀ symbol, c.answer r = .error (.unsupportedOperator symbol) →
      ∃ op, symbol = op.symbol ∧ Token.Misplaced r.expression.toList op) := by
  refine ⟨?_, fun fault h => ?_, fun hmode hblank hrange symbol => ?_, fun hmode symbol h => ?_⟩
  · rw [exists_validation_iff]
    simp only [Overrides.InRange, Option.mem_def, not_forall, exists_prop]
  · obtain ⟨hkind, -⟩ | ⟨-, -, hkind | ⟨hkind, hmode⟩⟩ | ⟨htokens, hkind | hkind⟩ :=
      kind_of_answer h
    · simp [hkind]
    · simp [hkind]
    · simp [hkind, hmode]
    · simp [hkind, htokens]
    · simp [hkind, htokens]
  · rw [unsupportedOperator_iff, hmode]
    simp only [hblank, hrange, not_false_eq_true, true_and]
    refine Postfix.ofText_eq_error_iff.trans ⟨?_, fun hfind => ⟨symbol, hfind, rfl⟩⟩
    rintro ⟨word, hfind, hfault⟩
    obtain rfl := Fault.unsupportedOperator.inj hfault
    exact hfind
  · obtain ⟨hblank, -, hstage⟩ := unsupportedOperator_iff.1 h
    rw [hmode, Mode.toPostfix_algebraic_eq_error] at hstage
    rcases Token.fault_of_scan hblank hstage with hkind | ⟨op, hfault, hmisplaced⟩
    · cases hkind
    · exact ⟨op, Fault.unsupportedOperator.inj hfault, hmisplaced⟩

end Calculator

end DeskCalculator
