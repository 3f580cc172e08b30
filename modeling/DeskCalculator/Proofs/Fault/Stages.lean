import DeskCalculator.Proofs.Expression.Meaning
import DeskCalculator.Proofs.Infix.Parentheses
import DeskCalculator.Proofs.Postfix.RoundTrip
import DeskCalculator.Proofs.Token.Leftmost

/-!
The faults of each stage. Settings are refused for their precision, a postfix text for its first word
that is no token, an infix text for a character, a literal, a misplaced operator or its parentheses,
and never by the converter; the machine has the faults of evaluation and of division.
-/
namespace DeskCalculator

/-! ### Settings -/

def Overrides.InRange (o : Overrides) : Prop :=
  ∀ digits ∈ o.precision, 1 ≤ digits ∧ digits ≤ 28

theorem Overrides.exists_resolve {o : Overrides} (h : o.InRange) (defaults : Settings) :
    ∃ settings, o.resolve defaults = .ok settings := by
  unfold resolve
  split
  · exact ⟨_, rfl⟩
  · rename_i digits hdigits
    have hrange := h digits hdigits
    rw [Precision.ofNat, dif_pos hrange]
    exact ⟨_, rfl⟩

theorem Overrides.kind_of_resolve {o : Overrides} (h : ¬ o.InRange) (defaults : Settings) :
    ∃ fault, o.resolve defaults = .error fault ∧ fault.kind = .validation := by
  simp only [InRange, not_forall] at h
  obtain ⟨digits, hdigits, hout⟩ := h
  unfold resolve
  rw [Option.mem_def.1 hdigits]
  simp only [Precision.ofNat, dif_neg hout]
  exact ⟨_, rfl, rfl⟩

theorem Overrides.fault_of_resolve {o : Overrides} {defaults : Settings} {fault : Fault}
    (h : o.resolve defaults = .error fault) : ¬ o.InRange ∧ fault.kind = .validation := by
  have hrange : ¬ o.InRange := by
    intro hrange
    obtain ⟨settings, hok⟩ := exists_resolve hrange defaults
    rw [hok] at h
    cases h
  obtain ⟨other, hother, hkind⟩ := kind_of_resolve hrange defaults
  rw [h] at hother
  exact ⟨hrange, Except.error.inj hother ▸ hkind⟩

/-! ### The machine -/

namespace Machine
open Expression

variable {settings : Settings} {stack : List Entry} {fault : Fault}

theorem fault_of_step {t : Token} (h : step settings stack t = .error fault) :
    (∃ op : Operator, fault = .missingOperands op.symbol op.arity) ∨ fault = .divisionByZero ∨
      fault = .powerNotFinite ∨ t.isParen = true ∧ fault = .parenOnTape := by
  have hmissing (op : Operator) (hlen : stack.length < op.arity)
      (hfail : step settings stack (.operator op) = .error fault) :
      ∃ op : Operator, fault = .missingOperands op.symbol op.arity := by
    rw [step, operate, if_pos hlen] at hfail
    exact ⟨op, (Except.error.inj hfail).symm⟩
  rcases t with l | (s | op) | _ | _
  · cases h
  · cases stack with
    | nil => exact .inl (hmissing (.sign s) Nat.one_pos h)
    | cons x stack =>
      obtain ⟨y, hy⟩ := signed_isOk settings s x
      rw [step_sign, hy] at h
      cases h
  · rcases stack with _ | ⟨y, _ | ⟨x, stack⟩⟩
    · exact .inl (hmissing (.binary op) Nat.two_pos h)
    · exact .inl (hmissing (.binary op) Nat.one_lt_two h)
    · rw [step_binary, map_eq_error] at h
      rcases combined_fault h with rfl | rfl
      · exact .inr (.inl rfl)
      · exact .inr (.inr (.inl rfl))
  · exact .inr (.inr (.inr ⟨rfl, (Except.error.inj h).symm⟩))
  · exact .inr (.inr (.inr ⟨rfl, (Except.error.inj h).symm⟩))

theorem exists_step_of_outcome {ts : List Token}
    (h : (run settings stack ts).outcome = .error fault) :
    ∃ t ∈ ts, ∃ stack', step settings stack' t = .error fault := by
  induction ts generalizing stack with
  | nil => cases h
  | cons t ts ih =>
    rw [outcome_cons] at h
    rcases bind_eq_error.1 h with hstep | ⟨r, -, hrest⟩
    · exact ⟨t, List.mem_cons_self .., stack, hstep⟩
    · obtain ⟨u, hu, stack', hstep⟩ := ih hrest
      exact ⟨u, List.mem_cons_of_mem t hu, stack', hstep⟩

theorem fault_of_evaluate {withTrace : Bool} {tokens : List Token}
    (h : evaluate settings withTrace tokens = .error fault) :
    (∃ op : Operator, fault = .missingOperands op.symbol op.arity) ∨ fault = .divisionByZero ∨
      fault = .powerNotFinite ∨ fault = .leftoverOperands ∨
      (∃ t ∈ tokens, t.isParen = true) ∧ fault = .parenOnTape := by
  simp only [evaluate] at h
  split at h
  · rename_i houtcome
    obtain rfl := Except.error.inj h
    obtain ⟨t, ht, stack, hstep⟩ := exists_step_of_outcome houtcome
    rcases fault_of_step hstep with hmissing | hzero | hpower | ⟨hparen, hfault⟩
    · exact .inl hmissing
    · exact .inr (.inl hzero)
    · exact .inr (.inr (.inl hpower))
    · exact .inr (.inr (.inr (.inr ⟨⟨t, ht, hparen⟩, hfault⟩)))
  · cases h
  · exact .inr (.inr (.inr (.inl (Except.error.inj h).symm)))

theorem kind_of_evaluate {withTrace : Bool} {tokens : List Token}
    (h : evaluate settings withTrace tokens = .error fault) :
    fault.kind = .evaluation ∨ fault.kind = .divideByZero := by
  obtain ⟨op, rfl⟩ | rfl | rfl | rfl | ⟨-, rfl⟩ := fault_of_evaluate h
  · exact .inl rfl
  · exact .inr rfl
  · exact .inl rfl
  · exact .inl rfl
  · exact .inl rfl

end Machine

/-! ### Postfix texts -/

namespace Postfix

def NamesToken (word : String) : Prop :=
  (Decimal.ofString? word).isSome ∨ word ∈ ["u-", "neg", "u+", "pos"] ∨
    word ∈ ["+", "-", "*", "/", "^"]

instance (word : String) : Decidable (NamesToken word) :=
  inferInstanceAs (Decidable (_ ∨ _ ∨ _))

theorem exists_ofWord {word : String} (h : NamesToken word) : ∃ t, ofWord word = .ok t := by
  rcases h with hliteral | hsign | hbinary
  · obtain ⟨v, hv⟩ := Option.isSome_iff_exists.1 hliteral
    refine ⟨.number ⟨v, word⟩, ?_⟩
    simp only [ofWord, Literal.ofString?, hv, Option.map_some]
  · simp only [List.mem_cons, List.not_mem_nil, or_false] at hsign
    rcases hsign with rfl | rfl | rfl | rfl
    · exact ⟨_, spelled_operator (.sign .negate)⟩
    · exact ⟨.operator (.sign .negate), by decide +kernel⟩
    · exact ⟨_, spelled_operator (.sign .plus)⟩
    · exact ⟨.operator (.sign .plus), by decide +kernel⟩
  · simp only [List.mem_cons, List.not_mem_nil, or_false] at hbinary
    rcases hbinary with rfl | rfl | rfl | rfl | rfl
    · exact ⟨_, spelled_operator (.binary .add)⟩
    · exact ⟨_, spelled_operator (.binary .subtract)⟩
    · exact ⟨_, spelled_operator (.binary .multiply)⟩
    · exact ⟨_, spelled_operator (.binary .divide)⟩
    · exact ⟨_, spelled_operator (.binary .power)⟩

theorem ofWord_of_not_namesToken {word : String} (h : ¬ NamesToken word) :
    ofWord word = .error (.unsupportedOperator word) := by
  obtain ⟨hliteral, hrest⟩ := not_or.1 h
  obtain ⟨hsign, hbinary⟩ := not_or.1 hrest
  have hsymbol (op : BinaryOp) : op.symbol ∈ ["+", "-", "*", "/", "^"] := by
    cases op <;> decide +kernel
  have hnone : (BinaryOp.all.find? fun op => op.symbol == word) = none := by
    simp only [List.find?_eq_none, beq_iff_eq]
    rintro op - rfl
    exact hbinary (hsymbol op)
  simp only [List.mem_cons, List.not_mem_nil, or_false, not_or] at hsign
  obtain ⟨hminus, hneg, hplus, hpos⟩ := hsign
  have hread : Literal.ofString? word = none := by
    simpa [Literal.ofString?] using hliteral
  simp only [ofWord, hread, hminus, hneg, hplus, hpos, or_self, if_false,
    Operator.ofBinarySymbol, hnone]
  rfl

theorem ofWord_eq_error_iff {word : String} {fault : Fault} :
    ofWord word = .error fault ↔ ¬ NamesToken word ∧ fault = .unsupportedOperator word := by
  by_cases h : NamesToken word
  · obtain ⟨t, ht⟩ := exists_ofWord h
    simp [ht, h]
  · simp [ofWord_of_not_namesToken h, h, eq_comm]

theorem exists_ofWord_iff {word : String} : (∃ t, ofWord word = .ok t) ↔ NamesToken word := by
  refine ⟨?_, exists_ofWord⟩
  rintro ⟨t, ht⟩
  by_contra h
  rw [ofWord_of_not_namesToken h] at ht
  cases ht

theorem ofText_eq_error_iff {text : String} {fault : Fault} :
    ofText text = .error fault ↔
      ∃ word, ((Text.words text.toList).map String.ofList).find? (fun w => ¬ NamesToken w) =
        some word ∧ fault = .unsupportedOperator word := by
  have hwords : ofText text = ((Text.words text.toList).map String.ofList).mapM ofWord := by
    rw [List.mapM_map]
    rfl
  rw [hwords, mapM_eq_error]
  simp only [List.find?_eq_some_iff_append, ofWord_eq_error_iff, exists_ofWord_iff,
    decide_not, Bool.not_not, Bool.not_eq_true', decide_eq_true_eq, decide_eq_false_iff_not]
  constructor
  · rintro ⟨before, word, after, hsplit, hbefore, hword, hfault⟩
    exact ⟨word, ⟨hword, before, after, hsplit, hbefore⟩, hfault⟩
  · rintro ⟨word, ⟨hword, before, after, hsplit, hbefore⟩, hfault⟩
    exact ⟨before, word, after, hsplit, hbefore, hword, hfault⟩

end Postfix

/-! ### Infix texts -/

namespace Token

/-- The text can be read up to `op`, which is no sign but stands where an operand is awaited. -/
def Misplaced (cs : List Char) (op : BinaryOp) : Prop :=
  (op = .multiply ∨ op = .divide ∨ op = .power) ∧ ∃ before after,
    cs = before ++ op.char :: after ∧ (∃ read, scanFrom 0 none before = .ok read) ∧
      awaitsOperand before = true

theorem fault_of_scanFrom {cs : List Char} {fault : Fault}
    (h : scanFrom 0 none cs = .error fault) :
    fault.kind = .tokenization ∨
      ∃ op, fault = .unsupportedOperator op.symbol ∧ Misplaced cs op := by
  obtain ⟨before, rest, rfl, -, read, hread, hopens⟩ := exists_stopsAt h
  cases hopens with
  | character hc after => exact .inl rfl
  | literal hne hrun hend hliteral => exact .inl rfl
  | operator hop hexpects after =>
    rw [Option.or_none, ← awaitsOperand_of_scanFrom hread] at hexpects
    exact .inr ⟨_, rfl, hop, before, after, rfl, ⟨read, hread⟩, hexpects⟩

end Token

end DeskCalculator
