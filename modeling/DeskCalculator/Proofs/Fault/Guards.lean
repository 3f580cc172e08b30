import DeskCalculator.Proofs.Fault.Requests
import DeskCalculator.Proofs.Infix.Steps

/-!
Branches that are there only as guards: for a closing parenthesis on the converter's stack, for a
parenthesis in a postfix expression, for an empty stack, and for an operator with the wrong number
of operands. Whatever is converted, read or evaluated, none of them is entered.
-/
namespace DeskCalculator

/-! ### Postfix expressions -/

namespace Postfix

inductive IsExpression : List Token → Prop
  | converted {tokens out : List Token} (h : convert tokens = .ok out) : IsExpression out
  | read {text : String} {out : List Token} (h : ofText text = .ok out) : IsExpression out
  | given {tokens out : List Token} (h : ofTokens tokens = .ok out) : IsExpression out

theorem isExpression_of_toPostfix {mode : Mode} {text : String} {tokens : List Token}
    (h : mode.toPostfix text = .ok tokens) : IsExpression tokens := by
  cases mode with
  | algebraic =>
    obtain ⟨scanned, -, hout⟩ := Mode.toPostfix_algebraic_eq_ok.1 h
    exact .converted hout
  | rpn => exact .read h

theorem Spelled.isParen_eq_false {t : Token} (h : Spelled t) : t.isParen = false := by
  cases t with
  | number l | operator op => rfl
  | lparen | rparen => exact absurd h (by unfold Spelled; decide +kernel)

theorem IsExpression.isParen_eq_false {tokens : List Token} (h : IsExpression tokens) {t : Token}
    (ht : t ∈ tokens) : t.isParen = false := by
  cases h with
  | converted h =>
    have hmem := (convert_perm h).mem_iff.1 ht
    simpa using (List.mem_filter.1 hmem).2
  | read h => exact (spelled_of_ofText h t ht).isParen_eq_false
  | @given given tokens h =>
    rw [ofTokens] at h
    split at h
    · cases h
    · rename_i hnone
      obtain rfl := Except.ok.inj h
      simpa using fun hparen => hnone (List.any_eq_true.2 ⟨t, ht, hparen⟩)

theorem convert_ne_mismatched (tokens : List Token) :
    convert tokens ≠ .error (.convertedParens .mismatched) := by
  intro h
  obtain ⟨cause, hcheck, hcause⟩ := convert_eq_error_iff.1 h
  obtain rfl := Fault.convertedParens.inj hcause
  rcases Token.checkParens_eq_error_iff.1 hcheck with ⟨hother, -⟩ | ⟨hother, -⟩ <;> cases hother

end Postfix

/-! ### Operators and their operands -/

namespace Operator

variable {op : Operator} {symbol : String}

theorem fixity_of_ofBinarySymbol (h : ofBinarySymbol symbol = .ok op) : op.fixity = .binary := by
  rw [ofBinarySymbol] at h
  split at h
  · obtain rfl := Except.ok.inj h
    rfl
  · cases h

theorem fixity_of_ofSignSymbol (h : ofSignSymbol symbol = .ok op) : op.fixity = .unary := by
  rw [ofSignSymbol] at h
  split at h
  · obtain rfl := Except.ok.inj h
    rfl
  · split at h
    · obtain rfl := Except.ok.inj h
      rfl
    · cases h

theorem exists_applyUnary (h : op.fixity = .unary) (x : Rat) : ∃ v, op.applyUnary x = .ok v := by
  cases op with
  | sign s => cases s <;> exact ⟨_, rfl⟩
  | binary op => cases h

theorem applyBinary_ne_unsupported (h : op.fixity = .binary) (x y : Rat) (s : String) :
    op.applyBinary x y ≠ .error (.unsupportedOperator s) := by
  intro hfail
  cases op with
  | sign s => cases h
  | binary op =>
    have hcombined : Expression.combined {} op ⟨x, 0⟩ ⟨y, 0⟩ = .error (.unsupportedOperator s) := by
      rw [Expression.combined, hfail]
      rfl
    rcases Expression.combined_fault hcombined with hfault | hfault <;> cases hfault

end Operator

namespace Machine

/-- The work of an operator, with what it calls for it left open: how it takes an operand from the
stack, and what applies it to one operand and to two. -/
def operateWith (take : List Entry → Except Fault (Entry × List Entry))
    (unary : Operator → Rat → Except Fault Rat) (binary : Operator → Rat → Rat → Except Fault Rat)
    (op : Operator) (stack : List Entry) : Except Fault (Entry × List Entry) :=
  if stack.length < op.arity then .error (.missingOperands op.symbol op.arity)
  else
    match op.fixity with
    | .unary => do
      let (operand, stack) ← take stack
      let v ← unary op operand.value
      return (⟨v, op.resultScale operand.scale 0 v⟩, stack)
    | .binary => do
      let (right, stack) ← take stack
      let (left, stack) ← take stack
      let v ← binary op left.value right.value
      return (⟨v, op.resultScale left.scale right.scale v⟩, stack)

theorem operateWith_self : operateWith pop Operator.applyUnary Operator.applyBinary = operate :=
  rfl

variable {take : List Entry → Except Fault (Entry × List Entry)}
  {unary : Operator → Rat → Except Fault Rat} {binary : Operator → Rat → Rat → Except Fault Rat}

theorem operateWith_eq_operate (htake : ∀ stack, stack ≠ [] → take stack = pop stack)
    (hunary : ∀ op : Operator, op.fixity = .unary → unary op = op.applyUnary)
    (hbinary : ∀ op : Operator, op.fixity = .binary → binary op = op.applyBinary) (op : Operator)
    (stack : List Entry) : operateWith take unary binary op stack = operate op stack := by
  have htop (e : Entry) (below : List Entry) : take (e :: below) = pop (e :: below) :=
    htake (e :: below) (List.cons_ne_nil e below)
  rw [← operateWith_self, operateWith, operateWith]
  by_cases hlen : stack.length < op.arity
  · rw [if_pos hlen, if_pos hlen]
  rw [if_neg hlen, if_neg hlen]
  -- the count of operands and the branch taken both follow the fixity
  cases hfixity : op.fixity with
  | unary =>
    cases stack with
    | nil =>
      rw [Operator.arity, hfixity] at hlen
      exact absurd Nat.one_pos hlen
    | cons x stack => simp only [htop, hunary op hfixity]
  | binary =>
    rcases stack with _ | ⟨y, _ | ⟨x, stack⟩⟩
    · rw [Operator.arity, hfixity] at hlen
      exact absurd Nat.two_pos hlen
    · rw [Operator.arity, hfixity] at hlen
      exact absurd Nat.one_lt_two hlen
    · simp only [htop, hbinary op hfixity, pop, bind, Except.bind]

end Machine

/-! ### Requests -/

/-- The faults that only a guard reports. -/
def Fault.IsGuard : Fault → Prop
  | scannedParens .mismatched | convertedParens .mismatched | stackUnderflow | parenOnTape => True
  | _ => False

theorem Fault.not_isGuard_of_validation {fault : Fault} (h : fault.kind = .validation) :
    ¬ fault.IsGuard := by
  cases fault with
  | scannedParens | convertedParens | stackUnderflow | parenOnTape => cases h
  | _ => exact id

theorem Postfix.IsExpression.fault_of_evaluate {tokens : List Token} (h : IsExpression tokens)
    {settings : Settings} {withTrace : Bool} {fault : Fault}
    (hfault : evaluate settings withTrace tokens = .error fault) :
    (∃ op : Operator, fault = .missingOperands op.symbol op.arity) ∨ fault = .leftoverOperands ∨
      fault = .divisionByZero ∨ fault = .powerNotFinite := by
  obtain hmissing | hzero | hpower | hleft | ⟨⟨t, ht, hparen⟩, -⟩ :=
    Machine.fault_of_evaluate hfault
  · exact .inl hmissing
  · exact .inr (.inr (.inl hzero))
  · exact .inr (.inr (.inr hpower))
  · exact .inr (.inl hleft)
  · rw [h.isParen_eq_false ht] at hparen
    cases hparen

namespace Token

variable {position : Nat} {previous : Option Token} {cs : List Char} {fault : Fault}

theorem not_isGuard_of_scanFrom (h : scanFrom position previous cs = .error fault) :
    ¬ fault.IsGuard := by
  obtain ⟨before, rest, -, -, read, -, hopens⟩ := exists_stopsAt h
  cases hopens <;> exact id

theorem not_isGuard_of_scan {text : String} (h : scan text = .error fault) : ¬ fault.IsGuard := by
  rw [scan] at h
  split at h
  · obtain rfl := Except.error.inj h
    exact id
  · split at h
    · rename_i hscanned
      obtain rfl := Except.error.inj h
      exact not_isGuard_of_scanFrom hscanned
    · split at h
      · rename_i cause hcheck
        obtain rfl := Except.error.inj h
        rcases checkParens_eq_error_iff.1 hcheck with ⟨rfl, -⟩ | ⟨rfl, -⟩
        · exact id
        · exact id
      · cases h

end Token

theorem Mode.not_isGuard_of_toPostfix {mode : Mode} {text : String} {fault : Fault}
    (h : mode.toPostfix text = .error fault) : ¬ fault.IsGuard := by
  cases mode with
  | algebraic => exact Token.not_isGuard_of_scan (toPostfix_algebraic_eq_error.1 h)
  | rpn =>
    obtain ⟨word, -, rfl⟩ := Postfix.ofText_eq_error_iff.1 h
    exact id

theorem Postfix.IsExpression.not_isGuard_of_evaluate {tokens : List Token}
    (h : IsExpression tokens) {settings : Settings} {withTrace : Bool} {fault : Fault}
    (hfault : evaluate settings withTrace tokens = .error fault) : ¬ fault.IsGuard := by
  obtain ⟨op, rfl⟩ | rfl | rfl | rfl := h.fault_of_evaluate hfault
  all_goals exact id

theorem Calculator.not_isGuard_of_answer {c : Calculator} {r : Request} {fault : Fault}
    (h : c.answer r = .error fault) : ¬ fault.IsGuard := by
  obtain ⟨-, rfl⟩ | ⟨-, hsettings | ⟨settings, -, hstage | ⟨tokens, hstage, he⟩⟩⟩ :=
    answer_eq_error_iff.1 h
  · exact id
  · exact Fault.not_isGuard_of_validation (Overrides.fault_of_resolve hsettings).2
  · exact Mode.not_isGuard_of_toPostfix hstage
  · exact (Postfix.isExpression_of_toPostfix hstage).not_isGuard_of_evaluate he

/-- No guard is ever needed. At each point of a conversion the stack is without closing
parentheses; no postfix expression has a parenthesis in it, so its evaluation fails for want of an
operand, for one too many or in its arithmetic, and for nothing else; operands are taken from
stacks that have them, and applied by what is made for the fixity of their operator, which is that
of the symbol that named it. A request reports none of the faults that guards are there for. -/
theorem guards_unreachable :
    (∀ before out stack, Postfix.shifts [] before = .ok (out, stack) →
      .rparen ∉ stack ∧ ∀ after, Postfix.convertFrom [] (before ++ after) =
        (Postfix.convertFrom stack after).map (out ++ ·)) ∧
    (∀ tokens, Postfix.convert tokens ≠ .error (.convertedParens .mismatched)) ∧
    (∀ mode text tokens, Mode.toPostfix mode text = .ok tokens → Postfix.IsExpression tokens) ∧
    (∀ tokens, Postfix.IsExpression tokens → (∀ t ∈ tokens, t.isParen = false) ∧
      ∀ settings withTrace fault, evaluate settings withTrace tokens = .error fault →
        (∃ op : Operator, fault = .missingOperands op.symbol op.arity) ∨
          fault = .leftoverOperands ∨ fault = .divisionByZero ∨ fault = .powerNotFinite) ∧
    (∀ take unary binary, (∀ stack, stack ≠ [] → take stack = Machine.pop stack) →
      (∀ op : Operator, op.fixity = .unary → unary op = op.applyUnary) →
      (∀ op : Operator, op.fixity = .binary → binary op = op.applyBinary) →
        ∀ op stack, Machine.operate op stack = Machine.operateWith take unary binary op stack) ∧
    (∀ symbol op, Operator.ofBinarySymbol symbol = .ok op → op.fixity = .binary ∧
      ∀ x y s, op.applyBinary x y ≠ .error (.unsupportedOperator s)) ∧
    (∀ symbol op, Operator.ofSignSymbol symbol = .ok op → op.fixity = .unary ∧
      ∀ x, ∃ v, op.applyUnary x = .ok v) ∧
    ∀ (c : Calculator) r fault, c.answer r = .error fault → ¬ fault.IsGuard := by
  refine ⟨fun before out stack hread => ⟨?_, fun after => ?_⟩, Postfix.convert_ne_mismatched,
    fun _ _ _ => Postfix.isExpression_of_toPostfix, fun tokens h => ⟨?_, ?_⟩, ?_, ?_, ?_, ?_⟩
  · exact Postfix.rparen_not_mem_of_shifts hread List.not_mem_nil
  · rw [Postfix.convertFrom_append, hread]
    rfl
  · exact fun t => h.isParen_eq_false
  · exact fun settings withTrace fault => h.fault_of_evaluate
  · intro take unary binary htake hunary hbinary op stack
    exact (Machine.operateWith_eq_operate htake hunary hbinary op stack).symm
  · intro symbol op hop
    have hfixity := Operator.fixity_of_ofBinarySymbol hop
    exact ⟨hfixity, Operator.applyBinary_ne_unsupported hfixity⟩
  · intro symbol op hop
    have hfixity := Operator.fixity_of_ofSignSymbol hop
    exact ⟨hfixity, Operator.exists_applyUnary hfixity⟩
  · exact fun c r fault => Calculator.not_isGuard_of_answer

end DeskCalculator
