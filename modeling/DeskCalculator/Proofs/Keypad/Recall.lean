import DeskCalculator.Proofs.Keypad.Evaluation
import DeskCalculator.Proofs.Keys.Operand

/-!
Recalling the register. It enters one operand, whatever stands in the entry: a word in RPN mode, and
in algebraic mode a number with a sign in front of it or none, wherever an operand is expected. What is
refused leaves the keypad as it is but for the report.
-/
namespace DeskCalculator

theorem Decimal.exists_literal_toChars {v : Rat} (h : HasScale v maxScale) :
    ∃ l : Literal, l.IsUnsigned ∧ l.value = |v| ∧
      toChars v = (if v < 0 then ['-'] else []) ++ l.text.toList := by
  obtain ⟨cs, hchars, hread⟩ := exists_toChars_eq h
  refine ⟨⟨|v|, String.ofList cs⟩, Literal.isUnsigned_of_ofUnsigned? hread, rfl, ?_⟩
  rw [String.toList_ofList]
  exact hchars

namespace Keypad

def register (k : Keypad) : Rat :=
  k.store.value session

/-- Nothing but the entry has changed, and the register is shown. -/
structure Recalled (k k' : Keypad) : Prop where
  rest : k' =
    { k with
      keys := k'.keys, pending := "", expression := k'.expression,
      memoryText := Decimal.toText k.register, store := k'.store }
  value : ∀ name, k'.store.value name = k.store.value name

variable {k : Keypad}

/-! ### Where recalling is refused -/

theorem endsWithOperand_iff (hmode : k.mode = .algebraic) :
    k.endsWithOperand = true ↔
      ∃ c ∈ k.expression.toList.getLast?, c.isDigit = true ∨ c = '.' ∨ c = ')' := by
  unfold endsWithOperand
  rw [hmode]
  cases k.expression.toList.getLast? with
  | none => simp
  | some c => simp [or_assoc]

theorem endsWithOperand_rpn (hmode : k.mode = .rpn) : k.endsWithOperand = false := by
  unfold endsWithOperand
  rw [hmode]

theorem memory_recall_of_endsWithOperand (h : k.endsWithOperand = true) :
    k.memory .recall = { k with error := "Invalid request: type an operator before MR" } :=
  if_pos h

theorem memory_of_no_result (hlast : k.last = none) :
    ∀ command ∈ [Memory.Command.store, .add, .subtract],
      k.memory command = { k with error := "Invalid request: no result to store" } := by
  intro command hcommand
  simp only [List.mem_cons, List.not_mem_nil, or_false] at hcommand
  obtain rfl | rfl | rfl := hcommand
  all_goals simp only [memory, hlast]

/-! ### What recalling enters -/

theorem insertValue_with_store (k : Keypad) (store : Memory.Store) (memoryText : String)
    (v : Rat) :
    insertValue { k with store, memoryText } v = { k.insertValue v with store, memoryText } := by
  cases hmode : k.mode with
  | algebraic | rpn =>
    simp only [insertValue, hmode, enter_eq, refresh]
    rfl

theorem memory_recall (h : k.endsWithOperand = false) :
    ∃ store : Memory.Store, (∀ name, store.value name = k.store.value name) ∧
      k.memory .recall =
        { k.insertValue k.register with store, memoryText := Decimal.toText k.register } := by
  refine ⟨(k.store.getOrCreate session).2.save session k.register, fun name => ?_, ?_⟩
  · rw [Memory.Store.value_save, Memory.Store.value_getOrCreate]
    split
    · rename_i hname
      rw [hname, register]
    · rfl
  · have hsession : ¬ Text.IsBlankText session := by decide
    have hvalue : (k.store.getOrCreate session).1 = k.register :=
      Memory.Store.getOrCreate_fst k.store session
    have hrun : Memory.apply k.store session .recall none =
        (.ok k.register, (k.store.getOrCreate session).2.save session k.register) := by
      rw [Memory.apply, if_neg hsession, ← hvalue]
      rfl
    have hplace : k.memory .recall = k.runMemory .recall none := by
      rw [memory, h]
      rfl
    rw [hplace, runMemory, hrun]
    exact insertValue_with_store k _ _ k.register

theorem insertValue_rpn (hmode : k.mode = .rpn) (v : Rat) :
    k.insertValue v =
      { k with
        keys := k.committedKeys ++ [Decimal.toText v], pending := "",
        expression :=
          (Entered.ofKeys .rpn (k.committedKeys ++ [Decimal.toText v])).expression } := by
  simp only [insertValue, hmode, enter_eq, refresh, shownExpression, if_pos]

theorem insertValue_algebraic (hmode : k.mode = .algebraic) (hpending : k.pending = "")
    {v : Rat} {l : Literal} (hl : l.IsUnsigned)
    (hchars : Decimal.toChars v = (if v < 0 then ['-'] else []) ++ l.text.toList) :
    k.insertValue v =
      { k with
        keys := k.keys ++ Entered.operandKeys (v < 0) l,
        expression := Entered.shown (k.keys ++ Entered.operandKeys (v < 0) l) } := by
  have hdigits : (Decimal.toChars v).dropWhile (· == '-') = l.text.toList := by
    obtain ⟨c, cs, htext, hc, -⟩ := hl.exists_eq_cons
    have hne : (c == '-') = false := by
      rw [beq_eq_false_iff_ne]
      rintro rfl
      exact absurd hc (by decide)
    rw [hchars, htext]
    split <;> simp [hne]
  have hcommitted : k.committedKeys = k.keys := if_pos hpending
  simp only [insertValue, hmode, hdigits, enter_eq, hcommitted, refresh, shownExpression, if_pos]
  rw [← hpending]
  rfl

variable (h : Consistent k)
include h

theorem Consistent.expression_algebraic (hmode : k.mode = .algebraic) :
    k.expression = Entered.shown k.keys := by
  rw [h.shown, hmode, shownExpression, if_pos (h.form.algebraic hmode)]
  rfl

theorem Consistent.recall_rpn (hmode : k.mode = .rpn) :
    Recalled k (k.memory .recall) ∧
      Text.words (k.memory .recall).expression.toList =
        Text.words k.expression.toList ++ [(Decimal.toText k.register).toList] := by
  obtain ⟨store, hstore, hrecall⟩ := memory_recall (endsWithOperand_rpn hmode)
  rw [hrecall, insertValue_rpn hmode]
  refine ⟨⟨rfl, hstore⟩, ?_⟩
  have hscale : Decimal.HasScale k.register Decimal.maxScale := h.register.hasScale
  have hsymbol : Stroke.ofKey (Decimal.toText k.register) =
      .symbol (Decimal.toText k.register) :=
    Stroke.ofKey_of_chars (Decimal.chars_toText hscale (Nat.le_refl _))
  have hword := Decimal.isWord_of_ofString? (displays_toText hscale).reads
  have hshown : Text.words (Entered.ofKeys .rpn k.committedKeys).expression.toList =
      Text.words k.expression.toList := by
    have halike := h.readsAlike_committed
    rwa [hmode] at halike
  rw [Entered.words_rpn, Entered.pieces_concat hsymbol, List.flatMap_append,
    List.flatMap_singleton, hword.words_eq, ← Entered.words_rpn, hshown]

theorem Consistent.exists_recall_algebraic (hmode : k.mode = .algebraic)
    (hplace : k.endsWithOperand = false) :
    ∃ l : Literal, l.IsUnsigned ∧ l.value = |k.register| ∧ Recalled k (k.memory .recall) ∧
      (k.memory .recall).keys = k.keys ++ Entered.operandKeys (k.register < 0) l ∧
      (k.memory .recall).expression =
        Entered.shown (k.keys ++ Entered.operandKeys (k.register < 0) l) := by
  have hscale : Decimal.HasScale k.register Decimal.maxScale := h.register.hasScale
  obtain ⟨l, hl, hvalue, hchars⟩ := Decimal.exists_literal_toChars hscale
  obtain ⟨store, hstore, hrecall⟩ := memory_recall hplace
  have hpending := h.form.algebraic hmode
  rw [hrecall, insertValue_algebraic hmode hpending hl hchars]
  refine ⟨l, hl, hvalue, ⟨?_, hstore⟩, rfl, rfl⟩
  rw [← hpending]

omit h

/-- Recalling enters exactly one operand. In RPN mode it always does, and the words that are shown go
on with one word, a literal of the register. In algebraic mode it is refused where what is shown ends
with a digit, a point or a closing parenthesis and nowhere else; where it is not, the tokens go on
with a sign if the register is below zero and then with a number of its magnitude. A refusal, which
without a result the other keys of the register also meet, changes nothing but the report. -/
theorem Reachable.recalls_one_operand (h : Reachable k) :
    (k.mode = .rpn →
      Recalled k (k.memory .recall) ∧
      Text.words (k.memory .recall).expression.toList =
        Text.words k.expression.toList ++ [(Decimal.toText k.register).toList] ∧
      Decimal.ofString? (Decimal.toText k.register) = some k.register) ∧
    (k.mode = .algebraic →
      (k.memory .recall = { k with error := "Invalid request: type an operator before MR" } ↔
        ∃ c ∈ k.expression.toList.getLast?, c.isDigit = true ∨ c = '.' ∨ c = ')') ∧
      ((¬ ∃ c ∈ k.expression.toList.getLast?, c.isDigit = true ∨ c = '.' ∨ c = ')') →
        Recalled k (k.memory .recall) ∧
        ∀ tokens, Token.scanFrom 0 none k.expression.toList = .ok tokens →
          ∃ l : Literal, l.value = |k.register| ∧
            Token.scanFrom 0 none (k.memory .recall).expression.toList =
              .ok (tokens ++ ((if k.register < 0 then [.operator (.sign .negate)] else []) ++
                [.number l])))) ∧
    (k.last = none → ∀ command ∈ [Memory.Command.store, .add, .subtract],
      k.memory command = { k with error := "Invalid request: no result to store" }) := by
  have hk := h.consistent
  refine ⟨fun hmode => ?_, fun hmode => ?_, memory_of_no_result⟩
  · obtain ⟨hrecalled, hwords⟩ := hk.recall_rpn hmode
    exact ⟨hrecalled, hwords, (displays_toText hk.register.hasScale).reads⟩
  rw [← endsWithOperand_iff hmode]
  refine ⟨⟨fun hrefused => ?_, memory_recall_of_endsWithOperand⟩, fun hplace => ?_⟩
  · by_contra hplace
    obtain ⟨l, hl, -, -, hkeys, -⟩ :=
      hk.exists_recall_algebraic hmode (Bool.eq_false_iff.2 hplace)
    rw [hrefused] at hkeys
    exact Entered.operandKeys_ne_nil hl (List.self_eq_append_right.1 hkeys)
  · obtain ⟨l, hl, hvalue, hrecalled, -, hexpression⟩ :=
      hk.exists_recall_algebraic hmode (Bool.eq_false_iff.2 hplace)
    refine ⟨hrecalled, fun tokens htokens => ⟨l, hvalue, ?_⟩⟩
    have hshown := hk.expression_algebraic hmode
    rw [endsWithOperand_iff hmode, hshown] at hplace
    rw [hshown] at htokens
    rw [hexpression]
    refine Entered.scanFrom_shown_append_operand hl htokens fun c hc => ?_
    have hother : ¬ (c.isDigit = true ∨ c = '.' ∨ c = ')') := fun hc' => hplace ⟨c, hc, hc'⟩
    rw [not_or, not_or] at hother
    obtain ⟨hdigit, hpoint, hclose⟩ := hother
    refine ⟨Bool.eq_false_iff.2 fun hnumeral => ?_, hclose⟩
    exact (Token.isNumeral_iff.1 hnumeral).elim hdigit hpoint

theorem recalls_negative_after_erased_space :
    ∃ l : Literal, l.value = 4 ∧
      Token.scanFrom 0 none "2 * - 4".toList =
        .ok [.number ⟨2, "2"⟩, .operator (.binary .multiply), .operator (.sign .negate),
          .number l] := by
  obtain ⟨k, hk⟩ : ∃ k : Keypad, k =
      { keys := ["2", "*", "BACKSPACE"], expression := "2 *", display := "-4",
        postfixText := "0 4 -", trace := ["push 0", "push 4", "apply - -> -4"], last := some (-4),
        memoryText := "-4", store := ⟨[("local", -4)]⟩ } := ⟨_, rfl⟩
  have hreachable := (Reachable.start {}).run [.press "0", .press "-", .press "4", .press "=",
    .memory .store, .press "2", .press "*", .press "BACKSPACE"]
  have hrun : run {} [.press "0", .press "-", .press "4", .press "=", .memory .store, .press "2",
      .press "*", .press "BACKSPACE"] = k := by
    rw [hk]
    decide +kernel
  rw [hrun] at hreachable
  have hregister : k.register = -4 := by
    rw [hk]
    decide +kernel
  have hafter : (k.memory .recall).expression = "2 * - 4" := by
    rw [hk]
    decide +kernel
  obtain ⟨-, halgebraic, -⟩ := hreachable.recalls_one_operand
  rw [hafter, hregister, hk] at halgebraic
  obtain ⟨-, haccepted⟩ := halgebraic rfl
  have hend : ¬ ∃ c ∈ "2 *".toList.getLast?, c.isDigit = true ∨ c = '.' ∨ c = ')' := by
    rintro ⟨c, hc, hoperand⟩
    obtain rfl : '*' = c := Option.some.inj hc
    exact absurd hoperand (by decide)
  obtain ⟨-, htokens⟩ := haccepted hend
  obtain ⟨l, hvalue, hscan⟩ := htokens
    [.number ⟨2, "2"⟩, .operator (.binary .multiply)] (by decide +kernel)
  have habs : |(-4 : Rat)| = 4 := by decide +kernel
  exact ⟨l, hvalue.trans habs, hscan⟩

end Keypad

end DeskCalculator
