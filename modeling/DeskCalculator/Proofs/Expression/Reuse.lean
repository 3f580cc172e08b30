import DeskCalculator.Proofs.Machine.Scale

/-!
Results as literals. The text of a result reads as a literal that settles to the result again, so in
any expression it can stand for the tokens that were evaluated.
-/
namespace DeskCalculator

namespace Entry
variable {settings : Settings} {x : Entry}

theorem Settled.meaning_of_ofString? (h : x.Settled settings) (hexact : x.Exact) {l : Literal}
    (hl : Literal.ofString? x.text = some l) :
    (Expression.number l).meaning settings = .ok x := by
  obtain ⟨decimals, hle, hwrites, hdecimals⟩ := h.exists_writes
  obtain ⟨hvalue, htext⟩ := Literal.ofString?_eq_some.1 hl
  have hcount : decimals < 2 ^ 32 :=
    hle.trans_lt (settings.precision.le_max.trans_lt (by decide))
  have hscale : l.scale = x.scale := by
    rw [Literal.scale, htext, hwrites.writtenScale_eq hcount, hdecimals hexact]
  rw [Expression.meaning, hscale, ← Option.some.inj (hwrites.reads.symm.trans hvalue)]
  exact congrArg Except.ok h.settle_eq

theorem Settled.exists_literal (h : x.Settled settings) (hexact : x.Exact) :
    ∃ l, Literal.ofString? x.text = some l ∧
      (Expression.number l).meaning settings = .ok x := by
  obtain ⟨decimals, -, hwrites, -⟩ := h.exists_writes
  have hl : Literal.ofString? x.text = some ⟨x.value, x.text⟩ :=
    Literal.ofString?_eq_some.2 ⟨hwrites.reads, rfl⟩
  exact ⟨_, hl, h.meaning_of_ofString? hexact hl⟩

end Entry

namespace Expression
variable {settings : Settings} {t u : Expression}

theorem outcome_congr (h : t.meaning settings = u.meaning settings) (before after : List Token) :
    (Machine.run settings [] (before ++ t.postorder ++ after)).outcome =
      (Machine.run settings [] (before ++ u.postorder ++ after)).outcome := by
  rw [List.append_assoc, List.append_assoc, Machine.outcome_append, Machine.outcome_append]
  simp only [Machine.outcome_postorder, h]

theorem entry_evaluate_congr {ts us : List Token}
    (h : (Machine.run settings [] ts).outcome = (Machine.run settings [] us).outcome)
    (traced traced' : Bool) :
    (evaluate settings traced ts).map Evaluation.entry =
      (evaluate settings traced' us).map Evaluation.entry := by
  simp only [evaluate, h]
  split <;> rfl

theorem exists_literal_of_evaluate {withTrace : Bool} {tokens : List Token} {e : Evaluation}
    (hread : Token.AllRead tokens) (h : evaluate settings withTrace tokens = .ok e) :
    ∃ (t : Expression) (l : Literal), t.postorder = tokens ∧
      Literal.ofString? e.text = some l ∧
      t.meaning settings = .ok e.entry ∧ (number l).meaning settings = .ok e.entry := by
  obtain ⟨t, rfl⟩ := exists_postorder_of_evaluate h
  obtain ⟨houtcome, -⟩ := Machine.outcome_of_evaluate h
  have hsettled := Machine.settled_of_outcome houtcome e.entry (List.mem_singleton_self _)
  have hexact := Machine.exact_of_outcome hread houtcome e.entry (List.mem_singleton_self _)
  obtain ⟨l, hl, hliteral⟩ := hsettled.exists_literal hexact
  have hmeaning := entry_evaluate_postorder settings withTrace t
  rw [h] at hmeaning
  exact ⟨t, l, rfl, hl, hmeaning.symm, hliteral⟩

end Expression

namespace Calculator
open Expression

theorem answer_of_ofString? {c : Calculator} {text : String} {l : Literal} {overrides : Overrides}
    {settings : Settings} (hl : Literal.ofString? text = some l)
    (hsettings : overrides.resolve c.defaults = .ok settings) (traced : Bool) :
    (c.answer ⟨text, .rpn, traced, overrides⟩).map Evaluation.entry =
      (number l).meaning settings := by
  obtain ⟨-, rfl⟩ := Literal.ofString?_eq_some.1 hl
  have hspelled : ∀ t ∈ [Token.number l], Postfix.Spelled t :=
    List.forall_mem_singleton.2 (Postfix.spelled_number_iff.2 hl)
  have hblank := Postfix.not_isBlankText_joinTexts hspelled (List.cons_ne_nil _ _)
  have htokens := Postfix.ofText_joinTexts hspelled
  rw [Token.joinTexts_singleton, Token.text] at hblank htokens
  rw [answer_of_toPostfix (r := ⟨l.text, .rpn, traced, overrides⟩) hblank htokens, hsettings]
  exact entry_evaluate_postorder settings traced (.number l)

end Calculator

namespace Expression

/-- Where literals were read from their texts, the tokens of an expression that has a value can be
replaced by the literal that the text of the value reads as, whatever stands before and after them;
and the text of an answer, evaluated in postfix mode, has this answer again. -/
theorem evaluate_reuse (settings : Settings) :
    (∀ (tokens : List Token) (withTrace : Bool) (e : Evaluation), Token.AllRead tokens →
      evaluate settings withTrace tokens = .ok e →
      ∃ l, Literal.ofString? e.text = some l ∧
        (∀ (before after : List Token) (traced traced' : Bool),
          (evaluate settings traced (before ++ tokens ++ after)).map Evaluation.entry =
            (evaluate settings traced' (before ++ [.number l] ++ after)).map Evaluation.entry) ∧
        ∀ (c : Calculator) (overrides : Overrides) (traced : Bool),
          overrides.resolve c.defaults = .ok settings →
          (c.answer ⟨e.text, .rpn, traced, overrides⟩).map Evaluation.entry = .ok e.entry) ∧
    (∀ (c : Calculator) (r : Request) (e : Evaluation) (traced : Bool),
      r.overrides.resolve c.defaults = .ok settings → c.answer r = .ok e →
      (c.answer ⟨e.text, .rpn, traced, r.overrides⟩).map Evaluation.entry = .ok e.entry) := by
  constructor
  · intro tokens withTrace e hread h
    obtain ⟨t, l, rfl, hl, hmeaning, hliteral⟩ := exists_literal_of_evaluate hread h
    refine ⟨l, hl, ?_, ?_⟩
    · intro before after
      exact entry_evaluate_congr (outcome_congr (hmeaning.trans hliteral.symm) before after)
    · intro c overrides traced hsettings
      exact (Calculator.answer_of_ofString? hl hsettings traced).trans hliteral
  · intro c r e traced hsettings h
    obtain ⟨settings', tokens, hsettings', htokens, he⟩ := Calculator.stages_of_answer_eq_ok h
    obtain rfl := Except.ok.inj (hsettings'.symm.trans hsettings)
    obtain ⟨t, l, -, hl, -, hliteral⟩ :=
      exists_literal_of_evaluate (Postfix.allRead_of_toPostfix htokens) he
    exact (Calculator.answer_of_ofString? hl hsettings traced).trans hliteral

theorem evaluate_reuse_of_product :
    (evaluate {} false [.number ⟨3 / 2, "1.50"⟩, .number ⟨2, "2"⟩, .operator (.binary .multiply),
        .number ⟨3, "3"⟩, .operator (.binary .divide)]).map Evaluation.entry =
      (evaluate {} false [.number ⟨3, "3.00"⟩, .number ⟨3, "3"⟩,
        .operator (.binary .divide)]).map Evaluation.entry := by
  let product : List Token :=
    [.number ⟨3 / 2, "1.50"⟩, .number ⟨2, "2"⟩, .operator (.binary .multiply)]
  have htokens : Mode.rpn.toPostfix "1.50 2 *" = .ok product := by decide +kernel
  have hread : Token.AllRead product := Postfix.allRead_of_toPostfix htokens
  have he : evaluate {} false product = .ok ⟨3, 2, product, []⟩ := by decide +kernel
  obtain ⟨l, hl, hreuse, -⟩ := (evaluate_reuse {}).1 product false _ hread he
  have hliteral : Literal.ofString? (Evaluation.text ⟨3, 2, product, []⟩) = some ⟨3, "3.00"⟩ := by
    decide +kernel
  obtain rfl := Option.some.inj (hl.symm.trans hliteral)
  exact hreuse [] [.number ⟨3, "3"⟩, .operator (.binary .divide)] false false

end Expression

end DeskCalculator
