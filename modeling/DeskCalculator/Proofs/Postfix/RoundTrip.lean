import DeskCalculator.Proofs.Answer
import DeskCalculator.Proofs.Infix.Conservation
import DeskCalculator.Proofs.Token.Layout

/-!
Postfix text and back. The tokens of a postfix expression, whichever mode it was read in, have
spellings that the reader of postfix words takes for the same tokens; so both modes answer alike.
-/
namespace DeskCalculator

theorem Token.joinTexts_singleton (t : Token) : joinTexts [t] = t.text :=
  String.intercalate_singleton

namespace Postfix
open Token

def Spelled (t : Token) : Prop :=
  ofWord t.text = .ok t

theorem spelled_number_iff {l : Literal} : Spelled (.number l) ↔ l.IsRead := by
  unfold Spelled ofWord Literal.IsRead
  rw [Token.text]
  cases hread : Literal.ofString? l.text with
  | none =>
    refine iff_of_false (fun h => ?_) (Option.some_ne_none l).symm
    simp only at h
    split at h
    · cases h
    · split at h
      · cases h
      · obtain ⟨op, -, h⟩ := map_eq_ok.1 h
        cases h
  | some read =>
    simp only [Except.ok.injEq, Token.number.injEq, Option.some.injEq]

theorem spelled_operator (op : Operator) : Spelled (.operator op) := by
  unfold Spelled
  rcases op with s | op
  · cases s <;> decide +kernel
  · cases op <;> decide +kernel

theorem Spelled.isWord {t : Token} (h : Spelled t) : Text.IsWord t.text.toList := by
  rcases t with l | (s | op) | _ | _
  · exact Decimal.isWord_of_ofString? (Literal.isRead_iff.1 (spelled_number_iff.1 h))
  · cases s <;> decide
  · cases op <;> decide
  · decide
  · decide

theorem spelled_of_ofWord {word : String} {t : Token} (h : ofWord word = .ok t) : Spelled t := by
  unfold ofWord at h
  split at h
  · rename_i l hread
    obtain rfl := Except.ok.inj h
    exact spelled_number_iff.2 (Literal.isRead_of_ofString? hread)
  · split at h
    · exact Except.ok.inj h ▸ spelled_operator _
    · split at h
      · exact Except.ok.inj h ▸ spelled_operator _
      · obtain ⟨op, -, rfl⟩ := map_eq_ok.1 h
        exact spelled_operator op

theorem spelled_of_ofText {text : String} {tokens : List Token} (h : ofText text = .ok tokens) :
    ∀ t ∈ tokens, Spelled t := by
  rw [ofText, mapM_eq_ok] at h
  generalize Text.words text.toList = words at h
  induction h with
  | nil => exact fun t ht => absurd ht List.not_mem_nil
  | cons hword _ ih => exact List.forall_mem_cons.2 ⟨spelled_of_ofWord hword, ih⟩

theorem spelled_of_convert {text : String} {tokens out : List Token}
    (hscan : scan text = .ok tokens) (hout : convert tokens = .ok out) :
    ∀ t ∈ out, Spelled t := by
  intro t ht
  obtain ⟨-, hscanned, -⟩ := scan_eq_ok_iff.1 hscan
  obtain ⟨hmem, hparen⟩ := List.mem_filter.1 ((convert_perm hout).mem_iff.1 ht)
  cases t with
  | number l => exact spelled_number_iff.2 (isUnsigned_of_scanFrom hscanned hmem).1
  | operator op => exact spelled_operator op
  | lparen | rparen => cases hparen

theorem spelled_of_toPostfix {mode : Mode} {text : String} {tokens : List Token}
    (h : mode.toPostfix text = .ok tokens) : ∀ t ∈ tokens, Spelled t := by
  cases mode with
  | algebraic =>
    obtain ⟨scanned, hscan, hout⟩ := Mode.toPostfix_algebraic_eq_ok.1 h
    exact spelled_of_convert hscan hout
  | rpn => exact spelled_of_ofText h

theorem allRead_of_toPostfix {mode : Mode} {text : String} {tokens : List Token}
    (h : mode.toPostfix text = .ok tokens) : AllRead tokens :=
  fun l hl => spelled_number_iff.1 (spelled_of_toPostfix h (.number l) hl)

/-! ### Printing -/

theorem words_joinTexts {tokens : List Token} (h : ∀ t ∈ tokens, Spelled t) :
    Text.words (joinTexts tokens).toList = tokens.map fun t => t.text.toList := by
  have hspace : " ".toList = [' '] := rfl
  rw [joinTexts, String.toList_intercalate, hspace, List.map_map]
  refine Text.words_intercalate fun w hw => ?_
  obtain ⟨t, ht, rfl⟩ := List.mem_map.1 hw
  exact (h t ht).isWord

theorem ofText_joinTexts {tokens : List Token} (h : ∀ t ∈ tokens, Spelled t) :
    ofText (joinTexts tokens) = .ok tokens := by
  rw [ofText, words_joinTexts h, mapM_eq_ok, List.forall₂_map_left_iff, List.forall₂_same]
  intro t ht
  rw [String.ofList_toList]
  exact h t ht

theorem not_isBlankText_joinTexts {tokens : List Token} (h : ∀ t ∈ tokens, Spelled t)
    (hne : tokens ≠ []) : ¬ Text.IsBlankText (joinTexts tokens) := by
  intro hblank
  have hwords := words_joinTexts h
  rw [Text.words_of_blank hblank] at hwords
  exact hne (List.map_eq_nil_iff.1 hwords.symm)

end Postfix

namespace Calculator
open Postfix Token

/-- A postfix expression that was read in either mode reads back from its text, and the text of
what an infix expression converts to has the answer of that expression, whether value or fault. -/
theorem answer_joinTexts :
    (∀ (mode : Mode) (text : String) (tokens : List Token),
      mode.toPostfix text = .ok tokens → ofText (joinTexts tokens) = .ok tokens) ∧
    (∀ (c : Calculator) (text : String) (withTrace : Bool) (overrides : Overrides)
      (tokens : List Token), Mode.algebraic.toPostfix text = .ok tokens → tokens ≠ [] →
      c.answer ⟨text, .algebraic, withTrace, overrides⟩ =
        c.answer ⟨joinTexts tokens, .rpn, withTrace, overrides⟩) := by
  refine ⟨fun mode text tokens h => ofText_joinTexts (spelled_of_toPostfix h), ?_⟩
  intro c text withTrace overrides tokens h hne
  have hspelled := spelled_of_toPostfix h
  have hblank : ¬ Text.IsBlankText text := by
    obtain ⟨scanned, hscan, -⟩ := Mode.toPostfix_algebraic_eq_ok.1 h
    exact (scan_eq_ok_iff.1 hscan).1
  rw [answer_of_toPostfix (r := ⟨text, .algebraic, withTrace, overrides⟩) hblank h,
    answer_of_toPostfix (r := ⟨joinTexts tokens, .rpn, withTrace, overrides⟩)
      (not_isBlankText_joinTexts hspelled hne) (ofText_joinTexts hspelled)]

theorem answer_joinTexts_of_sign :
    Calculator.answer {} ⟨"2.50*-.5", .algebraic, true, {}⟩ =
      Calculator.answer {} ⟨"2.50 .5 u- *", .rpn, true, {}⟩ := by
  have hscan : scan "2.50*-.5" = .ok [.number ⟨5 / 2, "2.50"⟩, .operator (.binary .multiply),
      .operator (.sign .negate), .number ⟨1 / 2, ".5"⟩] :=
    scan_of_scanFrom (by decide +kernel) (List.cons_ne_nil _ _) rfl
  refine answer_joinTexts.2 {} "2.50*-.5" true {} [.number ⟨5 / 2, "2.50"⟩, .number ⟨1 / 2, ".5"⟩,
    .operator (.sign .negate), .operator (.binary .multiply)] ?_ (List.cons_ne_nil _ _)
  rw [Mode.toPostfix, hscan]
  rfl

end Calculator

end DeskCalculator
