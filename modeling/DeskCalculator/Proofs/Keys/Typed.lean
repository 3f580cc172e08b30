import DeskCalculator.Proofs.Answer
import DeskCalculator.Proofs.Keys.Line

/-!
Keys and text. The spaces that keys put into the line stand next to operators and parentheses, where
the scanner does not see them; so keys in a row are read like the text of their characters in a row.
-/
namespace DeskCalculator

namespace Entered
open Token

variable {cs : List Char} {key : String}

theorem lexemes_spaced (cs : List Char) : lexemes (spaced cs) = lexemes cs := by
  unfold spaced
  split
  · rfl
  · have hspace : Text.isBlank ' ' = true := by decide
    rw [lexemes_append_blank hspace, lexemes_nil, List.append_nil]

theorem alike_after (h : Key.IsSymbol key) : Alike (after cs key) (cs ++ key.toList) := by
  obtain ⟨c, hc, rfl⟩ := h
  rw [String.toList_singleton]
  cases hnumeral : isNumeral c with
  | true =>
    rw [after_numeral hc hnumeral]
    exact .refl _
  | false =>
    intro rest
    have hblank := Key.isBlank_symbols hc
    have hspace : lexemes (' ' :: rest) = lexemes rest :=
      lexemes_append_blank (by decide) [] rest
    rw [after_symbol hc hnumeral]
    calc lexemes (spaced cs ++ [c, ' '] ++ rest)
        = lexemes (spaced cs ++ c :: ' ' :: rest) := by rw [List.append_assoc]; rfl
      _ = lexemes (spaced cs) ++ [c] :: lexemes (' ' :: rest) :=
          lexemes_append_symbol hnumeral hblank _ _
      _ = lexemes cs ++ [c] :: lexemes rest := by rw [lexemes_spaced, hspace]
      _ = lexemes (cs ++ c :: rest) := (lexemes_append_symbol hnumeral hblank _ _).symm
      _ = lexemes (cs ++ [c] ++ rest) := by rw [List.append_assoc]; rfl

def text (keys : List String) : String :=
  String.join (keys.filter fun key => key ≠ Key.equals)

theorem alike_foldl_after {keys : List String}
    (h : ∀ key ∈ keys, Key.IsSymbol key ∨ key = Key.equals) (cs : List Char) :
    Alike (keys.foldl after cs) (cs ++ (text keys).toList) := by
  -- equal lexemes alone would not carry over: a numeral may join what stands at the end
  induction keys generalizing cs with
  | nil =>
    have hnil : (text []).toList = [] := rfl
    rw [hnil, List.append_nil]
    exact .refl _
  | cons key keys ih =>
    obtain ⟨hkey, hkeys⟩ := List.forall_mem_cons.1 h
    by_cases hequals : key = Key.equals
    · have htext : text (key :: keys) = text keys := by simp [text, hequals]
      rw [List.foldl_cons, htext, hequals, after_equals]
      exact ih hkeys cs
    · have htext : (text (key :: keys)).toList = key.toList ++ (text keys).toList := by
        simp [text, hequals]
      rw [List.foldl_cons, htext, ← List.append_assoc]
      exact (ih hkeys _).trans ((alike_after (hkey.resolve_right hequals)).append _)

theorem text_of_symbols {keys : List String} (h : ∀ key ∈ keys, Key.IsSymbol key) :
    text keys = String.join keys := by
  have hequals : ¬ Key.IsSymbol Key.equals := by decide
  have hkeep : keys.filter (fun key => key ≠ Key.equals) = keys := by
    apply List.filter_eq_self.2
    intro key hkey
    have hne : key ≠ Key.equals := fun heq => hequals (heq ▸ h key hkey)
    exact decide_eq_true hne
  rw [text, hkeep]

variable {keys : List String}

theorem mem_symbols_of_mem_text (h : ∀ key ∈ keys, Key.IsSymbol key ∨ key = Key.equals) {c : Char}
    (hc : c ∈ (text keys).toList) : c ∈ Key.symbols := by
  rw [text, String.toList_join] at hc
  obtain ⟨key, hkey, hc⟩ := List.mem_flatMap.1 hc
  obtain ⟨hmem, hne⟩ := List.mem_filter.1 hkey
  obtain ⟨d, hd, rfl⟩ := (h key hmem).resolve_right (of_decide_eq_true hne)
  rw [String.toList_singleton] at hc
  exact List.mem_singleton.1 hc ▸ hd

theorem not_isBlankText_text (h : ∀ key ∈ keys, Key.IsSymbol key ∨ key = Key.equals)
    (hsome : ∃ key ∈ keys, key ≠ Key.equals) : ¬ Text.IsBlankText (text keys) := by
  obtain ⟨key, hkey, hne⟩ := hsome
  obtain ⟨c, hc, rfl⟩ := (h key hkey).resolve_right hne
  have hmem : c ∈ (text keys).toList := by
    rw [text, String.toList_join]
    apply List.mem_flatMap.2
    exact ⟨_, List.mem_filter.2 ⟨hkey, decide_eq_true hne⟩, by simp [String.toList_singleton]⟩
  intro hblank
  have hc' := Key.isBlank_symbols hc
  rw [hblank c hmem] at hc'
  cases hc'

theorem lexemes_line (h : ∀ key ∈ keys, Key.IsSymbol key ∨ key = Key.equals) :
    lexemes (line keys) = lexemes (text keys).toList :=
  (alike_foldl_after h []).lexemes_eq

theorem scan_expression_eq_scan_text (h : ∀ key ∈ keys, Key.IsSymbol key ∨ key = Key.equals) :
    scan (ofKeys .algebraic keys).expression = scan (text keys) := by
  have hediting : ∀ key ∈ keys, Key.IsEditing key ∨ key = Key.equals :=
    fun key hkey => (h key hkey).imp_left .inl
  rw [scan_expression hediting]
  apply scan_eq_of_lexemes
  · rw [String.toList_ofList]
    exact fun c => isKnown_of_mem_line hediting
  · exact fun c hc => Key.isKnown_of_mem_symbols (mem_symbols_of_mem_text h hc)
  · rw [String.toList_ofList]
    exact lexemes_line h

theorem isBlankText_expression_iff (h : ∀ key ∈ keys, Key.IsSymbol key ∨ key = Key.equals) :
    Text.IsBlankText (ofKeys .algebraic keys).expression ↔ Text.IsBlankText (text keys) := by
  rw [expression_algebraic, Text.IsBlankText, Text.IsBlankText, String.toList_ofList,
    ← lexemes_eq_nil_iff, ← lexemes_eq_nil_iff, lexemes_trim, lexemes_line h]

end Entered

namespace Calculator
open Entered

/-- Keys are read like the text of their characters: number by number and sign by sign the same
tokens, or the same fault. So what they enter is answered as that text is, wherever the value is
asked for among them. -/
theorem answerKeys_eq_answer_text {keys : List String}
    (h : ∀ key ∈ keys, Key.IsSymbol key ∨ key = Key.equals) :
    ((∀ key ∈ keys, Key.IsSymbol key) →
      Token.scan (ofKeys .algebraic keys).expression = Token.scan (String.join keys)) ∧
    Token.scan (ofKeys .algebraic keys).expression = Token.scan (text keys) ∧
    ((∃ key ∈ keys, key ≠ Key.equals) → ∀ (c : Calculator) withTrace overrides,
      c.answerKeys ⟨keys, .algebraic, withTrace, overrides⟩ =
        c.answer ⟨text keys, .algebraic, withTrace, overrides⟩) := by
  have hscan := scan_expression_eq_scan_text h
  refine ⟨fun hsymbols => ?_, hscan, fun hsome c withTrace overrides => ?_⟩
  · rw [hscan, text_of_symbols hsymbols]
  · have htext := not_isBlankText_text h hsome
    have hshown : ¬ Text.IsBlankText (ofKeys .algebraic keys).expression := by
      rwa [isBlankText_expression_iff h]
    have hkeys : c.answerKeys ⟨keys, .algebraic, withTrace, overrides⟩ =
        c.answer ⟨(ofKeys .algebraic keys).expression, .algebraic, withTrace, overrides⟩ :=
      if_neg hshown
    exact hkeys.trans (answer_eq_of_scan hshown htext hscan c withTrace overrides)

theorem answerKeys_of_malformed_keys :
    (∀ key ∈ ["2", "*", "-", "1", ".", ".", "=", "5"], Key.IsSymbol key ∨ key = Key.equals) ∧
    (∃ key ∈ ["2", "*", "-", "1", ".", ".", "=", "5"], key ≠ Key.equals) ∧
    Calculator.answerKeys {} ⟨["2", "*", "-", "1", ".", ".", "=", "5"], .algebraic, true, {}⟩ =
      Calculator.answer {} ⟨"2*-1..5", .algebraic, true, {}⟩ := by
  have hkeys : ∀ key ∈ ["2", "*", "-", "1", ".", ".", "=", "5"],
      Key.IsSymbol key ∨ key = Key.equals := by
    decide
  have hsome : ∃ key ∈ ["2", "*", "-", "1", ".", ".", "=", "5"], key ≠ Key.equals := by decide
  have htext : text ["2", "*", "-", "1", ".", ".", "=", "5"] = "2*-1..5" := by decide
  obtain ⟨-, -, hanswer⟩ := answerKeys_eq_answer_text hkeys
  exact ⟨hkeys, hsome, htext ▸ hanswer hsome {} true {}⟩

end Calculator

end DeskCalculator
