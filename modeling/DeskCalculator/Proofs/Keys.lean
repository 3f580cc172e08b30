import DeskCalculator.Keys
import DeskCalculator.Proofs.Text.Words

/-!
What the last key of a sequence does. Asking for the value leaves the expression as it is, and in RPN
mode a key that edits nothing is a new piece at the end of it.
-/
namespace DeskCalculator

def Key.IsEntered (key : String) : Prop :=
  key ≠ equals ∧ key ≠ clear ∧ key ≠ clearEntry

namespace Stroke

variable {key : String}

theorem ofKey_equals : ofKey Key.equals = .equals := rfl

theorem isEntered_of_ofKey (h : ofKey key = .backspace ∨ ∃ s, ofKey key = .symbol s) :
    Key.IsEntered key := by
  have hclear : ofKey Key.clear = .clear := rfl
  have hentry : ofKey Key.clearEntry = .clearEntry := rfl
  refine ⟨?_, ?_, ?_⟩
  · rintro rfl
    simp [ofKey_equals] at h
  · rintro rfl
    simp [hclear] at h
  · rintro rfl
    simp [hentry] at h

theorem ofKey_of_chars (h : ∀ c ∈ key.toList, c.isDigit = true ∨ c = '.' ∨ c = '-') :
    ofKey key = .symbol key := by
  have hne {control : String} (c : Char) (hc : c ∈ control.toList)
      (hother : ¬ (c.isDigit = true ∨ c = '.' ∨ c = '-')) : key ≠ control := by
    rintro rfl
    exact hother (h c hc)
  have hentry : key ≠ Key.clearEntry := hne 'C' (by decide) (by decide)
  have hclear : key ≠ Key.clear := hne 'C' (by decide) (by decide)
  have hbackspace : key ≠ Key.backspace := hne 'B' (by decide) (by decide)
  have hequals : key ≠ Key.equals := hne '=' (by decide) (by decide)
  rw [ofKey, if_neg hentry, if_neg hclear, if_neg hbackspace, if_neg hequals]

theorem isEntered_of_chars (h : ∀ c ∈ key.toList, c.isDigit = true ∨ c = '.' ∨ c = '-') :
    Key.IsEntered key :=
  isEntered_of_ofKey (.inr ⟨key, ofKey_of_chars h⟩)

end Stroke

namespace Entered

theorem expression_append_equals (mode : Mode) (keys : List String) :
    (ofKeys mode (keys ++ [Key.equals])).expression = (ofKeys mode keys).expression := by
  cases mode with
  | algebraic =>
    simp only [ofKeys, List.foldl_append, List.foldl_cons, List.foldl_nil, Line.press,
      Stroke.ofKey_equals]
  | rpn =>
    simp only [ofKeys, List.foldl_append, List.foldl_cons, List.foldl_nil, Stack.press,
      Stroke.ofKey_equals]

def pieces (keys : List String) : List String :=
  (keys.foldl Stack.press ⟨[], false⟩).reversed.reverse

theorem expression_rpn (keys : List String) :
    (ofKeys .rpn keys).expression = " ".intercalate (pieces keys) := rfl

theorem pieces_concat {key : String} (h : Stroke.ofKey key = .symbol key) (keys : List String) :
    pieces (keys ++ [key]) = pieces keys ++ [key] := by
  simp only [pieces, List.foldl_append, List.foldl_cons, List.foldl_nil, Stack.press, h,
    List.reverse_cons]

theorem words_rpn (keys : List String) :
    Text.words (ofKeys .rpn keys).expression.toList =
      (pieces keys).flatMap fun piece => Text.words piece.toList := by
  have hspace : " ".toList = [' '] := rfl
  rw [expression_rpn, String.toList_intercalate, hspace, Text.words_intercalate_eq_flatMap,
    List.flatMap_map]

end Entered

end DeskCalculator
