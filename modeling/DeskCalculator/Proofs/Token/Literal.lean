import DeskCalculator.Proofs.Decimal.Literal
import DeskCalculator.Proofs.Text.Words
import DeskCalculator.Token.Scan

/-!
Literals and their texts. A literal that is read keeps the text that it was read from; without a
sign that text is a run of digits and points.
-/
namespace DeskCalculator

namespace Literal

def IsRead (l : Literal) : Prop :=
  ofString? l.text = some l

theorem ofString?_eq_some {s : String} {l : Literal} :
    ofString? s = some l ↔ Decimal.ofString? s = some l.value ∧ l.text = s := by
  unfold ofString?
  rw [Option.map_eq_some_iff]
  constructor
  · rintro ⟨v, hv, rfl⟩
    exact ⟨hv, rfl⟩
  · rintro ⟨hv, rfl⟩
    exact ⟨l.value, hv, rfl⟩

theorem isRead_iff {l : Literal} : l.IsRead ↔ Decimal.ofString? l.text = some l.value :=
  ofString?_eq_some.trans (and_iff_left rfl)

theorem IsRead.hasScale {l : Literal} (h : l.IsRead) : Decimal.HasScale l.value l.scale :=
  Decimal.hasScale_writtenScale (isRead_iff.1 h)

theorem isRead_of_ofString? {s : String} {l : Literal} (h : ofString? s = some l) : l.IsRead := by
  obtain ⟨hv, rfl⟩ := ofString?_eq_some.1 h
  exact isRead_iff.2 hv

end Literal

namespace Token

theorem isNumeral_iff {c : Char} : isNumeral c = true ↔ c.isDigit = true ∨ c = '.' := by
  unfold isNumeral
  rw [Bool.or_eq_true, beq_iff_eq]

theorem isBlank_of_isNumeral {c : Char} (h : isNumeral c = true) : Text.isBlank c = false := by
  rcases isNumeral_iff.1 h with h | rfl
  · have hrange := Char.isDigit_iff_toNat.1 h
    have hlow : 48 ≤ c.toNat := hrange.1
    have hhigh : c.toNat ≤ 57 := hrange.2
    simp only [Text.isBlank, Text.blankRanges, List.any_cons, List.any_nil, Bool.or_false,
      Bool.or_eq_false_iff, Bool.and_eq_false_iff, decide_eq_false_iff_not]
    omega
  · decide

end Token

theorem Decimal.isWord_of_ofString? {text : String} {v : Rat} (h : ofString? text = some v) :
    Text.IsWord text.toList := by
  obtain ⟨hne, hchars⟩ := ofString?_chars h
  refine ⟨hne, fun c hc => ?_⟩
  rcases hchars c hc with hdigit | rfl | rfl | rfl
  · exact Token.isBlank_of_isNumeral (Token.isNumeral_iff.2 (.inl hdigit))
  all_goals decide

namespace Literal
open Token

variable {l : Literal}

def IsUnsigned (l : Literal) : Prop :=
  l.IsRead ∧ Decimal.Unsigned l.text.toList

theorem isUnsigned_of_numerals (hread : l.IsRead) (h : ∀ c ∈ l.text.toList, isNumeral c = true) :
    l.IsUnsigned :=
  ⟨hread, Decimal.unsigned_of_numerals fun c hc => isNumeral_iff.1 (h c hc)⟩

theorem isUnsigned_of_ofUnsigned? {cs : List Char} {v : Rat} (h : Decimal.ofUnsigned? cs = some v) :
    IsUnsigned ⟨v, String.ofList cs⟩ := by
  have hunsigned : Decimal.Unsigned cs := Decimal.unsigned_of_numerals fun c hc =>
    Decimal.isDigit_or_eq_point_of_ofUnsigned? h hc
  refine ⟨isRead_iff.2 ?_, ?_⟩
  · rw [Decimal.ofString?, String.toList_ofList, hunsigned.ofChars?_eq]
    exact h
  · rwa [String.toList_ofList]

theorem IsUnsigned.ofUnsigned?_eq (h : l.IsUnsigned) :
    Decimal.ofUnsigned? l.text.toList = some l.value := by
  rw [← h.2.ofChars?_eq]
  exact isRead_iff.1 h.1

theorem IsUnsigned.isNumeral_of_mem (h : l.IsUnsigned) {c : Char} (hc : c ∈ l.text.toList) :
    isNumeral c = true :=
  isNumeral_iff.2 (Decimal.isDigit_or_eq_point_of_ofUnsigned? h.ofUnsigned?_eq hc)

theorem IsUnsigned.exists_eq_cons (h : l.IsUnsigned) :
    ∃ c cs, l.text.toList = c :: cs ∧ isNumeral c = true ∧ ∀ d ∈ cs, isNumeral d = true := by
  cases hcs : l.text.toList with
  | nil =>
    have hread := h.ofUnsigned?_eq
    rw [hcs] at hread
    cases hread
  | cons c cs =>
    have hall : ∀ d ∈ c :: cs, isNumeral d = true := by
      rw [← hcs]
      exact fun d => h.isNumeral_of_mem
    exact ⟨c, cs, rfl, List.forall_mem_cons.1 hall⟩

end Literal

def Token.AllRead (tokens : List Token) : Prop :=
  ∀ l, .number l ∈ tokens → l.IsRead

theorem Token.AllRead.of_subset {tokens read : List Token} (h : AllRead tokens)
    (hsubset : read ⊆ tokens) : AllRead read :=
  fun l hl => h l (hsubset hl)

end DeskCalculator
