import DeskCalculator.Proofs.Keys.Shown
import DeskCalculator.Proofs.Token.Continuation

/-!
Operands that are typed after what is shown. The line may end with a space or not, but where what is
shown ends with no operand, the digits join nothing in front of them and a minus is a sign.
-/
namespace DeskCalculator

theorem Key.mem_symbols_of_isNumeral {c : Char} (h : Token.isNumeral c = true) : c ∈ symbols := by
  rcases Token.isNumeral_iff.1 h with hdigit | rfl
  · obtain ⟨hlow, hhigh⟩ := Char.isDigit_iff_toNat.1 hdigit
    have hdigits : ∀ n ≤ 57, 48 ≤ n → Char.ofNat n ∈ symbols := by decide
    have hmem := hdigits c.toNat hhigh hlow
    rwa [Char.ofNat_toNat] at hmem
  · decide

namespace Entered
open Token

def operandKeys (negative : Prop) [Decidable negative] (l : Literal) : List String :=
  (if negative then ["-"] else []) ++ l.text.toList.map String.singleton

variable {negative : Prop} [Decidable negative] {l : Literal} {keys more : List String}
  {ts : List Token}

theorem operandKeys_ne_nil (hl : l.IsUnsigned) : operandKeys negative l ≠ [] := by
  obtain ⟨c, cs, htext, -, -⟩ := hl.exists_eq_cons
  rw [operandKeys, htext]
  exact List.append_ne_nil_of_right_ne_nil _ (List.cons_ne_nil _ _)

theorem isSymbol_of_mem_operandKeys (hl : l.IsUnsigned) :
    ∀ key ∈ operandKeys negative l, Key.IsSymbol key := by
  intro key hkey
  rcases List.mem_append.1 hkey with hsign | hdigit
  · split at hsign
    · exact ⟨'-', by decide, List.mem_singleton.1 hsign⟩
    · cases hsign
  · obtain ⟨c, hc, rfl⟩ := List.mem_map.1 hdigit
    exact ⟨c, Key.mem_symbols_of_isNumeral (hl.isNumeral_of_mem hc), rfl⟩

theorem toList_text_operandKeys (hl : l.IsUnsigned) :
    (text (operandKeys negative l)).toList =
      (if negative then ['-'] else []) ++ l.text.toList := by
  have hchars : (l.text.toList.map String.singleton).flatMap String.toList = l.text.toList := by
    simp [List.flatMap_map]
  rw [text_of_symbols (isSymbol_of_mem_operandKeys hl), String.toList_join, operandKeys,
    List.flatMap_append, hchars]
  split <;> rfl

theorem shown_append_toList (keys more : List String) :
    (shown (keys ++ more)).toList = Text.trim (more.foldl after (line keys)) := by
  rw [toList_shown, line_append]

theorem isKnown_of_mem_shown_append (hshown : ∀ c ∈ (shown keys).toList, IsKnown c)
    (hmore : ∀ key ∈ more, Key.IsSymbol key) :
    ∀ c ∈ (shown (keys ++ more)).toList, IsKnown c := by
  intro c hc
  rw [shown_append_toList] at hc
  have hspace : Text.isBlank ' ' = true := by decide
  have hediting : ∀ key ∈ more, Key.IsEditing key ∨ key = Key.equals :=
    fun key hkey => .inl (.inl (hmore key hkey))
  obtain hline | rfl | hsymbol := mem_of_mem_foldl_after hediting (Text.mem_of_mem_trim hc)
  · -- what is not shown of the line are blanks
    obtain ⟨front, back, hfront, hback, heq⟩ := Text.exists_blanks_trim (line keys)
    rw [heq, List.mem_append, List.mem_append, ← toList_shown] at hline
    obtain hmem | hmem | hmem := hline
    · exact .inl (hfront c hmem)
    · exact hshown c hmem
    · exact .inl (hback c hmem)
  · exact .inl hspace
  · exact Key.isKnown_of_mem_symbols hsymbol

theorem lexemes_shown_append (hmore : ∀ key ∈ more, Key.IsSymbol key)
    (hend : ∀ c ∈ (shown keys).toList.getLast?, isNumeral c = false) :
    lexemes (shown (keys ++ more)).toList =
      lexemes (shown keys).toList ++ lexemes (text more).toList := by
  have halike : Alike (more.foldl after (line keys)) (line keys ++ (text more).toList) :=
    alike_foldl_after (fun key hkey => .inl (hmore key hkey)) (line keys)
  have hline : ∀ c ∈ (line keys).getLast?, isNumeral c = false := by
    intro c hc
    by_contra hnumeral
    rw [Bool.not_eq_false] at hnumeral
    have hlast := Text.mem_getLast?_trim hc (isBlank_of_isNumeral hnumeral)
    rw [← toList_shown] at hlast
    exact absurd hnumeral (Bool.eq_false_iff.1 (hend c hlast))
  have happend : lexemes (line keys ++ (text more).toList) =
      lexemes (line keys) ++ lexemes (text more).toList := by
    apply lexemes_append
    intro a ha b hb
    simp [joins, hline a ha]
  rw [shown_append_toList, lexemes_trim, halike.lexemes_eq, happend, toList_shown, lexemes_trim]

theorem scanFrom_shown_append_operand (hl : l.IsUnsigned)
    (hscan : scanFrom 0 none (shown keys).toList = .ok ts)
    (hend : ∀ c ∈ (shown keys).toList.getLast?, isNumeral c = false ∧ c ≠ ')') :
    scanFrom 0 none (shown (keys ++ operandKeys negative l)).toList =
      .ok (ts ++ signedNumber negative l) := by
  have hsymbols : ∀ key ∈ operandKeys negative l, Key.IsSymbol key :=
    isSymbol_of_mem_operandKeys hl
  have hknown := isKnown_of_mem_shown_append (fun c => isKnown_of_scanFrom hscan) hsymbols
  have hlexemes := lexemes_shown_append hsymbols fun c hc => (hend c hc).1
  have hplace : expectsOperand ts.getLast? = true := by
    refine expectsOperand_of_getLast? hscan fun c hc => ⟨?_, hend c hc⟩
    rw [toList_shown] at hc
    exact Text.not_isBlank_of_getLast?_trim hc
  rw [scanFrom_of_lexemes_append hscan hknown hlexemes, toList_text_operandKeys hl,
    readLexemes_signed hl negative hplace]
  rfl

end Entered

end DeskCalculator
