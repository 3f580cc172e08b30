import DeskCalculator.Proofs.Token.Grammar
import DeskCalculator.Proofs.Token.Lexeme

/-!
Going on after a text that scans. What is added as lexemes of its own leaves the tokens before it as
they are, and is read after the last of them; whether an operand is expected there shows in the last
character of the text.
-/
namespace DeskCalculator.Token

variable {position : Nat} {previous : Option Token} {cs : List Char} {ts : List Token}

theorem readLexemes_append (previous : Option Token) (ws us : List (List Char)) :
    readLexemes previous (ws ++ us) =
      (readLexemes previous ws).bind fun ts =>
        (readLexemes (ts.getLast?.or previous) us).map (ts ++ ·) := by
  induction ws generalizing previous with
  | nil => exact (map_nil_append _).symm
  | cons w ws ih =>
    rw [List.cons_append, readLexemes, readLexemes]
    cases readLexeme previous w with
    | error fault => rfl
    | ok t =>
      simp only [Except.bind, ih]
      cases readLexemes (some t) ws with
      | error fault => rfl
      | ok ts =>
        simp only [Except.map, getLast?_cons_or]
        cases readLexemes (ts.getLast?.or (some t)) us <;> rfl

/-! ### Texts that scan -/

theorem isKnown_of_mem_spelling {t : Token} (h : ∀ l, t = number l → l.IsUnsigned) {c : Char}
    (hc : c ∈ t.spelling) : IsKnown c := by
  have hoperator (op : BinaryOp) : IsKnown op.char :=
    .inr (.inr (.inr (.inr ⟨op, BinaryOp.ofChar?_char op⟩)))
  rcases t with l | (s | op) | _ | _
  · exact .inr (.inl ((h l rfl).isNumeral_of_mem hc))
  · cases s with
    | plus => exact List.mem_singleton.1 hc ▸ hoperator .add
    | negate => exact List.mem_singleton.1 hc ▸ hoperator .subtract
  · exact List.mem_singleton.1 hc ▸ hoperator op
  · exact .inr (.inr (.inl (List.mem_singleton.1 hc)))
  · exact .inr (.inr (.inr (.inl (List.mem_singleton.1 hc))))

theorem filter_eq_of_scanFrom (h : scanFrom position previous cs = .ok ts) :
    cs.filter (fun c => !Text.isBlank c) = ts.flatMap spelling := by
  obtain ⟨lead, pieces, hlayout, rfl⟩ := exists_layout_of_scanFrom h
  exact hlayout.filter_eq fun l => isUnsigned_of_scanFrom h

theorem isKnown_of_scanFrom (h : scanFrom position previous cs = .ok ts) {c : Char}
    (hc : c ∈ cs) : IsKnown c := by
  cases hblank : Text.isBlank c with
  | true => exact .inl hblank
  | false =>
    have hspelled : c ∈ ts.flatMap spelling := by
      rw [← filter_eq_of_scanFrom h]
      exact List.mem_filter.2 ⟨hc, by simp [hblank]⟩
    obtain ⟨t, ht, hc⟩ := List.mem_flatMap.1 hspelled
    exact isKnown_of_mem_spelling (fun l hl => isUnsigned_of_scanFrom h (hl ▸ ht)) hc

theorem spelling_ne_nil {t : Token} (h : ∀ l, t = number l → l.IsUnsigned) : t.spelling ≠ [] := by
  cases hnumber : t.isNumber with
  | false =>
    obtain ⟨c, hc, -, -⟩ := spelling_of_not_isNumber hnumber
    rw [hc]
    exact List.cons_ne_nil c []
  | true =>
    cases t with
    | number l =>
      obtain ⟨c, ds, htext, -, -⟩ := (h l rfl).exists_eq_cons
      rw [spelling, htext]
      exact List.cons_ne_nil c ds
    | operator op | lparen | rparen => cases hnumber

theorem getLast?_spelling_of_scanFrom {us : List Token} {t : Token} {c : Char}
    (h : scanFrom position previous cs = .ok (us ++ [t])) (hc : c ∈ cs.getLast?)
    (hblank : Text.isBlank c = false) : c ∈ t.spelling.getLast? := by
  have hread : ∀ l, t = number l → l.IsUnsigned := by
    rintro l rfl
    exact isUnsigned_of_scanFrom h (List.mem_append_right us (List.mem_singleton_self _))
  have hsome : t.spelling.getLast? ≠ none :=
    mt List.getLast?_eq_none_iff.1 (spelling_ne_nil hread)
  obtain ⟨d, hd⟩ := Option.ne_none_iff_exists'.1 hsome
  obtain ⟨front, rfl⟩ := List.getLast?_eq_some_iff.1 (Option.mem_def.1 hc)
  have hkeep : [c].filter (fun c => !Text.isBlank c) = [c] := by simp [hblank]
  have hends := congrArg List.getLast? (filter_eq_of_scanFrom h)
  rw [List.filter_append, hkeep, List.getLast?_concat, List.flatMap_append,
    List.flatMap_singleton, List.getLast?_append, hd] at hends
  exact hd.trans hends.symm

theorem expectsOperand_of_getLast? (h : scanFrom position none cs = .ok ts)
    (hend : ∀ c ∈ cs.getLast?, Text.isBlank c = false ∧ isNumeral c = false ∧ c ≠ ')') :
    expectsOperand ts.getLast? = true := by
  cases hlast : cs.getLast? with
  | none =>
    rw [List.getLast?_eq_none_iff.1 hlast, scanFrom] at h
    rw [← Except.ok.inj h]
    rfl
  | some c =>
    obtain ⟨hblank, hnumeral, hclose⟩ := hend c hlast
    cases ts using List.reverseRecOn with
    | nil => rfl
    | append_singleton us t =>
      have hc := getLast?_spelling_of_scanFrom h hlast hblank
      rw [List.getLast?_concat]
      cases t with
      | operator op | lparen => rfl
      | rparen => exact absurd (Option.some.inj hc).symm hclose
      | number l =>
        have hl : l.IsUnsigned :=
          isUnsigned_of_scanFrom h (List.mem_append_right us (List.mem_singleton_self _))
        rw [hl.isNumeral_of_mem (List.mem_of_mem_getLast? hc)] at hnumeral
        cases hnumeral

theorem scanFrom_of_lexemes_append {cs' : List Char} {ws : List (List Char)}
    (h : scanFrom position none cs = .ok ts) (hknown : ∀ c ∈ cs', IsKnown c)
    (hlexemes : lexemes cs' = lexemes cs ++ ws) :
    scanFrom position none cs' = (readLexemes ts.getLast? ws).map (ts ++ ·) := by
  have hread : readLexemes none (lexemes cs) = .ok ts := by
    rw [← scanFrom_eq_readLexemes fun c => isKnown_of_scanFrom h]
    exact h
  rw [scanFrom_eq_readLexemes hknown, hlexemes, readLexemes_append, hread]
  simp only [Except.bind, Option.or_none]

/-! ### Operands -/

theorem lexemes_literal {l : Literal} (hl : l.IsUnsigned) :
    lexemes l.text.toList = [l.text.toList] := by
  obtain ⟨c, ds, htext, hc, hds⟩ := hl.exists_eq_cons
  rw [htext, lexemes_numeral_cons hc, List.takeWhile_eq_self_iff.2 hds,
    List.dropWhile_eq_nil_iff.2 hds, lexemes_nil]

theorem readLexeme_literal {l : Literal} (hl : l.IsUnsigned) (previous : Option Token) :
    readLexeme previous l.text.toList = .ok (number l) := by
  obtain ⟨c, ds, htext, hc, -⟩ := hl.exists_eq_cons
  have hread : Literal.ofString? (String.ofList (c :: ds)) = some l := by
    rw [← htext, String.ofList_toList]
    exact hl.1
  rw [htext, readLexeme_numerals hc]
  simp only [hread]

def signedNumber (negative : Prop) [Decidable negative] (l : Literal) : List Token :=
  (if negative then [operator (.sign .negate)] else []) ++ [number l]

theorem readLexemes_signed {l : Literal} (hl : l.IsUnsigned) (negative : Prop)
    [Decidable negative] (hplace : expectsOperand previous = true) :
    readLexemes previous (lexemes ((if negative then ['-'] else []) ++ l.text.toList)) =
      .ok (signedNumber negative l) := by
  have hone (previous : Option Token) :
      readLexemes previous (lexemes l.text.toList) = .ok [number l] := by
    rw [lexemes_literal hl, readLexemes, readLexeme_literal hl]
    rfl
  unfold signedNumber
  split
  · have hminus : lexemes (['-'] ++ l.text.toList) = ['-'] :: lexemes l.text.toList :=
      lexemes_append_symbol (by decide) (by decide) [] l.text.toList
    have hsign : readLexeme previous ['-'] = .ok (operator (.sign .negate)) := by
      have hread : readLexeme previous [BinaryOp.subtract.char] =
          (operatorAfter previous .subtract).map operator := readLexeme_operator
      have hafter : operatorAfter previous .subtract = .ok (.sign .negate) := if_pos hplace
      rw [hafter] at hread
      exact hread
    rw [hminus, readLexemes, hsign]
    simp only [Except.bind, hone]
    rfl
  · exact hone previous

end DeskCalculator.Token
