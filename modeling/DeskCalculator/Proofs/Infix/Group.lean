import DeskCalculator.Proofs.Infix.Parentheses
import DeskCalculator.Proofs.Infix.Steps
import DeskCalculator.Proofs.Answer

/-!
Groups. A group of parentheses with balanced tokens in it is an operand like a number: it goes out at
once and leaves the stack as it found it. So it may stand wherever a number stands, and around a
whole expression it changes nothing.
-/
namespace DeskCalculator

namespace Postfix
open Token

variable {tokens out : List Token}

/-- Tokens that go out at once, as the block `out`, and leave every stack as it was. -/
def IsOperand (tokens out : List Token) : Prop :=
  ∀ stack, shifts stack tokens = .ok (out, stack)

theorem isOperand_number (l : Literal) : IsOperand [.number l] [.number l] :=
  fun _ => shifts_singleton rfl

theorem isOperand_group (h : convertFrom [] tokens = .ok out) :
    IsOperand (.lparen :: (tokens ++ [.rparen])) out := by
  intro stack
  obtain ⟨gone, left, hread, hdrain, rfl⟩ := convertFrom_eq_ok.1 h
  have hleft := (drain_eq_ok hdrain).2
  have hinside : shifts (.lparen :: stack) tokens = .ok (gone, left ++ .lparen :: stack) :=
    shifts_above hread stack
  have hclose : shift (left ++ .lparen :: stack) .rparen = .ok (left, stack) :=
    closeGroup_append hleft stack
  have hgroup : shifts (.lparen :: stack) (tokens ++ [.rparen]) = .ok (gone ++ left, stack) := by
    rw [shifts_append, hinside]
    simp only [Except.bind]
    rw [shifts_singleton hclose]
    rfl
  exact shifts_cons_eq_ok.2 ⟨[], .lparen :: stack, gone ++ left, rfl, hgroup, rfl⟩

theorem IsOperand.convertFrom_append (h : IsOperand tokens out) (stack before after : List Token) :
    convertFrom stack (before ++ tokens ++ after) =
      (shifts stack before).bind fun r =>
        (convertFrom r.2 after).map fun rest => r.1 ++ out ++ rest := by
  rw [List.append_assoc, Postfix.convertFrom_append]
  congr 1
  funext r
  rw [Postfix.convertFrom_append, h r.2]
  exact map_append_map_append (convertFrom r.2 after) r.1 out

def substitute (x : Literal) (block tokens : List Token) : List Token :=
  tokens.flatMap fun t => if t = .number x then block else [t]

theorem substitute_of_not_mem {x : Literal} (block : List Token) (h : .number x ∉ tokens) :
    substitute x block tokens = tokens := by
  induction tokens with
  | nil => rfl
  | cons t tokens ih =>
    have ht : t ≠ .number x := fun ht => h (by simp [ht])
    have hrest := ih fun hmem => h (List.mem_cons_of_mem t hmem)
    unfold substitute at hrest ⊢
    simp [ht, hrest]

theorem substitute_number {x : Literal} (block : List Token) {before after : List Token}
    (hbefore : .number x ∉ before) (hafter : .number x ∉ after) :
    substitute x block (before ++ [.number x] ++ after) = before ++ block ++ after := by
  have hb := substitute_of_not_mem block hbefore
  have ha := substitute_of_not_mem block hafter
  unfold substitute at hb ha ⊢
  simp [hb, ha]

theorem IsOperand.convertFrom_eq_substitute {block : List Token} (h : IsOperand tokens block)
    {x : Literal} {before after : List Token} (hbefore : .number x ∉ before)
    (hafter : .number x ∉ after) :
    convertFrom [] (before ++ tokens ++ after) =
      (convertFrom [] (before ++ [.number x] ++ after)).map (substitute x block) := by
  rw [h.convertFrom_append, (isOperand_number x).convertFrom_append]
  cases hread : shifts [] before with
  | error fault => rfl
  | ok r =>
    obtain ⟨gone, stack⟩ := r
    have hfrom : ∀ u ∈ gone ++ stack, u ∈ before := by
      intro u hu
      simpa using mem_of_shifts hread hu
    simp only [Except.bind]
    cases hrest : convertFrom stack after with
    | error fault => rfl
    | ok rest =>
      have hgone : .number x ∉ gone := fun hmem => hbefore (hfrom _ (by simp [hmem]))
      have hlater : .number x ∉ rest := by
        intro hmem
        have hkept := (convertFrom_perm hrest).subset hmem
        rcases List.mem_append.1 (List.mem_of_mem_filter hkept) with hstack | hmem
        · exact hbefore (hfrom _ (by simp [hstack]))
        · exact hafter hmem
      exact congrArg Except.ok (substitute_number block hgone hlater).symm

end Postfix

/-! ### A whole expression in parentheses -/

namespace Token

theorem Layout.concat_symbol {cs lead : List Char} {pieces : List (Token × List Char)}
    (h : Layout cs lead pieces) (t : Token) (ht : t.isNumber = false) :
    Layout (cs ++ t.spelling) lead (pieces ++ [(t, [])]) := by
  refine ⟨?_, h.blank_lead, ?_, ?_⟩
  · have htext := h.text_eq
    simp [htext]
  · have hblank := h.blank_after
    simp [or_imp, forall_and] at hblank ⊢
    exact hblank
  · refine List.isChain_append.2 ⟨h.apart, .singleton _, ?_⟩
    simp [ht]

theorem Fitted.concat_rparen {expecting : Bool} {ts : List Token} (h : Fitted expecting ts) :
    Fitted expecting (ts ++ [Token.rparen]) := by
  induction h with
  | nil expecting => exact .rparen (.nil false)
  | number l h ih => exact .number l ih
  | lparen h ih => exact .lparen ih
  | rparen h ih => exact .rparen ih
  | sign s h ih => exact .sign s ih
  | binary op h ih => exact .binary op ih

theorem checkParensFrom_append {depth outer : Nat} {ts us : List Token}
    (h : checkParensFrom depth ts = .ok ()) :
    checkParensFrom (depth + outer) (ts ++ us) = checkParensFrom outer us := by
  induction ts generalizing depth with
  | nil =>
    -- what passes the check leaves no parenthesis open
    have hdepth : depth = 0 := by
      by_contra hne
      rw [checkParensFrom, if_neg hne] at h
      cases h
    simp [hdepth]
  | cons t ts ih =>
    cases t with
    | number l | operator op => exact ih h
    | lparen =>
      have hrest : checkParensFrom (depth + 1 + outer) (ts ++ us) = checkParensFrom outer us := ih h
      rw [Nat.add_right_comm] at hrest
      exact hrest
    | rparen =>
      cases depth with
      | zero => cases h
      | succ depth =>
        have hrest : checkParensFrom (depth + outer) (ts ++ us) = checkParensFrom outer us := ih h
        rw [Nat.add_right_comm]
        exact hrest

variable {text : String} {tokens : List Token}

theorem scan_parenthesized (h : scan text = .ok tokens) :
    scan ("(" ++ text ++ ")") = .ok (lparen :: (tokens ++ [rparen])) := by
  obtain ⟨-, hscanned, hparens⟩ := scan_eq_ok_iff.1 h
  obtain ⟨⟨lead, pieces, hlayout, rfl⟩, hfitted, hread⟩ := scanFrom_eq_ok_iff.1 hscanned
  have htext : ("(" ++ text ++ ")").toList = '(' :: (text.toList ++ [')']) := by simp
  have hinside : scanFrom 1 (some lparen) (text.toList ++ [')']) =
      .ok (pieces.map Prod.fst ++ [rparen]) := by
    apply scanFrom_eq_ok_iff.2
    refine ⟨⟨lead, pieces ++ [(rparen, [])], hlayout.concat_symbol rparen rfl, by simp⟩, ?_, ?_⟩
    · exact hfitted.concat_rparen
    · intro l hl
      exact hread l (by simpa using hl)
  have hopen : scanFrom 0 none ('(' :: (text.toList ++ [')'])) =
      (scanFrom 1 (some lparen) (text.toList ++ [')'])).map (lparen :: ·) := by
    rw [scanFrom]
    rfl
  have hclose : checkParens (lparen :: (pieces.map Prod.fst ++ [rparen])) = .ok () := by
    have hdepth : checkParensFrom (0 + 1) (pieces.map Prod.fst ++ [rparen]) =
        checkParensFrom 1 [rparen] := checkParensFrom_append hparens
    exact hdepth
  apply scan_of_scanFrom
  · rw [htext, hopen, hinside]
    rfl
  · simp
  · exact hclose

end Token

namespace Postfix
open Token

theorem convert_of_isOperand {tokens out : List Token} (h : IsOperand tokens out) :
    convert tokens = .ok out := by
  have hall : convertFrom [] tokens = .ok out :=
    convertFrom_eq_ok.2 ⟨out, [], h [], rfl, (List.append_nil out).symm⟩
  rw [convert, hall]
  rfl

/-- A balanced group in parentheses may stand for any number: it has the place of that number in
what goes out, whatever stands around it and whatever waits on the stack, and where the tokens with
the number fail those with the group fail alike. Around a text that scans, parentheses change neither
its postfix form nor any answer to it, be it value, scale, trace or fault. -/
theorem convert_group_eq_substitute :
    (∀ (before group after : List Token) (x : Literal), Balanced group → .number x ∉ before →
      .number x ∉ after →
      ∃ block, convert group = .ok block ∧
        convert (before ++ (.lparen :: (group ++ [.rparen])) ++ after) =
          (convert (before ++ [.number x] ++ after)).map (substitute x block)) ∧
    (∀ (text : String) (tokens : List Token), scan text = .ok tokens →
      scan ("(" ++ text ++ ")") = .ok (.lparen :: (tokens ++ [.rparen])) ∧
      convert (.lparen :: (tokens ++ [.rparen])) = convert tokens ∧
      ∀ (c : Calculator) (withTrace : Bool) (overrides : Overrides),
        c.answer ⟨"(" ++ text ++ ")", .algebraic, withTrace, overrides⟩ =
          c.answer ⟨text, .algebraic, withTrace, overrides⟩) := by
  have hblock {group : List Token} (h : checkParens group = .ok ()) :
      ∃ block, convert group = .ok block ∧ IsOperand (.lparen :: (group ++ [.rparen])) block := by
    obtain ⟨block, hconvert⟩ := exists_convert_eq_ok_iff.2 h
    exact ⟨block, hconvert, isOperand_group (mapError_eq_ok.1 hconvert)⟩
  constructor
  · intro before group after x hgroup hbefore hafter
    obtain ⟨block, hconvert, hoperand⟩ := hblock (balanced_iff.1 hgroup)
    refine ⟨block, hconvert, ?_⟩
    unfold convert
    rw [hoperand.convertFrom_eq_substitute hbefore hafter]
    cases convertFrom [] (before ++ [.number x] ++ after) <;> rfl
  · intro text tokens hscan
    have hwrapped := scan_parenthesized hscan
    obtain ⟨block, hconvert, hoperand⟩ := hblock (scan_eq_ok hscan).2
    have hsame : convert (.lparen :: (tokens ++ [.rparen])) = convert tokens := by
      rw [hconvert, convert_of_isOperand hoperand]
    refine ⟨hwrapped, hsame, fun c withTrace overrides => ?_⟩
    have hpostfix : Mode.algebraic.toPostfix ("(" ++ text ++ ")") =
        Mode.algebraic.toPostfix text := by
      rw [Mode.toPostfix, Mode.toPostfix, hscan, hwrapped]
      exact hsame
    have hblank : ¬ Text.IsBlankText text := (scan_eq_ok_iff.1 hscan).1
    have hwrappedBlank : ¬ Text.IsBlankText ("(" ++ text ++ ")") := (scan_eq_ok_iff.1 hwrapped).1
    unfold Calculator.answer
    simp only [if_neg hblank, if_neg hwrappedBlank, hpostfix]

theorem convert_group_under_sign :
    convert [.operator (.sign .negate), .lparen, .number ⟨1, "1"⟩, .operator (.binary .subtract),
        .number ⟨3, "3"⟩, .rparen, .operator (.binary .power), .number ⟨2, "2"⟩] =
      .ok [.number ⟨1, "1"⟩, .number ⟨3, "3"⟩, .operator (.binary .subtract),
        .operator (.sign .negate), .number ⟨2, "2"⟩, .operator (.binary .power)] := by
  obtain ⟨block, hblock, hgroup⟩ := convert_group_eq_substitute.1 [.operator (.sign .negate)]
    [.number ⟨1, "1"⟩, .operator (.binary .subtract), .number ⟨3, "3"⟩]
    [.operator (.binary .power), .number ⟨2, "2"⟩] ⟨7, "7"⟩ (balanced_iff.2 rfl) (by simp) (by simp)
  obtain rfl : [.number ⟨1, "1"⟩, .number ⟨3, "3"⟩, .operator (.binary .subtract)] = block :=
    Except.ok.inj hblock
  exact hgroup

end Postfix

end DeskCalculator
