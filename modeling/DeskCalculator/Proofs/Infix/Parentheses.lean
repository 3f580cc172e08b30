import DeskCalculator.Proofs.Infix.Conservation
import DeskCalculator.Proofs.Token.Grammar

/-!
The parentheses of a conversion. All that the converter asks of its stack is how many parentheses are
open there, so it fails exactly on the tokens whose parentheses do not balance, and with the fault
that the check of the tokens alone has for them.
-/
namespace DeskCalculator.Postfix
open Token

variable {stack ts : List Token}

theorem count_lparen_eq_zero {group : List Token} (h : ∀ t ∈ group, t.isParen = false) :
    group.count .lparen = 0 := by
  apply List.count_eq_zero.2
  intro hmem
  cases h _ hmem

theorem verdict_drain (h : .rparen ∉ stack) :
    (drain stack).map (fun _ => ()) = checkParensFrom (stack.count .lparen) [] := by
  fun_induction drain stack with
  | case1 => rfl
  | case2 t stack ht =>
    -- no closing parenthesis is on the stack, so this one opens
    have hopen : t = .lparen := by
      cases t with
      | number l | operator op => cases ht
      | lparen => rfl
      | rparen => exact absurd (List.mem_cons_self ..) h
    subst hopen
    simp [checkParensFrom, Except.map]
  | case3 t stack ht ih =>
    have hopen : t ≠ .lparen := by
      rintro rfl
      exact ht rfl
    have hrest := ih fun hmem => h (List.mem_cons_of_mem t hmem)
    rw [List.count_cons_of_ne hopen, ← hrest]
    cases drain stack <;> rfl

theorem closeGroup_eq_error {fault : ParenFault} (h : .rparen ∉ stack)
    (hfault : closeGroup stack = .error fault) :
    fault = .unmatchedClosing ∧ stack.count .lparen = 0 := by
  fun_induction closeGroup stack with
  | case1 => exact ⟨(Except.error.inj hfault).symm, rfl⟩
  | case2 => cases hfault
  | case3 => exact absurd (List.mem_cons_self ..) h
  | case4 t stack hopen hclose ih =>
    rw [List.count_cons_of_ne hopen]
    exact ih (fun hmem => h (List.mem_cons_of_mem t hmem)) (map_eq_error.1 hfault)

theorem release_below (next : Operator) (h : .rparen ∉ stack) :
    .rparen ∉ (release next stack).2 ∧
      (release next stack).2.count .lparen = stack.count .lparen := by
  have hsplit := release_append next stack
  have hgone : (release next stack).1.count .lparen = 0 :=
    count_lparen_eq_zero fun _ => isParen_of_mem_release
  constructor
  · intro hmem
    rw [← hsplit] at h
    exact h (List.mem_append_right _ hmem)
  · conv_rhs => rw [← hsplit, List.count_append, hgone, Nat.zero_add]

theorem verdict_convertFrom (h : .rparen ∉ stack) :
    (convertFrom stack ts).map (fun _ => ()) = checkParensFrom (stack.count .lparen) ts := by
  have hmap (r : Except ParenFault (List Token)) (f : List Token → List Token) :
      (r.map f).map (fun _ => ()) = r.map fun _ => () := by
    cases r <;> rfl
  fun_induction convertFrom stack ts with
  | case1 stack => exact verdict_drain h
  | case2 stack l ts ih =>
    rw [hmap, ih h]
    rfl
  | case3 stack op ts ih =>
    obtain ⟨hbelow, hcount⟩ := release_below op h
    have hnext : .rparen ∉ Token.operator op :: (release op stack).2 := by simpa using hbelow
    have hskip : (Token.operator op :: (release op stack).2).count .lparen =
        (release op stack).2.count .lparen := by simp
    rw [hmap, ih hnext, hskip, hcount]
    rfl
  | case4 stack ts ih =>
    have hnext : .rparen ∉ Token.lparen :: stack := by simpa using h
    rw [ih hnext, List.count_cons_self]
    rfl
  | case5 stack ts fault hclose =>
    obtain ⟨rfl, hcount⟩ := closeGroup_eq_error h hclose
    rw [hcount]
    rfl
  | case6 stack ts group below hclose ih =>
    obtain ⟨rfl, hgroup⟩ := closeGroup_eq_ok hclose
    have hbelow : .rparen ∉ below := fun hmem => h (by simp [hmem])
    have hcount : (group ++ .lparen :: below).count .lparen = below.count .lparen + 1 := by
      rw [List.count_append, count_lparen_eq_zero hgroup, List.count_cons_self, Nat.zero_add]
    rw [hmap, ih hbelow, hcount]
    rfl

theorem verdict_convert (ts : List Token) :
    (convertFrom [] ts).map (fun _ => ()) = checkParens ts :=
  verdict_convertFrom List.not_mem_nil

theorem exists_convert_eq_ok_iff : (∃ out, convert ts = .ok out) ↔ checkParens ts = .ok () := by
  rw [← verdict_convert, map_eq_ok]
  exact exists_congr fun out => mapError_eq_ok.trans (and_iff_left rfl).symm

theorem convert_eq_error_iff {fault : Fault} :
    convert ts = .error fault ↔
      ∃ cause, checkParens ts = .error cause ∧ fault = .convertedParens cause := by
  rw [convert, mapError_eq_error]
  refine exists_congr fun cause => and_congr ?_ eq_comm
  rw [← verdict_convert, map_eq_error]

/-- The converter judges the parentheses of its tokens as the scanner does. It fails exactly where the
check of them fails, with the same message: on a closing parenthesis too many, as soon as there is
one, and otherwise on an opening one that is left. So it never fails on what the scanner lets pass,
and it converts the tokens whose parentheses are balanced and no others. -/
theorem convert_agrees_with_checkParens (ts : List Token) :
    (∀ message,
      (∃ fault, convert ts = .error fault ∧ fault.kind = .conversion ∧ fault.message = message) ↔
        ∃ fault, (checkParens ts).mapError Fault.scannedParens = .error fault ∧
          fault.kind = .tokenization ∧ fault.message = message) ∧
    (∀ fault, convert ts = .error fault ↔
      fault = .convertedParens .unmatchedClosing ∧
          (∃ before, before <+: ts ∧ before.count .lparen < before.count .rparen) ∨
        fault = .convertedParens .unclosedOpening ∧ ts.count .rparen < ts.count .lparen ∧
          ∀ before, before <+: ts → before.count .rparen ≤ before.count .lparen) ∧
    (∀ text, scan text = .ok ts → ∃ out, convert ts = .ok out) ∧
    ((∃ out, convert ts = .ok out) ↔ Balanced ts) := by
  refine ⟨fun message => ?_, fun fault => ?_, fun text h => ?_, ?_⟩
  · simp only [convert_eq_error_iff, mapError_eq_error]
    constructor
    · rintro ⟨_, ⟨cause, hcheck, rfl⟩, -, rfl⟩
      exact ⟨_, ⟨cause, hcheck, rfl⟩, rfl, rfl⟩
    · rintro ⟨_, ⟨cause, hcheck, rfl⟩, -, rfl⟩
      exact ⟨_, ⟨cause, hcheck, rfl⟩, rfl, rfl⟩
  · rw [convert_eq_error_iff]
    simp only [checkParens_eq_error_iff]
    constructor
    · rintro ⟨_, ⟨rfl, hover⟩ | ⟨rfl, hopen⟩, rfl⟩
      · exact .inl ⟨rfl, hover⟩
      · exact .inr ⟨rfl, hopen⟩
    · rintro (⟨rfl, hover⟩ | ⟨rfl, hopen⟩)
      · exact ⟨_, .inl ⟨rfl, hover⟩, rfl⟩
      · exact ⟨_, .inr ⟨rfl, hopen⟩, rfl⟩
  · exact exists_convert_eq_ok_iff.2 (scan_eq_ok h).2
  · rw [balanced_iff, exists_convert_eq_ok_iff]

end DeskCalculator.Postfix
