import DeskCalculator.Proofs.Outcome
import DeskCalculator.Token.Scan

/-!
What the scanner makes of a text. It tells a sign from a binary operator by where the operator
stands, and blanks alone give no token.
-/
namespace DeskCalculator.Token

/-- Signs stand where an operand is expected, binary operators where none is. -/
inductive Fitted : Bool → List Token → Prop
  | nil (expecting : Bool) : Fitted expecting []
  | number {expecting : Bool} (l : Literal) {ts : List Token} :
      Fitted false ts → Fitted expecting (number l :: ts)
  | lparen {expecting : Bool} {ts : List Token} : Fitted true ts → Fitted expecting (lparen :: ts)
  | rparen {expecting : Bool} {ts : List Token} : Fitted false ts → Fitted expecting (rparen :: ts)
  | sign (s : Sign) {ts : List Token} : Fitted true ts → Fitted true (operator (.sign s) :: ts)
  | binary (op : BinaryOp) {ts : List Token} :
      Fitted true ts → Fitted false (operator (.binary op) :: ts)

theorem fitted_operator {previous : Option Token} {op : BinaryOp} {meant : Operator}
    {ts : List Token} (h : operatorAfter previous op = .ok meant) (hts : Fitted true ts) :
    Fitted (expectsOperand previous) (operator meant :: ts) := by
  unfold operatorAfter at h
  split at h
  · rename_i hexpects
    rw [hexpects]
    unfold Operator.ofSignSymbol at h
    split at h
    · exact Except.ok.inj h ▸ .sign .plus hts
    · split at h
      · exact Except.ok.inj h ▸ .sign .negate hts
      · cases h
  · rename_i hexpects
    rw [Bool.eq_false_iff.2 hexpects]
    exact Except.ok.inj h ▸ .binary op hts

theorem fitted_of_scanFrom {position : Nat} {previous : Option Token} {cs : List Char}
    {ts : List Token} (h : scanFrom position previous cs = .ok ts) :
    Fitted (expectsOperand previous) ts := by
  fun_induction scanFrom position previous cs generalizing ts with
  | case1 => exact Except.ok.inj h ▸ .nil _
  | case2 position previous c cs hblank ih => exact ih h
  | case3 => cases h
  | case4 position previous c cs hblank hnumeral run l hl =>
    rename_i ih
    obtain ⟨rest, hrest, rfl⟩ := map_eq_ok.1 h
    exact .number l (ih hrest)
  | case5 position previous cs hblank hnumeral ih =>
    obtain ⟨rest, hrest, rfl⟩ := map_eq_ok.1 h
    exact .lparen (ih hrest)
  | case6 position previous cs hblank hnumeral hopen ih =>
    obtain ⟨rest, hrest, rfl⟩ := map_eq_ok.1 h
    exact .rparen (ih hrest)
  | case7 => cases h
  | case8 => cases h
  | case9 position previous c cs hblank hnumeral hopen hclose op hop meant hmeant ih =>
    obtain ⟨rest, hrest, rfl⟩ := map_eq_ok.1 h
    exact fitted_operator hmeant (ih hrest)

theorem scanFrom_of_blank {position : Nat} {previous : Option Token} {cs : List Char}
    (h : ∀ c ∈ cs, Text.isBlank c = true) : scanFrom position previous cs = .ok [] := by
  induction cs generalizing position with
  | nil => rw [scanFrom]
  | cons c cs ih =>
    obtain ⟨hc, hcs⟩ := List.forall_mem_cons.1 h
    rw [scanFrom, if_pos hc]
    exact ih hcs

theorem scan_eq_ok_iff {text : String} {tokens : List Token} :
    scan text = .ok tokens ↔
      ¬ Text.IsBlankText text ∧ scanFrom 0 none text.toList = .ok tokens ∧
        checkParens tokens = .ok () := by
  constructor
  · intro h
    unfold scan at h
    split at h
    · cases h
    · rename_i hblank
      split at h
      · cases h
      · rename_i hscanned
        split at h
        · cases h
        · rename_i hparens
          obtain rfl := Except.ok.inj h
          exact ⟨hblank, hscanned, hparens⟩
  · rintro ⟨hblank, hscanned, hparens⟩
    rw [scan, if_neg hblank, hscanned]
    simp only [hparens]

theorem scan_of_scanFrom {text : String} {tokens : List Token}
    (h : scanFrom 0 none text.toList = .ok tokens) (hne : tokens ≠ [])
    (hparens : checkParens tokens = .ok ()) : scan text = .ok tokens := by
  refine scan_eq_ok_iff.2 ⟨fun hblank => ?_, h, hparens⟩
  rw [scanFrom_of_blank hblank] at h
  exact hne (Except.ok.inj h).symm

theorem scan_eq_ok {text : String} {tokens : List Token} (h : scan text = .ok tokens) :
    Fitted true tokens ∧ checkParens tokens = .ok () := by
  obtain ⟨-, hscanned, hparens⟩ := scan_eq_ok_iff.1 h
  exact ⟨fitted_of_scanFrom hscanned, hparens⟩

end DeskCalculator.Token
