import DeskCalculator.Proofs.Expression.Postorder
import DeskCalculator.Proofs.Token.Literal
import DeskCalculator.Proofs.Token.Scan
import Mathlib.Data.List.Chain
import Mathlib.Data.List.TakeWhile

/-!
The lexical grammar of infix texts. A text lays out its tokens with blanks anywhere around them, at
least one between two numbers; the scanner reads exactly the tokens that a text lays out.
-/
namespace DeskCalculator.Token

def spelling : Token → List Char
  | number l => l.text.toList
  | operator (.sign .plus) => ['+']
  | operator (.sign .negate) => ['-']
  | operator (.binary op) => [op.char]
  | lparen => ['(']
  | rparen => [')']

/-- The text opens with the blanks `lead`; each piece is a token with the blanks after it. -/
structure Layout (cs lead : List Char) (pieces : List (Token × List Char)) : Prop where
  text_eq : cs = lead ++ pieces.flatMap fun p => p.1.spelling ++ p.2
  blank_lead : ∀ c ∈ lead, Text.isBlank c = true
  blank_after : ∀ p ∈ pieces, ∀ c ∈ p.2, Text.isBlank c = true
  apart : pieces.IsChain fun p q => p.1.isNumber = true → q.1.isNumber = true → p.2 ≠ []

/-! ### Characters -/

theorem isNumeral_of_isBlank {c : Char} (h : Text.isBlank c = true) : isNumeral c = false := by
  rw [Bool.eq_false_iff]
  intro hc
  rw [isBlank_of_isNumeral hc] at h
  exact Bool.false_ne_true h

theorem char_of_ofChar? {c : Char} {op : BinaryOp} (h : BinaryOp.ofChar? c = some op) :
    op.char = c := by
  unfold BinaryOp.ofChar? at h
  have hfound := List.find?_some h
  exact beq_iff_eq.1 hfound

theorem isBlank_char (op : BinaryOp) : Text.isBlank op.char = false := by
  cases op <;> decide

theorem isNumeral_char (op : BinaryOp) : isNumeral op.char = false := by
  cases op <;> decide

theorem char_ne_paren (op : BinaryOp) : op.char ≠ '(' ∧ op.char ≠ ')' := by
  cases op <;> decide

/-! ### What the scanner reads -/

variable {position : Nat} {previous : Option Token}

theorem takeWhile_append_cut {cs rest : List Char}
    (h : (∀ c ∈ cs, isNumeral c = true) → ∀ c ∈ rest.head?, isNumeral c = false) :
    (cs ++ rest).takeWhile isNumeral = cs.takeWhile isNumeral ∧
      (cs ++ rest).dropWhile isNumeral = cs.dropWhile isNumeral ++ rest := by
  induction cs with
  | nil =>
    cases rest with
    | nil => exact ⟨rfl, rfl⟩
    | cons d rest =>
      have hd : isNumeral d = false := h (fun _ hc => absurd hc List.not_mem_nil) d rfl
      rw [List.nil_append, List.takeWhile_cons, List.dropWhile_cons, hd]
      exact ⟨rfl, rfl⟩
  | cons c cs ih =>
    rw [List.cons_append, List.takeWhile_cons, List.dropWhile_cons, List.takeWhile_cons,
      List.dropWhile_cons]
    cases hc : isNumeral c with
    | false => exact ⟨rfl, rfl⟩
    | true =>
      obtain ⟨htake, hdrop⟩ := ih fun hcs => h (List.forall_mem_cons.2 ⟨hc, hcs⟩)
      exact ⟨congrArg (c :: ·) htake, hdrop⟩

theorem isUnsigned_of_scanFrom {cs : List Char} {ts : List Token} {l : Literal}
    (h : scanFrom position previous cs = .ok ts) (hl : number l ∈ ts) : l.IsUnsigned := by
  fun_induction scanFrom position previous cs generalizing ts with
  | case1 => exact absurd (Except.ok.inj h ▸ hl) List.not_mem_nil
  | case2 position previous c cs hblank ih => exact ih h hl
  | case3 | case7 | case8 => cases h
  | case4 position previous c cs hblank hnumeral run read hread =>
    rename_i ih
    obtain ⟨rest, hrest, rfl⟩ := map_eq_ok.1 h
    rcases List.mem_cons.1 hl with hl | hl
    · obtain rfl := Token.number.inj hl
      refine Literal.isUnsigned_of_numerals (Literal.isRead_of_ofString? hread) ?_
      rw [(Literal.ofString?_eq_some.1 hread).2, String.toList_ofList]
      exact List.forall_mem_cons.2 ⟨hnumeral, List.all_eq_true.1 List.all_takeWhile⟩
    · exact ih hrest hl
  | case5 | case6 | case9 =>
    rename_i ih
    obtain ⟨rest, hrest, rfl⟩ := map_eq_ok.1 h
    rcases List.mem_cons.1 hl with hl | hl
    · cases hl
    · exact ih hrest hl

theorem Layout.nil {lead : List Char} (h : ∀ c ∈ lead, Text.isBlank c = true) :
    Layout lead lead [] :=
  ⟨(List.append_nil lead).symm, h, fun _ hp => absurd hp List.not_mem_nil, .nil⟩

theorem Layout.blank {cs lead : List Char} {pieces : List (Token × List Char)}
    (h : Layout cs lead pieces) {c : Char} (hc : Text.isBlank c = true) :
    Layout (c :: cs) (c :: lead) pieces :=
  ⟨congrArg (c :: ·) h.text_eq, List.forall_mem_cons.2 ⟨hc, h.blank_lead⟩, h.blank_after, h.apart⟩

theorem Layout.token {cs lead : List Char} {pieces : List (Token × List Char)}
    (h : Layout cs lead pieces) (t : Token)
    (hapart : t.isNumber = true → ∀ p ∈ pieces.head?, p.1.isNumber = true → lead ≠ []) :
    Layout (t.spelling ++ cs) [] ((t, lead) :: pieces) := by
  refine ⟨?_, fun _ hc => absurd hc List.not_mem_nil,
    List.forall_mem_cons.2 ⟨h.blank_lead, h.blank_after⟩,
    List.isChain_cons.2 ⟨fun p hp ht => hapart ht p hp, h.apart⟩⟩
  rw [List.nil_append, List.flatMap_cons, List.append_assoc, ← h.text_eq]

theorem Layout.symbol {cs lead : List Char} {pieces : List (Token × List Char)}
    (h : Layout cs lead pieces) (t : Token) (ht : t.isNumber = false) :
    Layout (t.spelling ++ cs) [] ((t, lead) :: pieces) :=
  h.token t fun hnumber => absurd hnumber (Bool.eq_false_iff.1 ht)

theorem Layout.isNumber_head {cs : List Char} {pieces : List (Token × List Char)}
    (h : Layout cs [] pieces) (hread : ∀ l, number l ∈ pieces.map Prod.fst → l.IsUnsigned)
    (hcs : ∀ c ∈ cs.head?, isNumeral c = false) : ∀ p ∈ pieces.head?, p.1.isNumber = false := by
  intro p hp
  cases pieces with
  | nil => cases hp
  | cons q pieces =>
    obtain rfl := Option.some.inj hp
    obtain ⟨t, after⟩ := q
    cases t with
    | number l =>
      obtain ⟨d, ds, hds, hd, -⟩ := (hread l (List.mem_cons_self ..)).exists_eq_cons
      have htext := h.text_eq
      rw [List.nil_append, List.flatMap_cons, spelling, hds] at htext
      have hnumeral : isNumeral d = false := hcs d (by rw [htext]; rfl)
      rw [hd] at hnumeral
      cases hnumeral
    | operator op | lparen | rparen => rfl

theorem spelling_of_operatorAfter {op : BinaryOp} {meant : Operator}
    (h : operatorAfter previous op = .ok meant) : (operator meant).spelling = [op.char] := by
  unfold operatorAfter at h
  split at h
  · cases op with
    | add | subtract =>
      cases h
      rfl
    | multiply | divide | power => cases h
  · rw [← Except.ok.inj h]
    rfl

theorem exists_layout_of_scanFrom {cs : List Char} {ts : List Token}
    (h : scanFrom position previous cs = .ok ts) :
    ∃ lead pieces, Layout cs lead pieces ∧ pieces.map Prod.fst = ts := by
  fun_induction scanFrom position previous cs generalizing ts with
  | case1 =>
    exact ⟨[], [], .nil fun _ hc => absurd hc List.not_mem_nil, Except.ok.inj h⟩
  | case2 position previous c cs hblank ih =>
    obtain ⟨lead, pieces, hlayout, rfl⟩ := ih h
    exact ⟨c :: lead, pieces, hlayout.blank hblank, rfl⟩
  | case3 | case7 | case8 => cases h
  | case4 position previous c cs hblank hnumeral run l hread =>
    rename_i ih
    obtain ⟨rest, hrest, rfl⟩ := map_eq_ok.1 h
    obtain ⟨lead, pieces, hlayout, rfl⟩ := ih hrest
    have hsplit : (number l).spelling ++ cs.dropWhile isNumeral = c :: cs := by
      rw [spelling, (Literal.ofString?_eq_some.1 hread).2, String.toList_ofList]
      exact congrArg (c :: ·) List.takeWhile_append_dropWhile
    refine ⟨[], (number l, lead) :: pieces, ?_, rfl⟩
    rw [← hsplit]
    refine hlayout.token (number l) fun _ p hp hnumber hlead => ?_
    -- the run is maximal, so another number cannot follow it at once
    subst hlead
    have hend : ∀ d ∈ (cs.dropWhile isNumeral).head?, isNumeral d = false := by
      intro d hd
      have hhead := List.head?_dropWhile_not isNumeral cs
      rw [Option.mem_def.1 hd] at hhead
      exact hhead
    rw [hlayout.isNumber_head (fun l => isUnsigned_of_scanFrom hrest) hend p hp] at hnumber
    exact Bool.false_ne_true hnumber
  | case5 position previous cs hblank hnumeral ih =>
    obtain ⟨rest, hrest, rfl⟩ := map_eq_ok.1 h
    obtain ⟨lead, pieces, hlayout, rfl⟩ := ih hrest
    exact ⟨[], (lparen, lead) :: pieces, hlayout.symbol lparen rfl, rfl⟩
  | case6 position previous cs hblank hnumeral hopen ih =>
    obtain ⟨rest, hrest, rfl⟩ := map_eq_ok.1 h
    obtain ⟨lead, pieces, hlayout, rfl⟩ := ih hrest
    exact ⟨[], (rparen, lead) :: pieces, hlayout.symbol rparen rfl, rfl⟩
  | case9 position previous c cs hblank hnumeral hopen hclose op hop meant hmeant ih =>
    obtain ⟨rest, hrest, rfl⟩ := map_eq_ok.1 h
    obtain ⟨lead, pieces, hlayout, rfl⟩ := ih hrest
    refine ⟨[], (operator meant, lead) :: pieces, ?_, rfl⟩
    have hsymbol := hlayout.symbol (operator meant) rfl
    rw [spelling_of_operatorAfter hmeant, char_of_ofChar? hop] at hsymbol
    exact hsymbol

theorem scanFrom_blanks {lead : List Char} (h : ∀ c ∈ lead, Text.isBlank c = true)
    (cs : List Char) :
    scanFrom position previous (lead ++ cs) = scanFrom (position + lead.length) previous cs := by
  induction lead generalizing position with
  | nil => rfl
  | cons c lead ih =>
    obtain ⟨hc, hlead⟩ := List.forall_mem_cons.1 h
    rw [List.cons_append, scanFrom, if_pos hc, ih hlead, List.length_cons, Nat.add_assoc,
      Nat.add_comm 1]

theorem scanFrom_number {l : Literal} (hl : l.IsUnsigned) {rest : List Char}
    (hrest : ∀ c ∈ rest.head?, isNumeral c = false) :
    scanFrom position previous ((number l).spelling ++ rest) =
      (scanFrom (position + (number l).spelling.length) (some (number l)) rest).map
        (number l :: ·) := by
  obtain ⟨c, cs, htext, hc, hcs⟩ := hl.exists_eq_cons
  obtain ⟨htake, hdrop⟩ := takeWhile_append_cut fun _ : ∀ d ∈ cs, isNumeral d = true => hrest
  rw [List.takeWhile_eq_self_iff.2 hcs] at htake
  rw [List.dropWhile_eq_nil_iff.2 hcs, List.nil_append] at hdrop
  have hread : Literal.ofString? (String.ofList (c :: cs)) = some l := by
    rw [← htext, String.ofList_toList]
    exact hl.1
  have hblank : ¬ Text.isBlank c = true := Bool.eq_false_iff.1 (isBlank_of_isNumeral hc)
  rw [spelling, htext, List.cons_append, scanFrom, if_neg hblank, if_pos hc]
  simp only [htake, hdrop, hread]

theorem scanFrom_operator {op : BinaryOp} {meant : Operator}
    (h : operatorAfter previous op = .ok meant) (rest : List Char) :
    scanFrom position previous (op.char :: rest) =
      (scanFrom (position + 1) (some (operator meant)) rest).map (operator meant :: ·) := by
  have hblank : ¬ Text.isBlank op.char = true := Bool.eq_false_iff.1 (isBlank_char op)
  have hnumeral : ¬ isNumeral op.char = true := Bool.eq_false_iff.1 (isNumeral_char op)
  obtain ⟨hopen, hclose⟩ := char_ne_paren op
  rw [scanFrom, if_neg hblank, if_neg hnumeral, if_neg hopen, if_neg hclose,
    BinaryOp.ofChar?_char]
  simp only [h]

theorem scanFrom_token {t : Token} {ts : List Token}
    (hfits : Fitted (expectsOperand previous) (t :: ts))
    (hread : ∀ l, t = number l → l.IsUnsigned) {rest : List Char}
    (hrest : t.isNumber = true → ∀ c ∈ rest.head?, isNumeral c = false) :
    scanFrom position previous (t.spelling ++ rest) =
      (scanFrom (position + t.spelling.length) (some t) rest).map (t :: ·) := by
  cases t with
  | number l => exact scanFrom_number (hread l rfl) (hrest rfl)
  | lparen | rparen =>
    rw [spelling, List.singleton_append, scanFrom]
    rfl
  | operator op =>
    generalize hexpects : expectsOperand previous = expects at hfits
    cases hfits with
    | sign s hts =>
      have hafter (op : BinaryOp) :
          operatorAfter previous op = Operator.ofSignSymbol op.symbol := if_pos hexpects
      cases s with
      | plus =>
        have hplus : operatorAfter previous .add = .ok (.sign .plus) := hafter .add
        exact scanFrom_operator hplus rest
      | negate =>
        have hminus : operatorAfter previous .subtract = .ok (.sign .negate) := hafter .subtract
        exact scanFrom_operator hminus rest
    | binary op hts =>
      have hafter : operatorAfter previous op = .ok (.binary op) :=
        if_neg (Bool.eq_false_iff.1 hexpects)
      exact scanFrom_operator hafter rest

theorem Fitted.tail {expecting : Bool} {t : Token} {ts : List Token}
    (h : Fitted expecting (t :: ts)) : Fitted (expectsOperand (some t)) ts := by
  cases h <;> assumption

theorem spelling_of_not_isNumber {t : Token} (h : t.isNumber = false) :
    ∃ c, t.spelling = [c] ∧ isNumeral c = false ∧ Text.isBlank c = false := by
  rcases t with l | (s | op) | _ | _
  · cases h
  · cases s <;> exact ⟨_, rfl, by decide, by decide⟩
  · exact ⟨op.char, rfl, isNumeral_char op, isBlank_char op⟩
  · exact ⟨'(', rfl, by decide, by decide⟩
  · exact ⟨')', rfl, by decide, by decide⟩

theorem Layout.isNumeral_head {cs lead : List Char} {pieces : List (Token × List Char)}
    (h : Layout cs lead pieces)
    (hfirst : ∀ p ∈ pieces.head?, p.1.isNumber = true → lead ≠ []) {c : Char}
    (hc : c ∈ cs.head?) : isNumeral c = false := by
  obtain ⟨rfl, hlead, -, -⟩ := h
  cases lead with
  | cons d lead =>
    obtain rfl := Option.some.inj hc
    exact isNumeral_of_isBlank (hlead d (List.mem_cons_self ..))
  | nil =>
    cases pieces with
    | nil => cases hc
    | cons p pieces =>
      have hnumber : p.1.isNumber = false :=
        Bool.eq_false_iff.2 fun hp => hfirst p rfl hp rfl
      obtain ⟨d, hd, hnumeral, -⟩ := spelling_of_not_isNumber hnumber
      rw [List.nil_append, List.flatMap_cons, hd] at hc
      obtain rfl := Option.some.inj hc
      exact hnumeral

theorem scanFrom_of_layout {cs lead : List Char} {pieces : List (Token × List Char)}
    (h : Layout cs lead pieces) (hfits : Fitted (expectsOperand previous) (pieces.map Prod.fst))
    (hread : ∀ l, number l ∈ pieces.map Prod.fst → l.IsUnsigned) :
    scanFrom position previous cs = .ok (pieces.map Prod.fst) := by
  induction pieces generalizing cs lead position previous with
  | nil =>
    obtain ⟨rfl, hlead, -, -⟩ := h
    rw [List.flatMap_nil, List.append_nil]
    exact scanFrom_of_blank hlead
  | cons p pieces ih =>
    obtain ⟨t, after⟩ := p
    obtain ⟨rfl, hlead, hafter, hapart⟩ := h
    obtain ⟨hblank, hafter⟩ := List.forall_mem_cons.1 hafter
    obtain ⟨hnext, hapart⟩ := List.isChain_cons.1 hapart
    have hrest : Layout (after ++ pieces.flatMap fun p => p.1.spelling ++ p.2) after pieces :=
      ⟨rfl, hblank, hafter, hapart⟩
    rw [scanFrom_blanks hlead, List.flatMap_cons, List.append_assoc,
      scanFrom_token hfits (fun l hl => hread l (hl ▸ List.mem_cons_self ..))
        (fun ht c => hrest.isNumeral_head fun p hp => hnext p hp ht),
      ih hrest hfits.tail fun l hl => hread l (List.mem_cons_of_mem _ hl)]
    rfl

end DeskCalculator.Token
