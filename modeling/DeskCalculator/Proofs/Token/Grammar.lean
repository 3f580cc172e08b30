import DeskCalculator.Proofs.Token.Layout

/-!
Which texts scan, and to which tokens: those that lay out unsigned literals, signs exactly where an
operand is expected, and balanced parentheses. Blanks that split no literal change nothing.
-/
namespace DeskCalculator.Token

def SignsInPlace (ts : List Token) : Prop :=
  ∀ before op after, ts = before ++ operator op :: after →
    (op.fixity = .unary ↔ ∀ t ∈ before.getLast?, t = lparen ∨ ∃ other, t = operator other)

def Balanced (ts : List Token) : Prop :=
  (∀ before, before <+: ts → before.count rparen ≤ before.count lparen) ∧
    ts.count rparen = ts.count lparen

/-! ### Signs -/

theorem expectsOperand_iff {previous : Option Token} :
    expectsOperand previous = true ↔
      ∀ t ∈ previous, t = lparen ∨ ∃ other, t = operator other := by
  cases previous with
  | none => exact iff_of_true rfl nofun
  | some t =>
    have hsome : (∀ u ∈ some t, u = lparen ∨ ∃ other, u = operator other) ↔
        t = lparen ∨ ∃ other, t = operator other := by
      simp only [Option.mem_some_iff, forall_eq']
    rw [hsome]
    cases t with
    | number l | rparen => exact iff_of_false nofun fun h => by rcases h with h | ⟨_, h⟩ <;> cases h
    | lparen => exact iff_of_true rfl (.inl rfl)
    | operator op => exact iff_of_true rfl (.inr ⟨op, rfl⟩)

theorem getLast?_cons_or (t : Token) (ts : List Token) (previous : Option Token) :
    (t :: ts).getLast?.or previous = ts.getLast?.or (some t) := by
  rw [List.getLast?_cons]
  cases ts.getLast? <;> rfl

theorem fitted_iff {previous : Option Token} {ts : List Token} :
    Fitted (expectsOperand previous) ts ↔
      ∀ before op after, ts = before ++ operator op :: after →
        (op.fixity = .unary ↔ expectsOperand (before.getLast?.or previous) = true) := by
  constructor
  · intro h before op after hts
    induction before generalizing previous ts with
    | nil =>
      subst hts
      change op.fixity = .unary ↔ expectsOperand previous = true
      generalize expectsOperand previous = expecting at h ⊢
      cases h with
      | sign s h => exact iff_of_true rfl rfl
      | binary op h => exact iff_of_false nofun nofun
    | cons t before ih =>
      subst hts
      rw [getLast?_cons_or]
      exact ih h.tail rfl
  · intro h
    induction ts generalizing previous with
    | nil => exact .nil _
    | cons t ts ih =>
      have hrest : Fitted (expectsOperand (some t)) ts := by
        refine ih fun before op after hts => ?_
        rw [← getLast?_cons_or t before previous]
        exact h (t :: before) op after (congrArg (t :: ·) hts)
      cases t with
      | number l => exact .number l hrest
      | lparen => exact .lparen hrest
      | rparen => exact .rparen hrest
      | operator op =>
        have hplace : op.fixity = .unary ↔ expectsOperand previous = true := h [] op ts rfl
        cases op with
        | sign s => exact hplace.1 rfl ▸ .sign s hrest
        | binary op =>
          have hexpects : expectsOperand previous = false :=
            Bool.eq_false_iff.2 fun hexpects => nomatch hplace.2 hexpects
          exact hexpects ▸ .binary op hrest

theorem signsInPlace_iff {ts : List Token} : SignsInPlace ts ↔ Fitted true ts := by
  unfold SignsInPlace
  rw [show true = expectsOperand none from rfl, fitted_iff]
  simp only [Option.or_none, expectsOperand_iff]

/-! ### Parentheses -/

theorem forall_prefix_cons {p : List Token → Prop} {t : Token} {ts : List Token} :
    (∀ before, before <+: t :: ts → p before) ↔
      p [] ∧ ∀ before, before <+: ts → p (t :: before) := by
  constructor
  · intro h
    exact ⟨h [] List.nil_prefix,
      fun before hbefore => h _ (List.cons_prefix_cons.2 ⟨rfl, hbefore⟩)⟩
  · rintro ⟨hnil, hcons⟩ before hbefore
    rcases List.prefix_cons_iff.1 hbefore with rfl | ⟨rest, rfl, hrest⟩
    · exact hnil
    · exact hcons rest hrest

theorem checkParensFrom_verdict (depth : Nat) (ts : List Token) :
    (∀ before, before <+: ts → before.count rparen ≤ depth + before.count lparen) ∧
        (ts.count rparen = depth + ts.count lparen ∧ checkParensFrom depth ts = .ok () ∨
          ts.count rparen < depth + ts.count lparen ∧
            checkParensFrom depth ts = .error .unclosedOpening) ∨
      (¬ ∀ before, before <+: ts → before.count rparen ≤ depth + before.count lparen) ∧
        checkParensFrom depth ts = .error .unmatchedClosing := by
  induction ts generalizing depth with
  | nil =>
    refine .inl ⟨fun before hbefore => ?_, ?_⟩
    · rw [List.prefix_nil.1 hbefore]
      exact Nat.zero_le _
    · unfold checkParensFrom
      split
      · rename_i hdepth
        exact .inl ⟨hdepth.symm, rfl⟩
      · rename_i hdepth
        exact .inr ⟨Nat.pos_of_ne_zero hdepth, rfl⟩
  | cons t ts ih =>
    have hnil : ([] : List Token).count rparen ≤ depth + ([] : List Token).count lparen :=
      Nat.zero_le _
    have hskip {p : Token} (hne : t ≠ p) (before : List Token) :
        (t :: before).count p = before.count p := List.count_cons_of_ne hne
    rw [forall_prefix_cons, and_iff_right hnil]
    cases t with
    | number l | operator op =>
      simp only [hskip (p := rparen) nofun, hskip (p := lparen) nofun]
      exact ih depth
    | lparen =>
      simp only [hskip (p := rparen) nofun, List.count_cons_self, ← Nat.add_assoc,
        Nat.add_right_comm depth _ 1]
      exact ih (depth + 1)
    | rparen =>
      simp only [hskip (p := lparen) nofun, List.count_cons_self]
      cases depth with
      | zero => exact .inr ⟨fun h => absurd (h [] List.nil_prefix) (by decide), rfl⟩
      | succ outer =>
        simp only [Nat.add_right_comm outer 1, Nat.add_le_add_iff_right, Nat.add_right_cancel_iff,
          Nat.add_lt_add_iff_right]
        exact ih outer

theorem checkParensFrom_eq_ok_iff {depth : Nat} {ts : List Token} :
    checkParensFrom depth ts = .ok () ↔
      (∀ before, before <+: ts → before.count rparen ≤ depth + before.count lparen) ∧
        ts.count rparen = depth + ts.count lparen := by
  obtain ⟨hnever, ⟨heq, h⟩ | ⟨hlt, h⟩⟩ | ⟨hover, h⟩ := checkParensFrom_verdict depth ts
  · exact iff_of_true h ⟨hnever, heq⟩
  · rw [h]
    exact iff_of_false nofun fun hbalanced => absurd hbalanced.2 hlt.ne
  · rw [h]
    exact iff_of_false nofun fun hbalanced => hover hbalanced.1

theorem checkParens_eq_error_iff {ts : List Token} {fault : ParenFault} :
    checkParens ts = .error fault ↔
      fault = .unmatchedClosing ∧
          (∃ before, before <+: ts ∧ before.count lparen < before.count rparen) ∨
        fault = .unclosedOpening ∧ ts.count rparen < ts.count lparen ∧
          ∀ before, before <+: ts → before.count rparen ≤ before.count lparen := by
  have hover : (∃ before, before <+: ts ∧ before.count lparen < before.count rparen) ↔
      ¬ ∀ before, before <+: ts → before.count rparen ≤ before.count lparen := by
    simp only [not_forall, not_le, exists_prop]
  have hverdict := checkParensFrom_verdict 0 ts
  simp only [Nat.zero_add] at hverdict
  rw [hover, checkParens]
  obtain ⟨hnever, ⟨heq, h⟩ | ⟨hlt, h⟩⟩ | ⟨hsome, h⟩ := hverdict
  · rw [h]
    refine iff_of_false nofun ?_
    rintro (⟨-, hsome⟩ | ⟨-, hlt, -⟩)
    · exact hsome hnever
    · exact absurd heq hlt.ne
  · rw [h]
    constructor
    · intro hfault
      exact .inr ⟨(Except.error.inj hfault).symm, hlt, hnever⟩
    · rintro (⟨-, hsome⟩ | ⟨rfl, -⟩)
      · exact absurd hnever hsome
      · rfl
  · rw [h]
    constructor
    · intro hfault
      exact .inl ⟨(Except.error.inj hfault).symm, hsome⟩
    · rintro (⟨rfl, -⟩ | ⟨-, -, hnever⟩)
      · rfl
      · exact absurd hnever hsome

theorem balanced_iff {ts : List Token} : Balanced ts ↔ checkParens ts = .ok () := by
  unfold checkParens Balanced
  simp only [checkParensFrom_eq_ok_iff, Nat.zero_add]

/-! ### Blanks -/

variable {position : Nat} {previous : Option Token}

theorem scanFrom_eq_ok_iff {cs : List Char} {ts : List Token} :
    scanFrom position previous cs = .ok ts ↔
      (∃ lead pieces, Layout cs lead pieces ∧ pieces.map Prod.fst = ts) ∧
        Fitted (expectsOperand previous) ts ∧ ∀ l, number l ∈ ts → l.IsUnsigned := by
  constructor
  · intro h
    exact ⟨exists_layout_of_scanFrom h, fitted_of_scanFrom h, fun l => isUnsigned_of_scanFrom h⟩
  · rintro ⟨⟨lead, pieces, hlayout, rfl⟩, hfitted, hread⟩
    exact scanFrom_of_layout hlayout hfitted hread

theorem takeWhile_insert {c : Char} {before blanks after : List Char}
    (hblanks : ∀ d ∈ blanks, Text.isBlank d = true) (hc : isNumeral c = true)
    (hapart : ∀ d ∈ (c :: before).getLast?, isNumeral d = true →
      ∀ e ∈ after.head?, isNumeral e = false) :
    (before ++ (blanks ++ after)).takeWhile isNumeral = before.takeWhile isNumeral ∧
      (before ++ (blanks ++ after)).dropWhile isNumeral =
        before.dropWhile isNumeral ++ (blanks ++ after) := by
  refine takeWhile_append_cut fun hrun d hd => ?_
  rw [List.head?_append, Option.mem_def, Option.or_eq_some_iff] at hd
  rcases hd with hd | ⟨-, hd⟩
  · exact isNumeral_of_isBlank (hblanks d (List.mem_of_mem_head? hd))
  · have hlast : (c :: before).getLast? = some (before.getLast?.getD c) := List.getLast?_cons ..
    have hall : ∀ e ∈ c :: before, isNumeral e = true := by
      intro e he
      rcases List.mem_cons.1 he with rfl | he
      · exact hc
      · exact hrun e he
    exact hapart _ hlast (hall _ (List.mem_of_getLast? hlast)) d hd

/-- The two texts scan to the same tokens, whatever comes before them. -/
def ScanAlike (cs cs' : List Char) : Prop :=
  ∀ (position position' : Nat) (previous : Option Token) (ts : List Token),
    scanFrom position previous cs = .ok ts ↔ scanFrom position' previous cs' = .ok ts

theorem ScanAlike.cons {c : Char} {cs cs' : List Char} (h : ScanAlike cs cs')
    (hrun : isNumeral c = true → cs.takeWhile isNumeral = cs'.takeWhile isNumeral ∧
      ScanAlike (cs.dropWhile isNumeral) (cs'.dropWhile isNumeral)) :
    ScanAlike (c :: cs) (c :: cs') := by
  intro position position' previous ts
  rw [scanFrom, scanFrom]
  by_cases hblank : Text.isBlank c = true
  · rw [if_pos hblank, if_pos hblank]
    exact h _ _ _ _
  rw [if_neg hblank, if_neg hblank]
  by_cases hnumeral : isNumeral c = true
  · obtain ⟨htake, hdrop⟩ := hrun hnumeral
    rw [if_pos hnumeral, if_pos hnumeral, htake]
    cases hread : Literal.ofString? (String.ofList (c :: cs'.takeWhile isNumeral)) with
    | none => simp only [hread, reduceCtorEq]
    | some l =>
      simp only [hread]
      exact map_eq_ok_congr (hdrop _ _ _)
  rw [if_neg hnumeral, if_neg hnumeral]
  by_cases hopen : c = '('
  · rw [if_pos hopen, if_pos hopen]
    exact map_eq_ok_congr (h _ _ _)
  rw [if_neg hopen, if_neg hopen]
  by_cases hclose : c = ')'
  · rw [if_pos hclose, if_pos hclose]
    exact map_eq_ok_congr (h _ _ _)
  rw [if_neg hclose, if_neg hclose]
  cases BinaryOp.ofChar? c with
  | none => exact iff_of_false (fun h => by cases h) (fun h => by cases h)
  | some op =>
    dsimp only
    cases operatorAfter previous op with
    | error fault => exact iff_of_false (fun h => by cases h) (fun h => by cases h)
    | ok meant => exact map_eq_ok_congr (h _ _ _)

theorem scanAlike_insert {before blanks after : List Char}
    (hblanks : ∀ c ∈ blanks, Text.isBlank c = true)
    (hapart : ∀ c ∈ before.getLast?, isNumeral c = true → ∀ d ∈ after.head?, isNumeral d = false) :
    ScanAlike (before ++ (blanks ++ after)) (before ++ after) := by
  -- a run of numerals is read at once, so the induction goes on from any suffix of `before`
  induction hlen : before.length using Nat.strong_induction_on generalizing before with
  | _ n ih =>
    cases before with
    | nil =>
      intro position position' previous ts
      rw [List.nil_append, List.nil_append, scanFrom_blanks hblanks, scanFrom_eq_ok_iff,
        scanFrom_eq_ok_iff]
    | cons c before =>
      have hsuffix {rest : List Char} (hrest : rest <:+ before) :
          ScanAlike (rest ++ (blanks ++ after)) (rest ++ after) := by
        have hshort : rest.length < n := by
          have hle := hrest.length_le
          rw [List.length_cons] at hlen
          omega
        refine ih _ hshort (fun d hd => hapart d ?_) rfl
        obtain ⟨run, rfl⟩ := hrest
        rw [List.getLast?_cons, List.getLast?_append, hd]
        rfl
      rw [List.cons_append, List.cons_append]
      refine ScanAlike.cons (hsuffix List.suffix_rfl) fun hnumeral => ?_
      have hnone : ∀ d ∈ ([] : List Char), Text.isBlank d = true :=
        fun d hd => absurd hd List.not_mem_nil
      obtain ⟨htake, hdrop⟩ := takeWhile_insert hblanks hnumeral hapart
      obtain ⟨htake', hdrop'⟩ := takeWhile_insert hnone hnumeral hapart
      rw [List.nil_append] at htake' hdrop'
      rw [htake, hdrop, htake', hdrop']
      exact ⟨rfl, hsuffix (List.dropWhile_suffix _)⟩

/-! ### Texts -/

theorem not_isBlank_of_mem_spelling {t : Token} (h : ∀ l, t = number l → l.IsUnsigned) {c : Char}
    (hc : c ∈ t.spelling) : Text.isBlank c = false := by
  cases hnumber : t.isNumber with
  | false =>
    obtain ⟨d, hd, -, hblank⟩ := spelling_of_not_isNumber hnumber
    rw [hd, List.mem_singleton] at hc
    rw [hc]
    exact hblank
  | true =>
    cases t with
    | number l => exact isBlank_of_isNumeral ((h l rfl).isNumeral_of_mem hc)
    | operator op | lparen | rparen => cases hnumber

theorem Layout.filter_eq {cs lead : List Char} {pieces : List (Token × List Char)}
    (h : Layout cs lead pieces) (hread : ∀ l, number l ∈ pieces.map Prod.fst → l.IsUnsigned) :
    cs.filter (fun c => !Text.isBlank c) = (pieces.map Prod.fst).flatMap spelling := by
  have hdrop {blanks : List Char} (hblanks : ∀ c ∈ blanks, Text.isBlank c = true) :
      blanks.filter (fun c => !Text.isBlank c) = [] := by
    refine List.filter_eq_nil_iff.2 fun c hc => ?_
    rw [hblanks c hc]
    exact Bool.false_ne_true
  have hkeep (t : Token) (ht : t ∈ pieces.map Prod.fst) :
      t.spelling.filter (fun c => !Text.isBlank c) = t.spelling := by
    refine List.filter_eq_self.2 fun c hc => ?_
    rw [not_isBlank_of_mem_spelling (fun l hl => hread l (hl ▸ ht)) hc]
    rfl
  rw [h.text_eq, List.filter_append, hdrop h.blank_lead, List.nil_append, List.filter_flatMap,
    List.flatMap_map]
  refine List.flatMap_congr fun p hp => ?_
  rw [List.filter_append, hdrop (h.blank_after p hp), List.append_nil,
    hkeep p.1 (List.mem_map_of_mem hp)]

theorem isBlankText_insert {text : String} {before blanks after : List Char}
    (htext : text.toList = before ++ after) (hblanks : ∀ c ∈ blanks, Text.isBlank c = true) :
    Text.IsBlankText (String.ofList (before ++ (blanks ++ after))) ↔ Text.IsBlankText text := by
  simp only [Text.IsBlankText, String.toList_ofList, htext, List.forall_mem_append,
    and_iff_right hblanks]

/-- A text scans to `tokens` exactly when it is not blank and lays them out, its numbers are
unsigned literals, an operator is a sign exactly where an operand is expected, and the parentheses
are balanced. Without its blanks such a text is what its tokens are spelled, and blanks that split
no run of numerals can be put in and left out. -/
theorem scan_eq_ok_iff_layout (text : String) (tokens : List Token) :
    (scan text = .ok tokens ↔
      ¬ Text.IsBlankText text ∧
      (∃ lead pieces, Layout text.toList lead pieces ∧ pieces.map Prod.fst = tokens) ∧
      (∀ l, number l ∈ tokens → l.IsUnsigned) ∧ SignsInPlace tokens ∧ Balanced tokens) ∧
    (scan text = .ok tokens →
      text.toList.filter (fun c => !Text.isBlank c) = tokens.flatMap spelling) ∧
    (∀ before blanks after, text.toList = before ++ after →
      (∀ c ∈ blanks, Text.isBlank c = true) →
      (∀ c ∈ before.getLast?, isNumeral c = true → ∀ d ∈ after.head?, isNumeral d = false) →
      (scan (String.ofList (before ++ (blanks ++ after))) = .ok tokens ↔
        scan text = .ok tokens)) := by
  refine ⟨?_, ?_, ?_⟩
  · rw [scan_eq_ok_iff, scanFrom_eq_ok_iff, signsInPlace_iff, balanced_iff, expectsOperand]
    tauto
  · intro h
    obtain ⟨-, hscanned, -⟩ := scan_eq_ok_iff.1 h
    obtain ⟨⟨lead, pieces, hlayout, rfl⟩, -, hread⟩ := scanFrom_eq_ok_iff.1 hscanned
    exact hlayout.filter_eq hread
  · intro before blanks after htext hblanks hapart
    rw [scan_eq_ok_iff, scan_eq_ok_iff, isBlankText_insert htext hblanks, String.toList_ofList,
      htext, scanAlike_insert hblanks hapart 0 0 none tokens]

theorem scan_eq_ok_of_blanks_before_sign :
    scan "2* -.5" = .ok [.number ⟨2, "2"⟩, .operator (.binary .multiply),
        .operator (.sign .negate), .number ⟨1 / 2, ".5"⟩] := by
  have hscan : scan "2*-.5" = .ok [.number ⟨2, "2"⟩, .operator (.binary .multiply),
      .operator (.sign .negate), .number ⟨1 / 2, ".5"⟩] :=
    scan_of_scanFrom (by decide +kernel) (List.cons_ne_nil _ _) rfl
  obtain ⟨-, -, hinsert⟩ := scan_eq_ok_iff_layout "2*-.5" _
  have hblank : ∀ c ∈ [' '], Text.isBlank c = true := List.forall_mem_singleton.2 (by decide)
  have hapart : ∀ c ∈ ['2', '*'].getLast?, isNumeral c = true →
      ∀ d ∈ ['-', '.', '5'].head?, isNumeral d = false := by
    intro c hc hnumeral
    obtain rfl := Option.some.inj hc
    exact absurd hnumeral (by decide)
  exact (hinsert ['2', '*'] [' '] ['-', '.', '5'] rfl hblank hapart).2 hscan

end DeskCalculator.Token
