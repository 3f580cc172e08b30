import DeskCalculator.Proofs.Token.Continuation

/-!
The faults of the characters of a text: a character that is not known, a run of numerals that is no
literal, and an operator that is no sign where only a sign may stand. The scanner reads a text part by
part, so it stops at the leftmost of them, and looks at the parentheses when there is none.
-/
namespace DeskCalculator.Token

variable {position : Nat} {previous : Option Token} {as bs cs : List Char} {ts : List Token}
  {fault : Fault}

/-- No run of numerals goes on from the one text into the other. -/
def Parted (as bs : List Char) : Prop :=
  ∀ a ∈ as.getLast?, isNumeral a = true → ∀ b ∈ bs.head?, isNumeral b = false

theorem parted_singleton {c : Char} (hc : isNumeral c = false) (bs : List Char) :
    Parted [c] bs := by
  intro a ha hnumeral
  have hac : c = a := by simpa using ha
  rw [← hac, hc] at hnumeral
  cases hnumeral

theorem parted_dropWhile (as cs : List Char) : Parted as (cs.dropWhile isNumeral) := by
  intro a _ _ b hb
  have hhead := List.head?_dropWhile_not isNumeral cs
  rwa [Option.mem_def.1 hb] at hhead

theorem Parted.of_cons {c : Char} (h : Parted (c :: as) bs) : Parted as bs := by
  intro a ha
  apply h a
  rw [List.getLast?_cons, Option.mem_def.1 ha]
  rfl

theorem Parted.of_suffix (hsuffix : as <:+ cs) (h : Parted cs bs) : Parted as bs := by
  obtain ⟨front, rfl⟩ := hsuffix
  intro a ha
  apply h a
  rw [List.getLast?_append, ha]
  rfl

theorem Parted.of_append (h : Parted as (bs ++ cs)) : Parted as bs := by
  intro a ha hnumeral b hb
  apply h a ha hnumeral b
  rw [List.head?_append, hb]
  rfl

/-! ### Texts part by part -/

theorem scanFrom_append (h : Parted as bs) :
    scanFrom position previous (as ++ bs) =
      (scanFrom position previous as).bind fun ts =>
        (scanFrom (position + as.length) (ts.getLast?.or previous) bs).map (ts ++ ·) := by
  have hlength (c : Char) (cs : List Char) (position : Nat) :
      position + 1 + cs.length = position + (c :: cs).length := by
    rw [List.length_cons, Nat.add_assoc, Nat.add_comm 1]
  have htoken (r : Except Fault (List Token)) (t : Token) (previous : Option Token) (n : Nat) :
      (r.bind fun ts => (scanFrom n (ts.getLast?.or (some t)) bs).map (ts ++ ·)).map (t :: ·) =
        (r.map (t :: ·)).bind fun ts =>
          (scanFrom n (ts.getLast?.or previous) bs).map (ts ++ ·) := by
    cases r with
    | error fault => rfl
    | ok ts =>
      simp only [Except.bind, Except.map, getLast?_cons_or]
      cases scanFrom n (ts.getLast?.or (some t)) bs <;> rfl
  have hnone : ∀ d ∈ ([] : List Char), Text.isBlank d = true :=
    fun d hd => absurd hd List.not_mem_nil
  fun_induction scanFrom position previous as with
  | case1 position previous => exact (map_nil_append _).symm
  | case2 position previous c cs hblank ih =>
    rw [List.cons_append, scanFrom, if_pos hblank, ih h.of_cons, hlength]
  | case3 position previous c cs hblank hnumeral run hread =>
    obtain ⟨htake, -⟩ := takeWhile_insert hnone hnumeral h
    rw [List.nil_append] at htake
    simp only [run] at hread
    rw [List.cons_append, scanFrom, if_neg hblank, if_pos hnumeral, htake]
    simp only [hread, run]
    rfl
  | case4 position previous c cs hblank hnumeral run l hread =>
    rename_i ih
    obtain ⟨htake, hdrop⟩ := takeWhile_insert hnone hnumeral h
    rw [List.nil_append] at htake hdrop
    have hrest : Parted (cs.dropWhile isNumeral) bs :=
      h.of_cons.of_suffix (List.dropWhile_suffix _)
    have hrun : position + run.length + (cs.dropWhile isNumeral).length =
        position + (c :: cs).length := by
      have hsplit := congrArg List.length (List.takeWhile_append_dropWhile (p := isNumeral) (l := cs))
      rw [List.length_append] at hsplit
      simp only [run, List.length_cons]
      omega
    simp only [run] at hread hrun ih
    rw [List.cons_append, scanFrom, if_neg hblank, if_pos hnumeral, htake, hdrop]
    simp only [hread, run]
    rw [ih hrest, hrun, htoken]
  | case5 position previous cs hblank hnumeral ih =>
    rw [List.cons_append, scanFrom, if_neg hblank, if_neg hnumeral, if_pos rfl, ih h.of_cons,
      hlength '(', htoken]
  | case6 position previous cs hblank hnumeral hopen ih =>
    rw [List.cons_append, scanFrom, if_neg hblank, if_neg hnumeral, if_neg hopen, if_pos rfl,
      ih h.of_cons, hlength ')', htoken]
  | case7 position previous c cs hblank hnumeral hopen hclose hop =>
    rw [List.cons_append, scanFrom, if_neg hblank, if_neg hnumeral, if_neg hopen, if_neg hclose,
      hop]
    rfl
  | case8 position previous c cs hblank hnumeral hopen hclose op hop other hafter =>
    rw [List.cons_append, scanFrom, if_neg hblank, if_neg hnumeral, if_neg hopen, if_neg hclose,
      hop]
    simp only [hafter]
    rfl
  | case9 position previous c cs hblank hnumeral hopen hclose op hop meant hafter ih =>
    rw [List.cons_append, scanFrom, if_neg hblank, if_neg hnumeral, if_neg hopen, if_neg hclose,
      hop]
    simp only [hafter]
    rw [ih h.of_cons, hlength c, htoken]

/-! ### Where the scanner stops -/

/-- The text begins with a fault: a character that is not known, a run of numerals that is no literal,
or an operator that is no sign while an operand is expected. -/
inductive Opens (position : Nat) (expecting : Bool) : List Char → Fault → Prop
  | character {c : Char} (hc : ¬ IsKnown c) (after : List Char) :
      Opens position expecting (c :: after) (.unexpectedCharacter c position)
  | literal {run after : List Char} (hne : run ≠ []) (hrun : ∀ c ∈ run, isNumeral c = true)
      (hend : ∀ c ∈ after.head?, isNumeral c = false)
      (hread : Literal.ofString? (String.ofList run) = none) :
      Opens position expecting (run ++ after) (.invalidLiteral (String.ofList run))
  | operator {op : BinaryOp} (hop : op = .multiply ∨ op = .divide ∨ op = .power)
      (hexpects : expecting = true) (after : List Char) :
      Opens position expecting (op.char :: after) (.unsupportedOperator op.symbol)

theorem Opens.scanFrom_eq (h : Opens position (expectsOperand previous) cs fault) :
    scanFrom position previous cs = .error fault := by
  cases h with
  | @character c hc after =>
    have hblank : ¬ Text.isBlank c = true := fun h => hc (.inl h)
    have hnumeral : ¬ isNumeral c = true := fun h => hc (.inr (.inl h))
    have hopen : ¬ c = '(' := fun h => hc (.inr (.inr (.inl h)))
    have hclose : ¬ c = ')' := fun h => hc (.inr (.inr (.inr (.inl h))))
    have hop : BinaryOp.ofChar? c = none :=
      Option.eq_none_iff_forall_ne_some.2 fun op h => hc (.inr (.inr (.inr (.inr ⟨op, h⟩))))
    rw [scanFrom, if_neg hblank, if_neg hnumeral, if_neg hopen, if_neg hclose, hop]
  | @literal run after hne hrun hend hread =>
    obtain ⟨c, ds, rfl⟩ := List.exists_cons_of_ne_nil hne
    obtain ⟨hc, hds⟩ := List.forall_mem_cons.1 hrun
    have hblank : ¬ Text.isBlank c = true := Bool.eq_false_iff.1 (isBlank_of_isNumeral hc)
    obtain ⟨htake, -⟩ := takeWhile_append_cut fun _ : ∀ d ∈ ds, isNumeral d = true => hend
    rw [List.takeWhile_eq_self_iff.2 hds] at htake
    rw [List.cons_append, scanFrom, if_neg hblank, if_pos hc, htake]
    simp only [hread]
  | @operator op hop hexpects after =>
    have hblank : ¬ Text.isBlank op.char = true := Bool.eq_false_iff.1 (isBlank_char op)
    have hnumeral : ¬ isNumeral op.char = true := Bool.eq_false_iff.1 (isNumeral_char op)
    obtain ⟨hopen, hclose⟩ := char_ne_paren op
    have hafter : operatorAfter previous op = .error (.unsupportedOperator op.symbol) := by
      rw [operatorAfter, if_pos hexpects]
      obtain rfl | rfl | rfl := hop
      all_goals decide
    rw [scanFrom, if_neg hblank, if_neg hnumeral, if_neg hopen, if_neg hclose,
      BinaryOp.ofChar?_char]
    simp only [hafter]

theorem opens_of_operatorAfter {op : BinaryOp} (h : operatorAfter previous op = .error fault)
    (after : List Char) : Opens position (expectsOperand previous) (op.char :: after) fault := by
  unfold operatorAfter at h
  split at h
  · rename_i hexpects
    cases op with
    | add | subtract => cases h
    | multiply => exact Except.error.inj h ▸ .operator (.inl rfl) hexpects after
    | divide => exact Except.error.inj h ▸ .operator (.inr (.inl rfl)) hexpects after
    | power => exact Except.error.inj h ▸ .operator (.inr (.inr rfl)) hexpects after
  · cases h

structure StopsAt (position : Nat) (previous : Option Token) (before rest : List Char)
    (fault : Fault) : Prop where
  parted : Parted before rest
  reads : ∃ read, scanFrom position previous before = .ok read ∧
    Opens (position + before.length) (expectsOperand (read.getLast?.or previous)) rest fault

theorem StopsAt.start (h : Opens position (expectsOperand previous) cs fault) :
    StopsAt position previous [] cs fault :=
  ⟨nofun, [], by rw [scanFrom], h⟩

theorem StopsAt.after {front before rest : List Char} {read : List Token}
    (hfront : scanFrom position previous front = .ok read) (hparted : Parted front (before ++ rest))
    (h : StopsAt (position + front.length) (read.getLast?.or previous) before rest fault) :
    StopsAt position previous (front ++ before) rest fault := by
  obtain ⟨hrest, more, hmore, hopens⟩ := h
  refine ⟨?_, read ++ more, ?_, ?_⟩
  · cases before with
    | nil => simpa using hparted
    | cons c before =>
      intro a ha
      apply hrest a
      simpa [List.getLast?_append] using ha
  · rw [scanFrom_append hparted.of_append, hfront]
    simp only [Except.bind, hmore]
    rfl
  · have hlength : position + (front ++ before).length =
        position + front.length + before.length := by
      rw [List.length_append, Nat.add_assoc]
    rw [hlength, List.getLast?_append, Option.or_assoc]
    exact hopens

theorem scanFrom_spelling {t : Token} (hfits : Fitted (expectsOperand previous) [t])
    (hread : ∀ l, t = number l → l.IsUnsigned) :
    scanFrom position previous t.spelling = .ok [t] := by
  have hone : scanFrom position previous (t.spelling ++ []) =
      (scanFrom (position + t.spelling.length) (some t) []).map (t :: ·) :=
    scanFrom_token hfits hread fun _ => nofun
  rwa [List.append_nil, scanFrom] at hone

theorem exists_stopsAt_token {t : Token} {tail : List Char}
    (hfits : Fitted (expectsOperand previous) [t]) (hread : ∀ l, t = number l → l.IsUnsigned)
    (hparted : Parted t.spelling tail)
    (h : ∃ before rest, tail = before ++ rest ∧
      StopsAt (position + t.spelling.length) (some t) before rest fault) :
    ∃ before rest, t.spelling ++ tail = before ++ rest ∧
      StopsAt position previous before rest fault := by
  obtain ⟨before, rest, rfl, hstops⟩ := h
  have hspelling : scanFrom position previous t.spelling = .ok [t] := scanFrom_spelling hfits hread
  exact ⟨t.spelling ++ before, rest, (List.append_assoc ..).symm, hstops.after hspelling hparted⟩

theorem exists_stopsAt (h : scanFrom position previous cs = .error fault) :
    ∃ before rest, cs = before ++ rest ∧ StopsAt position previous before rest fault := by
  have hnil (expecting : Bool) : Fitted expecting [] := .nil expecting
  fun_induction scanFrom position previous cs with
  | case1 => cases h
  | case2 position previous c cs hblank ih =>
    obtain ⟨before, rest, rfl, hstops⟩ := ih h
    have hread : scanFrom position previous [c] = .ok [] :=
      scanFrom_of_blank (List.forall_mem_singleton.2 hblank)
    have hparted := parted_singleton (isNumeral_of_isBlank hblank) (before ++ rest)
    exact ⟨c :: before, rest, rfl, hstops.after hread hparted⟩
  | case3 position previous c cs hblank hnumeral run hread =>
    obtain rfl := Except.error.inj h
    have hrun : ∀ d ∈ run, isNumeral d = true :=
      List.forall_mem_cons.2 ⟨hnumeral, List.all_eq_true.1 List.all_takeWhile⟩
    have hend : ∀ d ∈ (cs.dropWhile isNumeral).head?, isNumeral d = false :=
      parted_dropWhile [c] cs c rfl hnumeral
    have hsplit : c :: cs = run ++ cs.dropWhile isNumeral :=
      congrArg (c :: ·) List.takeWhile_append_dropWhile.symm
    rw [hsplit]
    exact ⟨[], _, rfl, .start (.literal (List.cons_ne_nil c _) hrun hend hread)⟩
  | case4 position previous c cs hblank hnumeral run l hread =>
    rename_i ih
    have hrun : run = (number l).spelling := by
      rw [spelling, (Literal.ofString?_eq_some.1 hread).2, String.toList_ofList]
    have hnumerals : ∀ d ∈ run, isNumeral d = true :=
      List.forall_mem_cons.2 ⟨hnumeral, List.all_eq_true.1 List.all_takeWhile⟩
    have hunsigned : l.IsUnsigned := by
      rw [hrun] at hnumerals
      exact Literal.isUnsigned_of_numerals (Literal.isRead_of_ofString? hread) hnumerals
    have hsplit : c :: cs = (number l).spelling ++ cs.dropWhile isNumeral := by
      rw [← hrun]
      exact congrArg (c :: ·) List.takeWhile_append_dropWhile.symm
    have hrest := ih (map_eq_error.1 h)
    rw [hrun] at hrest
    rw [hsplit]
    exact exists_stopsAt_token (.number l (hnil false)) (fun _ hl => Token.number.inj hl ▸ hunsigned)
      (parted_dropWhile _ cs) hrest
  | case5 position previous cs hblank hnumeral ih =>
    exact exists_stopsAt_token (t := lparen) (.lparen (hnil true)) (by simp)
      (parted_singleton (by decide) cs) (ih (map_eq_error.1 h))
  | case6 position previous cs hblank hnumeral hopen ih =>
    exact exists_stopsAt_token (t := rparen) (.rparen (hnil false)) (by simp)
      (parted_singleton (by decide) cs) (ih (map_eq_error.1 h))
  | case7 position previous c cs hblank hnumeral hopen hclose hop =>
    obtain rfl := Except.error.inj h
    have hc : ¬ IsKnown c := by
      rintro (hc | hc | hc | hc | ⟨op, hc⟩)
      · exact hblank hc
      · exact hnumeral hc
      · exact hopen hc
      · exact hclose hc
      · rw [hop] at hc
        cases hc
    exact ⟨[], c :: cs, rfl, .start (.character hc cs)⟩
  | case8 position previous c cs hblank hnumeral hopen hclose op hop other hafter =>
    obtain rfl := char_of_ofChar? hop
    obtain rfl := Except.error.inj h
    exact ⟨[], op.char :: cs, rfl, .start (opens_of_operatorAfter hafter cs)⟩
  | case9 position previous c cs hblank hnumeral hopen hclose op hop meant hafter ih =>
    obtain rfl := char_of_ofChar? hop
    have hspelling : (operator meant).spelling = [op.char] := spelling_of_operatorAfter hafter
    have hrest := ih (map_eq_error.1 h)
    have hparted : Parted (operator meant).spelling cs := by
      rw [hspelling]
      exact parted_singleton (isNumeral_char op) cs
    have hone : position + (operator meant).spelling.length = position + 1 :=
      congrArg (position + List.length ·) hspelling
    rw [← hone] at hrest
    have hstops :=
      exists_stopsAt_token (fitted_operator hafter (hnil true)) (by simp) hparted hrest
    rwa [hspelling] at hstops

/-! ### The leftmost fault -/

/-- An operand is expected after the text: its last character, blanks left out, is an opening
parenthesis or an operator, or there is none. -/
def awaitsOperand (before : List Char) : Bool :=
  match (before.filter fun c => !Text.isBlank c).getLast? with
  | none => true
  | some c => c == '(' || (BinaryOp.ofChar? c).isSome

def FaultAt (cs : List Char) (i : Nat) (fault : Fault) : Prop :=
  Parted (cs.take i) (cs.drop i) ∧ Opens i (awaitsOperand (cs.take i)) (cs.drop i) fault

def IsLeftmost (cs : List Char) (i : Nat) (fault : Fault) : Prop :=
  FaultAt cs i fault ∧ ∀ j other, FaultAt cs j other → i ≤ j

theorem faultAt_append_iff {before rest : List Char} :
    FaultAt (before ++ rest) before.length fault ↔
      Parted before rest ∧ Opens before.length (awaitsOperand before) rest fault := by
  rw [FaultAt, List.take_left, List.drop_left]

theorem awaitsOperand_of_scanFrom (h : scanFrom position none cs = .ok ts) :
    awaitsOperand cs = expectsOperand ts.getLast? := by
  rw [awaitsOperand, filter_eq_of_scanFrom h]
  cases ts using List.reverseRecOn with
  | nil => rfl
  | append_singleton us t =>
    have hread : ∀ l, t = number l → l.IsUnsigned := by
      rintro l rfl
      exact isUnsigned_of_scanFrom h (List.mem_append_right us (List.mem_singleton_self _))
    have hlast : ((us ++ [t]).flatMap spelling).getLast? = t.spelling.getLast? := by
      have hne := spelling_ne_nil hread
      rw [List.flatMap_append, List.flatMap_singleton, List.getLast?_append_of_ne_nil _ hne]
    rw [hlast, List.getLast?_concat]
    rcases t with l | (s | op) | _ | _
    · have hl := hread l rfl
      cases hc : (number l).spelling.getLast? with
      | none => exact absurd (List.getLast?_eq_none_iff.1 hc) (spelling_ne_nil hread)
      | some c =>
        have hnumeral := hl.isNumeral_of_mem (List.mem_of_mem_getLast? hc)
        have hopen : (c == '(') = false := by
          rw [beq_eq_false_iff_ne]
          rintro rfl
          cases hnumeral
        simp [expectsOperand, hopen, ofChar?_of_isNumeral hnumeral]
    · cases s <;> decide
    · cases op <;> decide
    · rfl
    · rfl

theorem exists_expectsOperand_eq (expecting : Bool) :
    ∃ previous, expectsOperand previous = expecting := by
  cases expecting with
  | true => exact ⟨none, rfl⟩
  | false => exact ⟨some rparen, rfl⟩

theorem FaultAt.unique {i : Nat} {other : Fault} (h : FaultAt cs i fault)
    (h' : FaultAt cs i other) : fault = other := by
  obtain ⟨previous, hprevious⟩ := exists_expectsOperand_eq (awaitsOperand (cs.take i))
  obtain ⟨-, hopens⟩ := h
  obtain ⟨-, hopens'⟩ := h'
  rw [← hprevious] at hopens hopens'
  have hsame := hopens.scanFrom_eq.symm.trans hopens'.scanFrom_eq
  exact Except.error.inj hsame

theorem FaultAt.lt_length {i : Nat} (h : FaultAt cs i fault) : i < cs.length := by
  by_contra hle
  obtain ⟨-, hopens⟩ := h
  have hempty : cs.drop i = [] := List.drop_eq_nil_iff.2 (not_lt.1 hle)
  rw [hempty] at hopens
  obtain ⟨previous, hprevious⟩ := exists_expectsOperand_eq (awaitsOperand (cs.take i))
  rw [← hprevious] at hopens
  have hread := hopens.scanFrom_eq
  rw [scanFrom] at hread
  cases hread

theorem FaultAt.length_take {i : Nat} (h : FaultAt cs i fault) : (cs.take i).length = i :=
  List.length_take_of_le h.lt_length.le

theorem not_faultAt_of_scanFrom (h : scanFrom 0 none cs = .ok ts) (i : Nat) (fault : Fault) :
    ¬ FaultAt cs i fault := by
  intro hfault
  have hlength := hfault.length_take
  obtain ⟨hparted, hopens⟩ := hfault
  rw [← List.take_append_drop i cs, scanFrom_append hparted] at h
  obtain ⟨read, hread, hrest⟩ := bind_eq_ok.1 h
  obtain ⟨rest, hrest, -⟩ := map_eq_ok.1 hrest
  rw [awaitsOperand_of_scanFrom hread] at hopens
  rw [Nat.zero_add, hlength, Option.or_none, hopens.scanFrom_eq] at hrest
  cases hrest

theorem Opens.of_append {i : Nat} {expecting : Bool} (h : Opens i expecting (as ++ bs) fault)
    (hne : as ≠ []) (hparted : Parted as bs) : Opens i expecting as fault := by
  obtain ⟨c, as, rfl⟩ := List.exists_cons_of_ne_nil hne
  generalize hsplit : c :: as ++ bs = cs at h
  cases h with
  | character hc after =>
    obtain ⟨rfl, -⟩ := List.cons.inj hsplit
    exact .character hc as
  | operator hop hexpects after =>
    obtain ⟨rfl, -⟩ := List.cons.inj hsplit
    exact .operator hop hexpects as
  | @literal run after hrunne hrun hend hread =>
    rcases List.append_eq_append_iff.1 hsplit with ⟨more, rfl, rfl⟩ | ⟨rest, hrest, rfl⟩
    · cases more with
      | nil =>
        rw [List.append_nil] at hrunne hrun hread ⊢
        have hliteral : Opens i expecting (c :: as ++ []) _ :=
          .literal hrunne hrun nofun hread
        rwa [List.append_nil] at hliteral
      | cons d more =>
        -- the run would go on from the one text into the other
        obtain ⟨hfront, hmore⟩ := List.forall_mem_append.1 hrun
        have hd : isNumeral d = true := hmore d (List.mem_cons_self ..)
        have hlast : (c :: as).getLast? = some (as.getLast?.getD c) := List.getLast?_cons ..
        have hend := hparted _ hlast (hfront _ (List.mem_of_getLast? hlast)) d rfl
        rw [hend] at hd
        cases hd
    · rw [hrest]
      refine .literal hrunne hrun (fun d hd => hend d ?_) hread
      rw [List.head?_append, hd]
      rfl

theorem FaultAt.of_append {i : Nat} (h : FaultAt (as ++ bs) i fault) (hi : i < as.length)
    (hparted : Parted as bs) : FaultAt as i fault := by
  obtain ⟨hfront, hopens⟩ := h
  rw [List.take_append_of_le_length hi.le, List.drop_append_of_le_length hi.le] at hfront hopens
  have hne : as.drop i ≠ [] := by simpa using hi
  have hrest : Parted (as.drop i) bs := hparted.of_suffix (List.drop_suffix i as)
  exact ⟨hfront.of_append, hopens.of_append hne hrest⟩

variable {before rest : List Char}

theorem StopsAt.scanFrom_eq (h : StopsAt position previous before rest fault) :
    scanFrom position previous (before ++ rest) = .error fault := by
  obtain ⟨hparted, read, hread, hopens⟩ := h
  rw [scanFrom_append hparted, hread]
  simp only [Except.bind, hopens.scanFrom_eq]
  rfl

theorem StopsAt.isLeftmost (h : StopsAt 0 none before rest fault) :
    IsLeftmost (before ++ rest) before.length fault := by
  obtain ⟨hparted, read, hread, hopens⟩ := h
  constructor
  · rw [Nat.zero_add, Option.or_none, ← awaitsOperand_of_scanFrom hread] at hopens
    exact faultAt_append_iff.2 ⟨hparted, hopens⟩
  · intro j other hother
    by_contra hlt
    exact not_faultAt_of_scanFrom hread j other (hother.of_append (not_le.1 hlt) hparted)

theorem scanFrom_eq_error_iff :
    scanFrom 0 none cs = .error fault ↔ ∃ i, IsLeftmost cs i fault := by
  constructor
  · intro h
    obtain ⟨before, rest, rfl, hstops⟩ := exists_stopsAt h
    exact ⟨before.length, hstops.isLeftmost⟩
  · rintro ⟨i, hfault, hfirst⟩
    cases hscan : scanFrom 0 none cs with
    | ok ts => exact absurd hfault (not_faultAt_of_scanFrom hscan i fault)
    | error other =>
      obtain ⟨before, rest, rfl, hstops⟩ := exists_stopsAt hscan
      obtain ⟨hother, hfirst'⟩ := hstops.isLeftmost
      have hi : i = before.length := le_antisymm (hfirst _ other hother) (hfirst' i fault hfault)
      rw [hi] at hfault
      rw [hother.unique hfault]

theorem StopsAt.replace {part after : List Char}
    (h : StopsAt position previous before (part ++ after) fault) (hne : part ≠ [])
    (hliteral : ∀ text, fault ≠ .invalidLiteral text) (more : List Char) :
    StopsAt position previous before (part ++ more) fault := by
  obtain ⟨hparted, read, hread, hopens⟩ := h
  obtain ⟨c, part, rfl⟩ := List.exists_cons_of_ne_nil hne
  refine ⟨hparted, read, hread, ?_⟩
  generalize hsplit : c :: part ++ after = cs at hopens
  cases hopens with
  | character hc after =>
    obtain ⟨rfl, -⟩ := List.cons.inj hsplit
    exact .character hc _
  | operator hop hexpects after =>
    obtain ⟨rfl, -⟩ := List.cons.inj hsplit
    exact .operator hop hexpects _
  | literal hrunne hrun hend hread => exact absurd rfl (hliteral _)

/-! ### Parentheses -/

def paren? (c : Char) : Option Token :=
  if c = '(' then some lparen else if c = ')' then some rparen else none

def parens (cs : List Char) : List Token :=
  cs.filterMap paren?

theorem checkParensFrom_filter (depth : Nat) (ts : List Token) :
    checkParensFrom depth (ts.filter isParen) = checkParensFrom depth ts := by
  induction ts generalizing depth with
  | nil => rfl
  | cons t ts ih =>
    cases t with
    | number l | operator op => exact ih depth
    | lparen => exact ih (depth + 1)
    | rparen =>
      cases depth with
      | zero => rfl
      | succ outer => exact ih outer

theorem parens_spelling {t : Token} (hread : ∀ l, t = number l → l.IsUnsigned) :
    parens t.spelling = if t.isParen then [t] else [] := by
  rcases t with l | (s | op) | _ | _
  · have hnone : parens l.text.toList = [] := by
      refine List.filterMap_eq_nil_iff.2 fun c hc => ?_
      have hnumeral := (hread l rfl).isNumeral_of_mem hc
      have hopen : c ≠ '(' := by
        rintro rfl
        cases hnumeral
      have hclose : c ≠ ')' := by
        rintro rfl
        cases hnumeral
      rw [paren?, if_neg hopen, if_neg hclose]
    exact hnone
  · cases s <;> rfl
  · cases op <;> rfl
  · rfl
  · rfl

theorem parens_eq_of_scanFrom (h : scanFrom position previous cs = .ok ts) :
    parens cs = ts.filter isParen := by
  have hblank : parens cs = parens (cs.filter fun c => !Text.isBlank c) := by
    rw [parens, parens, List.filterMap_filter]
    refine List.filterMap_congr fun c _ => ?_
    cases hc : Text.isBlank c with
    | false => rfl
    | true =>
      have hopen : c ≠ '(' := by
        rintro rfl
        exact absurd hc (by decide)
      have hclose : c ≠ ')' := by
        rintro rfl
        exact absurd hc (by decide)
      simp [paren?, hopen, hclose]
  have hread (t : Token) (ht : t ∈ ts) : parens t.spelling = if t.isParen then [t] else [] :=
    parens_spelling fun l hl => isUnsigned_of_scanFrom h (hl ▸ ht)
  rw [hblank, filter_eq_of_scanFrom h, parens, List.filterMap_flatMap, ← List.filterMap_eq_filter,
    List.filterMap_eq_flatMap_toList]
  refine List.flatMap_congr fun t ht => (hread t ht).trans ?_
  cases t <;> rfl

theorem checkParens_of_scanFrom (h : scanFrom position previous cs = .ok ts) :
    checkParens (parens cs) = checkParens ts := by
  rw [parens_eq_of_scanFrom h]
  exact checkParensFrom_filter 0 ts

/-! ### Texts -/

theorem scan_eq_error_iff {text : String} (hblank : ¬ Text.IsBlankText text) :
    scan text = .error fault ↔
      scanFrom 0 none text.toList = .error fault ∨
        ∃ tokens cause, scanFrom 0 none text.toList = .ok tokens ∧
          checkParens tokens = .error cause ∧ fault = .scannedParens cause := by
  rw [scan, if_neg hblank]
  cases scanFrom 0 none text.toList with
  | error other => simp
  | ok tokens =>
    cases hparens : checkParens tokens with
    | error cause => simp [hparens, eq_comm]
    | ok _ => simp [hparens]

theorem scan_of_scanFrom_error {text : String} (h : scanFrom 0 none text.toList = .error fault) :
    scan text = .error fault := by
  have hblank : ¬ Text.IsBlankText text := by
    intro hblank
    rw [scanFrom_of_blank hblank] at h
    cases h
  exact (scan_eq_error_iff hblank).2 (.inl h)

/-- A text that is not blank fails for the leftmost fault of its characters: an unknown character
with its index, a run of numerals that is no literal, or an operator that is no sign where an operand
is expected. It fails for its parentheses when its characters have no fault. A character or an operator
is reported alike whatever the text goes on with. -/
theorem scan_reports_leftmost (text : String) (hblank : ¬ Text.IsBlankText text) (fault : Fault) :
    (scan text = .error fault ↔
      (∃ i, IsLeftmost text.toList i fault) ∨
        (∀ i other, ¬ FaultAt text.toList i other) ∧
          ∃ cause, checkParens (parens text.toList) = .error cause ∧
            fault = .scannedParens cause) ∧
    (∀ i before after, IsLeftmost text.toList i fault → (∀ run, fault ≠ .invalidLiteral run) →
      text.toList = before ++ after → i < before.length →
        ∀ more, scan (String.ofList (before ++ more)) = .error fault) := by
  constructor
  · rw [scan_eq_error_iff hblank, scanFrom_eq_error_iff]
    refine or_congr_right ⟨?_, ?_⟩
    · rintro ⟨tokens, cause, hscan, hparens, rfl⟩
      rw [← checkParens_of_scanFrom hscan] at hparens
      exact ⟨not_faultAt_of_scanFrom hscan, cause, hparens, rfl⟩
    · rintro ⟨hnone, cause, hparens, rfl⟩
      cases hscan : scanFrom 0 none text.toList with
      | error other =>
        obtain ⟨i, hfault, -⟩ := scanFrom_eq_error_iff.1 hscan
        exact absurd hfault (hnone i other)
      | ok tokens =>
        rw [checkParens_of_scanFrom hscan] at hparens
        exact ⟨tokens, cause, rfl, hparens, rfl⟩
  · intro i before after hleft hliteral htext hi more
    obtain ⟨front, rest, hsplit, hstops⟩ := exists_stopsAt (scanFrom_eq_error_iff.2 ⟨i, hleft⟩)
    have hfront := hstops.isLeftmost
    rw [← hsplit] at hfront
    have hlength : front.length = i :=
      le_antisymm (hfront.2 i fault hleft.1) (hleft.2 _ fault hfront.1)
    -- the fault begins within `before`
    obtain ⟨part, rfl⟩ : front <+: before :=
      List.prefix_of_prefix_length_le ⟨rest, hsplit.symm⟩ ⟨after, htext.symm⟩ (by omega)
    have hrest : rest = part ++ after := by
      rw [hsplit, List.append_assoc] at htext
      exact List.append_cancel_left htext
    have hpart : part ≠ [] := by
      rintro rfl
      simp [hlength] at hi
    rw [hrest] at hstops
    have hmore := (hstops.replace hpart hliteral more).scanFrom_eq
    apply scan_of_scanFrom_error
    rw [String.toList_ofList, List.append_assoc]
    exact hmore

theorem scan_reports_leftmost_of_three :
    scan "(1.5 - * 2.3.4 & 5" = .error (.unsupportedOperator "*") ∧
    ∀ more, scan (String.ofList ("(1.5 - *".toList ++ more)) = .error (.unsupportedOperator "*") := by
  have hscan : scan "(1.5 - * 2.3.4 & 5" = .error (.unsupportedOperator "*") := by decide +kernel
  have hblank : ¬ Text.IsBlankText "(1.5 - * 2.3.4 & 5" := by decide
  obtain ⟨hreports, hprefix⟩ :=
    scan_reports_leftmost "(1.5 - * 2.3.4 & 5" hblank (.unsupportedOperator "*")
  have hfault : FaultAt "(1.5 - * 2.3.4 & 5".toList 7 (.unsupportedOperator "*") := by
    have hparted : Parted "(1.5 - ".toList "* 2.3.4 & 5".toList :=
      fun _ _ _ b hb => Option.some.inj hb ▸ isNumeral_char .multiply
    have hopens : Opens 7 true (BinaryOp.multiply.char :: " 2.3.4 & 5".toList)
        (.unsupportedOperator BinaryOp.multiply.symbol) :=
      .operator (.inl rfl) rfl _
    exact ⟨hparted, hopens⟩
  obtain ⟨i, hleft⟩ | ⟨hnone, -⟩ := hreports.1 hscan
  · have hi : i < "(1.5 - *".toList.length := Nat.lt_succ_of_le (hleft.2 7 _ hfault)
    exact ⟨hscan, hprefix i "(1.5 - *".toList " 2.3.4 & 5".toList hleft nofun rfl hi⟩
  · exact absurd hfault (hnone 7 _)

end DeskCalculator.Token
