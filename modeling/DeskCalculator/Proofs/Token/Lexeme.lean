import DeskCalculator.Proofs.Token.Layout
import Mathlib.Data.List.SplitBy

/-!
Lexemes: the runs of numerals of a text, and every other character by itself, blanks left out. As
long as all characters are known to it, the scanner reads a text lexeme by lexeme; so texts with the
same lexemes are read alike, whatever blanks they have.
-/
namespace DeskCalculator.Token

def joins (a b : Char) : Bool :=
  isNumeral a && isNumeral b

def lexemes (cs : List Char) : List (List Char) :=
  (cs.splitBy joins).filter fun w => !w.all Text.isBlank

variable {as bs cs : List Char} {c : Char}

/-! ### Texts part by part -/

theorem lexemes_nil : lexemes [] = [] := rfl

theorem lexemes_append (h : ∀ a ∈ as.getLast?, ∀ b ∈ bs.head?, joins a b = false) :
    lexemes (as ++ bs) = lexemes as ++ lexemes bs := by
  rw [lexemes, List.splitBy_append h, List.filter_append]
  rfl

theorem lexemes_eq_nil_iff : lexemes cs = [] ↔ ∀ c ∈ cs, Text.isBlank c = true := by
  have hflat := List.flatten_splitBy joins cs
  have hblank : lexemes cs = [] ↔ ∀ w ∈ cs.splitBy joins, ∀ c ∈ w, Text.isBlank c = true := by
    simp [lexemes]
  rw [hblank]
  constructor
  · intro h c hc
    rw [← hflat] at hc
    obtain ⟨w, hw, hc⟩ := List.mem_flatten.1 hc
    exact h w hw c hc
  · intro h w hw c hc
    apply h
    rw [← hflat]
    exact List.mem_flatten.2 ⟨w, hw, hc⟩

theorem lexemes_eq_singleton (hword : Text.IsWord cs)
    (hjoins : cs.IsChain fun a b => joins a b = true) : lexemes cs = [cs] := by
  have hkeep : (!cs.all Text.isBlank) = true := by
    obtain ⟨c, hc⟩ := List.exists_mem_of_ne_nil cs hword.ne_nil
    simpa using ⟨c, hc, hword.not_blank c hc⟩
  rw [lexemes, List.splitBy_of_isChain hword.ne_nil hjoins, List.filter_cons, if_pos hkeep]
  rfl

theorem lexemes_append_cons (hc : isNumeral c = false) (as bs : List Char) :
    lexemes (as ++ c :: bs) = lexemes as ++ lexemes [c] ++ lexemes bs := by
  have hright : lexemes ([c] ++ bs) = lexemes [c] ++ lexemes bs := by
    apply lexemes_append
    intro a ha b hb
    obtain rfl := Option.some.inj ha
    simp [joins, hc]
  have hleft : lexemes (as ++ c :: bs) = lexemes as ++ lexemes (c :: bs) := by
    apply lexemes_append
    intro a ha b hb
    obtain rfl := Option.some.inj hb
    simp [joins, hc]
  rw [hleft, ← List.singleton_append, hright, List.append_assoc]

theorem lexemes_append_blank (hc : Text.isBlank c = true) (as bs : List Char) :
    lexemes (as ++ c :: bs) = lexemes as ++ lexemes bs := by
  have hnone : lexemes [c] = [] := lexemes_eq_nil_iff.2 (by simpa using hc)
  rw [lexemes_append_cons (isNumeral_of_isBlank hc), hnone, List.append_nil]

theorem lexemes_append_symbol (hnumeral : isNumeral c = false) (hblank : Text.isBlank c = false)
    (as bs : List Char) :
    lexemes (as ++ c :: bs) = lexemes as ++ [c] :: lexemes bs := by
  have hone : lexemes [c] = [[c]] :=
    lexemes_eq_singleton ⟨List.cons_ne_nil c [], by simpa using hblank⟩ (.singleton c)
  rw [lexemes_append_cons hnumeral, hone, List.append_assoc]
  rfl

theorem lexemes_blanks_append (h : ∀ c ∈ as, Text.isBlank c = true) :
    lexemes (as ++ bs) = lexemes bs := by
  induction as with
  | nil => rfl
  | cons c as ih =>
    obtain ⟨hc, has⟩ := List.forall_mem_cons.1 h
    have hskip : lexemes (c :: (as ++ bs)) = lexemes (as ++ bs) :=
      lexemes_append_blank hc [] (as ++ bs)
    exact hskip.trans (ih has)

theorem lexemes_append_blanks (h : ∀ c ∈ bs, Text.isBlank c = true) :
    lexemes (as ++ bs) = lexemes as := by
  cases bs with
  | nil => rw [List.append_nil]
  | cons c bs =>
    obtain ⟨hc, hbs⟩ := List.forall_mem_cons.1 h
    rw [lexemes_append_blank hc, lexemes_eq_nil_iff.2 hbs, List.append_nil]

theorem lexemes_numeral_cons (hc : isNumeral c = true) :
    lexemes (c :: cs) = (c :: cs.takeWhile isNumeral) :: lexemes (cs.dropWhile isNumeral) := by
  have hrun : ∀ d ∈ c :: cs.takeWhile isNumeral, isNumeral d = true :=
    List.forall_mem_cons.2 ⟨hc, List.all_eq_true.1 List.all_takeWhile⟩
  have hone : lexemes (c :: cs.takeWhile isNumeral) = [c :: cs.takeWhile isNumeral] := by
    apply lexemes_eq_singleton
    · exact ⟨List.cons_ne_nil c _, fun d hd => isBlank_of_isNumeral (hrun d hd)⟩
    · apply List.Pairwise.isChain
      apply List.pairwise_of_forall_mem_list
      intro a ha b hb
      simp [joins, hrun a ha, hrun b hb]
  have hcut : lexemes ((c :: cs.takeWhile isNumeral) ++ cs.dropWhile isNumeral) =
      lexemes (c :: cs.takeWhile isNumeral) ++ lexemes (cs.dropWhile isNumeral) := by
    apply lexemes_append
    intro a _ b hb
    have hend : isNumeral b = false := by
      have hhead := List.head?_dropWhile_not isNumeral cs
      rwa [Option.mem_def.1 hb] at hhead
    simp [joins, hend]
  rw [hone, List.cons_append, List.takeWhile_append_dropWhile] at hcut
  exact hcut

theorem lexemes_trim (cs : List Char) : lexemes (Text.trim cs) = lexemes cs := by
  obtain ⟨front, back, hfront, hback, hcs⟩ := Text.exists_blanks_trim cs
  conv_rhs => rw [hcs]
  rw [lexemes_blanks_append hfront, lexemes_append_blanks hback]

/-- No continuation tells the two beginnings of a text apart. -/
def Alike (as bs : List Char) : Prop :=
  ∀ rest, lexemes (as ++ rest) = lexemes (bs ++ rest)

namespace Alike

theorem refl (as : List Char) : Alike as as := fun _ => rfl

theorem symm (h : Alike as bs) : Alike bs as := fun rest => (h rest).symm

theorem trans (h : Alike as bs) (h' : Alike bs cs) : Alike as cs :=
  fun rest => (h rest).trans (h' rest)

theorem append (h : Alike as bs) (cs : List Char) : Alike (as ++ cs) (bs ++ cs) := by
  intro rest
  rw [List.append_assoc, List.append_assoc]
  exact h (cs ++ rest)

theorem lexemes_eq (h : Alike as bs) : lexemes as = lexemes bs := by
  have hend := h []
  rwa [List.append_nil, List.append_nil] at hend

end Alike

/-! ### Reading -/

def readLexeme (previous : Option Token) (w : List Char) : Except Fault Token :=
  if w = ['('] then .ok lparen
  else if w = [')'] then .ok rparen
  else
    match w.head?.bind BinaryOp.ofChar? with
    | some op => (operatorAfter previous op).map operator
    | none =>
      match Literal.ofString? (String.ofList w) with
      | some l => .ok (number l)
      | none => .error (.invalidLiteral (String.ofList w))

def readLexemes (previous : Option Token) : List (List Char) → Except Fault (List Token)
  | [] => .ok []
  | w :: ws => (readLexeme previous w).bind fun t => (readLexemes (some t) ws).map (t :: ·)

def IsKnown (c : Char) : Prop :=
  Text.isBlank c = true ∨ isNumeral c = true ∨ c = '(' ∨ c = ')' ∨
    ∃ op, BinaryOp.ofChar? c = some op

variable {position : Nat} {previous : Option Token}

theorem ofChar?_of_isNumeral (h : isNumeral c = true) : BinaryOp.ofChar? c = none := by
  cases hop : BinaryOp.ofChar? c with
  | none => rfl
  | some op =>
    rw [← char_of_ofChar? hop, isNumeral_char] at h
    cases h

theorem readLexeme_numerals (hc : isNumeral c = true) (run : List Char) :
    readLexeme previous (c :: run) =
      match Literal.ofString? (String.ofList (c :: run)) with
      | some l => .ok (number l)
      | none => .error (.invalidLiteral (String.ofList (c :: run))) := by
  have hopen : c :: run ≠ ['('] := by
    rintro h
    obtain ⟨rfl, -⟩ := List.cons.inj h
    cases hc
  have hclose : c :: run ≠ [')'] := by
    rintro h
    obtain ⟨rfl, -⟩ := List.cons.inj h
    cases hc
  rw [readLexeme, if_neg hopen, if_neg hclose]
  simp [ofChar?_of_isNumeral hc]

theorem readLexeme_operator {op : BinaryOp} :
    readLexeme previous [op.char] = (operatorAfter previous op).map operator := by
  obtain ⟨hopen, hclose⟩ := char_ne_paren op
  simp [readLexeme, hopen, hclose, BinaryOp.ofChar?_char]

theorem scanFrom_eq_readLexemes (h : ∀ c ∈ cs, IsKnown c) :
    scanFrom position previous cs = readLexemes previous (lexemes cs) := by
  have hsymbol {c : Char} (ds : List Char) (hnumeral : ¬ isNumeral c = true)
      (hblank : ¬ Text.isBlank c = true) : lexemes (c :: ds) = [c] :: lexemes ds :=
    lexemes_append_symbol (Bool.eq_false_iff.2 hnumeral) (Bool.eq_false_iff.2 hblank) [] ds
  fun_induction scanFrom position previous cs with
  | case1 => rfl
  | case2 position previous c cs hblank ih =>
    have hskip : lexemes (c :: cs) = lexemes cs := lexemes_append_blank hblank [] cs
    rw [hskip]
    exact ih (List.forall_mem_cons.1 h).2
  | case3 position previous c cs hblank hnumeral run hread =>
    rw [lexemes_numeral_cons hnumeral, readLexemes, readLexeme_numerals hnumeral]
    simp only [run] at hread
    simp only [hread]
    rfl
  | case4 position previous c cs hblank hnumeral run l hread =>
    rename_i ih
    have hrest : ∀ d ∈ cs.dropWhile isNumeral, IsKnown d := fun d hd =>
      h d (List.mem_cons_of_mem c ((List.dropWhile_sublist _).mem hd))
    rw [lexemes_numeral_cons hnumeral, readLexemes, readLexeme_numerals hnumeral]
    simp only [run] at hread
    simp only [hread]
    exact congrArg (Except.map (number l :: ·)) (ih hrest)
  | case5 position previous cs hblank hnumeral ih =>
    rw [hsymbol cs hnumeral hblank, readLexemes, ih (List.forall_mem_cons.1 h).2]
    rfl
  | case6 position previous cs hblank hnumeral hopen ih =>
    rw [hsymbol cs hnumeral hblank, readLexemes, ih (List.forall_mem_cons.1 h).2]
    rfl
  | case7 position previous c cs hblank hnumeral hopen hclose hop =>
    -- the one fault that names a position, which lexemes do not have; no known character causes it
    obtain hc | hc | hc | hc | ⟨op, hc⟩ := h c (List.mem_cons_self ..)
    · exact absurd hc hblank
    · exact absurd hc hnumeral
    · exact absurd hc hopen
    · exact absurd hc hclose
    · rw [hop] at hc
      cases hc
  | case8 position previous c cs hblank hnumeral hopen hclose op hop other hafter =>
    obtain rfl := char_of_ofChar? hop
    rw [hsymbol cs hnumeral hblank, readLexemes, readLexeme_operator, hafter]
    rfl
  | case9 position previous c cs hblank hnumeral hopen hclose op hop meant hafter ih =>
    obtain rfl := char_of_ofChar? hop
    rw [hsymbol cs hnumeral hblank, readLexemes, readLexeme_operator, hafter,
      ih (List.forall_mem_cons.1 h).2]
    rfl

theorem scan_eq_of_lexemes {s s' : String} (hs : ∀ c ∈ s.toList, IsKnown c)
    (hs' : ∀ c ∈ s'.toList, IsKnown c) (h : lexemes s.toList = lexemes s'.toList) :
    scan s = scan s' := by
  have hblank : Text.IsBlankText s ↔ Text.IsBlankText s' := by
    rw [Text.IsBlankText, Text.IsBlankText, ← lexemes_eq_nil_iff, ← lexemes_eq_nil_iff, h]
  have hscan : scanFrom 0 none s.toList = scanFrom 0 none s'.toList := by
    rw [scanFrom_eq_readLexemes hs, scanFrom_eq_readLexemes hs', h]
  simp only [scan, hblank, hscan]

end DeskCalculator.Token
