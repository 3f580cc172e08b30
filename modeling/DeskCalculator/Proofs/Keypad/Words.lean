import DeskCalculator.Proofs.Keypad.Entry
import DeskCalculator.Proofs.Keypad.Evaluation
import DeskCalculator.Proofs.Keys.Line

/-!
Postfix texts typed word by word. The characters of a number gather until it is pushed; an operator
pushes what is pending, so that next to it nothing need be pushed. What is shown in the end are the
words with single spaces between them, and that is what is evaluated.
-/
namespace DeskCalculator

theorem BinaryOp.toList_symbol (op : BinaryOp) : op.symbol.toList = [op.char] :=
  String.toList_singleton op.char

namespace Keypad

def operatorWords : List String :=
  BinaryOp.all.map BinaryOp.symbol

def IsEntryWord (w : String) : Prop :=
  (w ≠ "" ∧ ∀ c ∈ w.toList, Token.isNumeral c = true) ∨ w ∈ operatorWords

def strokes (w : String) : List Action :=
  w.toList.map fun c => .press (String.singleton c)

def typing : List String → List Action
  | [] => []
  | [w] => strokes w
  | w :: v :: ws => strokes w ++ .push :: typing (v :: ws)

/-- The words typed in order, where a push next to an operator may be left out. -/
inductive Types : List String → List Action → Prop
  | last (w : String) : Types [w] (strokes w)
  | push {w v : String} {ws : List String} {actions : List Action} :
      Types (v :: ws) actions → Types (w :: v :: ws) (strokes w ++ .push :: actions)
  | skip {w v : String} {ws : List String} {actions : List Action} :
      w ∈ operatorWords ∨ v ∈ operatorWords → Types (v :: ws) actions →
        Types (w :: v :: ws) (strokes w ++ actions)

theorem types_typing {words : List String} (hne : words ≠ []) : Types words (typing words) := by
  induction words with
  | nil => exact absurd rfl hne
  | cons w ws ih =>
    cases ws with
    | nil => exact .last w
    | cons v ws => exact .push (ih (List.cons_ne_nil v ws))

/-! ### One word -/

variable {k : Keypad} {w : String} {words : List String} {actions : List Action}

theorem exists_symbol_of_mem (h : w ∈ operatorWords) : ∃ op : BinaryOp, w = op.symbol := by
  obtain ⟨op, -, rfl⟩ := List.mem_map.1 h
  exact ⟨op, rfl⟩

theorem ofKey_numerals (h : ∀ c ∈ w.toList, Token.isNumeral c = true) :
    Stroke.ofKey w = .symbol w :=
  Stroke.ofKey_of_chars fun c hc => (Token.isNumeral_iff.1 (h c hc)).imp_right .inl

theorem ofKey_operator (h : w ∈ operatorWords) : Stroke.ofKey w = .symbol w := by
  obtain ⟨op, rfl⟩ := exists_symbol_of_mem h
  cases op <;> decide

theorem IsEntryWord.ofKey (h : IsEntryWord w) : Stroke.ofKey w = .symbol w :=
  h.elim (fun h => ofKey_numerals h.2) ofKey_operator

theorem IsEntryWord.isWord (h : IsEntryWord w) : Text.IsWord w.toList := by
  rcases h with ⟨hne, hnumerals⟩ | hop
  · refine ⟨fun hnil => hne ?_, fun c hc => Token.isBlank_of_isNumeral (hnumerals c hc)⟩
    rw [← String.toList_inj, hnil]
    rfl
  · obtain ⟨op, rfl⟩ := exists_symbol_of_mem hop
    rw [BinaryOp.toList_symbol]
    refine ⟨List.cons_ne_nil _ [], fun c hc => ?_⟩
    rw [List.mem_singleton.1 hc]
    exact Token.isBlank_char op

theorem run_strokes_number (hmode : k.mode = .rpn) (hk : k.withEntry k.keys k.pending = k)
    (hw : ∀ c ∈ w.toList, Token.isNumeral c = true) :
    k.run (strokes w) = k.withEntry k.keys (k.pending ++ w) := by
  have hchars (cs : List Char) (hcs : ∀ c ∈ cs, Token.isNumeral c = true) :
      k.run (cs.map fun c => .press (String.singleton c)) =
        k.withEntry k.keys (k.pending ++ String.ofList cs) := by
    induction cs generalizing k with
    | nil =>
      rw [String.ofList_nil, String.append_empty]
      exact hk.symm
    | cons c cs ih =>
      obtain ⟨hc, hcs⟩ := List.forall_mem_cons.1 hcs
      have hkey : Key.isNumeral (String.singleton c) = true := (Key.isNumeral_singleton c).trans hc
      have hsymbol : Stroke.ofKey (String.singleton c) = .symbol (String.singleton c) :=
        ofKey_numerals (by simpa using hc)
      have hpress := press_numeral hmode hsymbol hkey
      have hrest := ih (k := k.withEntry k.keys (k.pending ++ String.singleton c)) hmode rfl hcs
      rw [List.map_cons, run_cons, act, hpress, hrest, withEntry_withEntry, keys_withEntry,
        pending_withEntry, String.ofList_cons, String.append_assoc]
  have hword := hchars w.toList hw
  rwa [String.ofList_toList] at hword

theorem run_strokes_operator (hw : w ∈ operatorWords) :
    k.run (strokes w) = k.withEntry (k.committedKeys ++ [w]) "" := by
  obtain ⟨op, rfl⟩ := exists_symbol_of_mem hw
  have hkey : Key.isNumeral op.symbol = false :=
    (Key.isNumeral_singleton op.char).trans (Token.isNumeral_char op)
  have hstrokes : strokes op.symbol = [.press op.symbol] := by
    rw [strokes, BinaryOp.toList_symbol]
    rfl
  have hsymbol : Stroke.ofKey op.symbol = .symbol op.symbol := ofKey_operator hw
  have hpress := press_symbol (k := k) hsymbol (by simp [hkey])
  rw [hstrokes, run_cons, act, hpress]
  rfl

/-! ### All words -/

def settle : List String → List String × String
  | [] => ([], "")
  | [w] => if w ∈ operatorWords then ([w], "") else ([], w)
  | w :: v :: ws => (w :: (settle (v :: ws)).1, (settle (v :: ws)).2)

theorem committed_settle (h : ∀ w ∈ words, IsEntryWord w) :
    (if (settle words).2 = "" then (settle words).1
      else (settle words).1 ++ [(settle words).2]) = words := by
  induction words with
  | nil => rfl
  | cons w ws ih =>
    obtain ⟨hw, hws⟩ := List.forall_mem_cons.1 h
    cases ws with
    | nil =>
      by_cases hop : w ∈ operatorWords
      · simp [settle, hop]
      · have hne : w ≠ "" := (hw.resolve_right hop).1
        simp [settle, hop, hne]
    | cons v ws =>
      have htail := ih hws
      rw [settle]
      split at htail
      · rename_i hnone
        rw [if_pos hnone, htail]
      · rename_i hsome
        rw [if_neg hsome, List.cons_append, htail]

theorem committedKeys_settle (k : Keypad) (keys : List String)
    (h : ∀ w ∈ words, IsEntryWord w) :
    (k.withEntry (keys ++ (settle words).1) (settle words).2).committedKeys = keys ++ words := by
  have hwords := committed_settle h
  rw [committedKeys, keys_withEntry, pending_withEntry]
  split at hwords
  · rename_i hnone
    rw [if_pos hnone, hwords]
  · rename_i hsome
    rw [if_neg hsome, List.append_assoc, hwords]

theorem run_strokes (hmode : k.mode = .rpn) (hk : k.withEntry k.keys k.pending = k)
    (hw : IsEntryWord w) (hstart : k.pending = "" ∨ w ∈ operatorWords) :
    k.run (strokes w) = k.withEntry (k.committedKeys ++ (settle [w]).1) (settle [w]).2 := by
  by_cases hop : w ∈ operatorWords
  · rw [run_strokes_operator hop, settle, if_pos hop]
  · have hpending : k.pending = "" := hstart.resolve_right hop
    have hnumerals := (hw.resolve_right hop).2
    rw [run_strokes_number hmode hk hnumerals, settle, if_neg hop, hpending, String.empty_append,
      committedKeys_of_pending hpending, List.append_nil]

theorem run_of_types (h : Types words actions) (hmode : k.mode = .rpn)
    (hk : k.withEntry k.keys k.pending = k) (hwords : ∀ w ∈ words, IsEntryWord w)
    (hstart : k.pending = "" ∨ ∀ w ∈ words.head?, w ∈ operatorWords) :
    k.run actions = k.withEntry (k.committedKeys ++ (settle words).1) (settle words).2 := by
  induction h generalizing k with
  | last w =>
    exact run_strokes hmode hk (hwords w (List.mem_singleton_self w))
      (hstart.imp_right fun hhead => hhead w rfl)
  | @push w v ws actions hrest ih =>
    obtain ⟨hw, hws⟩ := List.forall_mem_cons.1 hwords
    have hfirst := run_strokes hmode hk hw (hstart.imp_right fun hhead => hhead w rfl)
    have hcommitted := committedKeys_settle k k.committedKeys (List.forall_mem_singleton.2 hw)
    have hpush : (k.run (strokes w)).push = k.withEntry (k.committedKeys ++ [w]) "" := by
      rw [push_eq, hfirst, hcommitted, withEntry_withEntry]
    have hpushed : (k.withEntry (k.committedKeys ++ [w]) "").committedKeys =
        k.committedKeys ++ [w] := committedKeys_of_pending rfl
    have hlast := ih (k := k.withEntry (k.committedKeys ++ [w]) "") hmode rfl hws (.inl rfl)
    rw [run_append, run_cons, act, hpush, hlast, hpushed, withEntry_withEntry, List.append_assoc]
    rfl
  | @skip w v ws actions hnext hrest ih =>
    obtain ⟨hw, hws⟩ := List.forall_mem_cons.1 hwords
    have hfirst := run_strokes hmode hk hw (hstart.imp_right fun hhead => hhead w rfl)
    have hcommitted := committedKeys_settle k k.committedKeys (List.forall_mem_singleton.2 hw)
    have hready : (settle [w]).2 = "" ∨ ∀ u ∈ (v :: ws).head?, u ∈ operatorWords := by
      refine hnext.imp (fun hop => ?_) fun hop u hu => Option.some.inj hu ▸ hop
      rw [settle, if_pos hop]
    have hlast := ih (k := k.withEntry (k.committedKeys ++ (settle [w]).1) (settle [w]).2) hmode rfl
      hws hready
    rw [run_append, hfirst, hlast, hcommitted, withEntry_withEntry, List.append_assoc]
    rfl

/-! ### What is shown -/

theorem pieces_of_symbols {keys : List String} (h : ∀ key ∈ keys, Stroke.ofKey key = .symbol key) :
    Entered.pieces keys = keys := by
  induction keys using List.reverseRecOn with
  | nil => rfl
  | append_singleton keys key ih =>
    obtain ⟨hkeys, hkey⟩ := List.forall_mem_append.1 h
    rw [Entered.pieces_concat (hkey key (List.mem_singleton_self key)), ih hkeys]

theorem intercalate_concat {ws : List String} (hne : ws ≠ []) (w : String) :
    " ".intercalate (ws ++ [w]) = " ".intercalate ws ++ " " ++ w := by
  induction ws with
  | nil => exact absurd rfl hne
  | cons u ws ih =>
    cases ws with
    | nil => simp
    | cons v ws =>
      rw [List.cons_append, List.cons_append, String.intercalate_cons_cons, ← List.cons_append,
        ih (List.cons_ne_nil v ws), String.intercalate_cons_cons, String.append_assoc,
        String.append_assoc, String.append_assoc, String.append_assoc, String.append_assoc]

theorem words_intercalate (h : ∀ w ∈ words, IsEntryWord w) :
    Text.words (" ".intercalate words).toList = words.map String.toList := by
  have hspace : " ".toList = [' '] := rfl
  rw [String.toList_intercalate, hspace]
  refine Text.words_intercalate fun w hw => ?_
  obtain ⟨word, hword, rfl⟩ := List.mem_map.1 hw
  exact (h word hword).isWord

theorem intercalate_ne_empty (h : ∀ w ∈ words, IsEntryWord w) (hne : words ≠ []) :
    " ".intercalate words ≠ "" := by
  intro hempty
  have hwords := words_intercalate h
  rw [hempty] at hwords
  exact hne (List.map_eq_nil_iff.1 hwords.symm)

theorem mem_of_mem_settle {words : List String} {key : String} (h : key ∈ (settle words).1) :
    key ∈ words := by
  induction words with
  | nil => exact h
  | cons w ws ih =>
    cases ws with
    | nil =>
      rw [settle] at h
      split at h
      · exact h
      · exact absurd h List.not_mem_nil
    | cons v ws =>
      rw [settle] at h
      rcases List.mem_cons.1 h with rfl | h
      · exact List.mem_cons_self ..
      · exact List.mem_cons_of_mem _ (ih h)

theorem shownExpression_settle (h : ∀ w ∈ words, IsEntryWord w) :
    shownExpression .rpn (settle words).1 (settle words).2 = " ".intercalate words := by
  have hkeys : ∀ key ∈ (settle words).1, IsEntryWord key :=
    fun key hkey => h key (mem_of_mem_settle hkey)
  have hentered : (Entered.ofKeys .rpn (settle words).1).expression =
      " ".intercalate (settle words).1 := by
    rw [Entered.expression_rpn, pieces_of_symbols fun key hkey => (hkeys key hkey).ofKey]
  have hwords := committed_settle h
  rw [shownExpression, hentered]
  split at hwords
  · rename_i hnone
    rw [if_pos hnone, hwords]
  · rename_i hsome
    rw [if_neg hsome]
    by_cases hnil : (settle words).1 = []
    · rw [hnil, List.nil_append] at hwords
      have hone : " ".intercalate words = (settle words).2 := by
        rw [← hwords, String.intercalate_singleton, hwords]
      rw [hnil, hone]
      exact if_pos rfl
    · rw [if_neg (intercalate_ne_empty hkeys hnil), ← intercalate_concat hnil, hwords]

/-- From an empty entry in RPN mode, typing words with a push between any two of them shows these
words with single spaces between them, and evaluating has the outcome of the text that is shown. The
pushes next to an operator may be left out; the keypad ends in the same state. -/
theorem Reachable.types_words (h : Reachable k) (hmode : k.mode = .rpn) (hkeys : k.keys = [])
    (hpending : k.pending = "") (hne : words ≠ []) (hwords : ∀ w ∈ words, IsEntryWord w) :
    (k.run (typing words)).expression = " ".intercalate words ∧
    (∀ c : Calculator,
      (k.run (typing words)).press Key.equals =
        match c.answer ⟨" ".intercalate words, .rpn, k.withTrace, k.settings.toOverrides⟩ with
        | .ok e =>
          { k with
            keys := [], pending := "", expression := "", error := "", display := e.text,
            postfixText := Token.joinTexts e.postfixTokens, trace := e.trace, last := some e.value }
        | .error fault =>
          { k with
            keys := [], pending := "", expression := "",
            error := fault.category.title ++ ": " ++ fault.message, postfixText := "",
            trace := [] }) ∧
    (∀ actions, Types words actions → k.run actions = k.run (typing words)) := by
  have hrun (actions : List Action) (htypes : Types words actions) :
      k.run actions = k.withEntry (settle words).1 (settle words).2 := by
    have hsettled :=
      run_of_types htypes hmode h.consistent.withEntry_self hwords (.inl hpending)
    rwa [committedKeys_of_pending hpending, hkeys, List.nil_append] at hsettled
  have htyped := hrun (typing words) (types_typing hne)
  have hshown : (k.run (typing words)).expression = " ".intercalate words := by
    rw [htyped, withEntry, hmode]
    exact shownExpression_settle hwords
  have hblank : ¬ Text.IsBlankText (" ".intercalate words) := by
    rw [Text.isBlankText_iff_words, words_intercalate hwords]
    simpa using hne
  refine ⟨hshown, fun c => ?_, fun actions htypes => (hrun actions htypes).trans htyped.symm⟩
  have hconsistent := (h.run (typing words)).consistent
  have hrequest : (k.run (typing words)).shownRequest =
      ⟨" ".intercalate words, .rpn, k.withTrace, k.settings.toOverrides⟩ := by
    rw [shownRequest, hshown, htyped, ← hmode]
    rfl
  rw [← hshown] at hblank
  rw [hconsistent.press_equals_of_not_blank hblank c, hrequest, htyped]
  rfl

theorem types_words_with_number_at_end :
    ((run {} [.selectMode .rpn, .press "1", .press "2", .push, .press ".", .press "5", .press "*",
        .press "3"]).press Key.equals).error =
      "Domain violation: expression evaluation ended with unexpected stack state" := by
  have hreachable : Reachable (run {} [.selectMode .rpn]) := (Reachable.start {}).run _
  have hnumber (w : String) (hne : w ≠ "") (hall : w.toList.all Token.isNumeral = true) :
      IsEntryWord w := .inl ⟨hne, List.all_eq_true.1 hall⟩
  have hwords : ∀ w ∈ ["12", ".5", "*", "3"], IsEntryWord w := by
    simp only [List.forall_mem_cons]
    exact ⟨hnumber "12" (by decide) (by decide), hnumber ".5" (by decide) (by decide),
      .inr (by decide), hnumber "3" (by decide) (by decide), nofun⟩
  have htypes : Types ["12", ".5", "*", "3"] [.press "1", .press "2", .push, .press ".", .press "5",
      .press "*", .press "3"] :=
    .push (.skip (by decide) (.skip (by decide) (.last "3")))
  obtain ⟨-, hequals, hsame⟩ := hreachable.types_words rfl rfl rfl (List.cons_ne_nil _ _) hwords
  have htext : " ".intercalate ["12", ".5", "*", "3"] = "12 .5 * 3" := by decide
  have hanswer : Calculator.answer {} ⟨"12 .5 * 3", .rpn, (run {} [.selectMode .rpn]).withTrace,
      (run {} [.selectMode .rpn]).settings.toOverrides⟩ = .error .leftoverOperands := by
    decide +kernel
  have hend := hequals {}
  rw [htext, hanswer] at hend
  have hrun : run {} [.selectMode .rpn, .press "1", .press "2", .push, .press ".", .press "5",
      .press "*", .press "3"] = (run {} [.selectMode .rpn]).run [.press "1", .press "2", .push,
      .press ".", .press "5", .press "*", .press "3"] := run_append [.selectMode .rpn] _
  rw [hrun, hsame _ htypes, hend]
  decide

end Keypad

end DeskCalculator
