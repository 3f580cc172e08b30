import DeskCalculator.Proofs.Keys
import DeskCalculator.Proofs.Token.Lexeme

/-!
The line of an algebraic entry, key by key. What is shown is the line without the blanks at its
ends, but the next key is written after the line as it stands.
-/
namespace DeskCalculator

namespace Key

def symbols : List Char :=
  "0123456789.+-*/^()".toList

def IsSymbol (key : String) : Prop :=
  ∃ c ∈ symbols, key = String.singleton c

def IsEditing (key : String) : Prop :=
  IsSymbol key ∨ key = backspace ∨ key = clear ∨ key = clearEntry

instance (key : String) : Decidable (IsSymbol key) :=
  List.decidableBEx (fun c => key = String.singleton c) symbols

instance (key : String) : Decidable (IsEditing key) :=
  inferInstanceAs (Decidable (_ ∨ _ ∨ _ ∨ _))

theorem isBlank_symbols {c : Char} (hc : c ∈ symbols) : Text.isBlank c = false := by
  have hall : symbols.all (fun c => !Text.isBlank c) = true := by decide
  simpa using List.all_eq_true.1 hall c hc

theorem space_not_mem_symbols : ' ' ∉ symbols := by
  decide

theorem isKnown_of_mem_symbols {c : Char} (hc : c ∈ symbols) : Token.IsKnown c := by
  have hall : symbols.all (fun c => Token.isNumeral c || c == '(' || c == ')' ||
      (BinaryOp.ofChar? c).isSome) = true := by
    decide
  have hclass := List.all_eq_true.1 hall c hc
  simp only [Bool.or_eq_true, beq_iff_eq] at hclass
  obtain ((hc | hc) | hc) | hc := hclass
  · exact .inr (.inl hc)
  · exact .inr (.inr (.inl hc))
  · exact .inr (.inr (.inr (.inl hc)))
  · exact .inr (.inr (.inr (.inr (Option.isSome_iff_exists.1 hc))))

theorem isNumeral_singleton (c : Char) : isNumeral (String.singleton c) = Token.isNumeral c := by
  rw [isNumeral, String.toList_singleton]
  rfl

end Key

theorem Stroke.ofKey_symbols {c : Char} (hc : c ∈ Key.symbols) :
    ofKey (String.singleton c) = .symbol (String.singleton c) := by
  have hall : Key.symbols.all (fun c =>
      decide (ofKey (String.singleton c) = .symbol (String.singleton c))) = true := by
    decide
  exact of_decide_eq_true (List.all_eq_true.1 hall c hc)

namespace Entered

def after (cs : List Char) (key : String) : List Char :=
  (Line.press ⟨cs.reverse, false⟩ key).reversed.reverse

def line (keys : List String) : List Char :=
  keys.foldl after []

theorem line_append (keys more : List String) :
    line (keys ++ more) = more.foldl after (line keys) :=
  List.foldl_append

theorem line_concat (keys : List String) (key : String) :
    line (keys ++ [key]) = after (line keys) key :=
  line_append keys [key]

theorem foldl_press (l : Line) (keys : List String) :
    (keys.foldl Line.press l).reversed.reverse = keys.foldl after l.reversed.reverse := by
  induction keys generalizing l with
  | nil => rfl
  | cons key keys ih =>
    have hpress : (l.press key).reversed.reverse = after l.reversed.reverse key := by
      rw [after, List.reverse_reverse, Line.press, Line.press]
      cases Stroke.ofKey key <;> rfl
    rw [List.foldl_cons, List.foldl_cons, ih, hpress]

theorem expression_algebraic (keys : List String) :
    (ofKeys .algebraic keys).expression = String.ofList (Text.trim (line keys)) := by
  have hline := foldl_press ⟨[], false⟩ keys
  simp only [ofKeys, hline]
  rfl

/-! ### One key -/

variable {cs : List Char} {c : Char}

def spaced (cs : List Char) : List Char :=
  if cs = [] ∨ cs.getLast? = some ' ' then cs else cs ++ [' ']

theorem after_numeral (hc : c ∈ Key.symbols) (hnumeral : Token.isNumeral c = true) :
    after cs (String.singleton c) = cs ++ [c] := by
  have hkey : Key.isNumeral (String.singleton c) = true :=
    (Key.isNumeral_singleton c).trans hnumeral
  simp [after, Line.press, Stroke.ofKey_symbols hc, Line.append, hkey]

theorem after_symbol (hc : c ∈ Key.symbols) (hnumeral : Token.isNumeral c = false) :
    after cs (String.singleton c) = spaced cs ++ [c, ' '] := by
  have hkey : Key.isNumeral (String.singleton c) = false :=
    (Key.isNumeral_singleton c).trans hnumeral
  by_cases hspace : cs = [] ∨ cs.getLast? = some ' '
  · simp [after, Line.press, Stroke.ofKey_symbols hc, Line.append, hkey, spaced, hspace]
  · simp [after, Line.press, Stroke.ofKey_symbols hc, Line.append, hkey, spaced, hspace]

theorem after_backspace (cs : List Char) : after cs Key.backspace = cs.dropLast := by
  have hkey : Stroke.ofKey Key.backspace = .backspace := rfl
  simp [after, Line.press, hkey]

theorem after_clear (cs : List Char) : after cs Key.clear = [] := rfl

theorem after_clearEntry (cs : List Char) : after cs Key.clearEntry = [] := rfl

theorem after_equals (cs : List Char) : after cs Key.equals = cs := by
  simp [after, Line.press, Stroke.ofKey_equals]

/-! ### The characters of a line -/

theorem mem_of_mem_spaced {d : Char} (h : d ∈ spaced cs) : d ∈ cs ∨ d = ' ' := by
  unfold spaced at h
  split at h
  · exact .inl h
  · simpa using h

theorem mem_of_mem_after {key : String} (hkey : Key.IsEditing key ∨ key = Key.equals) {d : Char}
    (h : d ∈ after cs key) : d ∈ cs ∨ d = ' ' ∨ d ∈ Key.symbols := by
  obtain (⟨c, hc, rfl⟩ | rfl | rfl | rfl) | rfl := hkey
  · cases hnumeral : Token.isNumeral c with
    | true =>
      rw [after_numeral hc hnumeral] at h
      rcases List.mem_append.1 h with h | h
      · exact .inl h
      · exact .inr (.inr (List.mem_singleton.1 h ▸ hc))
    | false =>
      rw [after_symbol hc hnumeral] at h
      rcases List.mem_append.1 h with h | h
      · exact (mem_of_mem_spaced h).imp_right .inl
      · have hd : d = c ∨ d = ' ' := by simpa using h
        rcases hd with rfl | rfl
        · exact .inr (.inr hc)
        · exact .inr (.inl rfl)
  · rw [after_backspace] at h
    exact .inl (List.mem_of_mem_dropLast h)
  · rw [after_clear] at h
    exact absurd h List.not_mem_nil
  · rw [after_clearEntry] at h
    exact absurd h List.not_mem_nil
  · rw [after_equals] at h
    exact .inl h

theorem mem_of_mem_foldl_after {keys : List String}
    (h : ∀ key ∈ keys, Key.IsEditing key ∨ key = Key.equals) (hc : c ∈ keys.foldl after cs) :
    c ∈ cs ∨ c = ' ' ∨ c ∈ Key.symbols := by
  induction keys generalizing cs with
  | nil => exact .inl hc
  | cons key keys ih =>
    obtain ⟨hkey, hkeys⟩ := List.forall_mem_cons.1 h
    rcases ih hkeys hc with hmem | hc
    · exact mem_of_mem_after hkey hmem
    · exact .inr hc

theorem mem_line {keys : List String} (h : ∀ key ∈ keys, Key.IsEditing key ∨ key = Key.equals)
    (hc : c ∈ line keys) : c = ' ' ∨ c ∈ Key.symbols :=
  (mem_of_mem_foldl_after h hc).resolve_left List.not_mem_nil

theorem isKnown_of_mem_line {keys : List String}
    (h : ∀ key ∈ keys, Key.IsEditing key ∨ key = Key.equals) (hc : c ∈ line keys) :
    Token.IsKnown c := by
  have hspace : Text.isBlank ' ' = true := by decide
  rcases mem_line h hc with rfl | hc
  · exact .inl hspace
  · exact Key.isKnown_of_mem_symbols hc

theorem scan_expression {keys : List String}
    (h : ∀ key ∈ keys, Key.IsEditing key ∨ key = Key.equals) :
    Token.scan (ofKeys .algebraic keys).expression = Token.scan (String.ofList (line keys)) := by
  have hknown : ∀ c ∈ line keys, Token.IsKnown c := fun c => isKnown_of_mem_line h
  rw [expression_algebraic]
  apply Token.scan_eq_of_lexemes
  · rw [String.toList_ofList]
    exact fun c hc => hknown c (Text.mem_of_mem_trim hc)
  · rw [String.toList_ofList]
    exact hknown
  · rw [String.toList_ofList, String.toList_ofList]
    exact Token.lexemes_trim (line keys)

end Entered

end DeskCalculator
