import DeskCalculator.Keys
import Mathlib.Data.List.Basic
import Mathlib.Data.List.Induction

/-! What the control keys do in the middle of a sequence. Both modes edit their entry by the same
strokes and differ only in how a symbol is added to it, so each law is proved of the strokes and
holds in both. -/
namespace DeskCalculator

def Key.controls : List String :=
  [clearEntry, clear, backspace, equals]

namespace Stroke

variable {key : String}

def edit {α : Type} (add : List α → String → List α) (entry : List α) : Stroke → List α
  | clearEntry | clear => []
  | backspace => entry.tail
  | equals => entry
  | symbol key => add entry key

def asks (evaluates : Bool) : Stroke → Bool
  | clear => false
  | equals => true
  | _ => evaluates

theorem ofKey_of_not_control (h : key ∉ Key.controls) : ofKey key = .symbol key := by
  simp only [Key.controls, List.mem_cons, List.not_mem_nil, or_false, not_or] at h
  simp [ofKey, h]

theorem ofKey_of_isNumeral (h : Key.isNumeral key = true) : ofKey key = .symbol key := by
  apply ofKey_of_not_control
  intro hcontrol
  have hall : ∀ control ∈ Key.controls, Key.isNumeral control = false := by decide
  simp [hall key hcontrol] at h

theorem ofKey_eq_equals_iff : ofKey key = .equals ↔ key = Key.equals := by
  unfold ofKey
  split_ifs <;> simp_all [Key.clearEntry, Key.clear, Key.backspace, Key.equals]

theorem ofKey_eq_clear_iff : ofKey key = .clear ↔ key = Key.clear := by
  unfold ofKey
  split_ifs <;> simp_all [Key.clearEntry, Key.clear]

theorem asks_eq_true_iff {evaluates : Bool} {s : Stroke} :
    asks evaluates s = true ↔ s = .equals ∨ evaluates = true ∧ s ≠ .clear := by
  cases s <;> simp [asks]

end Stroke

namespace Entered

section Edited

variable {α : Type} (add : List α → String → List α)

def edited (keys : List String) : List α :=
  keys.foldl (fun entry key => Stroke.edit add entry (Stroke.ofKey key)) []

theorem edited_of_empties {key : String}
    (h : ∀ entry, Stroke.edit add entry (Stroke.ofKey key) = []) (before after : List String) :
    edited add (before ++ key :: after) = edited add after := by
  simp only [edited, List.foldl_append, List.foldl_cons, h]

theorem edited_equals (before after : List String) :
    edited add (before ++ Key.equals :: after) = edited add (before ++ after) := by
  simp only [edited, List.foldl_append, List.foldl_cons]
  rfl

theorem edited_backspace {key : String} (h : Stroke.ofKey key = .symbol key)
    (hadd : ∀ entry, (add entry key).tail = entry) (before after : List String) :
    edited add (before ++ key :: Key.backspace :: after) = edited add (before ++ after) := by
  have hback : Stroke.ofKey Key.backspace = .backspace := rfl
  simp [edited, h, hback, Stroke.edit, hadd]

end Edited

def asked (keys : List String) : Bool :=
  keys.foldl (fun evaluates key => Stroke.asks evaluates (Stroke.ofKey key)) false

theorem asked_concat (keys : List String) (key : String) :
    asked (keys ++ [key]) = Stroke.asks (asked keys) (Stroke.ofKey key) := by
  simp [asked]

theorem asked_clear (before after : List String) :
    asked (before ++ Key.clear :: after) = asked after := by
  simp only [asked, List.foldl_append, List.foldl_cons]
  rfl

theorem asked_backspace {key : String} (h : Stroke.ofKey key = .symbol key)
    (before after : List String) :
    asked (before ++ key :: Key.backspace :: after) = asked (before ++ after) := by
  have hback : Stroke.ofKey Key.backspace = .backspace := rfl
  simp [asked, h, hback, Stroke.asks]

theorem asked_equals (before : List String) {after : List String} (h : Key.clear ∉ after) :
    asked (before ++ Key.equals :: after) = true := by
  induction after using List.reverseRecOn with
  | nil => simp [asked_concat, Stroke.asks_eq_true_iff, Stroke.ofKey_eq_equals_iff]
  | append_singleton after key ih =>
    simp only [List.mem_append, List.mem_singleton, not_or] at h
    have hlast : before ++ Key.equals :: (after ++ [key]) =
        (before ++ Key.equals :: after) ++ [key] := by simp
    rw [hlast, asked_concat, ih h.1, Stroke.asks_eq_true_iff, ne_eq, Stroke.ofKey_eq_clear_iff]
    exact .inr ⟨rfl, Ne.symm h.2⟩

theorem exists_equals_of_asked {keys : List String} (h : asked keys = true) :
    ∃ before after, keys = before ++ Key.equals :: after ∧ Key.clear ∉ after := by
  induction keys using List.reverseRecOn with
  | nil => simp [asked] at h
  | append_singleton keys key ih =>
    rw [asked_concat, Stroke.asks_eq_true_iff, Stroke.ofKey_eq_equals_iff, ne_eq,
      Stroke.ofKey_eq_clear_iff] at h
    rcases h with rfl | ⟨hkeys, hkey⟩
    · exact ⟨keys, [], rfl, by simp⟩
    · obtain ⟨before, after, rfl, hafter⟩ := ih hkeys
      exact ⟨before, after ++ [key], by simp, by simp [hafter, Ne.symm hkey]⟩

theorem asked_eq_true_iff (keys : List String) :
    asked keys = true ↔
      ∃ before after, keys = before ++ Key.equals :: after ∧ Key.clear ∉ after := by
  constructor
  · exact exists_equals_of_asked
  · rintro ⟨before, after, rfl, hafter⟩
    exact asked_equals before hafter

/-! ### The two modes -/

theorem ofKeys_algebraic (keys : List String) :
    ofKeys .algebraic keys =
      ⟨String.ofList (Text.trim (edited Line.append keys).reverse), asked keys⟩ := by
  have hfold : keys.foldl Line.press ⟨[], false⟩ = ⟨edited Line.append keys, asked keys⟩ := by
    apply List.foldl_hom₂
    intro reversed evaluates key
    unfold Line.press
    cases Stroke.ofKey key <;> rfl
  simp only [ofKeys, hfold]

def pushed (words : List String) (key : String) : List String :=
  key :: words

theorem ofKeys_rpn (keys : List String) :
    ofKeys .rpn keys = ⟨" ".intercalate (edited pushed keys).reverse, asked keys⟩ := by
  have hfold : keys.foldl Stack.press ⟨[], false⟩ = ⟨edited pushed keys, asked keys⟩ := by
    apply List.foldl_hom₂
    intro reversed evaluates key
    unfold Stack.press
    cases Stroke.ofKey key <;> rfl
  simp only [ofKeys, hfold]

theorem evaluates_ofKeys (mode : Mode) (keys : List String) :
    (ofKeys mode keys).evaluates = asked keys := by
  cases mode <;> simp [ofKeys_algebraic, ofKeys_rpn]

theorem expression_congr {keys keys' : List String} (mode : Mode)
    (h : ∀ {α : Type} (add : List α → String → List α), edited add keys = edited add keys') :
    (ofKeys mode keys).expression = (ofKeys mode keys').expression := by
  cases mode <;> simp [ofKeys_algebraic, ofKeys_rpn, h]

theorem tail_append_of_isNumeral {key : String} (h : Key.isNumeral key = true)
    (reversed : List Char) : (Line.append reversed key).tail = reversed := by
  have hone : ∃ c, key.toList = [c] := by
    unfold Key.isNumeral at h
    split at h
    · rename_i c hkey
      exact ⟨c, hkey⟩
    · cases h
  obtain ⟨c, hkey⟩ := hone
  simp [Line.append, h, hkey]

/-- The laws of the control keys, with any keys before and after them: clearing forgets what came
before, a request for the value stays out of the expression and holds until the next clearing, and
one step back takes back a key of one element. -/
theorem ofKeys_controls (mode : Mode) :
    (∀ before after, ofKeys mode (before ++ Key.clear :: after) = ofKeys mode after) ∧
    (∀ before after, (ofKeys mode (before ++ Key.clearEntry :: after)).expression =
      (ofKeys mode after).expression) ∧
    (∀ before after, (ofKeys mode (before ++ Key.equals :: after)).expression =
      (ofKeys mode (before ++ after)).expression) ∧
    (∀ keys, (ofKeys mode keys).evaluates = true ↔
      ∃ before after, keys = before ++ Key.equals :: after ∧ Key.clear ∉ after) ∧
    (∀ before key after,
      mode = .rpn ∧ key ∉ Key.controls ∨ mode = .algebraic ∧ Key.isNumeral key = true →
      ofKeys mode (before ++ key :: Key.backspace :: after) = ofKeys mode (before ++ after)) := by
  refine ⟨?_, ?_, ?_, ?_, ?_⟩
  · intro before after
    have hclear {α : Type} (add : List α → String → List α) :
        edited add (before ++ Key.clear :: after) = edited add after :=
      edited_of_empties add (fun _ => rfl) before after
    cases mode <;> simp only [ofKeys_algebraic, ofKeys_rpn, hclear, asked_clear]
  · intro before after
    exact expression_congr mode fun add => edited_of_empties add (fun _ => rfl) before after
  · intro before after
    exact expression_congr mode fun add => edited_equals add before after
  · intro keys
    rw [evaluates_ofKeys, asked_eq_true_iff]
  · rintro before key after (⟨rfl, hkey⟩ | ⟨rfl, hkey⟩)
    · have hsymbol := Stroke.ofKey_of_not_control hkey
      have hpushed : ∀ words, (pushed words key).tail = words := fun _ => rfl
      simp only [ofKeys_rpn, edited_backspace pushed hsymbol hpushed, asked_backspace hsymbol]
    · have hsymbol := Stroke.ofKey_of_isNumeral hkey
      have happend := tail_append_of_isNumeral hkey
      simp only [ofKeys_algebraic, edited_backspace Line.append hsymbol happend,
        asked_backspace hsymbol]

end Entered

end DeskCalculator
