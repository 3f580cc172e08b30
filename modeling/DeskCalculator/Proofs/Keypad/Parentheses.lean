import DeskCalculator.Proofs.Keypad.Buttons
import DeskCalculator.Proofs.Keypad.Recall

/-!
Parentheses in RPN entries. In RPN mode the pad lets none be clicked, and recalling enters none; but
the keyboard strikes the same keys in both modes. A parenthesis that is struck in RPN mode stays
among the keys until the entry is emptied.
-/
namespace DeskCalculator

def Key.IsParen (key : String) : Prop := key = "(" ∨ key = ")"

instance (key : String) : Decidable (Key.IsParen key) := inferInstanceAs (Decidable (_ ∨ _))

instance (key : String) : Decidable (Key.IsEntered key) := inferInstanceAs (Decidable (_ ∧ _))

theorem Key.not_isParen_of_chars {key : String}
    (h : ∀ c ∈ key.toList, c.isDigit = true ∨ c = '.' ∨ c = '-') : ¬ IsParen key := by
  rintro (rfl | rfl)
  · exact absurd (h '(' (by decide)) (by decide)
  · exact absurd (h ')' (by decide)) (by decide)

/-! ### Standing effects -/

section Stands

variable {α : Type} {makes : List α → α → Prop} {undoes : α → Prop}

/-- Some element makes an effect, depending on those before it, and no later one undoes it. -/
def Stands (makes : List α → α → Prop) (undoes : α → Prop) (xs : List α) : Prop :=
  ∃ before x after, xs = before ++ x :: after ∧ makes before x ∧ ∀ y ∈ after, ¬ undoes y

theorem stands_concat (xs : List α) (x : α) :
    Stands makes undoes (xs ++ [x]) ↔ makes xs x ∨ Stands makes undoes xs ∧ ¬ undoes x := by
  constructor
  · rintro ⟨before, y, after, hxs, hmakes, hafter⟩
    -- either `y` is the last element itself, or the last one is among those that undo nothing
    obtain rfl | ⟨after, z, rfl⟩ := List.eq_nil_or_concat after
    · obtain ⟨rfl, hy⟩ := List.append_inj' hxs rfl
      obtain rfl := List.singleton_inj.1 hy
      exact .inl hmakes
    · rw [List.concat_eq_append, ← List.cons_append, ← List.append_assoc] at hxs
      obtain ⟨rfl, hz⟩ := List.append_inj' hxs rfl
      obtain rfl := List.singleton_inj.1 hz
      rw [List.concat_eq_append, List.forall_mem_append] at hafter
      exact .inr ⟨⟨before, y, after, rfl, hmakes, hafter.1⟩, hafter.2 x (List.mem_singleton_self x)⟩
  · rintro (hmakes | ⟨⟨before, y, after, rfl, hmakes, hafter⟩, hx⟩)
    · exact ⟨xs, x, [], rfl, hmakes, fun _ hy => absurd hy List.not_mem_nil⟩
    · refine ⟨before, y, after ++ [x], by simp, hmakes, ?_⟩
      simpa [or_imp, forall_and, hx] using hafter

theorem holds_iff_stands (holds : List α → Prop)
    (hstep : ∀ xs x, holds (xs ++ [x]) ↔ makes xs x ∨ holds xs ∧ ¬ undoes x) (xs : List α) :
    holds xs ↔ holds [] ∧ (∀ x ∈ xs, ¬ undoes x) ∨ Stands makes undoes xs := by
  induction xs using List.reverseRecOn with
  | nil => simp [Stands]
  | append_singleton xs x ih =>
    have hall : (∀ y ∈ xs ++ [x], ¬ undoes y) ↔ (∀ y ∈ xs, ¬ undoes y) ∧ ¬ undoes x := by
      simp [or_imp, forall_and]
    rw [hstep, ih, stands_concat, hall]
    tauto

end Stands

namespace Keypad

def HoldsParen (k : Keypad) : Prop := ∃ key ∈ k.keys, Key.IsParen key

def Typed.Empties : Typed → Prop
  | .key name => ¬ Key.IsEntered name
  | .push => False

variable {k : Keypad}

theorem not_holdsParen_of_keys (h : k.keys = []) : ¬ k.HoldsParen := by
  simp [HoldsParen, h]

theorem Sound.holdsParen_committed (h : Sound k) (keys : List String) (pending : String) :
    (k.withEntry (k.committedKeys ++ keys) pending).HoldsParen ↔
      k.HoldsParen ∨ ∃ key ∈ keys, Key.IsParen key := by
  have hpending : ¬ Key.IsParen k.pending :=
    Key.not_isParen_of_chars fun c hc => (h.form.numerals c hc).imp_right .inl
  unfold committedKeys HoldsParen
  split <;> simp [or_and_right, exists_or, hpending]

theorem keys_press_of_not_isEntered {key : String} (h : ¬ Key.IsEntered key) :
    (k.press key).keys = [] := by
  have hevaluate : k.evaluate.keys = [] := by
    unfold evaluate
    split <;> rfl
  simp only [Key.IsEntered, not_and_or, not_not] at h
  obtain rfl | rfl | rfl := h
  · exact hevaluate
  · rfl
  · rfl

theorem keys_press_of_isEntered {key : String} (h : Key.IsEntered key) :
    (k.press key).keys = k.keys ∧ ¬ Key.IsParen key ∨
      k.press key = k.withEntry (k.committedKeys ++ [key]) "" := by
  obtain ⟨hequals, hclear, hentry⟩ := h
  by_cases hbackspace : key = Key.backspace
  · subst hbackspace
    by_cases hpending : k.pending = ""
    · right
      have hstrike : k.strike Key.backspace = k.enter [Key.backspace] := if_pos hpending
      rw [press, hstrike, enter_refresh]
    · left
      have hstrike : k.strike Key.backspace =
          { k with pending := String.ofList k.pending.toList.dropLast } := if_neg hpending
      rw [press, hstrike]
      exact ⟨rfl, by decide⟩
  · have hsymbol : Stroke.ofKey key = .symbol key := by
      rw [Stroke.ofKey, if_neg hentry, if_neg hclear, if_neg hbackspace, if_neg hequals]
    by_cases hnumeral : k.mode = .rpn ∧ Key.isNumeral key = true
    · left
      obtain ⟨hmode, hnumeral⟩ := hnumeral
      rw [press_numeral hmode hsymbol hnumeral]
      refine ⟨rfl, ?_⟩
      rintro (rfl | rfl) <;> exact absurd hnumeral (by decide)
    · exact .inr (press_symbol hsymbol hnumeral)

theorem Sound.holdsParen_press (h : Sound k) (key : String) :
    (k.press key).HoldsParen ↔ Key.IsParen key ∨ k.HoldsParen ∧ Key.IsEntered key := by
  by_cases hentered : Key.IsEntered key
  · rw [and_iff_left hentered]
    obtain ⟨hkeys, hother⟩ | hpress := keys_press_of_isEntered (k := k) hentered
    · rw [or_iff_right hother, HoldsParen, hkeys, HoldsParen]
    · rw [hpress, h.holdsParen_committed, or_comm]
      simp
  · have hother : ¬ Key.IsParen key := by
      rintro (rfl | rfl) <;> exact hentered (by decide)
    have hnone := not_holdsParen_of_keys (keys_press_of_not_isEntered (k := k) hentered)
    simp [hnone, hother, hentered]

theorem Sound.holdsParen_push (h : Sound k) : k.push.HoldsParen ↔ k.HoldsParen := by
  have hcommitted := h.holdsParen_committed [] ""
  rw [push_eq]
  simpa using hcommitted

/-! ### Frames -/

def Typed.IsParen : Typed → Prop
  | .key name => Key.IsParen name
  | .push => False

theorem Sound.holdsParen_strikeTyped (h : Sound k) (t : Typed) :
    (k.strikeTyped t).HoldsParen ↔ t.IsParen ∨ k.HoldsParen ∧ ¬ t.Empties := by
  cases t with
  | key name =>
    simpa [Typed.IsParen, Typed.Empties, Keypad.strikeTyped] using h.holdsParen_press name
  | push => simpa [Typed.IsParen, Typed.Empties, Keypad.strikeTyped] using h.holdsParen_push

theorem Reachable.holdsParen_foldl (h : Reachable k) (ts : List Typed) :
    (ts.foldl Keypad.strikeTyped k).HoldsParen ↔
      k.HoldsParen ∧ (∀ t ∈ ts, ¬ t.Empties) ∨
        Stands (fun _ t => Typed.IsParen t) Typed.Empties ts := by
  refine holds_iff_stands (fun ts => (ts.foldl Keypad.strikeTyped k).HoldsParen)
    (fun ts t => ?_) ts
  rw [List.foldl_concat]
  exact (h.foldl_strikeTyped ts).consistent.toSound.holdsParen_strikeTyped t

/-! ### The register -/

theorem mode_insertValue (k : Keypad) (v : Rat) : (k.insertValue v).mode = k.mode := by
  cases hmode : k.mode with
  | algebraic | rpn => simp only [insertValue, hmode, enter_eq, refresh]

theorem runMemory_keeps (k : Keypad) (command : Memory.Command) (operand : Option Rat) :
    (k.runMemory command operand).mode = k.mode ∧
      (command ≠ .recall → (k.runMemory command operand).keys = k.keys) := by
  unfold runMemory
  split
  · exact ⟨rfl, fun _ => rfl⟩
  · dsimp only
    split
    · rename_i hrecall
      exact ⟨mode_insertValue _ _, fun hne => absurd hrecall hne⟩
    · exact ⟨rfl, fun _ => rfl⟩

theorem memory_keeps (k : Keypad) (command : Memory.Command) :
    (k.memory command).mode = k.mode ∧
      (command ≠ .recall → (k.memory command).keys = k.keys) := by
  cases command with
  | store | add | subtract =>
    unfold memory
    dsimp only
    split
    · exact ⟨rfl, fun _ => rfl⟩
    · exact k.runMemory_keeps _ _
  | clear => exact k.runMemory_keeps _ _
  | _ =>
    -- recalling, which is refused after an operand
    unfold memory
    dsimp only
    split
    · exact ⟨rfl, fun _ => rfl⟩
    · exact k.runMemory_keeps _ _

theorem Consistent.holdsParen_memory (h : Consistent k) (hmode : k.mode = .rpn)
    (command : Memory.Command) : (k.memory command).HoldsParen ↔ k.HoldsParen := by
  by_cases hcommand : command = .recall
  · subst hcommand
    obtain ⟨store, -, hrecall⟩ := memory_recall (endsWithOperand_rpn hmode)
    have hscale : Decimal.HasScale k.register Decimal.maxScale := h.register.hasScale
    have hother : ¬ Key.IsParen (Decimal.toText k.register) :=
      Key.not_isParen_of_chars (Decimal.chars_toText hscale (Nat.le_refl _))
    have hentered := h.toSound.holdsParen_committed [Decimal.toText k.register] ""
    rw [hrecall, insertValue_rpn hmode]
    simpa [hother, HoldsParen] using hentered
  · rw [HoldsParen, (k.memory_keeps command).2 hcommand, HoldsParen]

end Keypad

namespace Panel

inductive Input
  | frame (events : List Keypad.KeyEvent)
  | click (label : String)
  | setDigits (n : Int)
  | setRounding (mode : RoundingMode)

def input (p : Panel) : Input → Panel
  | .frame events => { p with keypad := p.keypad.typeEvents events }
  | .click label => (p.click? label).getD p
  | .setDigits n => { p with keypad := p.keypad.setDigits n }
  | .setRounding mode => { p with keypad := p.keypad.setRounding mode }

def run (p : Panel) (inputs : List Input) : Panel :=
  inputs.foldl input p

def emptyingLabels : List String :=
  [Key.clearEntry, Key.clear, Key.equals, "Infixe"]

def Input.Empties : Input → Prop
  | .frame events => ∃ t ∈ events.flatMap Keypad.KeyEvent.typedKeys, t.Empties
  | .click label => label ∈ emptyingLabels
  | .setDigits _ | .setRounding _ => False

/-- A parenthesis is typed, and nothing after it in the frame empties the entry. -/
def Input.LeavesParen : Input → Prop
  | .frame events =>
    Stands (fun _ t => t.IsParen) Keypad.Typed.Empties
      (events.flatMap Keypad.KeyEvent.typedKeys)
  | .click _ | .setDigits _ | .setRounding _ => False

def HoldsParen (p : Panel) : Prop := p.keypad.mode = .rpn ∧ p.keypad.HoldsParen

variable {p : Panel} {label : String} {a : PanelAction}

theorem reachable_input (h : Keypad.Reachable p.keypad) (i : Input) :
    Keypad.Reachable (p.input i).keypad := by
  cases i with
  | frame events => exact h.typeEvents events
  | click label =>
    rw [input]
    cases hclick : p.click? label with
    | none => exact h
    | some q => exact h.click hclick
  | setDigits | setRounding => exact h.act (.configure _)

theorem reachable_run (h : Keypad.Reachable p.keypad) (inputs : List Input) :
    Keypad.Reachable (p.run inputs).keypad := by
  induction inputs generalizing p with
  | nil => exact h
  | cons i inputs ih => exact ih (reachable_input h i)

/-! ### Clicks -/

def IsRpnControl (label : String) : PanelAction → Prop
  | .press key => ¬ Key.IsParen key ∧ (Key.IsEntered key ↔ label ∉ emptyingLabels)
  | .selectMode mode => mode = .algebraic ↔ label ∈ emptyingLabels
  | .push | .memory _ | .toggleTrace | .toggleFold => label ∉ emptyingLabels

instance (label : String) : (a : PanelAction) → Decidable (IsRpnControl label a)
  | .press _ => inferInstanceAs (Decidable (_ ∧ _))
  | .selectMode _ => inferInstanceAs (Decidable (_ ↔ _))
  | .push | .memory _ | .toggleTrace | .toggleFold => inferInstanceAs (Decidable (¬ _))

theorem isRpnControl (hmode : p.keypad.mode = .rpn) (h : p.actionOf? label = some (some a)) :
    IsRpnControl label a := by
  have hcontrols : ∀ control ∈ p.controls, ∀ a ∈ control.2, IsRpnControl control.1 a := by
    -- the controls are fixed by the mode and by whether the lower part is shown
    rw [controls_eq, hmode]
    cases p.unfolded <;> decide +kernel
  exact hcontrols _ (actionOf?_eq_some_iff.1 h) a rfl

theorem isSome_of_mem_emptyingLabels (hmode : p.keypad.mode = .rpn)
    (h : label ∈ emptyingLabels) : (p.actionOf? label).join.isSome = true := by
  rw [actionOf?_eq_lookup, controls_eq, hmode]
  revert label
  cases p.unfolded <;> decide +kernel

theorem holdsParen_perform (h : Keypad.Consistent p.keypad) (hmode : p.keypad.mode = .rpn)
    (ha : IsRpnControl label a) :
    (p.perform a).HoldsParen ↔ p.keypad.HoldsParen ∧ label ∉ emptyingLabels := by
  cases a with
  | press key =>
    obtain ⟨hother, hlabel⟩ := ha
    have hpress := h.toSound.holdsParen_press key
    rw [or_iff_right hother, hlabel] at hpress
    rw [HoldsParen, perform, Keypad.mode_press, and_iff_right hmode, hpress]
  | push =>
    have hlabel : label ∉ emptyingLabels := ha
    rw [HoldsParen, perform, Keypad.mode_push, and_iff_right hmode, h.toSound.holdsParen_push,
      and_iff_left hlabel]
  | selectMode mode =>
    have hlabel : mode = .algebraic ↔ label ∈ emptyingLabels := ha
    cases mode with
    | algebraic =>
      have hother : (p.keypad.selectMode .algebraic).mode ≠ .rpn := by
        simp [Keypad.selectMode, hmode]
      rw [HoldsParen, perform, iff_false_left fun hholds => hother hholds.1]
      exact fun hholds => hholds.2 (hlabel.1 rfl)
    | rpn =>
      have hsame : p.keypad.selectMode .rpn = p.keypad := if_pos hmode.symm
      have hstays : label ∉ emptyingLabels := by simpa using hlabel
      rw [HoldsParen, perform, hsame, and_iff_right hmode, and_iff_left hstays]
  | memory command =>
    have hlabel : label ∉ emptyingLabels := ha
    rw [HoldsParen, perform, (p.keypad.memory_keeps command).1, and_iff_right hmode,
      h.holdsParen_memory hmode, and_iff_left hlabel]
  | toggleTrace | toggleFold =>
    have hlabel : label ∉ emptyingLabels := ha
    rw [and_iff_left hlabel]
    exact and_iff_right hmode

theorem holdsParen_click (h : Keypad.Consistent p.keypad) (hmode : p.keypad.mode = .rpn)
    (label : String) :
    (p.input (.click label)).HoldsParen ↔ p.keypad.HoldsParen ∧ label ∉ emptyingLabels := by
  have hunclicked (hnone : (p.actionOf? label).join = none) :
      p.HoldsParen ↔ p.keypad.HoldsParen ∧ label ∉ emptyingLabels := by
    have hlabel : label ∉ emptyingLabels := fun hmem => by
      simpa [hnone] using isSome_of_mem_emptyingLabels hmode hmem
    rw [HoldsParen, and_iff_right hmode, and_iff_left hlabel]
  rw [input, click?]
  cases haction : p.actionOf? label with
  | none => exact hunclicked (by rw [haction]; rfl)
  | some action =>
    cases action with
    | none => exact hunclicked (by rw [haction]; rfl)
    | some a => exact holdsParen_perform h hmode (isRpnControl hmode haction)

theorem not_holdsParen_of_algebraic (hmode : p.keypad.mode = .algebraic) : ¬ p.HoldsParen := by
  rintro ⟨hrpn, -⟩
  rw [hmode] at hrpn
  cases hrpn

theorem not_holdsParen_perform (hmode : p.keypad.mode = .algebraic) (a : PanelAction) :
    ¬ (p.perform a).HoldsParen := by
  cases a with
  | press key => exact not_holdsParen_of_algebraic ((p.keypad.mode_press key).trans hmode)
  | push => exact not_holdsParen_of_algebraic (p.keypad.mode_push.trans hmode)
  | memory command =>
    exact not_holdsParen_of_algebraic ((p.keypad.memory_keeps command).1.trans hmode)
  | toggleTrace | toggleFold => exact not_holdsParen_of_algebraic hmode
  | selectMode mode =>
    cases mode with
    | algebraic =>
      have hsame : p.keypad.selectMode .algebraic = p.keypad := if_pos hmode.symm
      rw [perform, hsame]
      exact not_holdsParen_of_algebraic hmode
    | rpn =>
      have hkeys : (p.keypad.selectMode .rpn).keys = [] := by
        simp [Keypad.selectMode, hmode]
      exact fun hholds => Keypad.not_holdsParen_of_keys hkeys hholds.2

/-! ### Runs -/

theorem holdsParen_input (h : Keypad.Reachable p.keypad) (i : Input) :
    (p.input i).HoldsParen ↔
      p.keypad.mode = .rpn ∧ i.LeavesParen ∨ p.HoldsParen ∧ ¬ i.Empties := by
  cases hmode : p.keypad.mode with
  | algebraic =>
    have hnone := not_holdsParen_of_algebraic hmode
    have hafter : ¬ (p.input i).HoldsParen := by
      cases i with
      | frame events =>
        exact not_holdsParen_of_algebraic ((p.keypad.mode_typeEvents events).trans hmode)
      | click label =>
        rw [input, click?]
        cases p.actionOf? label with
        | none => exact hnone
        | some action =>
          cases action with
          | none => exact hnone
          | some a => exact not_holdsParen_perform hmode a
      | setDigits | setRounding => exact hnone
    simp [hnone, hafter]
  | rpn =>
    cases i with
    | frame events =>
      have hframe := h.holdsParen_foldl (events.flatMap Keypad.KeyEvent.typedKeys)
      rw [HoldsParen, input, Keypad.mode_typeEvents, and_iff_right hmode, Keypad.typeEvents, hframe,
        HoldsParen, and_iff_right hmode, Input.Empties, Input.LeavesParen, or_comm]
      simp
    | click label =>
      rw [holdsParen_click h.consistent hmode, HoldsParen, and_iff_right hmode]
      simp [Input.LeavesParen, Input.Empties]
    | setDigits | setRounding =>
      simp [Input.LeavesParen, Input.Empties]
      rfl

/-- In RPN mode a parenthesis stands in the entry if and only if one has been typed in RPN mode and
nothing has emptied the entry since, neither a key of the keyboard nor one of the four controls that
do. What is clicked, recalled or set enters none. -/
theorem holdsParen_run_iff (settings : Settings) (inputs : List Input) :
    (run ⟨{ settings }, true⟩ inputs).HoldsParen ↔
      ∃ before i after, inputs = before ++ i :: after ∧
        ((run ⟨{ settings }, true⟩ before).keypad.mode = .rpn ∧ i.LeavesParen) ∧
        ∀ later ∈ after, ¬ later.Empties := by
  have hstart : ¬ (run ⟨{ settings }, true⟩ []).HoldsParen := not_holdsParen_of_algebraic rfl
  have hstep (inputs : List Input) (i : Input) :
      (run ⟨{ settings }, true⟩ (inputs ++ [i])).HoldsParen ↔
        ((run ⟨{ settings }, true⟩ inputs).keypad.mode = .rpn ∧ i.LeavesParen) ∨
          (run ⟨{ settings }, true⟩ inputs).HoldsParen ∧ ¬ i.Empties := by
    have hreachable := reachable_run (p := ⟨{ settings }, true⟩) (.start settings) inputs
    rw [run, List.foldl_concat]
    exact holdsParen_input hreachable i
  have hstands := holds_iff_stands (fun inputs => (run ⟨{ settings }, true⟩ inputs).HoldsParen)
    hstep inputs
  rwa [and_comm, iff_false_intro hstart, and_false, false_or] at hstands

theorem not_forall_rpn_without_paren :
    ¬ ∀ (settings : Settings) (inputs : List Input),
      (run ⟨{ settings }, true⟩ inputs).keypad.mode = .rpn →
        ∀ key ∈ (run ⟨{ settings }, true⟩ inputs).keypad.keys, ¬ Key.IsParen key := by
  intro h
  exact h {} [.click "RPN", .frame [.typed "("]] (by decide) "(" (by decide) (.inl rfl)

end Panel

end DeskCalculator
