import DeskCalculator.Keypad.Panel
import DeskCalculator.Proofs.Keypad.Entry

/-!
The buttons of the pad and the keyboard. No two controls of the panel share a label, so that a click
does what the button with that label does; for each button that can be clicked there is an event of
the keyboard that does the same.
-/
namespace DeskCalculator

namespace Keypad

variable (k : Keypad)

/-! ### Modes and frames -/

theorem mode_enter (keys : List String) : (k.enter keys).mode = k.mode := by
  rw [enter_eq]

theorem mode_evaluate : k.evaluate.mode = k.mode := by
  unfold evaluate
  split <;> rfl

theorem mode_press (key : String) : (k.press key).mode = k.mode := by
  have hstrike : (k.strike key).mode = k.mode := by
    unfold strike
    split
    · exact k.mode_evaluate
    · rfl
    · rfl
    · split
      · exact k.mode_enter [key]
      · rfl
    · split
      · rfl
      · exact k.mode_enter [key]
  exact hstrike

theorem mode_push : k.push.mode = k.mode := by
  rw [push_eq, mode_withEntry]

theorem mode_strikeTyped (t : Typed) : (k.strikeTyped t).mode = k.mode := by
  cases t with
  | key name => exact k.mode_press name
  | push => exact k.mode_push

theorem mode_typeEvents (events : List KeyEvent) : (k.typeEvents events).mode = k.mode := by
  unfold typeEvents
  induction events.flatMap KeyEvent.typedKeys generalizing k with
  | nil => rfl
  | cons t ts ih => exact (ih (k.strikeTyped t)).trans (k.mode_strikeTyped t)

theorem typeEvents_append (es fs : List KeyEvent) :
    k.typeEvents (es ++ fs) = (k.typeEvents es).typeEvents fs := by
  simp only [typeEvents, List.flatMap_append, List.foldl_append]

theorem foldl_typeEvents (frames : List (List KeyEvent)) :
    frames.foldl typeEvents k = k.typeEvents frames.flatten := by
  induction frames generalizing k with
  | nil => rfl
  | cons es frames ih => rw [List.foldl_cons, ih, List.flatten_cons, typeEvents_append]

end Keypad

/-! ### Controls -/

def PanelItem.control? : PanelItem → Option (String × Option PanelAction)
  | .button label enabled action => some (label, if enabled then some action else none)
  | .check label _ action => some (label, some action)
  | _ => none

namespace Panel

variable {p : Panel} {label : String} {a : PanelAction}

def controls (p : Panel) : List (String × Option PanelAction) :=
  p.layout.filterMap PanelItem.control?

theorem controls_eq (p : Panel) :
    p.controls = controls ⟨{ mode := p.keypad.mode }, p.unfolded⟩ := by
  obtain ⟨⟨mode, _, _, _, _, _, _, _, _, _, _, _, _⟩, unfolded⟩ := p
  cases mode <;> cases unfolded <;> rfl

theorem nodup_labels (p : Panel) : (p.controls.map Prod.fst).Nodup := by
  rw [controls_eq]
  cases p.keypad.mode <;> cases p.unfolded <;> decide +kernel

theorem actionOf?_eq_lookup (p : Panel) (label : String) :
    p.actionOf? label = p.controls.lookup label := by
  unfold actionOf? controls
  induction p.layout with
  | nil => rfl
  | cons item items ih =>
    cases item with
    | text | number | choice => exact ih
    | button l enabled action | check l on action =>
      by_cases hlabel : l = label
      · simp [PanelItem.control?, hlabel]
      · have hne : (label == l) = false := beq_eq_false_iff_ne.2 (Ne.symm hlabel)
        simpa [PanelItem.control?, List.lookup_cons, hlabel, hne] using ih

theorem actionOf?_eq_some_iff {action : Option PanelAction} :
    p.actionOf? label = some action ↔ (label, action) ∈ p.controls := by
  rw [actionOf?_eq_lookup, List.lookup_eq_some_iff]
  constructor
  · rintro ⟨before, after, hcontrols, -⟩
    simp [hcontrols]
  · intro hmem
    obtain ⟨before, after, hcontrols⟩ := List.append_of_mem hmem
    have hlabels := nodup_labels p
    rw [hcontrols, List.map_append, List.map_cons, List.nodup_middle, List.nodup_cons,
      List.mem_append, not_or] at hlabels
    obtain ⟨⟨hbefore, -⟩, -⟩ := hlabels
    refine ⟨before, after, hcontrols, fun control hcontrol => ?_⟩
    have hne : label ≠ control.1 := by
      rintro rfl
      exact hbefore (List.mem_map.2 ⟨control, hcontrol, rfl⟩)
    simpa using hne

theorem click?_of_button (h : .button label true a ∈ p.layout) :
    p.click? label = some (p.perform a) := by
  have hcontrol : (label, some a) ∈ p.controls := List.mem_filterMap.2 ⟨_, h, rfl⟩
  rw [click?, actionOf?_eq_some_iff.2 hcontrol]
  rfl

/-! ### The pad -/

def keyEvent (label : String) : Keypad.KeyEvent :=
  if label = Key.clearEntry ∨ label = Key.clear then .control .escape true
  else if label = "⌫" then .control .backspace true
  else if label = Key.equals then .control .enter true
  else if label = "⏎" then .typed " "
  else .typed label

def strikes? : PanelAction → Option Keypad.Typed
  | .press key => some (.key (if key = Key.clear then Key.clearEntry else key))
  | .push => some .push
  | _ => none

theorem press_clear (k : Keypad) : k.press Key.clear = k.press Key.clearEntry := rfl

theorem perform_of_strikes {t : Keypad.Typed} (h : strikes? a = some t) (p : Panel) :
    p.perform a = { p with keypad := p.keypad.strikeTyped t } := by
  cases a with
  | press key =>
    obtain rfl := Option.some.inj h
    split
    · rename_i hclear
      rw [hclear, perform, press_clear, Keypad.strikeTyped]
    · rfl
  | push =>
    obtain rfl := Option.some.inj h
    rfl
  | selectMode | memory | toggleTrace | toggleFold => cases h

/-- What is typed for a button is the one key that it strikes. -/
def IsTyped : PanelItem → Prop
  | .button label true a => (keyEvent label).typedKeys.map some = [strikes? a]
  | _ => True

instance : (item : PanelItem) → Decidable (IsTyped item)
  | .button _ true _ => inferInstanceAs (Decidable (_ = _))
  | .button _ false _ | .check _ _ _ | .text _ | .number _ | .choice _ =>
    inferInstanceAs (Decidable True)

theorem keyRows_congr {k k' : Keypad} (h : k.mode = k'.mode) : keyRows k = keyRows k' := by
  unfold keyRows
  rw [h]

theorem isTyped_keyRows (k : Keypad) : ∀ item ∈ keyRows k, IsTyped item := by
  have hmode : keyRows k = keyRows { mode := k.mode } := keyRows_congr rfl
  rw [hmode]
  cases k.mode <;> decide +kernel

theorem perform_of_button (h : .button label true a ∈ keyRows p.keypad) :
    p.perform a = { p with keypad := p.keypad.typeEvents [keyEvent label] } := by
  have htyped : (keyEvent label).typedKeys.map some = [strikes? a] := isTyped_keyRows _ _ h
  obtain ⟨t, hkeys, hstrikes⟩ := List.map_eq_singleton_iff.1 htyped
  have hevents : p.keypad.typeEvents [keyEvent label] = p.keypad.strikeTyped t := by
    rw [Keypad.typeEvents, List.flatMap_singleton, hkeys]
    rfl
  rw [hevents]
  exact perform_of_strikes hstrikes.symm p

theorem mem_layout_of_mem_keyRows {item : PanelItem} (h : item ∈ keyRows p.keypad) :
    item ∈ p.layout := by
  simp [layout, h]

/-- Clicking on buttons of the pad does what typing the events that stand for them does, in one
frame or in several, however they are cut. -/
theorem clicks_eq_typeEvents (p : Panel) (labels : List String)
    (h : ∀ label ∈ labels, ∃ a, .button label true a ∈ keyRows p.keypad) :
    labels.foldlM click? p =
      some { p with keypad := p.keypad.typeEvents (labels.map keyEvent) } ∧
    ∀ frames : List (List Keypad.KeyEvent), frames.flatten = labels.map keyEvent →
      frames.foldl Keypad.typeEvents p.keypad = p.keypad.typeEvents (labels.map keyEvent) := by
  refine ⟨?_, fun frames hframes => hframes ▸ Keypad.foldl_typeEvents p.keypad frames⟩
  induction labels generalizing p with
  | nil => rfl
  | cons label labels ih =>
    obtain ⟨⟨a, hbutton⟩, hlabels⟩ := List.forall_mem_cons.1 h
    have hclick := click?_of_button (mem_layout_of_mem_keyRows hbutton)
    rw [perform_of_button hbutton] at hclick
    -- typing does not change the mode, so the buttons stay where they are
    have hrows : keyRows (p.keypad.typeEvents [keyEvent label]) = keyRows p.keypad :=
      keyRows_congr (p.keypad.mode_typeEvents _)
    have hrest := ih { p with keypad := p.keypad.typeEvents [keyEvent label] } (by rwa [hrows])
    rw [List.foldlM_cons, hclick, Option.bind_eq_bind, Option.bind_some, hrest,
      ← Keypad.typeEvents_append]
    rfl

theorem clicks_eq_typeEvents_after_fault :
    ["1", "⏎", "+", "=", "2", "⏎"].foldlM click? ⟨{ mode := .rpn }, true⟩ =
      some ⟨[[.typed "1", .typed " "], [.typed "+", .control .enter true, .typed "2"],
        [.typed " "]].foldl Keypad.typeEvents { mode := .rpn }, true⟩ := by
  have hbuttons : ∀ label ∈ ["1", "⏎", "+", "=", "2", "⏎"],
      ∃ a, .button label true a ∈ keyRows { mode := .rpn } := by
    simp [keyRows, keyButton, Key.clearEntry, Key.clear, Key.equals]
  have hframes : [[.typed "1", .typed " "], [.typed "+", .control .enter true, .typed "2"],
      [.typed " "]].flatten = ["1", "⏎", "+", "=", "2", "⏎"].map keyEvent := by
    decide
  obtain ⟨hclicks, htyped⟩ := clicks_eq_typeEvents ⟨{ mode := .rpn }, true⟩ _ hbuttons
  rw [hclicks, htyped _ hframes]

end Panel

end DeskCalculator
