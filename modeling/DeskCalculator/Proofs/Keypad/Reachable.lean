import DeskCalculator.Keypad.Keyboard
import DeskCalculator.Keypad.Panel
import DeskCalculator.Proofs.Keys
import DeskCalculator.Proofs.Machine.Scale
import DeskCalculator.Proofs.Memory.Register

/-!
The states of a keypad. Whatever is done with it, it shows the expression of its entry, the entry
holds no key that would clear or evaluate it, and the texts of the last result and of the register
read back as the values that they stand for.
-/
namespace DeskCalculator

namespace Keypad

inductive Action
  | press (key : String)
  | push
  | selectMode (mode : Mode)
  | memory (command : Memory.Command)
  | configure (settings : Settings)
  | setTrace (on : Bool)

def act (k : Keypad) : Action → Keypad
  | .press key => k.press key
  | .push => k.push
  | .selectMode mode => k.selectMode mode
  | .memory command => k.memory command
  | .configure settings => { k with settings }
  | .setTrace on => { k with withTrace := on }

def run (k : Keypad) (actions : List Action) : Keypad :=
  actions.foldl act k

inductive Reachable : Keypad → Prop
  | start (settings : Settings) : Reachable { settings }
  | act {k : Keypad} (h : Reachable k) (a : Action) : Reachable (k.act a)

theorem Reachable.run {k : Keypad} (h : Reachable k) (actions : List Action) :
    Reachable (k.run actions) := by
  induction actions generalizing k with
  | nil => exact h
  | cons a actions ih => exact ih (h.act a)

/-! What the panel and the keyboard do with a keypad are such actions. -/

theorem Reachable.perform {p : Panel} (h : Reachable p.keypad) (a : PanelAction) :
    Reachable (p.perform a).keypad := by
  cases a with
  | press key => exact h.act (.press key)
  | push => exact h.act .push
  | selectMode mode => exact h.act (.selectMode mode)
  | memory command => exact h.act (.memory command)
  | toggleTrace => exact h.act (.setTrace _)
  | toggleFold => exact h

theorem Reachable.click {p q : Panel} {label : String} (h : Reachable p.keypad)
    (hclick : p.click? label = some q) : Reachable q.keypad := by
  obtain ⟨action, -, rfl⟩ := Option.map_eq_some_iff.1 hclick
  cases action with
  | none => exact h
  | some a => exact h.perform a

theorem Reachable.strikeTyped {k : Keypad} (h : Reachable k) (t : Typed) :
    Reachable (k.strikeTyped t) := by
  cases t with
  | key name => exact h.act (.press name)
  | push => exact h.act .push

theorem Reachable.foldl_strikeTyped {k : Keypad} (h : Reachable k) (ts : List Typed) :
    Reachable (ts.foldl Keypad.strikeTyped k) := by
  induction ts generalizing k with
  | nil => exact h
  | cons t ts ih => exact ih (h.strikeTyped t)

theorem Reachable.typeEvents {k : Keypad} (h : Reachable k) (events : List KeyEvent) :
    Reachable (k.typeEvents events) :=
  h.foldl_strikeTyped _

/-! ### Entries -/

def committedKeys (k : Keypad) : List String :=
  if k.pending = "" then k.keys else k.keys ++ [k.pending]

theorem commit_eq (k : Keypad) : k.commit = { k with keys := k.committedKeys, pending := "" } := by
  unfold commit committedKeys
  split
  · rename_i hempty
    rw [← hempty]
  · rfl

theorem enter_eq (k : Keypad) (keys : List String) :
    k.enter keys = { k with keys := k.committedKeys ++ keys, pending := "" } := by
  rw [enter, commit_eq]

theorem shownExpression_empty (mode : Mode) : shownExpression mode [] "" = "" := by
  cases mode <;> decide

/-- No key of the entry clears or evaluates it, and numbers are pending in RPN mode only. -/
structure InForm (mode : Mode) (keys : List String) (pending : String) : Prop where
  entered : ∀ key ∈ keys, Key.IsEntered key
  numerals : ∀ c ∈ pending.toList, c.isDigit = true ∨ c = '.'
  algebraic : mode = .algebraic → pending = ""

namespace InForm

variable {mode : Mode} {keys : List String} {pending : String}

theorem of_keys (mode : Mode) (h : ∀ key ∈ keys, Key.IsEntered key) : InForm mode keys "" :=
  ⟨h, fun _ hc => absurd hc List.not_mem_nil, fun _ => rfl⟩

theorem empty (mode : Mode) : InForm mode [] "" :=
  of_keys mode fun _ hkey => absurd hkey List.not_mem_nil

theorem isEntered_of_mem_committedKeys {k : Keypad} (h : InForm k.mode k.keys k.pending) :
    ∀ key ∈ k.committedKeys, Key.IsEntered key := by
  unfold committedKeys
  split
  · exact h.entered
  · have hpending : Key.IsEntered k.pending :=
      Stroke.isEntered_of_chars fun c hc => (h.numerals c hc).imp_right .inl
    simpa [or_imp, forall_and, hpending] using h.entered

theorem enter {k : Keypad} (h : InForm k.mode k.keys k.pending) {keys : List String}
    (hkeys : ∀ key ∈ keys, Key.IsEntered key) :
    InForm k.mode (k.committedKeys ++ keys) "" :=
  of_keys k.mode (List.forall_mem_append.2 ⟨h.isEntered_of_mem_committedKeys, hkeys⟩)

theorem append {key : String} (h : InForm .rpn keys pending) (hkey : Key.isNumeral key = true) :
    InForm .rpn keys (pending ++ key) := by
  refine ⟨h.entered, fun c hc => ?_, nofun⟩
  rw [String.toList_append, List.mem_append] at hc
  rcases hc with hc | hc
  · exact h.numerals c hc
  · unfold Key.isNumeral at hkey
    split at hkey
    · rename_i d hd
      rw [hd, List.mem_singleton] at hc
      subst hc
      simpa using hkey
    · cases hkey

theorem dropLast (h : InForm mode keys pending) :
    InForm mode keys (String.ofList pending.toList.dropLast) := by
  refine ⟨h.entered, fun c hc => ?_, fun hmode => ?_⟩
  · rw [String.toList_ofList] at hc
    exact h.numerals c (List.mem_of_mem_dropLast hc)
  · rw [h.algebraic hmode]
    rfl

end InForm

/-! ### Shown values -/

structure Displays (text : String) (v : Rat) : Prop where
  reads : Decimal.ofString? text = some v
  hasScale : Decimal.HasScale v Decimal.maxScale

theorem displays_zero : Displays "0" 0 := ⟨by decide +kernel, Decimal.hasScale_zero _⟩

theorem displays_toText {v : Rat} (h : Decimal.HasScale v Decimal.maxScale) :
    Displays (Decimal.toText v) v := by
  obtain ⟨_, -, hwrites⟩ := Decimal.exists_writes_toText h (Nat.le_refl _)
  exact ⟨hwrites.reads, h⟩

theorem displays_of_answer {c : Calculator} {r : Request} {e : Evaluation}
    (h : c.answer r = .ok e) : Displays e.text e.value := by
  obtain ⟨settings, tokens, -, -, he⟩ := Calculator.stages_of_answer_eq_ok h
  have houtcome := (Machine.outcome_of_evaluate he).1
  have hsettled := Machine.settled_of_outcome houtcome e.entry (List.mem_singleton_self _)
  obtain ⟨_, -, hwrites, -⟩ := hsettled.exists_writes
  exact ⟨hwrites.reads, hsettled.hasScale.mono settings.precision.digits_le_maxScale⟩

theorem text_blank : Evaluation.blank.text = "0" := by decide +kernel

theorem displays_of_answerKeys {c : Calculator} {r : KeyRequest} {e : Evaluation}
    (h : c.answerKeys r = .ok e) : Displays e.text e.value := by
  unfold Calculator.answerKeys at h
  split at h
  · obtain rfl := Except.ok.inj h
    rw [text_blank]
    exact displays_zero
  · exact displays_of_answer h

/-! ### The invariant -/

/-- What holds of a keypad whether or not its expression has been shown anew. -/
structure Sound (k : Keypad) : Prop where
  form : InForm k.mode k.keys k.pending
  result : Displays k.display (k.last.getD 0)
  register : Displays k.memoryText (k.store.value session)

structure Consistent (k : Keypad) : Prop extends Sound k where
  shown : k.expression = shownExpression k.mode k.keys k.pending

variable {k : Keypad}

theorem Sound.refresh (h : Sound k) : Consistent k.refresh :=
  ⟨⟨h.form, h.result, h.register⟩, rfl⟩

theorem Sound.enter (h : Sound k) {keys : List String}
    (hkeys : ∀ key ∈ keys, Key.IsEntered key) : Sound (k.enter keys) := by
  rw [enter_eq]
  exact ⟨h.form.enter hkeys, h.result, h.register⟩

theorem Sound.commit (h : Sound k) : Sound k.commit := by
  rw [commit_eq]
  exact ⟨.of_keys k.mode h.form.isEntered_of_mem_committedKeys, h.result, h.register⟩

theorem Sound.clearEntry (h : Sound k) : Sound k.clearEntry :=
  ⟨.empty k.mode, h.result, h.register⟩

theorem Sound.showFault (h : Sound k) (fault : Fault) : Sound (k.showFault fault) :=
  ⟨h.form, h.result, h.register⟩

theorem Sound.evaluate (h : Sound k) : Sound k.evaluate := by
  unfold Keypad.evaluate
  split
  · rename_i e he
    exact ⟨.empty k.mode, displays_of_answerKeys he, h.register⟩
  · exact h.clearEntry.showFault _

theorem Sound.strike (h : Sound k) (key : String) : Sound (k.strike key) := by
  unfold Keypad.strike
  split
  · exact h.evaluate
  · exact h.clearEntry
  · exact h.clearEntry
  · rename_i hstroke
    split
    · exact h.enter (by simpa using Stroke.isEntered_of_ofKey (.inl hstroke))
    · exact ⟨h.form.dropLast, h.result, h.register⟩
  · rename_i s hstroke
    split
    · -- a digit or a point in RPN mode, the only key that prolongs the pending number
      rename_i hnumeral
      obtain ⟨hmode, hkey⟩ := hnumeral
      have hform := h.form
      rw [hmode] at hform
      refine ⟨?_, h.result, h.register⟩
      show InForm k.mode k.keys (k.pending ++ key)
      rw [hmode]
      exact hform.append hkey
    · exact h.enter (by simpa using Stroke.isEntered_of_ofKey (.inr ⟨s, hstroke⟩))

theorem Consistent.selectMode (h : Consistent k) (mode : Mode) : Consistent (k.selectMode mode) := by
  unfold Keypad.selectMode
  split
  · exact h
  · exact ⟨⟨.empty mode, displays_zero, h.register⟩, (shownExpression_empty mode).symm⟩

theorem Sound.insertValue (h : Sound k) {v : Rat} (hv : Decimal.HasScale v Decimal.maxScale) :
    Consistent (k.insertValue v) := by
  have hchars := Decimal.chars_toText hv (Nat.le_refl _)
  unfold Keypad.insertValue
  split
  · apply Sound.refresh
    apply h.enter
    intro key hkey
    apply Stroke.isEntered_of_chars
    rcases List.mem_append.1 hkey with hsign | hdigit
    · split at hsign
      · obtain rfl := List.mem_singleton.1 hsign
        simp
      · cases hsign
    · obtain ⟨c, hc, rfl⟩ := List.mem_map.1 hdigit
      have hmem : c ∈ Decimal.toChars v := (List.dropWhile_sublist _).subset hc
      rw [Decimal.toText, String.toList_ofList] at hchars
      simpa using hchars c hmem
  · apply Sound.refresh
    apply h.enter
    intro key hkey
    obtain rfl := List.mem_singleton.1 hkey
    exact Stroke.isEntered_of_chars hchars

theorem Consistent.runMemory (h : Consistent k) {command : Memory.Command} {operand : Option Rat}
    (hoperand : ∀ v ∈ operand, Decimal.HasScale v Decimal.maxScale) :
    Consistent (k.runMemory command operand) := by
  have hvalue := Memory.Call.value_run ⟨command, operand⟩ session k.store
  unfold Keypad.runMemory
  split
  · rename_i fault store hrun
    have hregister : Displays k.memoryText (store.value session) := by
      rw [Memory.Call.run, hrun] at hvalue
      rw [hvalue]
      exact h.register
    exact ⟨⟨h.form, h.result, hregister⟩, h.shown⟩
  · -- the answer is what the register holds now, and that is what the text is made from
    rename_i v store hrun
    obtain ⟨e, he, rfl⟩ := Memory.Call.exists_effect_of_run (c := ⟨command, operand⟩)
      (congrArg Prod.fst hrun)
    have hscale := Memory.Command.hasScale_answer he h.register.hasScale hoperand
    have hregister : Displays (Decimal.toText e.answer) (store.value session) := by
      rw [Memory.Call.run, hrun] at hvalue
      rw [hvalue]
      exact displays_toText hscale
    have hnext : Consistent { k with store, memoryText := Decimal.toText e.answer } :=
      ⟨⟨h.form, h.result, hregister⟩, h.shown⟩
    dsimp only
    split
    · exact hnext.toSound.insertValue hscale
    · exact hnext

theorem Consistent.memory (h : Consistent k) (command : Memory.Command) :
    Consistent (k.memory command) := by
  have hrefused (error : String) : Consistent { k with error } :=
    ⟨⟨h.form, h.result, h.register⟩, h.shown⟩
  have hnone : ∀ v ∈ (none : Option Rat), Decimal.HasScale v Decimal.maxScale := nofun
  cases command with
  | store | add | subtract =>
    unfold Keypad.memory
    dsimp only
    split
    · exact hrefused _
    · rename_i v hlast
      have hscale := h.result.hasScale
      rw [hlast] at hscale
      exact h.runMemory (by simpa using hscale)
  | clear =>
    unfold Keypad.memory
    exact h.runMemory hnone
  | _ =>
    -- recalling, which is refused after an operand
    unfold Keypad.memory
    dsimp only
    split
    · exact hrefused _
    · exact h.runMemory hnone

theorem Consistent.act (h : Consistent k) (a : Action) : Consistent (k.act a) := by
  cases a with
  | press key => exact (h.toSound.strike key).refresh
  | push => exact h.toSound.commit.refresh
  | selectMode mode => exact h.selectMode mode
  | memory command => exact h.memory command
  | configure settings => exact ⟨⟨h.form, h.result, h.register⟩, h.shown⟩
  | setTrace on => exact ⟨⟨h.form, h.result, h.register⟩, h.shown⟩

theorem Reachable.consistent (h : Reachable k) : Consistent k := by
  induction h with
  | start settings =>
    refine ⟨⟨.empty .algebraic, displays_zero, displays_zero⟩, ?_⟩
    exact (shownExpression_empty .algebraic).symm
  | act h a ih => exact ih.act a

/-- However a keypad has been used, it shows the expression of its entry; only digits and points are
pending, and none in algebraic mode; no key of the entry evaluates or clears it; the display reads as
the last result, zero where there is none, and the text of the register as the register. -/
theorem Reachable.represents (h : Reachable k) :
    k.expression = shownExpression k.mode k.keys k.pending ∧
    ((∀ c ∈ k.pending.toList, c.isDigit = true ∨ c = '.') ∧
      (k.mode = .algebraic → k.pending = "")) ∧
    (Key.equals ∉ k.keys ∧ Key.clear ∉ k.keys ∧ Key.clearEntry ∉ k.keys) ∧
    Decimal.ofString? k.display = some (k.last.getD 0) ∧
    Decimal.ofString? k.memoryText = some ((k.store.get? session).getD 0) := by
  have hk := h.consistent
  refine ⟨hk.shown, ⟨hk.form.numerals, hk.form.algebraic⟩, ⟨?_, ?_, ?_⟩, hk.result.reads,
    hk.register.reads⟩
  · intro hmem
    exact (hk.form.entered _ hmem).1 rfl
  · intro hmem
    exact (hk.form.entered _ hmem).2.1 rfl
  · intro hmem
    exact (hk.form.entered _ hmem).2.2 rfl

theorem represents_recalled_value :
    "-2 5" = shownExpression .rpn ["-2"] "5" ∧ Decimal.ofString? "-2" = some (-2) := by
  have hrun : run {} [.selectMode .rpn, .press "4", .push, .press "6", .press "-",
      .press Key.equals, .memory .store, .memory .recall, .press "5"] =
      { mode := .rpn, keys := ["-2"], pending := "5", expression := "-2 5", display := "-2",
        postfixText := "4 6 -", trace := ["push 4", "push 6", "apply - -> -2"], last := some (-2),
        memoryText := "-2", store := ⟨[("local", -2)]⟩ } := by
    decide +kernel
  have hreachable := (Reachable.start {}).run [.selectMode .rpn, .press "4", .push, .press "6",
    .press "-", .press Key.equals, .memory .store, .memory .recall, .press "5"]
  rw [hrun] at hreachable
  obtain ⟨hshown, -, -, -, hregister⟩ := hreachable.represents
  exact ⟨hshown, hregister⟩

end Keypad

end DeskCalculator
