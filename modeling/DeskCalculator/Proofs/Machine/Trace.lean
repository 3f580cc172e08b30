import DeskCalculator.Proofs.Machine.Scale

/-!
The trace of an evaluation. The machine that notes lines makes the same run as the one that does
not, so the trace is a view of that run: without it the result is the same, and with it every token
leaves one line, in the order of the tokens, that names the token's step and the entry on top of the
stack after it.
-/
namespace DeskCalculator

namespace Machine.Noted

def after (m : Noted) (steps : List Step) (stack : List Entry) : Noted :=
  { m with stack, lines := m.lines ++ if m.noting then steps.map Step.line else [] }

theorem push_note (m : Noted) (s : Step) :
    (m.note s.line).push s.pushed = m.after [s] (s.pushed :: m.stack) := by
  obtain ⟨noting, stack, lines⟩ := m
  cases noting <;> simp [note, push, after]

theorem after_cons (m : Noted) (s : Step) (steps : List Step) (stack : List Entry) :
    (m.after [s] stack).after steps = m.after (s :: steps) := by
  funext stack'
  obtain ⟨noting, stack, lines⟩ := m
  cases noting <;> simp [after]

theorem read_eq (settings : Settings) (m : Noted) (t : Token) :
    m.read settings t =
      (step settings m.stack t).map fun r => m.after [⟨t, r.1⟩] (r.1 :: r.2) := by
  cases t with
  | number l => exact congrArg Except.ok (m.push_note ⟨.number l, _⟩)
  | operator op =>
    simp only [read, apply, step]
    cases operate op m.stack with
    | error fault => rfl
    | ok r =>
      obtain ⟨result, below⟩ := r
      exact congrArg Except.ok (push_note { m with stack := below } ⟨.operator op, _⟩)
  | lparen => rfl
  | rparen => rfl

theorem foldlM_read (settings : Settings) (m : Noted) (tokens : List Token) :
    tokens.foldlM (read settings) m =
      (run settings m.stack tokens).outcome.map (m.after (run settings m.stack tokens).steps) := by
  induction tokens generalizing m with
  | nil =>
    obtain ⟨noting, stack, lines⟩ := m
    cases noting <;> simp [run, after, Except.map, pure, Except.pure]
  | cons t tokens ih =>
    rw [List.foldlM_cons, read_eq, run]
    cases step settings m.stack t with
    | error fault => rfl
    | ok r =>
      refine (ih (m.after [⟨t, r.1⟩] (r.1 :: r.2))).trans ?_
      rw [after_cons]
      rfl

theorem evaluate_eq (settings : Settings) (withTrace : Bool) (tokens : List Token) :
    evaluate settings withTrace tokens =
      DeskCalculator.evaluate settings withTrace tokens := by
  rw [evaluate, foldlM_read, DeskCalculator.evaluate]
  dsimp only
  generalize run settings [] tokens = r
  obtain ⟨steps, fault | _ | ⟨e, _ | ⟨e', stack⟩⟩⟩ := r
  · rfl
  · rfl
  · simp [after, pop, Except.map, bind, Except.bind, pure, Except.pure]
  · simp only [after, Except.map, bind, Except.bind]
    rfl

end Machine.Noted

namespace Machine

variable {settings : Settings} {tokens : List Token}

theorem exists_stepAt_of_outcome {stack : List Entry} {i : Nat} {t : Token}
    (h : (run settings [] tokens).outcome = .ok stack) (ht : tokens[i]? = some t) :
    ∃ x before below, (run settings [] tokens).steps[i]? = some ⟨t, x⟩ ∧
      StepAt settings [] tokens i ⟨t, x⟩ before below := by
  have hlt : i < (run settings [] tokens).steps.length := by
    rw [length_steps h]
    exact (List.getElem?_eq_some_iff.1 ht).1
  obtain ⟨⟨u, x⟩, hs⟩ : ∃ s, (run settings [] tokens).steps[i]? = some s :=
    ⟨_, List.getElem?_eq_getElem hlt⟩
  obtain ⟨before, below, hat⟩ := exists_stepAt_of_steps hs
  obtain rfl : u = t := Option.some.inj (hat.token.symm.trans ht)
  exact ⟨x, before, below, hs, hat⟩

theorem exists_getLast?_steps {e : Entry} (h : (run settings [] tokens).outcome = .ok [e]) :
    ∃ t, (run settings [] tokens).steps.getLast? = some ⟨t, e⟩ := by
  have hne : tokens ≠ [] := by
    rintro rfl
    cases h
  have hpos : 0 < tokens.length := List.length_pos_iff.2 hne
  have ht : tokens[tokens.length - 1]? = some (tokens.getLast hne) := by
    rw [← List.getLast?_eq_getElem?, List.getLast?_eq_some_getLast hne]
  obtain ⟨x, before, below, hs, hat⟩ := exists_stepAt_of_outcome h ht
  have hall : tokens.take (tokens.length - 1 + 1) = tokens :=
    List.take_of_length_le (by omega)
  have hleft := hat.left
  rw [hall, h] at hleft
  obtain ⟨rfl, -⟩ := List.cons.inj (Except.ok.inj hleft)
  refine ⟨tokens.getLast hne, ?_⟩
  rw [List.getLast?_eq_getElem?, length_steps h]
  exact hs

theorem postfixTokens_of_evaluate {withTrace : Bool} {e : Evaluation}
    (h : evaluate settings withTrace tokens = .ok e) : e.postfixTokens = tokens := by
  simp only [evaluate] at h
  split at h
  · cases h
  · obtain rfl := Except.ok.inj h
    rfl
  · cases h

end Machine

theorem Step.text_suffix_line (s : Step) : s.pushed.text.toList <:+ s.line.toList := by
  obtain ⟨front, hline⟩ := s.exists_line_eq
  rw [hline]
  exact (List.suffix_cons ' ' _).trans (List.suffix_append front _)

/-- The machine that notes lines evaluates to the same, and a trace leaves the result and every
fault as they are. Without it there are no lines; with it there is one line for each token, and it
shows the entry that the token's step puts on top of the stack, so that the last line ends with the
text of the result. -/
theorem evaluate_trace (settings : Settings) (tokens : List Token) :
    (∀ withTrace,
      Machine.Noted.evaluate settings withTrace tokens = evaluate settings withTrace tokens) ∧
    evaluate settings false tokens =
      (evaluate settings true tokens).map (fun e => { e with trace := [] }) ∧
    ∀ e, evaluate settings true tokens = .ok e →
      e.postfixTokens = tokens ∧
      e.trace.length = tokens.length ∧
      (∀ (i : Nat) (t : Token), tokens[i]? = some t → ∃ before x below,
        (Machine.run settings [] (tokens.take i)).outcome = .ok before ∧
        Machine.step settings before t = .ok (x, below) ∧
        (Machine.run settings [] (tokens.take (i + 1))).outcome = .ok (x :: below) ∧
        ((∃ l, t = .number l ∧ e.trace[i]? = some ("push " ++ x.text)) ∨
          ∃ op, t = .operator op ∧
            e.trace[i]? = some ("apply " ++ op.symbol ++ " -> " ++ x.text))) ∧
      ∃ line, e.trace.getLast? = some line ∧ e.text.toList <:+ line.toList := by
  refine ⟨fun withTrace => Machine.Noted.evaluate_eq settings withTrace tokens, ?_, fun e he => ?_⟩
  · simp only [evaluate]
    split
    · rfl
    · rfl
    · rfl
  · obtain ⟨houtcome, htrace⟩ := Machine.outcome_of_evaluate he
    rw [if_pos rfl] at htrace
    refine ⟨?_, ?_, fun i t ht => ?_, ?_⟩
    · exact Machine.postfixTokens_of_evaluate he
    · rw [htrace, List.length_map, Machine.length_steps houtcome]
    · obtain ⟨x, before, below, hs, hat⟩ := Machine.exists_stepAt_of_outcome houtcome ht
      refine ⟨before, x, below, hat.reached, hat.made, hat.left, ?_⟩
      have hline : e.trace[i]? = some (Step.line ⟨t, x⟩) := by
        rw [htrace, List.getElem?_map, hs, Option.map_some]
      obtain ⟨l, rfl, -, -⟩ | ⟨s, y, rfl, -, -⟩ | ⟨op, y, z, rfl, -, -⟩ :=
        Machine.step_eq_ok hat.made
      · exact .inl ⟨l, rfl, hline⟩
      · exact .inr ⟨.sign s, rfl, hline⟩
      · exact .inr ⟨.binary op, rfl, hline⟩
    · obtain ⟨t, hlast⟩ := Machine.exists_getLast?_steps houtcome
      refine ⟨Step.line ⟨t, e.entry⟩, ?_, Step.text_suffix_line ⟨t, e.entry⟩⟩
      rw [htrace, List.getLast?_map, hlast, Option.map_some]

end DeskCalculator
