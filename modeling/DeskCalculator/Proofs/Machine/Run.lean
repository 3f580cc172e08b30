import DeskCalculator.Proofs.Expression.Meaning

/-!
Runs of the machine, part by part. A run goes through the stacks that its initial parts lead to, and
what every step gives its new entry holds of all entries on them.
-/
namespace DeskCalculator.Machine

variable {settings : Settings} {stack stack' : List Entry} {ts : List Token}

theorem outcome_append (settings : Settings) (stack : List Entry) (ts us : List Token) :
    (run settings stack (ts ++ us)).outcome =
      (run settings stack ts).outcome.bind fun stack' => (run settings stack' us).outcome := by
  induction ts generalizing stack with
  | nil => rfl
  | cons t ts ih =>
    rw [List.cons_append, outcome_cons, outcome_cons]
    cases step settings stack t with
    | error fault => rfl
    | ok r => exact ih (r.1 :: r.2)

/-- The step `s` of a run is the one at token `i`: it is made on the stack that the tokens before `i`
lead to, and what it pushes is the top of the stack that it leads to. -/
structure StepAt (settings : Settings) (stack : List Entry) (ts : List Token) (i : Nat) (s : Step)
    (before below : List Entry) : Prop where
  token : ts[i]? = some s.token
  reached : (run settings stack (ts.take i)).outcome = .ok before
  made : step settings before s.token = .ok (s.pushed, below)
  left : (run settings stack (ts.take (i + 1))).outcome = .ok (s.pushed :: below)

theorem exists_stepAt_of_steps {i : Nat} {s : Step}
    (h : (run settings stack ts).steps[i]? = some s) :
    ∃ before below, StepAt settings stack ts i s before below := by
  induction ts generalizing stack i with
  | nil => cases h
  | cons t ts ih =>
    rw [run] at h
    cases hstep : step settings stack t with
    | error fault =>
      rw [hstep] at h
      cases h
    | ok r =>
      obtain ⟨e, below⟩ := r
      simp only [hstep] at h
      -- the first token leads from `stack` to `e :: below`, whatever is read after it
      have hcons (us : List Token) : (run settings stack (t :: us)).outcome =
          (run settings (e :: below) us).outcome := by
        rw [outcome_cons, hstep]
        rfl
      cases i with
      | zero =>
        obtain rfl := Option.some.inj h
        exact ⟨stack, below, rfl, rfl, hstep, hcons []⟩
      | succ i =>
        obtain ⟨before, below', hat⟩ := ih h
        refine ⟨before, below', hat.token, ?_, hat.made, ?_⟩
        · rw [List.take_succ_cons, hcons]
          exact hat.reached
        · rw [List.take_succ_cons, hcons]
          exact hat.left

theorem exists_below_of_steps {i : Nat} {s : Step}
    (h : (run settings stack ts).steps[i]? = some s) :
    ∃ below, (run settings stack (ts.take (i + 1))).outcome = .ok (s.pushed :: below) := by
  obtain ⟨before, below, hat⟩ := exists_stepAt_of_steps h
  exact ⟨below, hat.left⟩

theorem length_steps (h : (run settings stack ts).outcome = .ok stack') :
    (run settings stack ts).steps.length = ts.length := by
  induction ts generalizing stack with
  | nil => rfl
  | cons t ts ih =>
    rw [run] at h ⊢
    cases hstep : step settings stack t with
    | error fault =>
      rw [hstep] at h
      cases h
    | ok r =>
      simp only [hstep] at h ⊢
      rw [List.length_cons, List.length_cons, ih h]

theorem mem_of_step {below : List Entry} {t : Token} {e x : Entry}
    (h : step settings stack t = .ok (e, below)) (hx : x ∈ below) : x ∈ stack := by
  obtain ⟨l, -, -, rfl⟩ | ⟨s, x, -, -, rfl⟩ | ⟨op, x, y, -, -, rfl⟩ := step_eq_ok h
  · exact hx
  · exact List.mem_cons_of_mem _ hx
  · exact List.mem_cons_of_mem _ (List.mem_cons_of_mem _ hx)

theorem forall_mem_of_outcome {p : Entry → Prop}
    (hpush : ∀ t ∈ ts, ∀ (stack : List Entry) (e : Entry) (below : List Entry),
      (∀ x ∈ stack, p x) → step settings stack t = .ok (e, below) → p e)
    (hstack : ∀ x ∈ stack, p x) (h : (run settings stack ts).outcome = .ok stack') :
    ∀ x ∈ stack', p x := by
  induction ts generalizing stack with
  | nil => exact Except.ok.inj h ▸ hstack
  | cons t ts ih =>
    rw [outcome_cons] at h
    obtain ⟨⟨e, below⟩, hstep, h⟩ := bind_eq_ok.1 h
    obtain ⟨hfirst, hrest⟩ := List.forall_mem_cons.1 hpush
    -- what lies below the new entry was on the stack before
    refine ih hrest (List.forall_mem_cons.2 ⟨hfirst stack e below hstack hstep, ?_⟩) h
    exact fun x hx => hstack x (mem_of_step hstep hx)

end DeskCalculator.Machine
