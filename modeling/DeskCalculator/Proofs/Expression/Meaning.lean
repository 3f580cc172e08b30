import DeskCalculator.Machine
import DeskCalculator.Proofs.Expression.Postorder
import DeskCalculator.Proofs.Outcome

/-!
The meaning of an expression, rounded at every node. The stack machine computes the meaning of the
tree whose postorder it reads, and comes to a value on no other tokens.
-/
namespace DeskCalculator

def Evaluation.entry (e : Evaluation) : Entry :=
  ⟨e.value, e.scale⟩

namespace Expression

def signed (settings : Settings) (s : Sign) (x : Entry) : Except Fault Entry :=
  ((Operator.sign s).applyUnary x.value).map fun v =>
    ⟨roundTo settings.rounding settings.precision.digits v,
      min ((Operator.sign s).resultScale x.scale 0 v) settings.precision.digits⟩

def combined (settings : Settings) (op : BinaryOp) (x y : Entry) : Except Fault Entry :=
  ((Operator.binary op).applyBinary x.value y.value).map fun v =>
    ⟨roundTo settings.rounding settings.precision.digits v,
      min ((Operator.binary op).resultScale x.scale y.scale v) settings.precision.digits⟩

/-- The value of an expression. A fault of the left operand comes before one of the right operand,
and both come before a fault of the operator. -/
def meaning (settings : Settings) : Expression → Except Fault Entry
  | number l =>
    .ok ⟨roundTo settings.rounding settings.precision.digits l.value,
      min l.scale settings.precision.digits⟩
  | sign s operand => (operand.meaning settings).bind (signed settings s)
  | binary op left right =>
    (left.meaning settings).bind fun x =>
      (right.meaning settings).bind fun y => combined settings op x y

theorem exists_settle_of_signed {settings : Settings} {s : Sign} {x y : Entry}
    (h : signed settings s x = .ok y) :
    ∃ v, (Operator.sign s).applyUnary x.value = .ok v ∧
      y = Entry.settle settings ⟨v, (Operator.sign s).resultScale x.scale 0 v⟩ := by
  obtain ⟨v, hv, rfl⟩ := map_eq_ok.1 h
  exact ⟨v, hv, rfl⟩

theorem exists_settle_of_combined {settings : Settings} {op : BinaryOp} {x y z : Entry}
    (h : combined settings op x y = .ok z) :
    ∃ v, (Operator.binary op).applyBinary x.value y.value = .ok v ∧
      z = Entry.settle settings ⟨v, (Operator.binary op).resultScale x.scale y.scale v⟩ := by
  obtain ⟨v, hv, rfl⟩ := map_eq_ok.1 h
  exact ⟨v, hv, rfl⟩

theorem signed_isOk (settings : Settings) (s : Sign) (x : Entry) :
    ∃ y, signed settings s x = .ok y := by
  cases s <;> exact ⟨_, rfl⟩

theorem combined_fault {settings : Settings} {op : BinaryOp} {x y : Entry} {fault : Fault}
    (h : combined settings op x y = .error fault) :
    fault = .divisionByZero ∨ fault = .powerNotFinite := by
  cases op with
  | add | subtract | multiply => cases h
  | divide =>
    by_cases hy : y.value = 0
    · rw [combined, Operator.applyBinary, if_pos hy] at h
      exact .inl (Except.error.inj h).symm
    · rw [combined, Operator.applyBinary, if_neg hy] at h
      cases h
  | power =>
    simp only [combined, Operator.applyBinary, power] at h
    split at h
    · cases h
    · exact .inr (Except.error.inj h).symm

theorem meaning_fault {settings : Settings} {t : Expression} {fault : Fault}
    (h : t.meaning settings = .error fault) :
    fault = .divisionByZero ∨ fault = .powerNotFinite := by
  induction t with
  | number l => cases h
  | sign s operand ih =>
    rcases bind_eq_error.1 h with hx | ⟨x, -, h⟩
    · exact ih hx
    · obtain ⟨y, hy⟩ := signed_isOk settings s x
      rw [hy] at h
      cases h
  | binary op left right ihl ihr =>
    rcases bind_eq_error.1 h with hx | ⟨x, -, h⟩
    · exact ihl hx
    rcases bind_eq_error.1 h with hy | ⟨y, -, h⟩
    · exact ihr hy
    · exact combined_fault h

end Expression

namespace Machine
open Expression

theorem outcome_cons (settings : Settings) (stack : List Entry) (t : Token) (ts : List Token) :
    (run settings stack (t :: ts)).outcome =
      (step settings stack t).bind fun r => (run settings (r.1 :: r.2) ts).outcome := by
  rw [run]
  cases step settings stack t <;> rfl

theorem step_sign (settings : Settings) (s : Sign) (x : Entry) (stack : List Entry) :
    step settings (x :: stack) (.operator (.sign s)) =
      (signed settings s x).map fun e => (e, stack) := by
  cases s <;> rfl

theorem step_binary (settings : Settings) (op : BinaryOp) (x y : Entry) (stack : List Entry) :
    step settings (y :: x :: stack) (.operator (.binary op)) =
      (combined settings op x y).map fun e => (e, stack) := by
  have harity : ¬ (y :: x :: stack).length < (Operator.binary op).arity := by
    simp only [List.length_cons, Operator.arity, Operator.fixity]
    omega
  simp only [step, operate, if_neg harity, Operator.fixity, pop, combined, bind, Except.bind]
  cases (Operator.binary op).applyBinary x.value y.value <;> rfl

theorem outcome_postorder (settings : Settings) (t : Expression) (stack : List Entry)
    (ts : List Token) :
    (run settings stack (t.postorder ++ ts)).outcome =
      (t.meaning settings).bind fun e => (run settings (e :: stack) ts).outcome := by
  -- on the tree, for all that may be below it on the stack and all tokens after it
  induction t generalizing stack ts with
  | number l => exact outcome_cons settings stack (.number l) ts
  | sign s operand ih =>
    rw [postorder, List.append_assoc, ih, meaning]
    cases operand.meaning settings with
    | error fault => rfl
    | ok x =>
      simp only [Except.bind, List.singleton_append]
      rw [outcome_cons, step_sign]
      cases signed settings s x <;> rfl
  | binary op left right ihl ihr =>
    rw [postorder, List.append_assoc, List.append_assoc, ihl, meaning]
    cases left.meaning settings with
    | error fault => rfl
    | ok x =>
      simp only [Except.bind]
      rw [ihr]
      cases right.meaning settings with
      | error fault => rfl
      | ok y =>
        simp only [Except.bind, List.singleton_append]
        rw [outcome_cons, step_binary]
        cases combined settings op x y <;> rfl

theorem step_eq_ok {settings : Settings} {stack below : List Entry} {t : Token} {e : Entry}
    (h : step settings stack t = .ok (e, below)) :
    (∃ l, t = .number l ∧ e = Entry.settle settings ⟨l.value, l.scale⟩ ∧ stack = below) ∨
    (∃ s x, t = .operator (.sign s) ∧ signed settings s x = .ok e ∧ stack = x :: below) ∨
    ∃ op x y, t = .operator (.binary op) ∧ combined settings op x y = .ok e ∧
      stack = y :: x :: below := by
  rcases t with l | (s | op) | _ | _
  · obtain ⟨rfl, rfl⟩ := Prod.mk.inj (Except.ok.inj h)
    exact .inl ⟨l, rfl, rfl, rfl⟩
  · match stack with
    | [] => cases h
    | x :: stack =>
      rw [step_sign] at h
      obtain ⟨y, hy, hr⟩ := map_eq_ok.1 h
      obtain ⟨rfl, rfl⟩ := Prod.mk.inj hr
      exact .inr (.inl ⟨s, x, rfl, hy, rfl⟩)
  · match stack with
    | [] | [x] => cases h
    | y :: x :: stack =>
      rw [step_binary] at h
      obtain ⟨z, hz, hr⟩ := map_eq_ok.1 h
      obtain ⟨rfl, rfl⟩ := Prod.mk.inj hr
      exact .inr (.inr ⟨op, x, y, rfl, hz, rfl⟩)
  · cases h
  · cases h

theorem push?_of_step {settings : Settings} {stack below : List Entry} {t : Token} {e : Entry}
    {forest : List Expression} (hlen : forest.length = stack.length)
    (h : step settings stack t = .ok (e, below)) :
    ∃ forest', push? forest t = some forest' ∧ forest'.length = below.length + 1 := by
  obtain ⟨l, rfl, -, rfl⟩ | ⟨s, x, rfl, -, rfl⟩ | ⟨op, x, y, rfl, -, rfl⟩ := step_eq_ok h
  · exact ⟨.number l :: forest, rfl, congrArg (· + 1) hlen⟩
  · match forest, hlen with
    | operand :: forest, hlen => exact ⟨.sign s operand :: forest, rfl, hlen⟩
  · match forest, hlen with
    | right :: left :: forest, hlen =>
      exact ⟨.binary op left right :: forest, rfl, Nat.succ.inj hlen⟩

theorem foldlM_push?_of_outcome {settings : Settings} {stack stack' : List Entry}
    {ts : List Token} {forest : List Expression} (hlen : forest.length = stack.length)
    (h : (run settings stack ts).outcome = .ok stack') :
    ∃ forest', ts.foldlM push? forest = some forest' ∧ forest'.length = stack'.length := by
  induction ts generalizing stack forest with
  | nil =>
    obtain rfl := Except.ok.inj h
    exact ⟨forest, rfl, hlen⟩
  | cons t ts ih =>
    rw [outcome_cons] at h
    obtain ⟨⟨e, below⟩, hs, h⟩ := bind_eq_ok.1 h
    obtain ⟨middle, hm, hlen⟩ := push?_of_step hlen hs
    obtain ⟨forest', hf, hlen⟩ := ih hlen h
    refine ⟨forest', ?_, hlen⟩
    rw [List.foldlM_cons, hm]
    exact hf

theorem outcome_of_evaluate {settings : Settings} {withTrace : Bool}
    {ts : List Token} {e : Evaluation}
    (h : evaluate settings withTrace ts = .ok e) :
    (run settings [] ts).outcome = .ok [e.entry] ∧
      e.trace = if withTrace then (run settings [] ts).steps.map Step.line else [] := by
  simp only [evaluate] at h
  split at h
  · cases h
  · rename_i hx
    obtain rfl := Except.ok.inj h
    exact ⟨hx, rfl⟩
  · cases h

end Machine

namespace Expression

theorem entry_evaluate_postorder (settings : Settings) (withTrace : Bool) (t : Expression) :
    (evaluate settings withTrace t.postorder).map Evaluation.entry = t.meaning settings := by
  have h := Machine.outcome_postorder settings t [] []
  rw [List.append_nil] at h
  simp only [evaluate, h]
  cases t.meaning settings <;> rfl

theorem exists_postorder_of_evaluate {settings : Settings} {withTrace : Bool}
    {tokens : List Token} {e : Evaluation} (h : evaluate settings withTrace tokens = .ok e) :
    ∃ t : Expression, t.postorder = tokens := by
  obtain ⟨hx, -⟩ := Machine.outcome_of_evaluate h
  -- what succeeds on values succeeds on as many trees, here on one
  have hlen : ([] : List Expression).length = ([] : List Entry).length := rfl
  obtain ⟨forest, hf, hlen⟩ := Machine.foldlM_push?_of_outcome hlen hx
  obtain ⟨t, rfl⟩ := List.length_eq_one_iff.1 hlen
  exact ⟨t, foldlM_push?_eq_some_iff.1 hf⟩

/-- On the postorder of a tree the machine gives the meaning of the tree, and a value or the fault
of a division or a power; a value comes from the postorder of one tree only, and what is the
postorder of no tree is a fault. -/
theorem evaluate_eq_meaning_of_unique_tree (settings : Settings) (withTrace : Bool)
    (tokens : List Token) :
    (∀ t : Expression, t.postorder = tokens →
      (evaluate settings withTrace tokens).map Evaluation.entry = t.meaning settings ∧
        ∀ fault, t.meaning settings = .error fault →
          fault = .divisionByZero ∨ fault = .powerNotFinite) ∧
    (∀ e, evaluate settings withTrace tokens = .ok e →
      ∃ t : Expression, t.postorder = tokens ∧ ∀ u : Expression, u.postorder = tokens → u = t) ∧
    ((∀ t : Expression, t.postorder ≠ tokens) →
      ∃ fault, evaluate settings withTrace tokens = .error fault) := by
  refine ⟨?_, ?_, ?_⟩
  · rintro t rfl
    exact ⟨entry_evaluate_postorder settings withTrace t, fun _ => meaning_fault⟩
  · intro e he
    obtain ⟨t, rfl⟩ := exists_postorder_of_evaluate he
    exact ⟨t, rfl, fun u hu => postorder_inj.1 hu⟩
  · intro hnone
    cases he : evaluate settings withTrace tokens with
    | error fault => exact ⟨fault, rfl⟩
    | ok e =>
      obtain ⟨t, ht⟩ := exists_postorder_of_evaluate he
      exact absurd ht (hnone t)

end Expression

end DeskCalculator
