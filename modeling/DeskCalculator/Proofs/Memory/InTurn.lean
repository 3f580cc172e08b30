import DeskCalculator.Proofs.Memory.Register
import Mathlib.Algebra.Ring.Rat

/-!
Commands one after another. Commands that were done somehow, each with the answer that belongs to
the value that it had read, have the same answers in turn exactly when each of them that builds on
the register has read what the one before it left.
-/
namespace DeskCalculator.Memory

def Command.buildsOnRegister : Command → Bool
  | .recall | .add | .subtract => true
  | .clear | .store => false

structure Completed (ι : Type) where
  client : ι
  call : Call
  current : Rat
  answer : Except Fault Rat
  deriving DecidableEq

variable {ι : Type} {session : String} {x : Rat}

def runInTurn (session : String) : Store → List Call → List (Except Fault Rat) × Store
  | s, [] => ([], s)
  | s, c :: calls =>
    let rest := runInTurn session (c.run session s).2 calls
    ((c.run session s).1 :: rest.1, rest.2)

def registerAfter (x : Rat) (done : List (Completed ι)) : Rat :=
  done.foldl (fun v e => leftBy e.answer v) x

/-- Each command that builds on the register has read what the one before it left, the first one
`x`; a command that fails builds on nothing. -/
def InTurn : Rat → List (Completed ι) → Prop
  | _, [] => True
  | x, e :: done =>
    (∀ v, e.answer = .ok v → e.call.command.buildsOnRegister = true → e.current = x) ∧
      InTurn (leftBy e.answer x) done

def Completed.IsOwn (session : String) (e : Completed ι) : Prop :=
  e.answer = (e.call.attempt session e.current).map Effect.answer

theorem registerAfter_concat (done : List (Completed ι)) (e : Completed ι) :
    registerAfter x (done ++ [e]) = leftBy e.answer (registerAfter x done) :=
  List.foldl_concat ..

theorem inTurn_concat {done : List (Completed ι)} {e : Completed ι} :
    InTurn x (done ++ [e]) ↔ InTurn x done ∧
      ∀ v, e.answer = .ok v → e.call.command.buildsOnRegister = true →
        e.current = registerAfter x done := by
  induction done generalizing x with
  | nil => exact and_comm
  | cons d done ih =>
    have hrest := ih (x := leftBy d.answer x)
    simp only [List.cons_append, InTurn, hrest, and_assoc]
    rfl

theorem Completed.IsOwn.answer_eq_iff {e : Completed ι} (h : e.IsOwn session) (x : Rat) :
    (e.call.attempt session x).map Effect.answer = e.answer ↔
      ∀ v, e.answer = .ok v → e.call.command.buildsOnRegister = true → e.current = x := by
  obtain ⟨i, ⟨command, operand⟩, current, answer⟩ := e
  simp only [IsOwn] at h
  subst h
  unfold Call.attempt
  split
  · simp [Except.map]
  · cases command <;> cases operand <;>
      simp [Command.effect, Command.buildsOnRegister, Except.map, Effect.answer, eq_comm]

theorem answers_runInTurn_iff {s : Store} {done : List (Completed ι)}
    (h : ∀ e ∈ done, e.IsOwn session) :
    (runInTurn session s (done.map Completed.call)).1 = done.map Completed.answer ↔
      InTurn (s.value session) done := by
  induction done generalizing s with
  | nil => exact iff_of_true rfl trivial
  | cons e done ih =>
    obtain ⟨he, hdone⟩ := List.forall_mem_cons.1 h
    have hfirst := he.answer_eq_iff (s.value session)
    rw [← Call.run_fst] at hfirst
    simp only [List.map_cons, runInTurn, List.cons.injEq, InTurn, ← hfirst]
    refine and_congr_right fun hanswer => ?_
    have hvalue := e.call.value_run session s
    rw [hanswer] at hvalue
    rw [ih hdone, hvalue]

theorem value_runInTurn {s : Store} {done : List (Completed ι)}
    (h : (runInTurn session s (done.map Completed.call)).1 = done.map Completed.answer) :
    (runInTurn session s (done.map Completed.call)).2.value session =
      registerAfter (s.value session) done := by
  induction done generalizing s with
  | nil => rfl
  | cons e done ih =>
    simp only [List.map_cons, runInTurn, List.cons.injEq] at h ⊢
    obtain ⟨hanswer, hrest⟩ := h
    have hvalue := e.call.value_run session s
    rw [hanswer] at hvalue
    rw [ih hrest, hvalue]
    rfl

end DeskCalculator.Memory
