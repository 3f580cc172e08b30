import DeskCalculator.Memory
import DeskCalculator.Proofs.Decimal.Scale
import DeskCalculator.Proofs.Outcome

/-!
The value of a register. A command answers with the value that it leaves there, and where it fails
it leaves the value that it found; its two steps on the store, with nothing between them, are the
command.
-/
namespace DeskCalculator.Memory

namespace Store

def value (s : Store) (session : String) : Rat :=
  (s.get? session).getD 0

theorem value_save (s : Store) (a b : String) (v : Rat) :
    (s.save a v).value b = if b = a then v else s.value b := by
  unfold value
  rw [get?_save]
  split <;> rfl

theorem value_erase (s : Store) (a b : String) :
    (s.erase a).value b = if b = a then 0 else s.value b := by
  unfold value
  rw [get?_erase]
  split <;> rfl

theorem value_getOrCreate (s : Store) (a b : String) :
    (s.getOrCreate a).2.value b = s.value b := by
  unfold getOrCreate
  split
  · rfl
  · rename_i hnone
    rw [value_save]
    split
    · rename_i hb
      rw [hb, value, hnone]
      rfl
    · rfl

end Store

theorem Effect.value_apply (e : Effect) (s : Store) (session : String) :
    (e.apply s session).value session = e.answer := by
  cases e with
  | save v => exact (s.value_save session session v).trans (if_pos rfl)
  | erase => exact (s.value_erase session session).trans (if_pos rfl)

theorem Command.hasScale_answer {command : Command} {operand : Option Rat} {current : Rat}
    {digits : Nat} {e : Effect} (h : command.effect operand current = .ok e)
    (hcurrent : Decimal.HasScale current digits)
    (hoperand : ∀ v ∈ operand, Decimal.HasScale v digits) : Decimal.HasScale e.answer digits := by
  have hmax : max digits digits ≤ digits := Nat.le_of_eq (Nat.max_self digits)
  unfold effect at h
  split at h
  · obtain rfl := Except.ok.inj h
    exact Decimal.hasScale_zero digits
  · obtain rfl := Except.ok.inj h
    exact hcurrent
  · obtain rfl := Except.ok.inj h
    exact hoperand _ rfl
  · obtain rfl := Except.ok.inj h
    exact (hcurrent.add (hoperand _ rfl)).mono hmax
  · obtain rfl := Except.ok.inj h
    exact (hcurrent.sub (hoperand _ rfl)).mono hmax
  · cases h

structure Call where
  command : Command
  operand : Option Rat := none
  deriving DecidableEq

namespace Call

def attempt (c : Call) (session : String) (current : Rat) : Except Fault Effect :=
  if Text.IsBlankText session then .error .sessionRequired
  else c.command.effect c.operand current

def read (c : Call) (session : String) (s : Store) : Except Fault Effect × Store :=
  if Text.IsBlankText session then (.error .sessionRequired, s)
  else
    let (current, s) := s.getOrCreate session
    (c.command.effect c.operand current, s)

def run (c : Call) (session : String) (s : Store) : Except Fault Rat × Store :=
  apply s session c.command c.operand

theorem run_eq_read (c : Call) (session : String) (s : Store) :
    c.run session s =
      match c.read session s with
      | (.error fault, s) => (.error fault, s)
      | (.ok e, s) => (.ok e.answer, e.apply s session) := by
  unfold run apply read
  split
  · rfl
  · rcases s.getOrCreate session with ⟨current, s'⟩
    cases h : c.command.effect c.operand current <;> simp only [h]

theorem read_fst (c : Call) (session : String) (s : Store) :
    (c.read session s).1 = c.attempt session (s.value session) := by
  unfold read attempt
  split
  · rfl
  · rw [Store.value, ← Store.getOrCreate_fst]

theorem value_read (c : Call) (session : String) (s : Store) :
    (c.read session s).2.value session = s.value session := by
  unfold read
  split
  · rfl
  · exact s.value_getOrCreate session session

end Call

/-- The value of a register after an answer: the answer itself, and after a fault what was there. -/
def leftBy (answer : Except Fault Rat) (current : Rat) : Rat :=
  match answer with
  | .ok v => v
  | .error _ => current

namespace Call

theorem run_fst (c : Call) (session : String) (s : Store) :
    (c.run session s).1 = (c.attempt session (s.value session)).map Effect.answer := by
  rw [run_eq_read, ← read_fst]
  rcases c.read session s with ⟨_ | e, s'⟩ <;> rfl

theorem exists_effect_of_run {c : Call} {session : String} {s : Store} {v : Rat}
    (h : (c.run session s).1 = .ok v) :
    ∃ e, c.command.effect c.operand (s.value session) = .ok e ∧ e.answer = v := by
  rw [run_fst, map_eq_ok] at h
  obtain ⟨e, he, hanswer⟩ := h
  unfold attempt at he
  split at he
  · cases he
  · exact ⟨e, he, hanswer⟩

theorem value_run (c : Call) (session : String) (s : Store) :
    (c.run session s).2.value session = leftBy (c.run session s).1 (s.value session) := by
  have hread := c.value_read session s
  rw [run_eq_read]
  generalize c.read session s = r at hread
  rcases r with ⟨_ | e, s'⟩
  · exact hread
  · exact e.value_apply s' session

end Call

end DeskCalculator.Memory
