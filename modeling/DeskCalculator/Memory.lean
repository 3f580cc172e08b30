import DeskCalculator.Fault
import DeskCalculator.Text.Blank

/-!
Memory registers, one for each session. A register that was never written holds zero. A command
works on the store in atomic steps: it reads its register, then writes or erases it.
-/
namespace DeskCalculator.Memory

structure Store where
  entries : List (String × Rat) := []
  deriving DecidableEq

namespace Store

def get? (s : Store) (session : String) : Option Rat :=
  s.entries.lookup session

def erase (s : Store) (session : String) : Store :=
  ⟨s.entries.filter fun e => e.1 != session⟩

def save (s : Store) (session : String) (value : Rat) : Store :=
  ⟨(session, value) :: (s.erase session).entries⟩

theorem get?_erase (s : Store) (a b : String) :
    (s.erase a).get? b = if b = a then none else s.get? b := by
  obtain ⟨entries⟩ := s
  induction entries with
  | nil => simp [erase, get?]
  | cons e es ih =>
    obtain ⟨key, v⟩ := e
    simp only [get?, erase] at ih ⊢
    grind

theorem get?_save (s : Store) (a b : String) (v : Rat) :
    (s.save a v).get? b = if b = a then some v else s.get? b := by
  have h := get?_erase s a b
  simp only [get?, save] at h ⊢
  grind

/-- The value of a register, and the store in which it exists. -/
def getOrCreate (s : Store) (session : String) : Rat × Store :=
  match s.get? session with
  | some value => (value, s)
  | none => (0, s.save session 0)

theorem getOrCreate_fst (s : Store) (session : String) :
    (s.getOrCreate session).1 = (s.get? session).getD 0 := by
  unfold getOrCreate
  cases s.get? session <;> rfl

end Store

inductive Command
  | clear
  | recall
  | store
  | add
  | subtract
  deriving DecidableEq

inductive Effect
  | save (value : Rat)
  | erase
  deriving DecidableEq

def Command.effect (command : Command) (operand : Option Rat) (current : Rat) :
    Except Fault Effect :=
  match command, operand with
  | .clear, _ => .ok .erase
  | .recall, _ => .ok (.save current)
  | .store, some v => .ok (.save v)
  | .add, some v => .ok (.save (current + v))
  | .subtract, some v => .ok (.save (current - v))
  | _, none => .error .valueRequired

namespace Effect

def answer : Effect → Rat
  | save value => value
  | erase => 0

def apply (e : Effect) (s : Store) (session : String) : Store :=
  match e with
  | save value => s.save session value
  | erase => s.erase session

end Effect

def apply (s : Store) (session : String) (command : Command) (operand : Option Rat) :
    Except Fault Rat × Store :=
  if Text.IsBlankText session then (.error .sessionRequired, s)
  else
    let (current, s) := s.getOrCreate session
    match command.effect operand current with
    | .error fault => (.error fault, s)
    | .ok e => (.ok e.answer, e.apply s session)

def query (s : Store) (session : String) : Except Fault Rat × Store :=
  if Text.IsBlankText session then (.error .sessionRequired, s)
  else
    let (current, s) := s.getOrCreate session
    (.ok current, s)

end DeskCalculator.Memory
