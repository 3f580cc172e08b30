import DeskCalculator.Proofs.Memory.Register
import Mathlib.Algebra.Ring.Rat
import Mathlib.Logic.Function.Basic

/-!
A store in use by any number of sessions. Registers come into being when they are read and vanish
when they are cleared, but none of this can be told from the answers: they are those of a map that
has a value for every session, zero until something else is put there.
-/
namespace DeskCalculator.Memory

def Command.takesOperand : Command → Bool
  | .store | .add | .subtract => true
  | .clear | .recall => false

inductive Operation
  | command (call : Call)
  | query
  | read
  | save (value : Rat)
  | erase
  deriving DecidableEq

structure Access where
  session : String
  operation : Operation
  deriving DecidableEq

abbrev Answer := Except Fault (Option Rat)

namespace Operation

def leaves (current : Rat) : Operation → Rat
  | command ⟨.clear, _⟩ | erase => 0
  | command ⟨.store, some v⟩ | save v => v
  | command ⟨.add, some v⟩ => current + v
  | command ⟨.subtract, some v⟩ => current - v
  | command ⟨_, _⟩ | query | read => current

def shown (value : Rat) : Operation → Option Rat
  | command _ | query | read => some value
  | save _ | erase => none

end Operation

namespace Access

def run (a : Access) (s : Store) : Answer × Store :=
  match a.operation with
  | .command call => ((call.run a.session s).1.map some, (call.run a.session s).2)
  | .query => ((Memory.query s a.session).1.map some, (Memory.query s a.session).2)
  | .read => (.ok (some (s.getOrCreate a.session).1), (s.getOrCreate a.session).2)
  | .save value => (.ok none, s.save a.session value)
  | .erase => (.ok none, s.erase a.session)

def refusal? (a : Access) : Option Fault :=
  match a.operation with
  | .command call =>
    if Text.IsBlankText a.session then some .sessionRequired
    else if call.command.takesOperand && call.operand.isNone then some .valueRequired
    else none
  | .query => if Text.IsBlankText a.session then some .sessionRequired else none
  | .read | .save _ | .erase => none

/-- The access to a map that has a value for every session. -/
def onMap (a : Access) (values : String → Rat) : Answer × (String → Rat) :=
  match a.refusal? with
  | some fault => (.error fault, values)
  | none =>
    let value := a.operation.leaves (values a.session)
    (.ok (a.operation.shown value), Function.update values a.session value)

end Access

def transcript {σ : Type} (step : Access → σ → Answer × σ) :
    σ → List Access → List (Access × Answer)
  | _, [] => []
  | s, a :: accesses => (a, (step a s).1) :: transcript step (step a s).2 accesses

namespace Store

theorem value_save_eq_update (s : Store) (session : String) (v : Rat) :
    (s.save session v).value = Function.update s.value session v := by
  funext b
  rw [value_save, Function.update_apply]

theorem value_erase_eq_update (s : Store) (session : String) :
    (s.erase session).value = Function.update s.value session 0 := by
  funext b
  rw [value_erase, Function.update_apply]

theorem value_getOrCreate_eq (s : Store) (session : String) :
    (s.getOrCreate session).2.value = s.value := by
  funext b
  exact s.value_getOrCreate session b

end Store

namespace Call

variable (c : Call) (session : String) (s : Store)

theorem value_read_eq : (c.read session s).2.value = s.value := by
  unfold read
  split
  · rfl
  · exact s.value_getOrCreate_eq session

theorem value_run_eq_update :
    (c.run session s).2.value =
      Function.update s.value session (leftBy (c.run session s).1 (s.value session)) := by
  have hread := c.value_read_eq session s
  rw [run_eq_read]
  generalize c.read session s = r at hread
  rcases r with ⟨fault | e, s'⟩
  · exact hread.trans (Function.update_eq_self session s.value).symm
  · rw [← show s'.value = s.value from hread]
    cases e with
    | save v => exact s'.value_save_eq_update session v
    | erase => exact s'.value_erase_eq_update session

theorem run_fst_eq_refusal? :
    (c.run session s).1 = match Access.refusal? ⟨session, .command c⟩ with
      | some fault => .error fault
      | none => .ok ((Operation.command c).leaves (s.value session)) := by
  rw [run_fst]
  unfold attempt Access.refusal?
  obtain ⟨command, operand⟩ := c
  by_cases hblank : Text.IsBlankText session
  · simp only [if_pos hblank]
    rfl
  · simp only [if_neg hblank]
    cases command <;> cases operand <;> rfl

end Call

namespace Access

theorem onMap_of_refusal? {a : Access} {fault : Fault} (h : a.refusal? = some fault)
    (values : String → Rat) : a.onMap values = (.error fault, values) := by
  simp only [onMap, h]

theorem onMap_of_not_refused {a : Access} (h : a.refusal? = none) (values : String → Rat) :
    a.onMap values = (.ok (a.operation.shown (a.operation.leaves (values a.session))),
      Function.update values a.session (a.operation.leaves (values a.session))) := by
  simp only [onMap, h]

theorem onMap_value (a : Access) (s : Store) :
    a.onMap s.value = ((a.run s).1, (a.run s).2.value) := by
  obtain ⟨session, operation⟩ := a
  cases operation with
  | command call =>
    have hanswer := call.run_fst_eq_refusal? session s
    have hvalue := call.value_run_eq_update session s
    cases h : refusal? ⟨session, .command call⟩ with
    | some fault =>
      simp only [h] at hanswer
      rw [hanswer, leftBy, Function.update_eq_self] at hvalue
      rw [onMap_of_refusal? h]
      simp only [run, hanswer, hvalue]
      rfl
    | none =>
      simp only [h] at hanswer
      rw [hanswer, leftBy] at hvalue
      rw [onMap_of_not_refused h]
      simp only [run, hanswer, hvalue]
      rfl
  | query =>
    by_cases hblank : Text.IsBlankText session
    · rw [onMap_of_refusal? (show refusal? ⟨session, .query⟩ = _ from if_pos hblank)]
      simp only [run, Memory.query, if_pos hblank]
      rfl
    · rw [onMap_of_not_refused (show refusal? ⟨session, .query⟩ = _ from if_neg hblank)]
      simp only [run, Memory.query, if_neg hblank, s.getOrCreate_fst, s.value_getOrCreate_eq]
      exact congrArg _ (Function.update_eq_self session s.value)
  | read =>
    simp only [run, s.getOrCreate_fst, s.value_getOrCreate_eq]
    exact congrArg _ (Function.update_eq_self session s.value)
  | save v =>
    simp only [run, s.value_save_eq_update]
    rfl
  | erase =>
    simp only [run, s.value_erase_eq_update]
    rfl

end Access

section Transcript

variable {σ τ : Type} {step : Access → σ → Answer × σ} {step' : Access → τ → Answer × τ}

theorem transcript_eq_of_view {view : σ → τ}
    (h : ∀ a s, step' a (view s) = ((step a s).1, view (step a s).2)) (s : σ)
    (accesses : List Access) :
    transcript step' (view s) accesses = transcript step s accesses := by
  induction accesses generalizing s with
  | nil => rfl
  | cons a accesses ih => simp only [transcript, h, ih]

/-- What is left of the answers when some accesses are left out: `R` relates the state with these
accesses to the state without them. -/
theorem filter_transcript (p : Access → Bool) (R : σ → σ → Prop)
    (hkept : ∀ a s t, p a = true → R s t →
      (step a s).1 = (step a t).1 ∧ R (step a s).2 (step a t).2)
    (hleft : ∀ a s t, p a = false → R s t → R (step a s).2 t)
    {s t : σ} (h : R s t) (accesses : List Access) :
    (transcript step s accesses).filter (fun e => p e.1) =
      transcript step t (accesses.filter p) := by
  induction accesses generalizing s t with
  | nil => rfl
  | cons a accesses ih =>
    cases hp : p a with
    | true =>
      obtain ⟨hanswer, hrest⟩ := hkept a s t hp h
      simp only [transcript, List.filter_cons, hp, if_true, hanswer, ih hrest]
    | false =>
      have hrest := hleft a s t hp h
      simp [transcript, hp, ih hrest]

theorem answer_of_mem_transcript {e : Access × Answer} {s : σ} {accesses : List Access}
    (h : e ∈ transcript step s accesses) : ∃ s', e.2 = (step e.1 s').1 := by
  induction accesses generalizing s with
  | nil => cases h
  | cons a accesses ih =>
    rcases List.mem_cons.1 h with rfl | h
    · exact ⟨s, rfl⟩
    · exact ih h

end Transcript

namespace Access

variable {a : Access}

theorem onMap_fst_eq_error_iff {values : String → Rat} {fault : Fault} :
    (a.onMap values).1 = .error fault ↔ a.refusal? = some fault := by
  cases h : a.refusal? with
  | some other => simp [onMap_of_refusal? h]
  | none => simp [onMap_of_not_refused h]

theorem kind_of_refusal? {fault : Fault} (h : a.refusal? = some fault) :
    fault.kind = .validation := by
  unfold refusal? at h
  grind [Fault.kind]

theorem onMap_congr {values values' : String → Rat} (h : values a.session = values' a.session) :
    (a.onMap values).1 = (a.onMap values').1 ∧
      (a.onMap values).2 a.session = (a.onMap values').2 a.session := by
  cases hr : a.refusal? with
  | some fault => simp [onMap_of_refusal? hr, h]
  | none => simp [onMap_of_not_refused hr, h]

theorem onMap_snd_of_ne {session : String} (h : a.session ≠ session) (values : String → Rat) :
    (a.onMap values).2 session = values session := by
  cases hr : a.refusal? with
  | some fault => rw [onMap_of_refusal? hr]
  | none => simp [onMap_of_not_refused hr, h.symm]

end Access

section Map

variable (values : String → Rat) (accesses : List Access)

theorem filter_not_refused_transcript :
    (transcript Access.onMap values accesses).filter (fun e => e.1.refusal?.isNone) =
      transcript Access.onMap values (accesses.filter fun a => a.refusal?.isNone) := by
  refine filter_transcript (fun a => a.refusal?.isNone) (fun m m' => m = m') ?_ ?_ rfl accesses
  · rintro a m _ - rfl
    exact ⟨rfl, rfl⟩
  · rintro a m _ ha rfl
    have hsome : a.refusal?.isSome = true := by simpa using ha
    obtain ⟨fault, hfault⟩ := Option.isSome_iff_exists.1 hsome
    rw [Access.onMap_of_refusal? hfault]

theorem filter_session_transcript (session : String) :
    (transcript Access.onMap values accesses).filter (fun e => e.1.session == session) =
      transcript Access.onMap values (accesses.filter fun a => a.session == session) := by
  refine filter_transcript (fun a => a.session == session) (fun m m' => m session = m' session)
    ?_ ?_ rfl accesses
  · intro a m m' ha h
    obtain rfl := eq_of_beq ha
    exact Access.onMap_congr h
  · intro a m m' ha h
    rw [Access.onMap_snd_of_ne (ne_of_beq_false ha), h]

end Map

/-- What a store answers is what the map of its values answers, and that of a new store is zero
everywhere. The answers that are faults are those to the accesses that are refused, and all of them
are faults of validation; without these accesses the others are answered alike, and each session is
answered as if there were no other. -/
theorem transcript_run (s : Store) (accesses : List Access) :
    transcript Access.run s accesses = transcript Access.onMap s.value accesses ∧
    (∀ session, Store.value {} session = 0) ∧
    (∀ e ∈ transcript Access.run s accesses, ∀ fault,
      (e.2 = .error fault ↔ e.1.refusal? = some fault) ∧
      (e.2 = .error fault → fault.kind = .validation)) ∧
    (transcript Access.run s accesses).filter (fun e => e.1.refusal?.isNone) =
      transcript Access.run s (accesses.filter fun a => a.refusal?.isNone) ∧
    ∀ session, (transcript Access.run s accesses).filter (fun e => e.1.session == session) =
      transcript Access.run s (accesses.filter fun a => a.session == session) := by
  have hmap (accesses : List Access) :
      transcript Access.run s accesses = transcript Access.onMap s.value accesses :=
    (transcript_eq_of_view Access.onMap_value s accesses).symm
  refine ⟨hmap accesses, fun _ => rfl, ?_, ?_, fun session => ?_⟩
  · rw [hmap]
    intro e he fault
    obtain ⟨values, hanswer⟩ := answer_of_mem_transcript he
    rw [hanswer, Access.onMap_fst_eq_error_iff]
    exact ⟨Iff.rfl, Access.kind_of_refusal?⟩
  · rw [hmap, hmap]
    exact filter_not_refused_transcript s.value accesses
  · rw [hmap, hmap]
    exact filter_session_transcript s.value accesses session

end DeskCalculator.Memory
