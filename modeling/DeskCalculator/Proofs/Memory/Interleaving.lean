import DeskCalculator.Proofs.Memory.InTurn
import Mathlib.Data.List.Permutation
import Mathlib.Logic.Function.Basic

/-!
Several clients on one register. Each of them runs its commands one after another, but between the
two steps of a command the others may take steps of their own. What a command leaves then is what it
makes of the value that it has read, whatever was written since; so the clients are served as if one
after another exactly when no command that builds on the register is overtaken.
-/
namespace DeskCalculator.Memory

variable {ι : Type} {session : String} {x : Rat}

structure Begun where
  call : Call
  current : Rat
  effect : Effect

structure Client where
  waiting : List Call
  begun : Option Begun := none

structure Shared (ι : Type) where
  store : Store
  clients : ι → Client
  completed : List (Completed ι) := []

namespace Shared

def init (s : Store) (programs : ι → List Call) : Shared ι :=
  { store := s, clients := fun i => { waiting := programs i } }

def IsSerial (session : String) (s : Store) (g : Shared ι) (order : List (Completed ι)) : Prop :=
  (runInTurn session s (order.map Completed.call)).1 = order.map Completed.answer ∧
    (runInTurn session s (order.map Completed.call)).2.value session = g.store.value session

instance (s : Store) (g : Shared ι) (order : List (Completed ι)) :
    Decidable (g.IsSerial session s order) :=
  inferInstanceAs (Decidable (_ ∧ _))

/-- Some order of the commands explains their answers and the register. -/
def Serializable (session : String) (s : Store) (g : Shared ι) : Prop :=
  ∃ order, order.Perm g.completed ∧ g.IsSerial session s order

theorem serializable_pair_iff {s : Store} {g : Shared ι} {a b : Completed ι}
    (h : g.completed = [a, b]) :
    g.Serializable session s ↔ g.IsSerial session s [a, b] ∨ g.IsSerial session s [b, a] := by
  unfold Serializable
  simp only [h, List.perm_pair, or_and_right, exists_or, exists_eq_left]

theorem isSerial_iff {s : Store} {g : Shared ι} {order : List (Completed ι)}
    (h : ∀ e ∈ order, e.IsOwn session) :
    g.IsSerial session s order ↔
      InTurn (s.value session) order ∧
        registerAfter (s.value session) order = g.store.value session := by
  unfold IsSerial
  rw [← answers_runInTurn_iff h]
  refine and_congr_right fun hanswers => ?_
  rw [value_runInTurn hanswers]

/-- The next step of the client does not write over a value that its command has not read, unless
the command builds on none. -/
def UpToDate (session : String) (g : Shared ι) (i : ι) : Prop :=
  ∀ b ∈ (g.clients i).begun, b.call.command.buildsOnRegister = true →
    b.current = g.store.value session

variable [DecidableEq ι]

/-- One client takes its next step on the store: it writes what it is about to write, or else begins
its next command. A command that fails ends with its first step. -/
def step (session : String) (g : Shared ι) (i : ι) : Shared ι :=
  match g.clients i with
  | ⟨waiting, some b⟩ =>
    ⟨b.effect.apply g.store session, Function.update g.clients i ⟨waiting, none⟩,
      g.completed ++ [⟨i, b.call, b.current, .ok b.effect.answer⟩]⟩
  | ⟨[], none⟩ => g
  | ⟨call :: waiting, none⟩ =>
    let current := g.store.value session
    match call.read session g.store with
    | (.error fault, store) =>
      ⟨store, Function.update g.clients i ⟨waiting, none⟩,
        g.completed ++ [⟨i, call, current, .error fault⟩]⟩
    | (.ok effect, store) =>
      ⟨store, Function.update g.clients i ⟨waiting, some ⟨call, current, effect⟩⟩, g.completed⟩

def run (session : String) (g : Shared ι) (schedule : List ι) : Shared ι :=
  schedule.foldl (step session) g

def serve (session : String) (s : Store) (programs : ι → List Call) (schedule : List ι) :
    Shared ι :=
  (init s programs).run session schedule

/-- No command that builds on the register is overtaken by another one. -/
def Undisturbed (session : String) : Shared ι → List ι → Prop
  | _, [] => True
  | g, i :: schedule => g.UpToDate session i ∧ Undisturbed session (g.step session i) schedule

def callsOf (g : Shared ι) (i : ι) : List Call :=
  (g.completed.filter fun e => e.client = i).map Completed.call ++
    (g.clients i).begun.toList.map Begun.call ++ (g.clients i).waiting

inductive Moves (session : String) (g : Shared ι) (i : ι) : Shared ι → Prop
  | idle (hclient : g.clients i = ⟨[], none⟩) : Moves session g i g
  | fails {call : Call} {waiting : List Call} {fault : Fault} {store : Store}
      (hclient : g.clients i = ⟨call :: waiting, none⟩)
      (hfault : call.attempt session (g.store.value session) = .error fault)
      (hvalue : store.value session = g.store.value session) :
      Moves session g i ⟨store, Function.update g.clients i ⟨waiting, none⟩,
        g.completed ++ [⟨i, call, g.store.value session, .error fault⟩]⟩
  | begins {call : Call} {waiting : List Call} {effect : Effect} {store : Store}
      (hclient : g.clients i = ⟨call :: waiting, none⟩)
      (heffect : call.attempt session (g.store.value session) = .ok effect)
      (hvalue : store.value session = g.store.value session) :
      Moves session g i ⟨store, Function.update g.clients i
        ⟨waiting, some ⟨call, g.store.value session, effect⟩⟩, g.completed⟩
  | writes {waiting : List Call} {b : Begun} {store : Store}
      (hclient : g.clients i = ⟨waiting, some b⟩)
      (hvalue : store.value session = b.effect.answer) :
      Moves session g i ⟨store, Function.update g.clients i ⟨waiting, none⟩,
        g.completed ++ [⟨i, b.call, b.current, .ok b.effect.answer⟩]⟩

theorem moves_step (session : String) (g : Shared ι) (i : ι) :
    Moves session g i (g.step session i) := by
  unfold step
  split
  · rename_i waiting b hclient
    exact .writes hclient (b.effect.value_apply g.store session)
  · rename_i hclient
    exact .idle hclient
  · rename_i call waiting hclient
    have hattempt := call.read_fst session g.store
    have hvalue := call.value_read session g.store
    generalize call.read session g.store = r at hattempt hvalue
    rcases r with ⟨fault | effect, store⟩
    · exact .fails hclient hattempt.symm hvalue
    · exact .begins hclient hattempt.symm hvalue

structure Sound (session : String) (x : Rat) (programs : ι → List Call) (g : Shared ι) : Prop where
  value_eq : g.store.value session = registerAfter x g.completed
  begun : ∀ i, ∀ b ∈ (g.clients i).begun, b.call.attempt session b.current = .ok b.effect
  own : ∀ e ∈ g.completed, e.IsOwn session
  calls : ∀ i, g.callsOf i = programs i

variable {programs : ι → List Call} {g g' : Shared ι} {i : ι}

theorem sound_init (session : String) (s : Store) (programs : ι → List Call) :
    (init s programs).Sound session (s.value session) programs where
  value_eq := rfl
  begun _ b hb := absurd hb (Option.not_mem_none b)
  own _ he := absurd he List.not_mem_nil
  calls _ := rfl

theorem Moves.value_eq (h : Moves session g i g')
    (hvalue : g.store.value session = registerAfter x g.completed) :
    g'.store.value session = registerAfter x g'.completed := by
  cases h with
  | idle => exact hvalue
  | fails _ _ hstore =>
    rw [registerAfter_concat, hstore]
    exact hvalue
  | begins _ _ hstore => exact hstore.trans hvalue
  | writes _ hstore =>
    rw [registerAfter_concat, hstore]
    rfl

theorem Moves.begun (h : Moves session g i g')
    (hbegun : ∀ j, ∀ b ∈ (g.clients j).begun, b.call.attempt session b.current = .ok b.effect) :
    ∀ j, ∀ b ∈ (g'.clients j).begun, b.call.attempt session b.current = .ok b.effect := by
  intro j
  have hj := hbegun j
  cases h with
  | idle => exact hj
  | fails | writes =>
    by_cases hji : j = i
    · simp [hji]
    · simpa [hji] using hj
  | begins _ heffect =>
    by_cases hji : j = i
    · simpa [hji] using heffect
    · simpa [hji] using hj

theorem Moves.own (h : Moves session g i g')
    (hbegun : ∀ b ∈ (g.clients i).begun, b.call.attempt session b.current = .ok b.effect)
    (hown : ∀ e ∈ g.completed, e.IsOwn session) : ∀ e ∈ g'.completed, e.IsOwn session := by
  have hconcat (e : Completed ι) (he : e.IsOwn session) :
      ∀ d ∈ g.completed ++ [e], d.IsOwn session :=
    List.forall_mem_append.2 ⟨hown, List.forall_mem_singleton.2 he⟩
  cases h with
  | idle | begins => exact hown
  | fails _ hfault =>
    apply hconcat
    simp only [Completed.IsOwn, hfault]
    rfl
  | @writes _ b _ hclient _ =>
    apply hconcat
    have heffect := hbegun b (by rw [hclient]; rfl)
    simp only [Completed.IsOwn, heffect]
    rfl

theorem Moves.callsOf_eq (h : Moves session g i g') (j : ι) : g'.callsOf j = g.callsOf j := by
  unfold callsOf
  cases h with
  | idle => rfl
  | fails hclient | writes hclient | begins hclient =>
    by_cases hji : j = i
    · subst hji
      simp [hclient, List.filter_append]
    · simp [hji, Ne.symm hji, List.filter_append]

theorem Sound.step (h : g.Sound session x programs) (i : ι) :
    (g.step session i).Sound session x programs := by
  have hmoves := moves_step session g i
  exact ⟨hmoves.value_eq h.value_eq, hmoves.begun h.begun, hmoves.own (h.begun i) h.own,
    fun j => (hmoves.callsOf_eq j).trans (h.calls j)⟩

theorem Sound.run (h : g.Sound session x programs) (schedule : List ι) :
    (g.run session schedule).Sound session x programs := by
  induction schedule generalizing g with
  | nil => exact h
  | cons i schedule ih => exact ih (h.step i)

theorem Moves.inTurn_iff (h : Moves session g i g')
    (hvalue : g.store.value session = registerAfter x g.completed) :
    InTurn x g'.completed ↔ InTurn x g.completed ∧ g.UpToDate session i := by
  unfold UpToDate
  cases h with
  | idle hclient | begins hclient => simp [hclient]
  | fails hclient => simp [hclient, inTurn_concat]
  | writes hclient => simp [hclient, inTurn_concat, hvalue]

theorem Sound.inTurn_run_iff (h : g.Sound session x programs) (schedule : List ι) :
    InTurn x (g.run session schedule).completed ↔
      InTurn x g.completed ∧ Undisturbed session g schedule := by
  induction schedule generalizing g with
  | nil => exact (and_iff_left trivial).symm
  | cons i schedule ih =>
    -- the register holds what the commands done so far have left, so the step is judged by it
    have hfirst := (moves_step session g i).inTurn_iff h.value_eq
    have hrest := ih (h.step i)
    rw [Undisturbed, ← and_assoc, ← hfirst]
    exact hrest

/-- Whatever the schedule, each client has its commands done in its own order, and none of them is
lost or done twice. They are done as if one after another, in the order in which they ended, if and
only if no command that builds on the register is overtaken. Some order of them gives their answers
and the register if and only if they can be arranged so that each command that builds on the
register has read what the one before it left, and the last one leaves what is there. -/
theorem serializable_serve_iff (session : String) (s : Store) (programs : ι → List Call)
    (schedule : List ι) :
    (∀ i, (serve session s programs schedule).callsOf i = programs i) ∧
    ((serve session s programs schedule).IsSerial session s
        (serve session s programs schedule).completed ↔
      Undisturbed session (init s programs) schedule) ∧
    (Undisturbed session (init s programs) schedule →
      (serve session s programs schedule).Serializable session s) ∧
    ((serve session s programs schedule).Serializable session s ↔
      ∃ order, order.Perm (serve session s programs schedule).completed ∧
        InTurn (s.value session) order ∧
        registerAfter (s.value session) order =
          (serve session s programs schedule).store.value session) := by
  have hinit := sound_init session s programs
  have hserved : (serve session s programs schedule).Sound session (s.value session) programs :=
    hinit.run schedule
  have hinTurn : InTurn (s.value session) (serve session s programs schedule).completed ↔
      Undisturbed session (init s programs) schedule :=
    (hinit.inTurn_run_iff schedule).trans (and_iff_right trivial)
  generalize serve session s programs schedule = g at hserved hinTurn
  have hended : g.IsSerial session s g.completed ↔
      Undisturbed session (init s programs) schedule := by
    rw [isSerial_iff hserved.own, hinTurn]
    exact and_iff_left hserved.value_eq.symm
  refine ⟨hserved.calls, hended, fun h => ⟨_, List.Perm.refl _, hended.2 h⟩, ?_⟩
  refine exists_congr fun order => and_congr_right fun hperm => ?_
  exact isSerial_iff fun e he => hserved.own e (hperm.mem_iff.1 he)

theorem not_serializable_overlap :
    ¬ (serve "s" {} (fun b => if b then [⟨.add, some 2⟩] else [⟨.add, some 1⟩])
      [false, true, false, true]).Serializable "s" {} ∧
    ¬ (serve "s" {} (fun b => if b then [⟨.store, some 5⟩] else [⟨.recall, none⟩])
      [false, true, true, false]).Serializable "s" {} ∧
    ¬ (serve "s" ⟨[("s", 5)]⟩ (fun b => if b then [⟨.clear, none⟩] else [⟨.recall, none⟩])
      [false, true, true, false]).Serializable "s" ⟨[("s", 5)]⟩ := by
  refine ⟨?_, ?_, ?_⟩
  · rw [serializable_pair_iff (a := ⟨false, ⟨.add, some 1⟩, 0, .ok 1⟩)
      (b := ⟨true, ⟨.add, some 2⟩, 0, .ok 2⟩) (by decide +kernel)]
    decide +kernel
  · rw [serializable_pair_iff (a := ⟨true, ⟨.store, some 5⟩, 0, .ok 5⟩)
      (b := ⟨false, ⟨.recall, none⟩, 0, .ok 0⟩) (by decide +kernel)]
    decide +kernel
  · rw [serializable_pair_iff (a := ⟨true, ⟨.clear, none⟩, 5, .ok 0⟩)
      (b := ⟨false, ⟨.recall, none⟩, 5, .ok 5⟩) (by decide +kernel)]
    decide +kernel

end Shared

end DeskCalculator.Memory
