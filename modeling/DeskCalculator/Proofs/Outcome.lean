import Mathlib.Data.List.Forall2

/-!
Outcomes: where a chain of stages comes to a value, each stage does, and where it fails, one stage
fails on the value of the stages before.
-/
namespace DeskCalculator

variable {ε α β : Type} {x : Except ε α}

theorem bind_eq_ok {f : α → Except ε β} {b : β} :
    x.bind f = .ok b ↔ ∃ a, x = .ok a ∧ f a = .ok b := by
  cases x with
  | error fault => exact iff_of_false (fun h => by cases h) (fun ⟨_, h, _⟩ => by cases h)
  | ok a => exact ⟨fun h => ⟨a, rfl, h⟩, fun ⟨_, ha, h⟩ => Except.ok.inj ha ▸ h⟩

theorem bind_eq_error {f : α → Except ε β} {fault : ε} :
    x.bind f = .error fault ↔ x = .error fault ∨ ∃ a, x = .ok a ∧ f a = .error fault := by
  cases x with
  | error other =>
    refine ⟨fun h => .inl (congrArg _ (Except.error.inj h)), fun h => ?_⟩
    rcases h with h | ⟨_, h, _⟩
    · exact congrArg _ (Except.error.inj h)
    · cases h
  | ok a =>
    refine ⟨fun h => .inr ⟨a, rfl, h⟩, fun h => ?_⟩
    rcases h with h | ⟨_, ha, h⟩
    · cases h
    · exact Except.ok.inj ha ▸ h

theorem map_eq_ok {f : α → β} {b : β} : x.map f = .ok b ↔ ∃ a, x = .ok a ∧ f a = b := by
  cases x with
  | error fault => exact iff_of_false (fun h => by cases h) (fun ⟨_, h, _⟩ => by cases h)
  | ok a =>
    refine ⟨fun h => ⟨a, rfl, Except.ok.inj h⟩, fun ⟨_, ha, h⟩ => ?_⟩
    exact congrArg _ (Except.ok.inj ha ▸ h)

theorem map_eq_error {f : α → β} {fault : ε} : x.map f = .error fault ↔ x = .error fault := by
  cases x with
  | error other =>
    exact ⟨fun h => congrArg _ (Except.error.inj h), fun h => congrArg _ (Except.error.inj h)⟩
  | ok a => exact iff_of_false (fun h => by cases h) (fun h => by cases h)

theorem map_eq_ok_congr {y : Except ε α} {f : α → β} {b : β}
    (h : ∀ a, x = .ok a ↔ y = .ok a) : x.map f = .ok b ↔ y.map f = .ok b := by
  rw [map_eq_ok, map_eq_ok]
  exact exists_congr fun a => and_congr_left' (h a)

theorem mapError_eq_ok {ε' : Type} {f : ε → ε'} {a : α} : x.mapError f = .ok a ↔ x = .ok a := by
  cases x with
  | error fault => exact iff_of_false (fun h => by cases h) (fun h => by cases h)
  | ok b => exact ⟨fun h => congrArg _ (Except.ok.inj h), fun h => congrArg _ (Except.ok.inj h)⟩

theorem mapError_eq_error {ε' : Type} {f : ε → ε'} {fault : ε'} :
    x.mapError f = .error fault ↔ ∃ cause, x = .error cause ∧ f cause = fault := by
  cases x with
  | error cause =>
    refine ⟨fun h => ⟨cause, rfl, Except.error.inj h⟩, fun ⟨_, hcause, h⟩ => ?_⟩
    exact congrArg _ (Except.error.inj hcause ▸ h)
  | ok a => exact iff_of_false (fun h => by cases h) (fun ⟨_, h, _⟩ => by cases h)

theorem mapM_eq_ok {f : α → Except ε β} {as : List α} {bs : List β} :
    as.mapM f = .ok bs ↔ List.Forall₂ (fun a b => f a = .ok b) as bs := by
  induction as generalizing bs with
  | nil =>
    rw [List.mapM_nil, List.forall₂_nil_left_iff]
    exact ⟨fun h => (Except.ok.inj h).symm, fun h => congrArg Except.ok h.symm⟩
  | cons a as ih =>
    rw [List.mapM_cons, List.forall₂_cons_left_iff]
    refine bind_eq_ok.trans ⟨?_, ?_⟩
    · rintro ⟨b, hb, h⟩
      obtain ⟨rest, hrest, h⟩ := bind_eq_ok.1 h
      exact ⟨b, rest, hb, ih.1 hrest, (Except.ok.inj h).symm⟩
    · rintro ⟨b, rest, hb, hrest, rfl⟩
      exact ⟨b, hb, bind_eq_ok.2 ⟨rest, ih.2 hrest, rfl⟩⟩

theorem mapM_eq_error {f : α → Except ε β} {as : List α} {fault : ε} :
    as.mapM f = .error fault ↔ ∃ before a after, as = before ++ a :: after ∧
      (∀ b ∈ before, ∃ c, f b = .ok c) ∧ f a = .error fault := by
  induction as with
  | nil =>
    rw [List.mapM_nil]
    refine iff_of_false nofun ?_
    rintro ⟨before, a, after, h, -⟩
    exact List.append_ne_nil_of_right_ne_nil before (List.cons_ne_nil a after) h.symm
  | cons a as ih =>
    rw [List.mapM_cons]
    refine bind_eq_error.trans ⟨?_, ?_⟩
    · rintro (ha | ⟨b, hb, h⟩)
      · exact ⟨[], a, as, rfl, fun _ hb => absurd hb List.not_mem_nil, ha⟩
      · -- nothing fails after the traversal of the rest
        have hrest : as.mapM f = .error fault := by
          refine (bind_eq_error.1 h).resolve_right ?_
          rintro ⟨_, -, h⟩
          cases h
        obtain ⟨before, d, after, rfl, hbefore, hd⟩ := ih.1 hrest
        exact ⟨a :: before, d, after, rfl, List.forall_mem_cons.2 ⟨⟨b, hb⟩, hbefore⟩, hd⟩
    · rintro ⟨before, d, after, has, hbefore, hd⟩
      cases before with
      | nil =>
        obtain ⟨rfl, -⟩ := List.cons.inj has
        exact .inl hd
      | cons b before =>
        obtain ⟨rfl, rfl⟩ := List.cons.inj has
        obtain ⟨⟨c, hc⟩, hbefore⟩ := List.forall_mem_cons.1 hbefore
        have hrest := ih.2 ⟨before, d, after, rfl, hbefore, hd⟩
        exact .inr ⟨c, hc, bind_eq_error.2 (.inl hrest)⟩

theorem map_nil_append (r : Except ε (List α)) : r.map ([] ++ ·) = r := by
  cases r <;> rfl

theorem map_append_map_append (r : Except ε (List α)) (as bs : List α) :
    (r.map (bs ++ ·)).map (as ++ ·) = r.map (as ++ bs ++ ·) := by
  cases r with
  | error fault => rfl
  | ok out => exact congrArg Except.ok (List.append_assoc as bs out).symm

end DeskCalculator
