import DeskCalculator.Proofs.Infix.Conservation

/-!
The converter token by token. A token looks at the stack down to the first opening parenthesis and
no further, so tokens are read alike whatever waits below one; and a closing parenthesis is never
put on the stack, so none is ever found there.
-/
namespace DeskCalculator.Postfix

def shift (stack : List Token) : Token → Except ParenFault (List Token × List Token)
  | .number l => .ok ([.number l], stack)
  | .operator op => .ok ((release op stack).1, .operator op :: (release op stack).2)
  | .lparen => .ok ([], .lparen :: stack)
  | .rparen => closeGroup stack

def shifts (stack : List Token) : List Token → Except ParenFault (List Token × List Token)
  | [] => .ok ([], stack)
  | t :: ts => (shift stack t).bind fun r => (shifts r.2 ts).map fun s => (r.1 ++ s.1, s.2)

variable {stack stack' out : List Token} {t : Token} {ts : List Token}

theorem shifts_cons_eq_ok :
    shifts stack (t :: ts) = .ok (out, stack') ↔
      ∃ first middle rest, shift stack t = .ok (first, middle) ∧
        shifts middle ts = .ok (rest, stack') ∧ out = first ++ rest := by
  rw [shifts, bind_eq_ok]
  constructor
  · rintro ⟨⟨first, middle⟩, hfirst, h⟩
    obtain ⟨⟨rest, last⟩, hrest, h⟩ := map_eq_ok.1 h
    obtain ⟨rfl, rfl⟩ := Prod.mk.inj h
    exact ⟨first, middle, rest, hfirst, hrest, rfl⟩
  · rintro ⟨first, middle, rest, hfirst, hrest, rfl⟩
    exact ⟨(first, middle), hfirst, map_eq_ok.2 ⟨(rest, stack'), hrest, rfl⟩⟩

theorem shifts_singleton (h : shift stack t = .ok (out, stack')) :
    shifts stack [t] = .ok (out, stack') := by
  apply shifts_cons_eq_ok.2
  exact ⟨out, stack', [], h, rfl, (List.append_nil out).symm⟩

/-! ### Reading and converting -/

theorem convertFrom_cons (stack : List Token) (t : Token) (ts : List Token) :
    convertFrom stack (t :: ts) =
      (shift stack t).bind fun r => (convertFrom r.2 ts).map (r.1 ++ ·) := by
  cases t with
  | number l | operator op => rfl
  | lparen => exact (map_nil_append _).symm
  | rparen =>
    rw [convertFrom, shift]
    cases closeGroup stack <;> rfl

theorem convertFrom_append (stack ts us : List Token) :
    convertFrom stack (ts ++ us) =
      (shifts stack ts).bind fun r => (convertFrom r.2 us).map (r.1 ++ ·) := by
  induction ts generalizing stack with
  | nil => exact (map_nil_append _).symm
  | cons t ts ih =>
    rw [List.cons_append, convertFrom_cons, shifts]
    cases shift stack t with
    | error fault => rfl
    | ok r =>
      simp only [Except.bind]
      rw [ih]
      cases shifts r.2 ts with
      | error fault => rfl
      | ok s => exact map_append_map_append (convertFrom s.2 us) r.1 s.1

theorem shifts_append (stack ts us : List Token) :
    shifts stack (ts ++ us) =
      (shifts stack ts).bind fun r => (shifts r.2 us).map fun s => (r.1 ++ s.1, s.2) := by
  induction ts generalizing stack with
  | nil =>
    show shifts stack us = (shifts stack us).map fun s => ([] ++ s.1, s.2)
    cases shifts stack us <;> rfl
  | cons t ts ih =>
    rw [List.cons_append, shifts, shifts]
    cases shift stack t with
    | error fault => rfl
    | ok r =>
      simp only [Except.bind]
      rw [ih]
      cases shifts r.2 ts with
      | error fault => rfl
      | ok s =>
        simp only [Except.bind, Except.map]
        cases shifts s.2 us with
        | error fault => rfl
        | ok u => simp [List.append_assoc]

theorem convertFrom_eq_ok :
    convertFrom stack ts = .ok out ↔
      ∃ gone left, shifts stack ts = .ok (gone, left) ∧ drain left = .ok left ∧ out = gone ++ left := by
  have h := convertFrom_append stack ts []
  rw [List.append_nil] at h
  rw [h, bind_eq_ok]
  constructor
  · rintro ⟨⟨gone, left⟩, hread, h⟩
    obtain ⟨last, hdrain, rfl⟩ := map_eq_ok.1 h
    obtain ⟨rfl, -⟩ := drain_eq_ok hdrain
    exact ⟨gone, left, hread, hdrain, rfl⟩
  · rintro ⟨gone, left, hread, hdrain, rfl⟩
    exact ⟨(gone, left), hread, map_eq_ok.2 ⟨left, hdrain, rfl⟩⟩

/-! ### Above an opening parenthesis -/

theorem release_above (next : Operator) (stack below : List Token) :
    release next (stack ++ .lparen :: below) =
      ((release next stack).1, (release next stack).2 ++ .lparen :: below) := by
  fun_induction release next stack with
  | case1 waiting stack hgoes ih =>
    rw [List.cons_append, release, if_pos hgoes, ih]
  | case2 waiting stack hstays =>
    rw [List.cons_append, release, if_neg hstays]
  | case3 stack hnone =>
    cases stack with
    | nil => rfl
    | cons t stack =>
      cases t with
      | operator op => exact absurd rfl (hnone op stack)
      | number l | lparen | rparen => rfl

theorem closeGroup_append {group : List Token} (h : ∀ t ∈ group, t.isParen = false)
    (below : List Token) : closeGroup (group ++ .lparen :: below) = .ok (group, below) := by
  induction group with
  | nil => rfl
  | cons t group ih =>
    obtain ⟨ht, hgroup⟩ := List.forall_mem_cons.1 h
    have hrest := ih hgroup
    cases t with
    | number l | operator op => simp only [List.cons_append, closeGroup, hrest, Except.map]
    | lparen | rparen => cases ht

theorem shift_above (h : shift stack t = .ok (out, stack')) (below : List Token) :
    shift (stack ++ .lparen :: below) t = .ok (out, stack' ++ .lparen :: below) := by
  cases t with
  | number l | lparen =>
    obtain ⟨rfl, rfl⟩ := Prod.mk.inj (Except.ok.inj h)
    rfl
  | operator op =>
    obtain ⟨rfl, rfl⟩ := Prod.mk.inj (Except.ok.inj h)
    simp only [shift, release_above, List.cons_append]
  | rparen =>
    obtain ⟨rfl, hgroup⟩ := closeGroup_eq_ok h
    rw [List.append_assoc]
    exact closeGroup_append hgroup (stack' ++ .lparen :: below)

theorem shifts_above (h : shifts stack ts = .ok (out, stack')) (below : List Token) :
    shifts (stack ++ .lparen :: below) ts = .ok (out, stack' ++ .lparen :: below) := by
  induction ts generalizing stack out with
  | nil =>
    obtain ⟨rfl, rfl⟩ := Prod.mk.inj (Except.ok.inj h)
    rfl
  | cons t ts ih =>
    obtain ⟨first, middle, rest, hfirst, hrest, rfl⟩ := shifts_cons_eq_ok.1 h
    exact shifts_cons_eq_ok.2 ⟨first, _, rest, shift_above hfirst below, ih hrest, rfl⟩

/-! ### What is on the stack -/

theorem mem_of_shift (h : shift stack t = .ok (out, stack')) {u : Token} (hu : u ∈ out ++ stack') :
    u ∈ t :: stack := by
  cases t with
  | number l | lparen =>
    obtain ⟨rfl, rfl⟩ := Prod.mk.inj (Except.ok.inj h)
    simpa using hu
  | operator op =>
    obtain ⟨rfl, rfl⟩ := Prod.mk.inj (Except.ok.inj h)
    have hsplit := release_append op stack
    rw [← hsplit]
    simp only [List.mem_append, List.mem_cons] at hu ⊢
    tauto
  | rparen =>
    obtain ⟨rfl, -⟩ := closeGroup_eq_ok h
    simp only [List.mem_append, List.mem_cons] at hu ⊢
    tauto

theorem mem_of_shifts (h : shifts stack ts = .ok (out, stack')) {u : Token}
    (hu : u ∈ out ++ stack') : u ∈ stack ++ ts := by
  induction ts generalizing stack out with
  | nil =>
    obtain ⟨rfl, rfl⟩ := Prod.mk.inj (Except.ok.inj h)
    simpa using hu
  | cons t ts ih =>
    obtain ⟨first, middle, rest, hfirst, hrest, rfl⟩ := shifts_cons_eq_ok.1 h
    have hstep := mem_of_shift hfirst (u := u)
    have hnext := ih hrest
    simp only [List.mem_append, List.mem_cons] at hu hstep hnext ⊢
    tauto

theorem rparen_not_mem_of_shift (h : shift stack t = .ok (out, stack')) (hstack : .rparen ∉ stack) :
    .rparen ∉ stack' := by
  cases t with
  | number l | lparen =>
    obtain ⟨rfl, rfl⟩ := Prod.mk.inj (Except.ok.inj h)
    simpa using hstack
  | operator op =>
    obtain ⟨rfl, rfl⟩ := Prod.mk.inj (Except.ok.inj h)
    rw [← release_append op stack] at hstack
    simpa using fun hmem => hstack (List.mem_append_right _ hmem)
  | rparen =>
    obtain ⟨rfl, -⟩ := closeGroup_eq_ok h
    exact fun hmem => hstack (by simp [hmem])

theorem rparen_not_mem_of_shifts (h : shifts stack ts = .ok (out, stack'))
    (hstack : .rparen ∉ stack) : .rparen ∉ stack' := by
  induction ts generalizing stack out with
  | nil =>
    obtain ⟨rfl, rfl⟩ := Prod.mk.inj (Except.ok.inj h)
    exact hstack
  | cons t ts ih =>
    obtain ⟨first, middle, rest, hfirst, hrest, rfl⟩ := shifts_cons_eq_ok.1 h
    exact ih hrest (rparen_not_mem_of_shift hfirst hstack)

end DeskCalculator.Postfix
