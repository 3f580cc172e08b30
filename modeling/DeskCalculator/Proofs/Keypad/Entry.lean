import DeskCalculator.Proofs.Keypad.Reachable

/-!
Entries key by key. A keypad that shows its entry is determined by the entry and by all that a key
of the entry leaves alone; in RPN mode digits prolong the pending number, and every other key of the
entry follows it.
-/
namespace DeskCalculator

namespace Keypad

def withEntry (k : Keypad) (keys : List String) (pending : String) : Keypad :=
  { k with keys, pending, expression := shownExpression k.mode keys pending }

variable {k : Keypad} {keys : List String} {pending : String} {key : String}

@[simp]
theorem withEntry_withEntry (keys' : List String) (pending' : String) :
    (k.withEntry keys pending).withEntry keys' pending' = k.withEntry keys' pending' := rfl

@[simp]
theorem mode_withEntry : (k.withEntry keys pending).mode = k.mode := rfl

@[simp]
theorem keys_withEntry : (k.withEntry keys pending).keys = keys := rfl

@[simp]
theorem pending_withEntry : (k.withEntry keys pending).pending = pending := rfl

theorem committedKeys_of_pending (h : k.pending = "") : k.committedKeys = k.keys := if_pos h

theorem Consistent.withEntry_self (h : Consistent k) : k.withEntry k.keys k.pending = k := by
  rw [withEntry, ← h.shown]

theorem run_append (as bs : List Action) : k.run (as ++ bs) = (k.run as).run bs := List.foldl_append

theorem run_cons (a : Action) (as : List Action) : k.run (a :: as) = (k.act a).run as := rfl

theorem push_eq : k.push = k.withEntry k.committedKeys "" := by
  rw [push, commit_eq]
  rfl

theorem enter_refresh (keys : List String) :
    (k.enter keys).refresh = k.withEntry (k.committedKeys ++ keys) "" := by
  rw [enter_eq]
  rfl

theorem press_symbol (hsymbol : Stroke.ofKey key = .symbol key)
    (hentered : ¬ (k.mode = .rpn ∧ Key.isNumeral key = true)) :
    k.press key = k.withEntry (k.committedKeys ++ [key]) "" := by
  have hstrike : k.strike key = k.enter [key] := by
    unfold strike
    rw [hsymbol]
    exact if_neg hentered
  rw [press, hstrike, enter_refresh]

theorem press_numeral (hmode : k.mode = .rpn) (hsymbol : Stroke.ofKey key = .symbol key)
    (hnumeral : Key.isNumeral key = true) :
    k.press key = k.withEntry k.keys (k.pending ++ key) := by
  have hstrike : k.strike key = { k with pending := k.pending ++ key } := by
    unfold strike
    rw [hsymbol]
    exact if_pos ⟨hmode, hnumeral⟩
  rw [press, hstrike]
  rfl

end Keypad

end DeskCalculator
