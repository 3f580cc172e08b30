import DeskCalculator.Proofs.Machine.Scale

/-!
Quotients and powers. Their decimals are searched for on the value before it is rounded, up to a
bound above every precision, and are then capped. Neither cap hides a scale that fits: the result is
exact, with the fewest decimals possible, or rounded, with all decimals of the precision.
-/
namespace DeskCalculator
open Decimal

/-- `e` shows `q` with as few decimals from `start` on as fit it; where none within the precision
do, it shows `q` rounded to the precision. -/
structure Entry.Fits (settings : Settings) (start : Nat) (q : Rat) (e : Entry) : Prop where
  exact : (∃ s, start ≤ s ∧ s ≤ settings.precision.digits ∧ HasScale q s) →
    e.value = q ∧ IsLeast {s | start ≤ s ∧ s ≤ settings.precision.digits ∧ HasScale q s} e.scale
  rounded : (¬ ∃ s, start ≤ s ∧ s ≤ settings.precision.digits ∧ HasScale q s) →
    e.value = roundTo settings.rounding settings.precision.digits q ∧
      e.scale = settings.precision.digits

theorem Entry.fits_settle (settings : Settings) (start : Nat) (q : Rat) :
    (Entry.settle settings ⟨q, leastScale q start⟩).Fits settings start q := by
  have hmax : settings.precision.digits < maxScale :=
    Nat.lt_of_le_of_lt settings.precision.le_max (by decide)
  constructor
  · rintro ⟨s, hstart, hs, hq⟩
    have hle : leastScale q start ≤ s := leastScale_le hq hstart
    have hbelow : leastScale q start < maxScale := by omega
    obtain ⟨⟨hfrom, hfits⟩, hleast⟩ := isLeast_leastScale hbelow
    have hcap : min (leastScale q start) settings.precision.digits = leastScale q start :=
      Nat.min_eq_left (hle.trans hs)
    refine ⟨roundTo_of_hasScale _ (hq.mono hs), ?_, ?_⟩
    · rw [settle, hcap]
      exact ⟨hfrom, hle.trans hs, hfits⟩
    · rintro t ⟨ht, -, hqt⟩
      rw [settle, hcap]
      exact hleast ⟨ht, hqt⟩
  · intro hnone
    have hcap : settings.precision.digits ≤ leastScale q start := by
      -- a smaller scale would be one that the search came upon, so it would fit
      by_contra hlt
      have hbelow : leastScale q start < maxScale := by omega
      obtain ⟨⟨hfrom, hfits⟩, -⟩ := isLeast_leastScale hbelow
      exact hnone ⟨leastScale q start, hfrom, by omega, hfits⟩
    exact ⟨rfl, Nat.min_eq_right hcap⟩

namespace Expression

variable {settings : Settings} {x y e : Entry}

theorem fits_quotient (h : combined settings .divide x y = .ok e) :
    y.value ≠ 0 ∧ e.Fits settings (x.scale - y.scale) (x.value / y.value) := by
  obtain ⟨v, hv, rfl⟩ := map_eq_ok.1 h
  by_cases hzero : y.value = 0
  · rw [Operator.applyBinary, if_pos hzero] at hv
    cases hv
  · rw [Operator.applyBinary, if_neg hzero] at hv
    obtain rfl := Except.ok.inj hv
    exact ⟨hzero, Entry.fits_settle settings (x.scale - y.scale) (x.value / y.value)⟩

theorem fits_power (h : combined settings .power x y = .ok e) :
    ∃ q, power x.value y.value = .ok q ∧ e.Fits settings 0 q := by
  obtain ⟨q, hq, rfl⟩ := map_eq_ok.1 h
  exact ⟨q, hq, Entry.fits_settle settings 0 q⟩

end Expression

namespace Machine

variable {settings : Settings} {stack below : List Entry} {e : Entry} {op : BinaryOp}

theorem exists_operands_of_step
    (h : step settings stack (.operator (.binary op)) = .ok (e, below)) :
    ∃ x y, stack = y :: x :: below ∧ Expression.combined settings op x y = .ok e := by
  obtain ⟨l, ht, -, -⟩ | ⟨s, x, ht, -, -⟩ | ⟨op', x, y, ht, he, hstack⟩ := step_eq_ok h
  · cases ht
  · cases ht
  · cases ht
    exact ⟨x, y, hstack, he⟩

/-- Every quotient and every power that an evaluation pushes is exact, with the fewest decimals that
fit, or rounded to the precision with all its decimals; a quotient has at least as many decimals as
the dividend has more than the divisor, where the precision allows. -/
theorem fits_of_steps {settings : Settings} {tokens : List Token} {i : Nat} {s : Step}
    (h : (run settings [] tokens).steps[i]? = some s) :
    (s.token = .operator (.binary .divide) → ∃ x y below,
      (run settings [] (tokens.take i)).outcome = .ok (y :: x :: below) ∧ y.value ≠ 0 ∧
      s.pushed.Fits settings (x.scale - y.scale) (x.value / y.value) ∧
      (run settings [] (tokens.take (i + 1))).outcome = .ok (s.pushed :: below)) ∧
    (s.token = .operator (.binary .power) → ∃ x y below q,
      (run settings [] (tokens.take i)).outcome = .ok (y :: x :: below) ∧
      power x.value y.value = .ok q ∧ s.pushed.Fits settings 0 q ∧
      (run settings [] (tokens.take (i + 1))).outcome = .ok (s.pushed :: below)) := by
  obtain ⟨before, below, hat⟩ := exists_stepAt_of_steps h
  have hmade := hat.made
  refine ⟨fun ht => ?_, fun ht => ?_⟩
  · rw [ht] at hmade
    obtain ⟨x, y, rfl, he⟩ := exists_operands_of_step hmade
    obtain ⟨hzero, hfits⟩ := Expression.fits_quotient he
    exact ⟨x, y, below, hat.reached, hzero, hfits, hat.left⟩
  · rw [ht] at hmade
    obtain ⟨x, y, rfl, he⟩ := exists_operands_of_step hmade
    obtain ⟨q, hq, hfits⟩ := Expression.fits_power he
    exact ⟨x, y, below, q, hat.reached, hq, hfits, hat.left⟩

theorem fits_quotient_with_zeros :
    (⟨1 / 2, 2⟩ : Entry).Fits {} 2 (1 / 2) := by
  have hs : (run {} [] [.number ⟨1, "1.00"⟩, .number ⟨2, "2"⟩,
      .operator (.binary .divide)]).steps[2]? =
        some ⟨.operator (.binary .divide), ⟨1 / 2, 2⟩⟩ := by
    decide +kernel
  obtain ⟨x, y, below, hbefore, -, hfits, -⟩ := (fits_of_steps hs).1 rfl
  have hreached : (run {} [] [.number ⟨1, "1.00"⟩, .number ⟨2, "2"⟩]).outcome =
      .ok [⟨2, 0⟩, ⟨1, 2⟩] := by
    decide +kernel
  obtain ⟨rfl, rfl, rfl⟩ : y = ⟨2, 0⟩ ∧ x = ⟨1, 2⟩ ∧ below = [] := by
    have hstack := Except.ok.inj (hbefore.symm.trans hreached)
    simpa using hstack
  exact hfits

end Machine

end DeskCalculator
