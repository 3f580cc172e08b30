import DeskCalculator.Decimal.Printed
import Mathlib.Algebra.Order.Ring.Unbundled.Rat
import Mathlib.Data.Rat.Lemmas
import Mathlib.Order.Bounds.Basic
import Mathlib.Tactic.NormNum
import Mathlib.Tactic.Positivity
import Mathlib.Tactic.Ring

/-!
Scales. The values that fit a scale are the multiples of a power of one tenth. Rounding gives such
a multiple and leaves one where it is; the exact operations lead from multiples to multiples.
-/
namespace DeskCalculator

theorem RoundingMode.toInteger_intCast (mode : RoundingMode) (n : Int) : mode.toInteger n = n := by
  have hnearest (lowerAtTie : Int → Bool) : nearestInteger lowerAtTie n = n := by
    have hhalf : (0 : Rat) < 1 / 2 := by norm_num
    simp only [nearestInteger, Rat.floor_intCast, sub_self, if_pos hhalf]
  cases mode with
  | toEven | awayFromZero =>
    unfold toInteger
    exact hnearest _
  | toZero => simp only [toInteger, Rat.floor_intCast, Rat.ceil_intCast, ite_self]
  | toNegativeInfinity => exact Rat.floor_intCast n
  | toPositiveInfinity => exact Rat.ceil_intCast n

namespace Decimal

variable {v w : Rat} {s t : Nat}

theorem ten_pow_ne_zero (s : Nat) : (10 : Rat) ^ s ≠ 0 := by positivity

theorem hasScale_iff : HasScale v s ↔ ∃ n : Int, v * 10 ^ s = n := by
  unfold HasScale
  constructor
  · intro h
    exact ⟨_, ((Rat.den_eq_one_iff _).1 h).symm⟩
  · rintro ⟨n, hn⟩
    rw [hn]
    rfl

theorem hasScale_div (n : Int) (s : Nat) : HasScale (n / 10 ^ s) s :=
  hasScale_iff.2 ⟨n, div_mul_cancel₀ _ (ten_pow_ne_zero s)⟩

theorem hasScale_zero (s : Nat) : HasScale 0 s :=
  hasScale_iff.2 ⟨0, by simp⟩

theorem HasScale.mono (h : HasScale v s) (hle : s ≤ t) : HasScale v t := by
  obtain ⟨n, hn⟩ := hasScale_iff.1 h
  obtain ⟨k, rfl⟩ := Nat.exists_eq_add_of_le hle
  refine hasScale_iff.2 ⟨n * 10 ^ k, ?_⟩
  rw [pow_add, ← mul_assoc, hn]
  push_cast
  rfl

theorem HasScale.neg (h : HasScale v s) : HasScale (-v) s := by
  obtain ⟨n, hn⟩ := hasScale_iff.1 h
  refine hasScale_iff.2 ⟨-n, ?_⟩
  rw [neg_mul, hn, Int.cast_neg]

theorem HasScale.add (hv : HasScale v s) (hw : HasScale w t) : HasScale (v + w) (max s t) := by
  obtain ⟨m, hm⟩ := hasScale_iff.1 (hv.mono (Nat.le_max_left s t))
  obtain ⟨n, hn⟩ := hasScale_iff.1 (hw.mono (Nat.le_max_right s t))
  refine hasScale_iff.2 ⟨m + n, ?_⟩
  rw [add_mul, hm, hn, Int.cast_add]

theorem HasScale.sub (hv : HasScale v s) (hw : HasScale w t) : HasScale (v - w) (max s t) := by
  rw [sub_eq_add_neg]
  exact hv.add hw.neg

theorem HasScale.mul (hv : HasScale v s) (hw : HasScale w t) : HasScale (v * w) (s + t) := by
  obtain ⟨m, hm⟩ := hasScale_iff.1 hv
  obtain ⟨n, hn⟩ := hasScale_iff.1 hw
  refine hasScale_iff.2 ⟨m * n, ?_⟩
  rw [pow_add, mul_mul_mul_comm, hm, hn, Int.cast_mul]

theorem hasScale_roundTo (mode : RoundingMode) (digits : Nat) (v : Rat) :
    HasScale (roundTo mode digits v) digits :=
  hasScale_div _ digits

theorem roundTo_of_hasScale (mode : RoundingMode) (h : HasScale v s) : roundTo mode s v = v := by
  obtain ⟨n, hn⟩ := hasScale_iff.1 h
  unfold roundTo
  rw [hn, RoundingMode.toInteger_intCast, ← hn]
  exact mul_div_cancel_right₀ v (ten_pow_ne_zero s)

theorem hasScale_leastScaleWithin (v : Rat) (start count : Nat) :
    HasScale v (leastScaleWithin v start count) ∨
      leastScaleWithin v start count = start + count := by
  induction count generalizing start with
  | zero => exact .inr rfl
  | succ count ih =>
    by_cases hstart : HasScale v start
    · rw [leastScaleWithin, if_pos hstart]
      exact .inl hstart
    · have hend : start + (count + 1) = start + 1 + count := by omega
      rw [leastScaleWithin, if_neg hstart, hend]
      exact ih (start + 1)

theorem leastScaleWithin_le (h : HasScale v s) {start count : Nat} (hstart : start ≤ s) :
    leastScaleWithin v start count ≤ s := by
  induction count generalizing start with
  | zero => exact hstart
  | succ count ih =>
    by_cases hfits : HasScale v start
    · rw [leastScaleWithin, if_pos hfits]
      exact hstart
    · rw [leastScaleWithin, if_neg hfits]
      have hne : start ≠ s := by
        rintro rfl
        exact hfits h
      exact ih (by omega)

theorem le_leastScaleWithin (v : Rat) (start count : Nat) :
    start ≤ leastScaleWithin v start count := by
  induction count generalizing start with
  | zero => exact Nat.le_refl start
  | succ count ih =>
    by_cases hfits : HasScale v start
    · rw [leastScaleWithin, if_pos hfits]
    · rw [leastScaleWithin, if_neg hfits]
      exact Nat.le_of_succ_le (ih (start + 1))

theorem leastScaleWithin_le_add (v : Rat) (start count : Nat) :
    leastScaleWithin v start count ≤ start + count := by
  induction count generalizing start with
  | zero => exact Nat.le_refl start
  | succ count ih =>
    rw [leastScaleWithin]
    split
    · exact Nat.le_add_right start _
    · exact (ih (start + 1)).trans (by omega)

theorem leastScale_le_maxScale (v : Rat) (start : Nat) : leastScale v start ≤ maxScale :=
  (leastScaleWithin_le_add v _ _).trans (by omega)

theorem hasScale_leastScale (v : Rat) (start : Nat) :
    HasScale v (leastScale v start) ∨ leastScale v start = maxScale := by
  unfold leastScale
  have h := hasScale_leastScaleWithin v (min start maxScale) (maxScale - start)
  have hend : min start maxScale + (maxScale - start) = maxScale := by omega
  rw [hend] at h
  exact h

theorem leastScale_le (h : HasScale v s) {start : Nat} (hstart : start ≤ s) :
    leastScale v start ≤ s :=
  leastScaleWithin_le h (Nat.le_trans (Nat.min_le_left _ _) hstart)

theorem isLeast_leastScale {start : Nat} (h : leastScale v start < maxScale) :
    IsLeast {s | start ≤ s ∧ HasScale v s} (leastScale v start) := by
  have hmin : min start maxScale ≤ leastScale v start := le_leastScaleWithin v _ _
  have hfits : HasScale v (leastScale v start) :=
    (hasScale_leastScale v start).resolve_right h.ne
  refine ⟨⟨by omega, hfits⟩, ?_⟩
  rintro s ⟨hstart, hs⟩
  exact leastScale_le hs hstart

theorem hasScale_leastScale_zero (h : HasScale v maxScale) : HasScale v (leastScale v 0) := by
  rcases hasScale_leastScale v 0 with hleast | hmax
  · exact hleast
  · rw [hmax]
    exact h

theorem leastScale_eq (h : HasScale v s) (hs : s ≤ maxScale)
    (hleast : ∀ t < s, ¬ HasScale v t) : leastScale v 0 = s := by
  refine le_antisymm (leastScale_le h (Nat.zero_le s)) ?_
  rcases hasScale_leastScale v 0 with hscale | hmax
  · exact not_lt.1 fun hlt => hleast _ hlt hscale
  · rw [hmax]
    exact hs

end Decimal

end DeskCalculator
