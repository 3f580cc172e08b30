import DeskCalculator.Binary64.Basic
import Mathlib.Algebra.Order.Field.Power
import Mathlib.Algebra.Order.Field.Rat
import Mathlib.Order.Monotone.Basic
import Mathlib.Tactic.Linarith
import Mathlib.Tactic.NormNum
import Mathlib.Tactic.Ring

/-! The magnitudes in the order of their codes. A code is read as a significand above a number of
full exponents, where a significand may also be one too large: the carry into the exponent gives the
same magnitude. -/
namespace DeskCalculator.Binary64

def lastBit (exponent : Nat) : Rat :=
  2 ^ ((exponent : Int) - 1074)

theorem lastBit_pos (n : Nat) : 0 < lastBit n := by
  unfold lastBit
  positivity

theorem lastBit_succ (n : Nat) : lastBit (n + 1) = 2 * lastBit n := by
  unfold lastBit
  rw [← zpow_one_add₀ (by norm_num)]
  congr 1
  push_cast
  ring

variable {n s c : Nat}

theorem magnitude_eq (hs : s ≤ 2 * leadingBit) (hlead : n = 0 ∨ leadingBit ≤ s) :
    magnitude (n * leadingBit + s) = s * lastBit n := by
  have hpos : 0 < leadingBit := by decide
  unfold magnitude
  by_cases hsmall : s < leadingBit
  · obtain rfl : n = 0 := by omega
    simp [hsmall, lastBit]
  · rw [if_neg (by nlinarith)]
    rcases hs.lt_or_eq with hs | rfl
    · obtain ⟨r, rfl⟩ := Nat.exists_eq_add_of_le (not_lt.1 hsmall)
      have hr : r < leadingBit := by omega
      have hcode : n * leadingBit + (leadingBit + r) = leadingBit * (n + 1) + r := by ring
      rw [hcode, Nat.mul_add_mod, Nat.mod_eq_of_lt hr, Nat.mul_add_div hpos, Nat.div_eq_of_lt hr,
        lastBit]
      congr 2
      · omega
      · push_cast
        ring
    · have hcode : n * leadingBit + 2 * leadingBit = leadingBit * (n + 2) := by ring
      have hexponent : ((n + 2 : Nat) : Int) - 1075 = 1 + ((n : Int) - 1074) := by
        push_cast
        ring
      rw [hcode, Nat.mul_mod_right, Nat.mul_div_cancel_left _ hpos, hexponent,
        zpow_one_add₀ (by norm_num), lastBit]
      push_cast
      ring

theorem exists_eq_code (c : Nat) :
    ∃ n s, c = n * leadingBit + s ∧ s < 2 * leadingBit ∧ (n = 0 ∨ leadingBit ≤ s) := by
  have hpos : 0 < leadingBit := by decide
  by_cases hsmall : c < leadingBit
  · exact ⟨0, c, by omega, by omega, .inl rfl⟩
  · refine ⟨c / leadingBit - 1, leadingBit + c % leadingBit, ?_, ?_, by omega⟩
    · have hone : 1 ≤ c / leadingBit := Nat.div_pos (not_lt.1 hsmall) hpos
      have hcode := Nat.div_add_mod' c leadingBit
      obtain ⟨q, hq⟩ := Nat.exists_eq_add_of_le hone
      rw [hq] at hcode ⊢
      rw [Nat.add_sub_cancel_left]
      linarith
    · have hmod := Nat.mod_lt c hpos
      omega

theorem magnitude_succ (hs : s < 2 * leadingBit) (hlead : n = 0 ∨ leadingBit ≤ s) :
    magnitude (n * leadingBit + s + 1) = magnitude (n * leadingBit + s) + lastBit n := by
  rw [Nat.add_assoc, magnitude_eq (by omega) (by omega), magnitude_eq hs.le hlead]
  push_cast
  ring

theorem strictMono_magnitude : StrictMono magnitude := by
  apply strictMono_nat_of_lt_succ
  intro c
  obtain ⟨n, s, rfl, hs, hlead⟩ := exists_eq_code c
  rw [magnitude_succ hs hlead]
  exact lt_add_of_pos_right _ (lastBit_pos n)

theorem magnitude_zero : magnitude 0 = 0 := by
  simp [magnitude, leadingBit]

theorem magnitude_nonneg (c : Nat) : 0 ≤ magnitude c :=
  magnitude_zero ▸ strictMono_magnitude.monotone c.zero_le

theorem magnitude_pos (hc : 0 < c) : 0 < magnitude c :=
  magnitude_zero ▸ strictMono_magnitude hc

theorem magnitude_pred (hs : s ≤ 2 * leadingBit) (hpos : 0 < s) (hlead : n = 0 ∨ leadingBit < s) :
    magnitude (n * leadingBit + s - 1) = (s - 1) * lastBit n := by
  rw [Nat.add_sub_assoc hpos, magnitude_eq (by omega) (by omega), Nat.cast_sub hpos, Nat.cast_one]

theorem magnitude_pred_leadingBit (n : Nat) :
    magnitude ((n + 1) * leadingBit + leadingBit - 1) = (leadingBit - 1 / 2) * lastBit (n + 1) := by
  have hpos : 0 < leadingBit := by decide
  have hcode : (n + 1) * leadingBit + leadingBit - 1 = n * leadingBit + (2 * leadingBit - 1) := by
    have hmul : (n + 1) * leadingBit = n * leadingBit + leadingBit := by ring
    omega
  rw [hcode, magnitude_eq (by omega) (by omega), lastBit_succ, Nat.cast_sub (by omega)]
  push_cast
  ring

theorem magnitude_pred_cases (hs : s < 2 * leadingBit) (hlead : n = 0 ∨ leadingBit ≤ s)
    (hc : 0 < n * leadingBit + s) :
    magnitude (n * leadingBit + s - 1) = (s - 1) * lastBit n ∨
      s = leadingBit ∧ magnitude (n * leadingBit + s - 1) = (leadingBit - 1 / 2) * lastBit n := by
  have hleading : 0 < leadingBit := by decide
  by_cases hleast : n ≠ 0 ∧ s = leadingBit
  · obtain ⟨hn, rfl⟩ := hleast
    obtain ⟨m, rfl⟩ := Nat.exists_eq_succ_of_ne_zero hn
    exact .inr ⟨rfl, magnitude_pred_leadingBit m⟩
  · have hpos : 0 < s := by
      rcases hlead with rfl | hlead
      · simpa using hc
      · exact hleading.trans_le hlead
    exact .inl (magnitude_pred hs.le hpos (by omega))

end DeskCalculator.Binary64
