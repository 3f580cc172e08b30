import DeskCalculator.Proofs.Decimal.Scale
import Mathlib.Algebra.Order.Field.Rat
import Mathlib.Tactic.Linarith

/-!
What a rounding mode promises, said without reference to how it rounds. A promise that is kept is
kept in order: a greater value never gets the lesser result. So it is kept by one result only.
-/
namespace DeskCalculator
open Decimal

def spacing (digits : Nat) : Rat :=
  1 / 10 ^ digits

theorem spacing_mul (digits : Nat) : spacing digits * 10 ^ digits = 1 :=
  div_mul_cancel₀ 1 (ten_pow_ne_zero digits)

theorem spacing_zero : spacing 0 = 1 := by
  norm_num [spacing]

theorem spacing_pos (digits : Nat) : 0 < spacing digits := by
  unfold spacing
  positivity

theorem add_spacing_le {v w : Rat} {digits : Nat} (hv : HasScale v digits)
    (hw : HasScale w digits) (h : v < w) : v + spacing digits ≤ w := by
  obtain ⟨m, hm⟩ := hasScale_iff.1 hv
  obtain ⟨n, hn⟩ := hasScale_iff.1 hw
  have hpos : (0 : Rat) < 10 ^ digits := by positivity
  have hlt : (m : Rat) < n := by
    rw [← hm, ← hn]
    exact mul_lt_mul_of_pos_right h hpos
  have hle : (m : Rat) + 1 ≤ n := by exact_mod_cast Int.add_one_le_of_lt (Int.cast_lt.1 hlt)
  refine le_of_mul_le_mul_right ?_ hpos
  rw [add_mul, spacing_mul, hm, hn]
  exact hle

namespace RoundingMode

/-- `r` is a multiple of the spacing, and what the mode promises for `v`. To the nearest it is at most
half a spacing away, and at a tie it is an even multiple or lies further from zero; directed, it is
less than a spacing away on the side that the mode names. -/
def Rounds (mode : RoundingMode) (digits : Nat) (v r : Rat) : Prop :=
  HasScale r digits ∧
    match mode with
    | toEven => |v - r| ≤ spacing digits / 2 ∧
        (|v - r| = spacing digits / 2 → ∃ n : Int, r * 10 ^ digits = 2 * n)
    | awayFromZero => |v - r| ≤ spacing digits / 2 ∧ (|v - r| = spacing digits / 2 → |v| < |r|)
    | toZero => |r| ≤ |v| ∧ |v| < |r| + spacing digits ∧ (r = 0 ∨ 0 < r * v)
    | toNegativeInfinity => r ≤ v ∧ v < r + spacing digits
    | toPositiveInfinity => r - spacing digits < v ∧ v ≤ r

variable {mode : RoundingMode} {digits : Nat} {v w r t x : Rat}

theorem rounds_iff_scaled :
    mode.Rounds digits v r ↔ mode.Rounds 0 (v * 10 ^ digits) (r * 10 ^ digits) := by
  have hpos : (0 : Rat) < 10 ^ digits := by positivity
  have hscale : HasScale (r * 10 ^ digits) 0 ↔ HasScale r digits := by
    simp only [HasScale, pow_zero, mul_one]
  have hunit : spacing 0 = spacing digits * 10 ^ digits := by rw [spacing_mul, spacing_zero]
  have habs (y : Rat) : |y * 10 ^ digits| = |y| * 10 ^ digits := by
    rw [abs_mul, abs_of_pos hpos]
  unfold Rounds
  rw [hscale, hunit]
  cases mode with
  | toEven | awayFromZero =>
    simp only [← sub_mul, habs, mul_div_right_comm, mul_le_mul_iff_left₀ hpos,
      mul_lt_mul_iff_left₀ hpos, mul_left_inj' hpos.ne', pow_zero, mul_one]
  | toZero =>
    have hsign : r * 10 ^ digits * (v * 10 ^ digits) = r * v * (10 ^ digits * 10 ^ digits) :=
      mul_mul_mul_comm ..
    simp only [hsign, habs, ← add_mul, mul_le_mul_iff_left₀ hpos, mul_lt_mul_iff_left₀ hpos,
      mul_eq_zero, hpos.ne', or_false, mul_pos_iff_of_pos_right (mul_pos hpos hpos)]
  | toNegativeInfinity | toPositiveInfinity =>
    simp only [← sub_mul, ← add_mul, mul_le_mul_iff_left₀ hpos, mul_lt_mul_iff_left₀ hpos]

/-- The mode that treats values below zero as this one treats those above. -/
def mirrored : RoundingMode → RoundingMode
  | toNegativeInfinity => toPositiveInfinity
  | toPositiveInfinity => toNegativeInfinity
  | mode => mode

theorem mirrored_mirrored (mode : RoundingMode) : mode.mirrored.mirrored = mode := by
  cases mode <;> rfl

theorem Rounds.neg (h : mode.Rounds digits v r) : mode.mirrored.Rounds digits (-v) (-r) := by
  obtain ⟨hgrid, h⟩ := h
  refine ⟨hgrid.neg, ?_⟩
  have hdist : |-v - -r| = |v - r| := by rw [← abs_neg, neg_sub_neg, neg_sub]
  cases mode with
  | toEven =>
    simp only [mirrored, hdist]
    refine ⟨h.1, fun htie => ?_⟩
    obtain ⟨n, hn⟩ := h.2 htie
    exact ⟨-n, by rw [neg_mul, hn, Int.cast_neg, mul_neg]⟩
  | awayFromZero => simpa only [mirrored, hdist, abs_neg] using h
  | toZero => simpa only [mirrored, abs_neg, neg_mul_neg, neg_eq_zero] using h
  | toNegativeInfinity =>
    obtain ⟨hle, hlt⟩ := h
    exact ⟨by linarith, neg_le_neg hle⟩
  | toPositiveInfinity =>
    obtain ⟨hlt, hle⟩ := h
    exact ⟨neg_le_neg hle, by linarith⟩

theorem rounds_toZero_iff_of_nonneg (hv : 0 ≤ v) :
    toZero.Rounds digits v r ↔ toNegativeInfinity.Rounds digits v r := by
  refine and_congr_right fun hgrid => ?_
  simp only [abs_of_nonneg hv]
  constructor
  · rintro ⟨hle, hlt, hsign⟩
    have hr : 0 ≤ r := by
      rcases hsign with rfl | hsign
      · exact le_rfl
      · exact (pos_of_mul_pos_left hsign hv).le
    rw [abs_of_nonneg hr] at hle hlt
    exact ⟨hle, hlt⟩
  · rintro ⟨hle, hlt⟩
    have hr : 0 ≤ r := by
      by_contra hneg
      have hstep := add_spacing_le hgrid (hasScale_zero digits) (not_le.1 hneg)
      linarith
    rw [abs_of_nonneg hr]
    refine ⟨hle, hlt, hr.eq_or_lt.imp Eq.symm fun hpos => ?_⟩
    exact mul_pos hpos (hpos.trans_le hle)

theorem rounds_toZero_iff_of_nonpos (hv : v ≤ 0) :
    toZero.Rounds digits v r ↔ toPositiveInfinity.Rounds digits v r := by
  have hneg : toZero.Rounds digits (-v) (-r) ↔ toNegativeInfinity.Rounds digits (-v) (-r) :=
    rounds_toZero_iff_of_nonneg (neg_nonneg.2 hv)
  constructor
  · intro h
    simpa [mirrored] using (hneg.1 h.neg).neg
  · intro h
    simpa [mirrored] using (hneg.2 h.neg).neg

theorem abs_sub_nearestInteger (lowerAtTie : Int → Bool) (x : Rat) :
    |x - nearestInteger lowerAtTie x| ≤ 1 / 2 ∧
      (|x - nearestInteger lowerAtTie x| = 1 / 2 → x = x.floor + 1 / 2 ∧
        nearestInteger lowerAtTie x = if lowerAtTie x.floor then x.floor else x.floor + 1) := by
  have hlow := Rat.floor_le x
  have hhigh : x - 1 < x.floor := Rat.lt_floor
  have hdist : |x - x.floor| = x - x.floor := abs_of_nonneg (by linarith)
  have hdist' : |x - (x.floor + 1 : Int)| = x.floor + 1 - x := by
    rw [Int.cast_add, Int.cast_one, abs_of_neg (by linarith), neg_sub]
  unfold nearestInteger
  by_cases hbelow : x - x.floor < 1 / 2
  · rw [if_pos hbelow, hdist]
    exact ⟨hbelow.le, fun htie => absurd htie hbelow.ne⟩
  · by_cases habove : 1 / 2 < x - x.floor
    · rw [if_neg hbelow, if_pos habove, hdist']
      exact ⟨by linarith, fun htie => by linarith⟩
    · rw [if_neg hbelow, if_neg habove]
      refine ⟨?_, fun _ => ⟨by linarith, rfl⟩⟩
      split
      · rw [hdist]
        exact not_lt.1 habove
      · rw [hdist']
        linarith

theorem hasScale_intCast (n : Int) : HasScale n 0 :=
  hasScale_iff.2 ⟨n, by rw [pow_zero, mul_one]⟩

theorem rounds_floor (x : Rat) : toNegativeInfinity.Rounds 0 x x.floor := by
  have hlt : x - 1 < x.floor := Rat.lt_floor
  refine ⟨hasScale_intCast _, Rat.floor_le x, ?_⟩
  rw [spacing_zero]
  linarith

theorem rounds_ceil (x : Rat) : toPositiveInfinity.Rounds 0 x x.ceil := by
  have hlt : (x.ceil : Rat) < x + 1 := Rat.ceil_lt
  refine ⟨hasScale_intCast _, ?_, Rat.le_ceil⟩
  rw [spacing_zero]
  linarith

theorem rounds_toEven (x : Rat) : toEven.Rounds 0 x (toEven.toInteger x) := by
  obtain ⟨hle, htie⟩ := abs_sub_nearestInteger (fun low => low % 2 == 0) x
  refine ⟨hasScale_intCast _, ?_⟩
  simp only [spacing_zero, pow_zero, mul_one, toInteger]
  refine ⟨hle, fun h => ?_⟩
  obtain ⟨-, hn⟩ := htie h
  have heven : ∃ n, nearestInteger (fun low => low % 2 == 0) x = 2 * n := by
    rw [hn]
    split
    · rename_i hlow
      have hmod : x.floor % 2 = 0 := by simpa using hlow
      exact ⟨x.floor / 2, by omega⟩
    · rename_i hlow
      have hmod : x.floor % 2 ≠ 0 := by simpa using hlow
      exact ⟨(x.floor + 1) / 2, by omega⟩
  exact_mod_cast heven

theorem rounds_awayFromZero (x : Rat) : awayFromZero.Rounds 0 x (awayFromZero.toInteger x) := by
  obtain ⟨hle, htie⟩ := abs_sub_nearestInteger (fun low => decide (low < 0)) x
  refine ⟨hasScale_intCast _, ?_⟩
  simp only [spacing_zero, toInteger]
  refine ⟨hle, fun h => ?_⟩
  obtain ⟨hx, hn⟩ := htie h
  rw [hn]
  split
  · rename_i hlow
    have hneg : (x.floor : Rat) + 1 ≤ 0 := by exact_mod_cast of_decide_eq_true hlow
    rw [abs_of_neg (by linarith), abs_of_neg (by linarith)]
    linarith
  · rename_i hlow
    have hnonneg : (0 : Rat) ≤ x.floor := by simpa using hlow
    rw [Int.cast_add, Int.cast_one, abs_of_nonneg (by linarith), abs_of_nonneg (by linarith)]
    linarith

theorem rounds_toInteger (mode : RoundingMode) (x : Rat) : mode.Rounds 0 x (mode.toInteger x) := by
  cases mode with
  | toEven => exact rounds_toEven x
  | awayFromZero => exact rounds_awayFromZero x
  | toZero =>
    simp only [toInteger]
    split
    · rename_i hneg
      exact (rounds_toZero_iff_of_nonpos hneg.le).2 (rounds_ceil x)
    · rename_i hnonneg
      exact (rounds_toZero_iff_of_nonneg (not_lt.1 hnonneg)).2 (rounds_floor x)
  | toNegativeInfinity => exact rounds_floor x
  | toPositiveInfinity => exact rounds_ceil x

theorem rounds_roundTo (mode : RoundingMode) (digits : Nat) (v : Rat) :
    mode.Rounds digits v (roundTo mode digits v) := by
  rw [rounds_iff_scaled, roundTo, div_mul_cancel₀ _ (ten_pow_ne_zero digits)]
  exact rounds_toInteger mode (v * 10 ^ digits)

theorem halfway_of_abs_sub_le {step : Rat} (hr : |v - r| ≤ step / 2) (ht : |w - t| ≤ step / 2)
    (h : v ≤ w) (hstep : t + step ≤ r) :
    v = w ∧ v = t + step / 2 ∧ r = t + step ∧ |v - r| = step / 2 ∧ |v - t| = step / 2 := by
  obtain ⟨hr₁, hr₂⟩ := abs_le.1 hr
  obtain ⟨ht₁, ht₂⟩ := abs_le.1 ht
  -- results out of order leave room for one value only, halfway between them
  obtain rfl : v = w := by linarith
  have hv : v = t + step / 2 := by linarith
  have hr : r = t + step := by linarith
  refine ⟨rfl, hv, hr, ?_, ?_⟩
  · rw [abs_of_nonpos (by linarith)]
    linarith
  · rw [abs_of_nonneg (by linarith)]
    linarith

theorem Rounds.mono (hr : mode.Rounds digits v r) (ht : mode.Rounds digits w t) (h : v ≤ w) :
    r ≤ t := by
  by_contra hlt
  have hstep := add_spacing_le ht.1 hr.1 (not_le.1 hlt)
  obtain ⟨hrgrid, hr⟩ := hr
  obtain ⟨htgrid, ht⟩ := ht
  cases mode with
  | toEven =>
    obtain ⟨rfl, -, hrt, hvr, hvt⟩ := halfway_of_abs_sub_le hr.1 ht.1 h hstep
    obtain ⟨m, hm⟩ := hr.2 hvr
    obtain ⟨n, hn⟩ := ht.2 hvt
    -- neighbours on the grid are not both even
    have hparity : (2 * m : Rat) = 2 * n + 1 := by
      rw [← hm, ← hn, hrt, add_mul, spacing_mul]
    have hparity' : 2 * m = 2 * n + 1 := by exact_mod_cast hparity
    omega
  | awayFromZero =>
    obtain ⟨rfl, hv, hrt, hvr, hvt⟩ := halfway_of_abs_sub_le hr.1 ht.1 h hstep
    have hr' := hr.2 hvr
    have ht' := ht.2 hvt
    have hpos := spacing_pos digits
    -- no value between two neighbours is nearer to zero than both of them
    rcases le_or_gt 0 t with hnonneg | hneg
    · rw [abs_of_nonneg hnonneg, abs_of_nonneg (by linarith)] at ht'
      linarith
    · have hnonpos := add_spacing_le htgrid (hasScale_zero digits) hneg
      rw [abs_of_nonpos (by linarith), abs_of_nonpos (by linarith)] at hr'
      linarith
  | toZero =>
    rcases le_total 0 v with hv | hv
    · obtain ⟨-, hle, -⟩ := (rounds_toZero_iff_of_nonneg hv).1 ⟨hrgrid, hr⟩
      obtain ⟨-, -, hlt⟩ := (rounds_toZero_iff_of_nonneg (hv.trans h)).1 ⟨htgrid, ht⟩
      linarith
    · obtain ⟨-, hlt, -⟩ := (rounds_toZero_iff_of_nonpos hv).1 ⟨hrgrid, hr⟩
      rcases le_total 0 w with hw | hw
      · obtain ⟨-, -, hlt'⟩ := (rounds_toZero_iff_of_nonneg hw).1 ⟨htgrid, ht⟩
        have hneg : t < 0 := by linarith
        have hnonpos := add_spacing_le htgrid (hasScale_zero digits) hneg
        linarith
      · obtain ⟨-, -, hle⟩ := (rounds_toZero_iff_of_nonpos hw).1 ⟨htgrid, ht⟩
        linarith
  | toNegativeInfinity =>
    obtain ⟨hle, -⟩ := hr
    obtain ⟨-, hlt⟩ := ht
    linarith
  | toPositiveInfinity =>
    obtain ⟨hlt, -⟩ := hr
    obtain ⟨-, hle⟩ := ht
    linarith

theorem Rounds.unique (hr : mode.Rounds digits v r) (ht : mode.Rounds digits v t) : r = t :=
  le_antisymm (hr.mono ht le_rfl) (ht.mono hr le_rfl)

end RoundingMode

/-- Rounding gives what the mode promises, and nothing else is what the mode promises. -/
theorem roundTo_eq_iff_rounds (mode : RoundingMode) (digits : Nat) (v r : Rat) :
    roundTo mode digits v = r ↔ mode.Rounds digits v r := by
  have hrounds := RoundingMode.rounds_roundTo mode digits v
  constructor
  · rintro rfl
    exact hrounds
  · exact hrounds.unique

end DeskCalculator
