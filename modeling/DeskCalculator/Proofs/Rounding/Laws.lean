import DeskCalculator.Proofs.Rounding.Modes

/-!
Laws of rounding. They follow from what the modes promise: order because a promise is kept in order,
signs because a promise turned around is one too, and nesting because less than a step on the finer
grid cannot lead across a point of the coarser one.
-/
namespace DeskCalculator
open Decimal

theorem Decimal.HasScale.abs {v : Rat} {s : Nat} (h : HasScale v s) : HasScale |v| s := by
  rcases abs_choice v with habs | habs
  · rw [habs]
    exact h
  · rw [habs]
    exact h.neg

namespace RoundingMode

def IsDirected : RoundingMode → Prop
  | toZero | toNegativeInfinity | toPositiveInfinity => True
  | toEven | awayFromZero => False

variable {mode : RoundingMode} {digits finer : Nat} {v r t : Rat}

theorem add_spacing_finer_le (hle : digits ≤ finer) (hr : HasScale r finer)
    (ht : HasScale t digits) (h : r < t + spacing digits) :
    r + spacing finer ≤ t + spacing digits := by
  have hgrid : HasScale (t + spacing digits) digits := by
    have hunit : HasScale (spacing digits) digits := by
      simpa [spacing] using hasScale_div 1 digits
    simpa using ht.add hunit
  exact add_spacing_le hr (hgrid.mono hle) h

theorem Rounds.toNegativeInfinity_trans (hle : digits ≤ finer)
    (hr : toNegativeInfinity.Rounds finer v r) (ht : toNegativeInfinity.Rounds digits r t) :
    toNegativeInfinity.Rounds digits v t := by
  obtain ⟨hrgrid, hrv, hvr⟩ := hr
  obtain ⟨htgrid, htr, hrt⟩ := ht
  have hstep := add_spacing_finer_le hle hrgrid htgrid hrt
  exact ⟨htgrid, htr.trans hrv, hvr.trans_le hstep⟩

theorem Rounds.toZero_trans (hle : digits ≤ finer)
    (hr : toZero.Rounds finer v r) (ht : toZero.Rounds digits r t) :
    toZero.Rounds digits v t := by
  obtain ⟨hrgrid, hrv, hvr, hrsign⟩ := hr
  obtain ⟨htgrid, htr, hrt, htsign⟩ := ht
  have hstep := add_spacing_finer_le hle hrgrid.abs htgrid.abs hrt
  refine ⟨htgrid, htr.trans hrv, hvr.trans_le hstep, htsign.imp_right fun htr => ?_⟩
  have hne : r ≠ 0 := right_ne_zero_of_mul htr.ne'
  have hrv := hrsign.resolve_left hne
  have hprod : 0 < t * v * (r * r) := by
    rw [mul_mul_mul_comm, mul_comm v r]
    exact mul_pos htr hrv
  exact pos_of_mul_pos_left hprod (mul_self_nonneg r)

theorem Rounds.trans (hmode : mode.IsDirected) (hle : digits ≤ finer)
    (hr : mode.Rounds finer v r) (ht : mode.Rounds digits r t) : mode.Rounds digits v t := by
  cases mode with
  | toEven | awayFromZero => exact hmode.elim
  | toZero => exact hr.toZero_trans hle ht
  | toNegativeInfinity => exact hr.toNegativeInfinity_trans hle ht
  | toPositiveInfinity =>
    have hneg := Rounds.toNegativeInfinity_trans hle hr.neg ht.neg
    simpa [mirrored] using hneg.neg

end RoundingMode

open RoundingMode

theorem roundTo_neg (mode : RoundingMode) (digits : Nat) (v : Rat) :
    roundTo mode digits (-v) = -roundTo mode.mirrored digits v := by
  have hneg := (rounds_roundTo mode.mirrored digits v).neg
  rw [mirrored_mirrored] at hneg
  exact (rounds_roundTo mode digits (-v)).unique hneg

theorem roundTo_toNegativeInfinity_eq_iff {digits : Nat} {v : Rat} :
    roundTo .toNegativeInfinity digits v = roundTo .toPositiveInfinity digits v ↔
      HasScale v digits := by
  constructor
  · intro h
    obtain ⟨hgrid, hdown, -⟩ := rounds_roundTo .toNegativeInfinity digits v
    obtain ⟨-, -, hup⟩ := rounds_roundTo .toPositiveInfinity digits v
    rw [← h] at hup
    rwa [← le_antisymm hdown hup]
  · intro h
    rw [roundTo_of_hasScale _ h, roundTo_of_hasScale _ h]

theorem roundTo_mirrored_iff {mode : RoundingMode} {digits : Nat} {v : Rat} :
    roundTo mode.mirrored digits v = roundTo mode digits v ↔
      mode.mirrored = mode ∨ HasScale v digits := by
  cases mode with
  | toEven | awayFromZero | toZero => exact iff_of_true rfl (.inl rfl)
  | toNegativeInfinity =>
    rw [eq_comm]
    simpa [mirrored] using roundTo_toNegativeInfinity_eq_iff
  | toPositiveInfinity => simpa [mirrored] using roundTo_toNegativeInfinity_eq_iff

/-- Rounding keeps the order and, with the directions that are not towards zero exchanged, the sign.
In a directed mode a first rounding on a finer grid changes nothing, and in no mode does a second
one. -/
theorem roundTo_laws (mode : RoundingMode) (digits : Nat) :
    (∀ v w, v ≤ w → roundTo mode digits v ≤ roundTo mode digits w) ∧
    (∀ v, roundTo mode digits (-v) = -roundTo mode.mirrored digits v) ∧
    ∀ finer, digits ≤ finer → ∀ v,
      (mode.IsDirected → roundTo mode digits (roundTo mode finer v) = roundTo mode digits v) ∧
      roundTo mode finer (roundTo mode digits v) = roundTo mode digits v := by
  refine ⟨fun v w h => ?_, roundTo_neg mode digits, fun finer hle v => ⟨fun hmode => ?_, ?_⟩⟩
  · exact (rounds_roundTo mode digits v).mono (rounds_roundTo mode digits w) h
  · have hr := rounds_roundTo mode finer v
    have ht := rounds_roundTo mode digits (roundTo mode finer v)
    exact (Rounds.trans hmode hle hr ht).unique (rounds_roundTo mode digits v)
  · exact roundTo_of_hasScale mode ((hasScale_roundTo mode digits v).mono hle)

theorem roundTo_down_by_way_of_two_decimals :
    roundTo .toNegativeInfinity 1 (roundTo .toNegativeInfinity 2 (-2449 / 1000)) = -5 / 2 ∧
      roundTo .toNegativeInfinity 2 (roundTo .toNegativeInfinity 1 (-2449 / 1000)) = -5 / 2 ∧
      -5 / 2 ≤ roundTo .toNegativeInfinity 1 (-241 / 100) ∧
      roundTo .toPositiveInfinity 1 (2449 / 1000) = 5 / 2 := by
  obtain ⟨hmono, hneg, hnest⟩ := roundTo_laws .toNegativeInfinity 1
  obtain ⟨htwice, hagain⟩ := hnest 2 (by decide) (-2449 / 1000)
  have hdown : roundTo .toNegativeInfinity 1 (-2449 / 1000) = -5 / 2 := by decide +kernel
  have hup : -5 / 2 = -roundTo .toPositiveInfinity 1 (2449 / 1000) := by
    rw [← hdown, neg_div]
    exact hneg (2449 / 1000)
  refine ⟨(htwice trivial).trans hdown, hagain.trans hdown, ?_, by linarith⟩
  rw [← hdown]
  exact hmono _ _ (by norm_num)

example : roundTo .awayFromZero 1 (roundTo .awayFromZero 2 (2449 / 1000)) = 5 / 2 ∧
    roundTo .awayFromZero 1 (2449 / 1000) = 12 / 5 := by
  decide +kernel

end DeskCalculator
