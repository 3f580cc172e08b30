import DeskCalculator.Operator
import DeskCalculator.Proofs.Binary64.Shortest
import DeskCalculator.Proofs.Decimal.Canonical
import DeskCalculator.Proofs.Rounding.Laws

/-! The way of a binary64 number through decimals and back. Its shortest decimal reads back as the
number, but what is printed of a decimal ends at the greatest scale; so the number comes back if and
only if its shortest decimal ends there. -/
namespace DeskCalculator.Binary64
open Decimal

variable {c : Nat} {k : Int} {v d x : Rat} {bits : UInt64}

/-! ### Encodings -/

theorem toNat_ofCode (negative : Bool) (hc : c ≤ infinityCode) :
    (ofCode negative c).toNat = (if negative then 2 ^ 63 else 0) + c := by
  have hlt : c < 2 ^ 63 := hc.trans_lt (by decide)
  have hnat : (UInt64.ofNat c).toNat = c := UInt64.toNat_ofNat_of_lt' (hlt.trans (by decide))
  cases negative with
  | false => simp [ofCode, hnat]
  | true =>
    have hor : 2 ^ 63 * 1 + c = 2 ^ 63 * 1 ||| c := Nat.two_pow_add_eq_or_of_lt hlt 1
    have hsign : signBit.toNat = 2 ^ 63 := by decide
    rw [mul_one] at hor
    simp only [ofCode, if_true, UInt64.toNat_or, hnat, hsign, hor]
    exact Nat.or_comm _ _

theorem code_ofCode (negative : Bool) (hc : c ≤ infinityCode) : code (ofCode negative c) = c := by
  have hlt : c < 2 ^ 63 := hc.trans_lt (by decide)
  have hsign : signBit.toNat = 2 ^ 63 := by decide
  rw [code, toNat_ofCode negative hc, hsign]
  split <;> omega

theorem isNegative_ofCode (negative : Bool) (hc : c ≤ infinityCode) :
    isNegative (ofCode negative c) = negative := by
  have hlt : c < 2 ^ 63 := hc.trans_lt (by decide)
  have hsign : signBit.toNat = 2 ^ 63 := by decide
  simp only [isNegative, UInt64.le_iff_toNat_le, toNat_ofCode negative hc, hsign]
  cases negative with
  | false => simpa using hlt
  | true => simp

theorem value_ofCode (negative : Bool) (hc : c ≤ infinityCode) :
    value (ofCode negative c) = if negative then -magnitude c else magnitude c := by
  rw [value, code_ofCode negative hc, isNegative_ofCode negative hc]

theorem abs_value (bits : UInt64) : |value bits| = magnitude (code bits) := by
  unfold value
  split
  · rw [abs_neg, abs_of_nonneg (magnitude_nonneg _)]
  · exact abs_of_nonneg (magnitude_nonneg _)

theorem value_nearest_of_nonneg (hv : 0 ≤ v) : value (nearest v) = magnitude (nearestCode v) := by
  rw [nearest, if_neg (not_lt.2 hv), value_ofCode false (nearestCode_le_infinityCode v)]
  rfl

theorem value_nearest_neg (v : Rat) : value (nearest (-v)) = -value (nearest v) := by
  have hneg (w : Rat) (hw : 0 < w) : value (nearest (-w)) = -value (nearest w) := by
    rw [value_nearest_of_nonneg hw.le, nearest, if_pos (neg_neg_of_pos hw), neg_neg,
      value_ofCode true (nearestCode_le_infinityCode w)]
    rfl
  rcases lt_trichotomy v 0 with hv | rfl | hv
  · have := hneg (-v) (neg_pos.2 hv)
    rw [neg_neg] at this
    rw [this, neg_neg]
  · rw [neg_zero, value_nearest_of_nonneg le_rfl]
    simp [nearestCode, magnitude_zero]
  · exact hneg v hv

theorem code_nearest (v : Rat) : code (nearest v) = nearestCode |v| := by
  unfold nearest
  split
  · rename_i hneg
    rw [code_ofCode true (nearestCode_le_infinityCode _), abs_of_neg hneg]
  · rename_i hnonneg
    rw [code_ofCode false (nearestCode_le_infinityCode _), abs_of_nonneg (not_lt.1 hnonneg)]

theorem abs_sub_value_nearest_le (hfinite : isFinite (nearest v) = true) (bits : UInt64) :
    |v - value (nearest v)| ≤ |v - value bits| := by
  have hcode : nearestCode |v| < infinityCode := code_nearest v ▸ of_decide_eq_true hfinite
  have hnonneg (w x : Rat) (hw : 0 ≤ w) (hwcode : nearestCode w < infinityCode)
      (hx : |x| = magnitude (code bits)) : |w - value (nearest w)| ≤ |w - x| := by
    calc |w - value (nearest w)|
        = |w - magnitude (nearestCode w)| := by rw [value_nearest_of_nonneg hw]
      _ ≤ |w - magnitude (code bits)| := abs_sub_magnitude_nearestCode_le hw hwcode _
      _ = |(|w| - |x|)| := by rw [hx, abs_of_nonneg hw]
      _ ≤ |w - x| := abs_abs_sub_abs_le_abs_sub w x
  rcases le_total 0 v with hv | hv
  · rw [abs_of_nonneg hv] at hcode
    exact hnonneg v (value bits) hv hcode (abs_value bits)
  · rw [abs_of_nonpos hv] at hcode
    have hneg := hnonneg (-v) (-value bits) (neg_nonneg.2 hv) hcode
      ((abs_neg _).trans (abs_value bits))
    rwa [value_nearest_neg, neg_sub_neg, neg_sub_neg, abs_sub_comm, abs_sub_comm (value bits)]
      at hneg

/-! ### Reading -/

def ReadsAs (x v : Rat) : Prop :=
  value (nearest x) = v

theorem readsAs_neg_iff : ReadsAs (-x) (-v) ↔ ReadsAs x v := by
  rw [ReadsAs, value_nearest_neg, neg_inj, ReadsAs]

theorem readsAs_magnitude_iff (hc : 0 < c) (hfinite : c < infinityCode) :
    ReadsAs x (magnitude c) ↔ readsBack c x = true := by
  unfold ReadsAs
  rcases lt_or_ge x 0 with hx | hx
  · have hvalue : value (nearest x) ≤ 0 := by
      rw [← neg_neg x, value_nearest_neg, value_nearest_of_nonneg (by linarith)]
      exact neg_nonpos.2 (magnitude_nonneg _)
    refine iff_of_false (hvalue.trans_lt (magnitude_pos hc)).ne fun hback => ?_
    have hlow := (readsBack_iff.1 hback).1
    linarith [lowerMidpoint_pos hc]
  · rw [value_nearest_of_nonneg hx, strictMono_magnitude.injective.eq_iff,
      nearestCode_eq_iff hx hfinite]

theorem readsAs_zero : ReadsAs 0 0 := by
  rw [ReadsAs, value_nearest_of_nonneg le_rfl]
  simp [nearestCode, magnitude_zero]

theorem abs_le_of_readsAs_zero (h : ReadsAs x 0) : |x| ≤ upperMidpoint 0 := by
  have habs : ReadsAs |x| 0 := by
    rcases abs_choice x with hx | hx
    · rwa [hx]
    · rw [hx, ← neg_zero]
      exact readsAs_neg_iff.2 h
  rw [ReadsAs, value_nearest_of_nonneg (abs_nonneg x), ← magnitude_zero] at habs
  have hcode := strictMono_magnitude.injective habs
  exact (readsBack_iff.1 ((nearestCode_eq_iff (abs_nonneg x) (by decide)).1 hcode)).2.1

/-! ### Shortest decimals -/

/-- `d` reads as `v`, on the coarsest grid with a decimal that does, and as near to `v` as any
decimal there. -/
structure IsShortest (v d : Rat) : Prop where
  readsAs : ReadsAs d v
  coarsest : ∀ k x, OnGrid k x → ReadsAs x v → OnGrid k d
  closest : ∀ x, (∀ k, OnGrid k d → OnGrid k x) → ReadsAs x v → |d - v| ≤ |x - v|

theorem IsShortest.neg (h : IsShortest v d) : IsShortest (-v) (-d) := by
  have hreads (x : Rat) (hx : ReadsAs x (-v)) : ReadsAs (-x) v := by
    rwa [← readsAs_neg_iff, neg_neg]
  refine ⟨readsAs_neg_iff.2 h.readsAs, fun k x hgrid hx => ?_, fun x hgrid hx => ?_⟩
  · exact (h.coarsest k (-x) hgrid.neg (hreads x hx)).neg
  · have hgrid' (k : Int) (hk : OnGrid k d) : OnGrid k (-x) := (hgrid k hk.neg).neg
    have hclosest := h.closest (-x) hgrid' (hreads x hx)
    rwa [← abs_neg, ← abs_neg (-x - v), neg_sub', neg_sub', neg_neg] at hclosest

theorem isShortest_shortestMagnitude (hfinite : c < infinityCode) :
    IsShortest (magnitude c) (shortestMagnitude c) := by
  rcases Nat.eq_zero_or_pos c with rfl | hc
  · rw [magnitude_zero, shortestMagnitude, if_pos rfl]
    refine ⟨readsAs_zero, fun k _ _ _ => ⟨0, by simp⟩, fun x _ _ => ?_⟩
    rw [sub_zero, abs_zero]
    exact abs_nonneg _
  · obtain ⟨k, hk, hcoarser⟩ := shortestMagnitude_spec hc
    obtain ⟨hgrid, hback, hclosest⟩ := onGrid?_eq_some hc hk
    have hreads (x : Rat) : ReadsAs x (magnitude c) ↔ readsBack c x = true :=
      readsAs_magnitude_iff hc hfinite
    refine ⟨(hreads _).2 hback, fun j x hx hxreads => ?_, fun x hx hxreads => ?_⟩
    · rcases lt_or_ge k j with hkj | hjk
      · have hnot := hcoarser j hkj x hx
        rw [(hreads x).1 hxreads] at hnot
        cases hnot
      · exact hgrid.mono hjk
    · exact hclosest x (hx k hgrid) ((hreads x).1 hxreads)

theorem exists_isShortest (h : isFinite bits = true) :
    ∃ d, shortest? bits = some d ∧ IsShortest (value bits) d := by
  have hshortest := isShortest_shortestMagnitude (of_decide_eq_true h)
  rw [shortest?, if_pos h]
  unfold value
  refine ⟨_, rfl, ?_⟩
  split
  · exact hshortest.neg
  · exact hshortest

theorem exists_onGrid_readsAs (hfinite : isFinite bits = true)
    (h : 2 ^ 53 * (10 : Rat) ^ k ≤ |value bits|) : ∃ x, OnGrid k x ∧ ReadsAs x (value bits) := by
  rw [abs_value] at h
  have hc : 0 < code bits := by
    refine Nat.pos_of_ne_zero fun hzero => ?_
    have hstep : (0 : Rat) < 2 ^ 53 * 10 ^ k := by positivity
    rw [hzero, magnitude_zero] at h
    exact absurd h (not_le.2 hstep)
  obtain ⟨x, hx, hback⟩ :=
    exists_readsBack_of_le hc (h.trans (magnitude_lt_upperMidpoint _).le)
  have hreads := (readsAs_magnitude_iff hc (of_decide_eq_true hfinite)).2 hback
  unfold value
  split
  · exact ⟨-x, hx.neg, readsAs_neg_iff.2 hreads⟩
  · exact ⟨x, hx, hreads⟩

/-! ### Printing -/

theorem onGrid_neg_iff (s : Nat) : OnGrid (-s) x ↔ HasScale x s := by
  rw [hasScale_iff]
  unfold OnGrid
  simp only [zpow_neg, zpow_natCast, ← div_eq_mul_inv, eq_div_iff (ten_pow_ne_zero s)]

theorem ofString?_toText_eq_truncated (v : Rat) : ofString? (toText v) = some (truncated v) := by
  rw [← toText_truncated]
  exact ofString?_toText (hasScale_truncated v)

theorem IsShortest.readsAs_truncated_iff (h : IsShortest v d) :
    ReadsAs (truncated d) v ↔ HasScale d maxScale := by
  constructor
  · -- cut off, a decimal that read as the same number would be as short as the shortest
    intro hreads
    have hgrid := (onGrid_neg_iff maxScale).2 (hasScale_truncated d)
    exact (onGrid_neg_iff maxScale).1 (h.coarsest _ _ hgrid hreads)
  · intro hscale
    rw [truncated, roundTo_of_hasScale .toZero hscale]
    exact h.readsAs

theorem readsAs_truncated_zero_iff (d : Rat) :
    ReadsAs (truncated d) 0 ↔ |d| < spacing maxScale := by
  have hrounds : RoundingMode.toZero.Rounds maxScale d (truncated d) :=
    RoundingMode.rounds_roundTo .toZero maxScale d
  obtain ⟨hgrid, hle, hlt, -⟩ := hrounds
  have hstep (hpos : 0 < |truncated d|) : spacing maxScale ≤ |truncated d| := by
    have := add_spacing_le (hasScale_zero maxScale) hgrid.abs hpos
    rwa [zero_add] at this
  constructor
  · intro hreads
    have hsmall := abs_le_of_readsAs_zero hreads
    have hfine : upperMidpoint 0 < spacing maxScale := by decide +kernel
    have hzero : |truncated d| = 0 := by
      by_contra hne
      have := hstep (lt_of_le_of_ne (abs_nonneg _) (Ne.symm hne))
      linarith
    linarith
  · intro hsmall
    have hzero : truncated d = 0 := by
      by_contra hne
      have := hstep (abs_pos.2 hne)
      linarith
    rw [hzero]
    exact readsAs_zero

/-- The way of a finite number through its decimal and the printed form of that. The decimal always
reads back; its printed form does if and only if nothing is cut off, so for every number from
`2^53 / 10^64` on, and reads as zero if and only if no digit but zeros is left. -/
theorem roundTrip_of_isFinite (hfinite : isFinite bits = true) :
    ∃ d, shortest? bits = some d ∧ IsShortest (value bits) d ∧
      ofString? (toText d) = some (truncated d) ∧
      (value (toBinary64 d) = value bits ↔ HasScale d maxScale) ∧
      (2 ^ 53 / 10 ^ maxScale ≤ |value bits| → value (toBinary64 d) = value bits) ∧
      (value (toBinary64 d) = 0 ↔ |d| < 1 / 10 ^ maxScale) := by
  obtain ⟨d, hd, hshortest⟩ := exists_isShortest hfinite
  have hreads := hshortest.readsAs_truncated_iff
  refine ⟨d, hd, hshortest, ofString?_toText_eq_truncated d, hreads, fun hlarge => ?_,
    readsAs_truncated_zero_iff d⟩
  have hfine : 2 ^ 53 * (10 : Rat) ^ (-maxScale : Int) ≤ |value bits| := by
    rwa [zpow_neg, zpow_natCast, ← div_eq_mul_inv]
  obtain ⟨x, hgrid, hx⟩ := exists_onGrid_readsAs hfinite hfine
  exact hreads.2 ((onGrid_neg_iff maxScale).1 (hshortest.coarsest _ x hgrid hx))

theorem roundTrip_tenth :
    isFinite 0x3FB999999999999A = true ∧ shortest? 0x3FB999999999999A = some (1 / 10) ∧
      IsShortest (value 0x3FB999999999999A) (1 / 10) ∧
      value (toBinary64 (1 / 10)) = value 0x3FB999999999999A := by
  have hfinite : isFinite 0x3FB999999999999A = true := by decide
  have htenth : shortest? 0x3FB999999999999A = some (1 / 10) := by decide +kernel
  obtain ⟨d, hd, hshortest, -, -, hlarge, -⟩ := roundTrip_of_isFinite hfinite
  obtain rfl := Option.some.inj (htenth.symm.trans hd)
  exact ⟨hfinite, htenth, hshortest, hlarge (by decide +kernel)⟩

theorem not_forall_roundTrip :
    ¬ ∀ bits, isFinite bits = true →
      ∃ d, shortest? bits = some d ∧ value (toBinary64 d) = value bits := by
  intro h
  obtain ⟨d, hd, hreads⟩ := h 0x316615E91D8F359D (by decide)
  have htiny : shortest? 0x316615E91D8F359D = some (1 / 10 ^ 70) := by decide +kernel
  obtain rfl := Option.some.inj (htiny.symm.trans hd)
  have hlost : value (toBinary64 (1 / 10 ^ 70)) ≠ value 0x316615E91D8F359D := by decide +kernel
  exact hlost hreads

end DeskCalculator.Binary64
