import DeskCalculator.Binary64.Nearest
import DeskCalculator.Binary64.Shortest
import DeskCalculator.Proofs.Binary64.Magnitude
import DeskCalculator.Proofs.Rounding.Modes

/-! What reads back as a code is what lies between its two midpoints, the midpoints included when
the code is even. These intervals leave no gap and do not overlap, and the nearest code of a value is
the one whose interval it lies in. -/
namespace DeskCalculator.Binary64

variable {c c' n s : Nat} {v x y z : Rat}

/-! ### Intervals -/

theorem readsBack_iff :
    readsBack c x = true ↔ lowerMidpoint c ≤ x ∧ x ≤ upperMidpoint c ∧
      (c % 2 = 1 → x ≠ lowerMidpoint c ∧ x ≠ upperMidpoint c) := by
  unfold readsBack
  split
  · rename_i heven
    simp [heven]
  · rename_i hodd
    have hone : c % 2 = 1 := by omega
    simp only [hone, forall_const, Bool.and_eq_true, decide_eq_true_eq]
    constructor
    · rintro ⟨hlow, hhigh⟩
      exact ⟨hlow.le, hhigh.le, hlow.ne', hhigh.ne⟩
    · rintro ⟨hlow, hhigh, hne, hne'⟩
      exact ⟨lt_of_le_of_ne hlow (Ne.symm hne), lt_of_le_of_ne hhigh hne'⟩

theorem readsBack_of_lt (hlow : lowerMidpoint c < x) (hhigh : x < upperMidpoint c) :
    readsBack c x = true :=
  readsBack_iff.2 ⟨hlow.le, hhigh.le, fun _ => ⟨hlow.ne', hhigh.ne⟩⟩

theorem readsBack_of_between (hx : readsBack c x = true) (hy : readsBack c y = true)
    (hxz : x ≤ z) (hzy : z ≤ y) : readsBack c z = true := by
  obtain ⟨hlow, -, hodd⟩ := readsBack_iff.1 hx
  obtain ⟨-, hhigh, hodd'⟩ := readsBack_iff.1 hy
  refine readsBack_iff.2 ⟨hlow.trans hxz, hzy.trans hhigh, ?_⟩
  intro hone
  constructor
  · rintro rfl
    exact (hodd hone).1 (le_antisymm hxz hlow)
  · rintro rfl
    exact (hodd' hone).2 (le_antisymm hhigh hzy)

theorem upperMidpoint_le_lowerMidpoint (h : c < c') : upperMidpoint c ≤ lowerMidpoint c' := by
  have hpred : magnitude c ≤ magnitude (c' - 1) := strictMono_magnitude.monotone (by omega)
  have hsucc : magnitude (c + 1) ≤ magnitude c' := strictMono_magnitude.monotone h
  unfold upperMidpoint lowerMidpoint
  linarith

theorem lowerMidpoint_lt_magnitude (hc : 0 < c) : lowerMidpoint c < magnitude c := by
  have hpred : magnitude (c - 1) < magnitude c := strictMono_magnitude (by omega)
  unfold lowerMidpoint
  linarith

theorem magnitude_lt_upperMidpoint (c : Nat) : magnitude c < upperMidpoint c := by
  have hsucc : magnitude c < magnitude (c + 1) := strictMono_magnitude c.lt_succ_self
  unfold upperMidpoint
  linarith

theorem readsBack_magnitude (hc : 0 < c) : readsBack c (magnitude c) = true :=
  readsBack_of_lt (lowerMidpoint_lt_magnitude hc) (magnitude_lt_upperMidpoint c)

theorem not_lt_of_readsBack (h : readsBack c x = true) (h' : readsBack c' x = true) :
    ¬ c < c' := by
  intro hlt
  obtain ⟨-, hhigh, hodd⟩ := readsBack_iff.1 h
  obtain ⟨hlow, -, hodd'⟩ := readsBack_iff.1 h'
  have hmid := upperMidpoint_le_lowerMidpoint hlt
  have hx : x = upperMidpoint c := by linarith
  have hx' : x = lowerMidpoint c' := by linarith
  -- a shared midpoint belongs to two neighbours, and one of them is odd
  have hnext : c' = c + 1 := by
    by_contra hne
    have hbetween : magnitude (c + 1) < magnitude c' := strictMono_magnitude (by omega)
    have hpred : magnitude (c + 1) ≤ magnitude (c' - 1) :=
      strictMono_magnitude.monotone (by omega)
    have hstep : magnitude c < magnitude (c + 1) := strictMono_magnitude c.lt_succ_self
    have hshared : upperMidpoint c = lowerMidpoint c' := hx.symm.trans hx'
    unfold upperMidpoint lowerMidpoint at hshared
    linarith
  rcases Nat.mod_two_eq_zero_or_one c with heven | hone
  · exact (hodd' (by omega)).1 hx'
  · exact (hodd hone).2 hx

theorem readsBack_unique (h : readsBack c x = true) (h' : readsBack c' x = true) : c = c' :=
  le_antisymm (not_lt.1 (not_lt_of_readsBack h' h)) (not_lt.1 (not_lt_of_readsBack h h'))

/-! ### Significands -/

/-- `s` is the significand nearest to `v` above `n` exponents, at a tie the even one, and these are
the exponents of the spacing around `v`. -/
structure IsSignificand (v : Rat) (n s : Nat) : Prop where
  nonneg : 0 ≤ v
  below : v < 2 * leadingBit * lastBit n
  above : n = 0 ∨ leadingBit * lastBit n ≤ v
  near : |v / lastBit n - s| ≤ 1 / 2
  tie : |v / lastBit n - s| = 1 / 2 → s % 2 = 0

namespace IsSignificand

variable (h : IsSignificand v n s)

include h

theorem le : s ≤ 2 * leadingBit := by
  have hquotient : v / lastBit n < 2 * leadingBit := by
    rw [div_lt_iff₀ (lastBit_pos n)]
    exact h.below
  have hlt : (s : Rat) < (2 * leadingBit + 1 : Nat) := by
    have hnear := (abs_le.1 h.near).1
    push_cast
    linarith
  exact Nat.lt_succ_iff.1 (Nat.cast_lt.1 hlt)

theorem leading : n = 0 ∨ leadingBit ≤ s := by
  refine h.above.imp_right fun habove => ?_
  have hquotient : (leadingBit : Rat) ≤ v / lastBit n := by
    rwa [le_div_iff₀ (lastBit_pos n)]
  have hlt : (leadingBit : Rat) < (s + 1 : Nat) := by
    have hnear := (abs_le.1 h.near).2
    push_cast
    linarith
  exact Nat.lt_succ_iff.1 (Nat.cast_lt.1 hlt)

theorem le_half_above : v ≤ (s + 1 / 2) * lastBit n := by
  rw [← div_le_iff₀ (lastBit_pos n)]
  linarith [(abs_le.1 h.near).2]

theorem half_below_le : (s - 1 / 2) * lastBit n ≤ v := by
  rw [← le_div_iff₀ (lastBit_pos n)]
  linarith [(abs_le.1 h.near).1]

theorem ne_half_above (hodd : s % 2 = 1) : v ≠ (s + 1 / 2) * lastBit n := by
  intro hv
  have heven := h.tie (by rw [hv, mul_div_cancel_right₀ _ (lastBit_pos n).ne']; norm_num [abs_of_pos])
  omega

theorem ne_half_below (hodd : s % 2 = 1) : v ≠ (s - 1 / 2) * lastBit n := by
  intro hv
  have heven := h.tie (by rw [hv, mul_div_cancel_right₀ _ (lastBit_pos n).ne']; norm_num)
  omega

theorem le_upperMidpoint :
    v ≤ upperMidpoint (n * leadingBit + s) ∧
      (s % 2 = 1 → v ≠ upperMidpoint (n * leadingBit + s)) := by
  have hmagnitude := magnitude_eq h.le h.leading
  by_cases hlarge : s = 2 * leadingBit
  · -- a significand one too large: the value lies below its magnitude already
    have hlt : v < upperMidpoint (n * leadingBit + s) := by
      refine lt_of_lt_of_le ?_ (magnitude_lt_upperMidpoint _).le
      rw [hmagnitude, hlarge]
      push_cast
      exact h.below
    exact ⟨hlt.le, fun _ => hlt.ne⟩
  · have hmid : upperMidpoint (n * leadingBit + s) = (s + 1 / 2) * lastBit n := by
      rw [upperMidpoint, magnitude_succ (lt_of_le_of_ne h.le hlarge) h.leading, hmagnitude]
      ring
    rw [hmid]
    exact ⟨h.le_half_above, h.ne_half_above⟩

theorem lowerMidpoint_le :
    lowerMidpoint (n * leadingBit + s) ≤ v ∧
      (s % 2 = 1 → v ≠ lowerMidpoint (n * leadingBit + s)) := by
  have hmagnitude := magnitude_eq h.le h.leading
  by_cases hpred : 0 < s ∧ (n = 0 ∨ leadingBit < s)
  · have hmid : lowerMidpoint (n * leadingBit + s) = (s - 1 / 2) * lastBit n := by
      rw [lowerMidpoint, magnitude_pred h.le hpred.1 hpred.2, hmagnitude]
      ring
    rw [hmid]
    exact ⟨h.half_below_le, h.ne_half_below⟩
  · -- the least significand of its exponent: the value lies above its magnitude already
    have hleading : leadingBit % 2 = 0 ∧ 0 < leadingBit := by decide
    have hleast : s = 0 ∨ n ≠ 0 ∧ s = leadingBit := by
      have := h.leading
      omega
    have hle : magnitude (n * leadingBit + s) ≤ v := by
      rw [hmagnitude]
      rcases hleast with rfl | ⟨hn, rfl⟩
      · simpa using h.nonneg
      · exact h.above.resolve_left hn
    have hmid : lowerMidpoint (n * leadingBit + s) ≤ magnitude (n * leadingBit + s) := by
      have hmono : magnitude (n * leadingBit + s - 1) ≤ magnitude (n * leadingBit + s) :=
        strictMono_magnitude.monotone (Nat.sub_le _ _)
      unfold lowerMidpoint
      linarith
    exact ⟨hmid.trans hle, fun hodd => by omega⟩

theorem readsBack : readsBack (n * leadingBit + s) v = true := by
  have hparity : (n * leadingBit + s) % 2 = s % 2 := by
    have heven : leadingBit = 2 * (leadingBit / 2) := by decide
    rw [heven, mul_left_comm, Nat.mul_add_mod]
  obtain ⟨habove, hneabove⟩ := h.le_upperMidpoint
  obtain ⟨hbelow, hnebelow⟩ := h.lowerMidpoint_le
  rw [readsBack_iff, hparity]
  exact ⟨hbelow, habove, fun hodd => ⟨hnebelow hodd, hneabove hodd⟩⟩

end IsSignificand

/-! ### The nearest code -/

theorem natAbs_num_div_den (hv : 0 ≤ v) : (v.num.natAbs : Rat) / v.den = v := by
  have hden : (v.den : Rat) ≠ 0 := by exact_mod_cast v.den_nz
  rw [div_eq_iff hden, Rat.mul_den_eq_num, ← Int.cast_natCast, Int.natCast_natAbs,
    abs_of_nonneg (Rat.num_nonneg.2 hv)]

theorem zpow_log2_bounds (hv : 0 < v) :
    2 ^ ((v.num.natAbs.log2 : Int) - v.den.log2 - 1) ≤ v ∧
      v < 2 ^ ((v.num.natAbs.log2 : Int) - v.den.log2 + 1) := by
  have hnum : v.num.natAbs ≠ 0 := by simpa using hv.ne'
  have htwo : (2 : Rat) ≠ 0 := by norm_num
  have hden : (0 : Rat) < v.den := by exact_mod_cast v.den_pos
  have hfraction := natAbs_num_div_den hv.le
  have hnum_le : (2 : Rat) ^ v.num.natAbs.log2 ≤ v.num.natAbs := by
    exact_mod_cast Nat.log2_self_le hnum
  have hlt_num : (v.num.natAbs : Rat) < 2 ^ (v.num.natAbs.log2 + 1) := by
    exact_mod_cast Nat.lt_log2_self
  have hden_le : (2 : Rat) ^ v.den.log2 ≤ v.den := by
    exact_mod_cast Nat.log2_self_le v.den_nz
  have hlt_den : (v.den : Rat) < 2 ^ (v.den.log2 + 1) := by
    exact_mod_cast Nat.lt_log2_self
  constructor
  · calc (2 : Rat) ^ ((v.num.natAbs.log2 : Int) - v.den.log2 - 1)
        = 2 ^ v.num.natAbs.log2 / 2 ^ (v.den.log2 + 1) := by
          rw [sub_sub, zpow_sub₀ htwo, ← zpow_natCast, ← zpow_natCast]
          push_cast
          rfl
      _ ≤ v.num.natAbs / v.den := by gcongr
      _ = v := hfraction
  · calc v = v.num.natAbs / v.den := hfraction.symm
      _ < 2 ^ (v.num.natAbs.log2 + 1) / 2 ^ v.den.log2 := by gcongr
      _ = 2 ^ ((v.num.natAbs.log2 : Int) - v.den.log2 + 1) := by
          rw [sub_add_eq_add_sub, zpow_sub₀ htwo, ← zpow_natCast, ← zpow_natCast]
          push_cast
          rfl

theorem spacingExponent_spec (hv : 0 < v) :
    -1074 ≤ spacingExponent v ∧ v < 2 ^ (spacingExponent v + 53) ∧
      (spacingExponent v = -1074 ∨ 2 ^ (spacingExponent v + 52) ≤ v) := by
  obtain ⟨habove, hbelow⟩ := zpow_log2_bounds hv
  have hfine : fineExponent v =
      max (-1074) ((v.num.natAbs.log2 : Int) - v.den.log2 - 53) := rfl
  generalize (v.num.natAbs.log2 : Int) - v.den.log2 = l at habove hbelow hfine
  unfold spacingExponent
  split
  · rename_i hfits
    refine ⟨by omega, hfits, ?_⟩
    by_cases hleast : fineExponent v = -1074
    · exact .inl hleast
    · have hl : fineExponent v + 52 = l - 1 := by omega
      exact .inr (hl ▸ habove)
  · rename_i hover
    refine ⟨by omega, ?_, .inr ?_⟩
    · refine hbelow.trans_le (zpow_le_zpow_right₀ (by norm_num) ?_)
      omega
    · rw [add_assoc]
      exact not_lt.1 hover

theorem exists_isSignificand (hv : 0 < v) :
    ∃ n s, IsSignificand v n s ∧ nearestCode v = min infinityCode (n * leadingBit + s) := by
  obtain ⟨hleast, hbelow, habove⟩ := spacingExponent_spec hv
  have htwo : (2 : Rat) ≠ 0 := by norm_num
  have hleading : (leadingBit : Rat) = 2 ^ (52 : Int) := by norm_num [leadingBit]
  obtain ⟨n, hn⟩ := Int.eq_ofNat_of_zero_le (a := spacingExponent v + 1074) (by omega)
  have hexponent : spacingExponent v = (n : Int) - 1074 := by omega
  have hbit : (2 : Rat) ^ spacingExponent v = lastBit n := by rw [hexponent, lastBit]
  obtain ⟨-, hnear, htie⟩ := RoundingMode.rounds_toEven (v / lastBit n)
  rw [spacing_zero] at hnear htie
  have hquotient : 0 ≤ v / lastBit n := (div_pos hv (lastBit_pos n)).le
  -- within half of a quotient that is not negative, so a natural number
  obtain ⟨s, hs⟩ : ∃ s : Nat, RoundingMode.toEven.toInteger (v / lastBit n) = s := by
    apply Int.eq_ofNat_of_zero_le
    have hlt : (-1 : Rat) < RoundingMode.toEven.toInteger (v / lastBit n) := by
      linarith [(abs_le.1 hnear).2]
    have : (-1 : Int) < RoundingMode.toEven.toInteger (v / lastBit n) := by exact_mod_cast hlt
    omega
  rw [hs, Int.cast_natCast] at hnear htie
  refine ⟨n, s, ⟨hv.le, ?_, ?_, hnear, ?_⟩, ?_⟩
  · rw [hleading, ← hbit, ← zpow_one_add₀ htwo, ← zpow_add₀ htwo]
    have hsum : 1 + 52 + spacingExponent v = spacingExponent v + 53 := by omega
    rwa [hsum]
  · rw [hleading, ← hbit, ← zpow_add₀ htwo, add_comm (52 : Int)]
    exact habove.imp_left fun h => by omega
  · intro h
    obtain ⟨m, hm⟩ := htie h
    have hint : (s : Int) = 2 * m := by
      have hcast : ((s : Int) : Rat) = (2 * m : Int) := by simpa using hm
      exact_mod_cast hcast
    omega
  · rw [nearestCode, if_neg hv.ne']
    simp only [hbit, hs, hn]
    rfl

theorem exists_readsBack (hv : 0 ≤ v) :
    ∃ c, readsBack c v = true ∧ nearestCode v = min infinityCode c := by
  rcases hv.eq_or_lt with rfl | hpos
  · refine ⟨0, ?_, by simp [nearestCode]⟩
    have hmid := magnitude_lt_upperMidpoint 0
    rw [magnitude_zero] at hmid
    exact readsBack_iff.2 ⟨by simp [lowerMidpoint, magnitude_zero], hmid.le, by simp⟩
  · obtain ⟨n, s, h, hnearest⟩ := exists_isSignificand hpos
    exact ⟨_, h.readsBack, hnearest⟩

theorem nearestCode_eq_iff (hv : 0 ≤ v) (hc : c < infinityCode) :
    nearestCode v = c ↔ readsBack c v = true := by
  obtain ⟨c', hc', hnearest⟩ := exists_readsBack hv
  rw [hnearest]
  constructor
  · intro h
    obtain rfl : c' = c := by omega
    exact hc'
  · intro h
    obtain rfl := readsBack_unique h hc'
    omega

theorem nearestCode_le_infinityCode (v : Rat) : nearestCode v ≤ infinityCode := by
  unfold nearestCode
  split
  · exact Nat.zero_le _
  · exact min_le_left _ _

theorem abs_sub_magnitude_nearestCode_le (hv : 0 ≤ v) (hfinite : nearestCode v < infinityCode)
    (c' : Nat) : |v - magnitude (nearestCode v)| ≤ |v - magnitude c'| := by
  obtain ⟨hlow, hhigh, -⟩ := readsBack_iff.1 ((nearestCode_eq_iff hv hfinite).1 rfl)
  generalize nearestCode v = c at hlow hhigh ⊢
  unfold lowerMidpoint at hlow
  unfold upperMidpoint at hhigh
  have hmono := strictMono_magnitude.monotone
  have hpred : magnitude (c - 1) ≤ magnitude c := hmono (Nat.sub_le c 1)
  have hsucc : magnitude c ≤ magnitude (c + 1) := hmono c.le_succ
  rcases lt_trichotomy c' c with hlt | rfl | hgt
  · have hle : magnitude c' ≤ magnitude (c - 1) := hmono (by omega)
    refine abs_le.2 ⟨?_, ?_⟩
    · linarith [le_abs_self (v - magnitude c')]
    · linarith [le_abs_self (v - magnitude c')]
  · exact le_rfl
  · have hle : magnitude (c + 1) ≤ magnitude c' := hmono hgt
    refine abs_le.2 ⟨?_, ?_⟩
    · linarith [neg_le_abs (v - magnitude c')]
    · linarith [neg_le_abs (v - magnitude c')]

end DeskCalculator.Binary64
