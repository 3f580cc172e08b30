import DeskCalculator.Proofs.Binary64.Nearest

/-! The search for the shortest decimal. On each grid the two points around the magnitude decide
whether any point reads back; the grids above the leading digit have none, and the one seventeen
digits below has one. So the search ends on the coarsest grid that has any. -/
namespace DeskCalculator.Binary64

def OnGrid (k : Int) (x : Rat) : Prop :=
  ∃ n : Int, x = n * 10 ^ k

variable {c : Nat} {j k : Int} {v x y : Rat}

theorem OnGrid.neg (h : OnGrid k x) : OnGrid k (-x) := by
  obtain ⟨n, rfl⟩ := h
  exact ⟨-n, by push_cast; ring⟩

theorem OnGrid.mono (h : OnGrid k x) (hjk : j ≤ k) : OnGrid j x := by
  obtain ⟨n, rfl⟩ := h
  obtain ⟨d, rfl⟩ := Int.le.dest hjk
  refine ⟨n * 10 ^ d, ?_⟩
  rw [zpow_add₀ (by norm_num), zpow_natCast]
  push_cast
  ring

/-! ### One grid -/

theorem OnGrid.succ (n k : Int) : OnGrid k ((n + 1) * 10 ^ k) :=
  ⟨n + 1, by push_cast; rfl⟩

theorem floor_around (v : Rat) (k : Int) :
    (v / 10 ^ k).floor * 10 ^ k ≤ v ∧ v < ((v / 10 ^ k).floor + 1) * 10 ^ k ∧
      ∀ x, OnGrid k x → x ≤ (v / 10 ^ k).floor * 10 ^ k ∨ ((v / 10 ^ k).floor + 1) * 10 ^ k ≤ x := by
  have hstep : (0 : Rat) < 10 ^ k := by positivity
  refine ⟨?_, ?_, ?_⟩
  · rw [← le_div_iff₀ hstep]
    exact Rat.floor_le _
  · rw [← div_lt_iff₀ hstep]
    have hfloor : v / 10 ^ k - 1 < (v / 10 ^ k).floor := Rat.lt_floor
    linarith
  · rintro x ⟨n, rfl⟩
    rcases lt_or_ge (v / 10 ^ k).floor n with hlt | hle
    · have hsucc : ((v / 10 ^ k).floor : Rat) + 1 ≤ n := by exact_mod_cast hlt
      exact .inr (mul_le_mul_of_nonneg_right hsucc hstep.le)
    · have hcast : (n : Rat) ≤ (v / 10 ^ k).floor := by exact_mod_cast hle
      exact .inl (mul_le_mul_of_nonneg_right hcast hstep.le)

theorem exists_neighbours (hc : 0 < c) (k : Int) :
    ∃ low high, OnGrid k low ∧ OnGrid k high ∧ low ≤ magnitude c ∧ magnitude c < high ∧
      (∀ x, OnGrid k x → readsBack c x = true →
        x ≤ low ∧ readsBack c low = true ∨ high ≤ x ∧ readsBack c high = true) ∧
      onGrid? c k =
        match readsBack c low, readsBack c high with
        | true, true => some (if magnitude c - low < high - magnitude c then low else high)
        | true, false => some low
        | false, true => some high
        | false, false => none := by
  obtain ⟨hbelow, habove, hbetween⟩ := floor_around (magnitude c) k
  have hself := readsBack_magnitude hc
  refine ⟨_, _, ⟨_, rfl⟩, .succ _ k, hbelow, habove, fun x hx hback => ?_, rfl⟩
  refine (hbetween x hx).imp (fun hle => ⟨hle, ?_⟩) (fun hle => ⟨hle, ?_⟩)
  · exact readsBack_of_between hback hself hle hbelow
  · exact readsBack_of_between hself hback habove.le hle

theorem onGrid?_eq_some (hc : 0 < c) (h : onGrid? c k = some x) :
    OnGrid k x ∧ readsBack c x = true ∧
      ∀ y, OnGrid k y → readsBack c y = true → |x - magnitude c| ≤ |y - magnitude c| := by
  obtain ⟨low, high, hlow, hhigh, hbelow, habove, hbehind, hsearch⟩ := exists_neighbours hc k
  have hlowdist : |low - magnitude c| = magnitude c - low := by
    rw [abs_sub_comm, abs_of_nonneg (by linarith)]
  have hhighdist : |high - magnitude c| = high - magnitude c := abs_of_nonneg (by linarith)
  have hleft (y : Rat) (hy : y ≤ low) : |low - magnitude c| ≤ |y - magnitude c| := by
    rw [hlowdist]
    exact le_trans (by linarith) (neg_le_abs _)
  have hright (y : Rat) (hy : high ≤ y) : |high - magnitude c| ≤ |y - magnitude c| := by
    rw [hhighdist]
    exact le_trans (by linarith) (le_abs_self _)
  rw [hsearch] at h
  cases hlowback : readsBack c low with
  | true =>
    cases hhighback : readsBack c high with
    | true =>
      rw [hlowback, hhighback, Option.some.injEq] at h
      subst h
      split
      · rename_i hcloser
        refine ⟨hlow, hlowback, fun y hy hback => ?_⟩
        rcases hbehind y hy hback with ⟨hy, -⟩ | ⟨hy, -⟩
        · exact hleft y hy
        · exact le_trans (by linarith) (hright y hy)
      · rename_i hfarther
        refine ⟨hhigh, hhighback, fun y hy hback => ?_⟩
        rcases hbehind y hy hback with ⟨hy, -⟩ | ⟨hy, -⟩
        · exact le_trans (by linarith) (hleft y hy)
        · exact hright y hy
    | false =>
      rw [hlowback, hhighback, Option.some.injEq] at h
      subst h
      refine ⟨hlow, hlowback, fun y hy hback => hleft y ?_⟩
      simpa [hlowback, hhighback] using hbehind y hy hback
  | false =>
    cases hhighback : readsBack c high with
    | true =>
      rw [hlowback, hhighback, Option.some.injEq] at h
      subst h
      refine ⟨hhigh, hhighback, fun y hy hback => hright y ?_⟩
      simpa [hlowback, hhighback] using hbehind y hy hback
    | false =>
      rw [hlowback, hhighback] at h
      cases h

theorem onGrid?_eq_none_iff (hc : 0 < c) :
    onGrid? c k = none ↔ ∀ x, OnGrid k x → readsBack c x = false := by
  constructor
  · intro h x hx
    obtain ⟨low, high, -, -, -, -, hbehind, hsearch⟩ := exists_neighbours hc k
    rw [h] at hsearch
    by_contra hback
    rw [Bool.not_eq_false] at hback
    rcases hbehind x hx hback with ⟨-, hlow⟩ | ⟨-, hhigh⟩
    · rw [hlow] at hsearch
      cases hhigh : readsBack c high <;> simp [hhigh] at hsearch
    · rw [hhigh] at hsearch
      cases hlow : readsBack c low <;> simp [hlow] at hsearch
  · intro h
    by_contra hne
    obtain ⟨x, hx⟩ := Option.ne_none_iff_exists'.1 hne
    obtain ⟨hgrid, hback, -⟩ := onGrid?_eq_some hc hx
    simp [h x hgrid] at hback

/-! ### The range of grids -/

theorem upperMidpoint_lt_width (hc : 0 < c) :
    upperMidpoint c < 2 ^ 53 * (upperMidpoint c - lowerMidpoint c) := by
  obtain ⟨n, s, rfl, hs, hlead⟩ := exists_eq_code c
  have hbit := lastBit_pos n
  have hleading : (leadingBit : Rat) = 2 ^ 52 := by norm_num [leadingBit]
  have hs' : (s : Rat) + 1 ≤ 2 ^ 53 := by
    have : ((s + 1 : Nat) : Rat) ≤ (2 * leadingBit : Nat) := Nat.cast_le.2 hs
    push_cast [hleading] at this
    linarith
  unfold upperMidpoint lowerMidpoint
  rw [magnitude_succ hs hlead, magnitude_eq hs.le hlead]
  -- below the least significand the neighbour is half as far away, but it is half as large
  rcases magnitude_pred_cases hs hlead hc with hpred | ⟨rfl, hpred⟩
  · rw [hpred]
    nlinarith
  · rw [hpred, hleading]
    nlinarith

theorem exists_readsBack_of_lt_width (h : (10 : Rat) ^ k < upperMidpoint c - lowerMidpoint c) :
    ∃ x, OnGrid k x ∧ readsBack c x = true := by
  obtain ⟨hbelow, habove, -⟩ := floor_around (lowerMidpoint c) k
  refine ⟨_, .succ _ k, readsBack_of_lt habove ?_⟩
  rw [add_one_mul]
  linarith

theorem exists_readsBack_of_le (hc : 0 < c) (h : 2 ^ 53 * (10 : Rat) ^ k ≤ upperMidpoint c) :
    ∃ x, OnGrid k x ∧ readsBack c x = true := by
  apply exists_readsBack_of_lt_width
  have hwidth := upperMidpoint_lt_width hc
  linarith

theorem lowerMidpoint_pos (hc : 0 < c) : 0 < lowerMidpoint c := by
  have hpred := magnitude_nonneg (c - 1)
  have hpos := magnitude_pos hc
  unfold lowerMidpoint
  linarith

theorem readsBack_of_upperMidpoint_lt (hc : 0 < c) (h : upperMidpoint c < 10 ^ k)
    (hx : OnGrid k x) : readsBack c x = false := by
  obtain ⟨n, rfl⟩ := hx
  by_contra hback
  obtain ⟨hlow, hhigh, -⟩ := readsBack_iff.1 (Bool.not_eq_false _ ▸ hback)
  have hstep : (0 : Rat) < 10 ^ k := by positivity
  have hpos : (0 : Rat) < n := pos_of_mul_pos_left ((lowerMidpoint_pos hc).trans_le hlow) hstep.le
  have hone : (1 : Rat) ≤ n := by exact_mod_cast Int.cast_pos.1 hpos
  have hle : (10 : Rat) ^ k ≤ n * 10 ^ k := le_mul_of_one_le_left hstep.le hone
  linarith

theorem length_toDigits_bounds {a b : Nat} (hb : 0 < b) (h : b ≤ a) :
    (10 : Rat) ^ ((Nat.toDigits 10 (a / b)).length - 1 : Int) ≤ a / b ∧
      (a : Rat) / b < 10 ^ ((Nat.toDigits 10 (a / b)).length : Int) := by
  have hpos := Nat.length_toDigits_pos (b := 10) (n := a / b)
  have hquotient : 1 ≤ a / b := Nat.div_pos h hb
  have hb' : (0 : Rat) < b := by exact_mod_cast hb
  obtain ⟨l, hl⟩ := Nat.exists_eq_succ_of_ne_zero hpos.ne'
  constructor
  · have hle : 10 ^ l ≤ a / b := by
      by_contra hlt
      rcases Nat.eq_zero_or_pos l with rfl | hl'
      · omega
      · have := (Nat.length_toDigits_le_iff (by norm_num) hl').2 (not_le.1 hlt)
        omega
    have hcast : ((10 ^ l : Nat) : Rat) * b ≤ a := by exact_mod_cast (Nat.le_div_iff_mul_le hb).1 hle
    rw [hl, le_div_iff₀ hb']
    simpa using hcast
  · have hlt := (Nat.length_toDigits_le_iff (b := 10) (by norm_num) hpos).1 le_rfl
    rw [Nat.div_lt_iff_lt_mul hb] at hlt
    rw [div_lt_iff₀ hb', zpow_natCast]
    exact_mod_cast hlt

theorem leadingExponent_bounds (hv : 0 < v) :
    10 ^ (leadingExponent v - 1) ≤ v ∧ v < 10 ^ (leadingExponent v + 1) := by
  have hnum : 0 < v.num.natAbs := by
    rw [Int.natAbs_pos]
    exact (Rat.num_pos.2 hv).ne'
  have hfraction := natAbs_num_div_den hv.le
  unfold leadingExponent
  split
  · rename_i hlt
    obtain ⟨hlow, hhigh⟩ := length_toDigits_bounds hnum hlt.le
    rw [← inv_div, hfraction] at hlow hhigh
    generalize ((Nat.toDigits 10 (v.den / v.num.natAbs)).length : Int) = l at hlow hhigh ⊢
    have hlow' : v ≤ 10 ^ (1 - l) := by
      rw [← neg_sub, zpow_neg]
      exact (le_inv_comm₀ (by positivity) hv).1 hlow
    have hhigh' : 10 ^ (-l) < v := by
      rw [zpow_neg]
      exact (inv_lt_comm₀ hv (by positivity)).1 hhigh
    refine ⟨le_of_eq_of_le ?_ hhigh'.le, hlow'.trans_lt ?_⟩
    · congr 1
      omega
    · exact zpow_lt_zpow_right₀ (by norm_num) (by omega)
  · rename_i hle
    obtain ⟨hlow, hhigh⟩ := length_toDigits_bounds v.den_pos (not_lt.1 hle)
    rw [hfraction] at hlow hhigh
    refine ⟨le_trans ?_ hlow, ?_⟩
    · exact zpow_le_zpow_right₀ (by norm_num) (by omega)
    · rwa [sub_add_cancel]

/-! ### The search -/

theorem firstOnGrid_spec (count : Nat) (h : ∃ j, k - count < j ∧ j ≤ k ∧ onGrid? c j ≠ none) :
    ∃ j ≤ k, onGrid? c j = some (firstOnGrid c k count) ∧
      ∀ i, j < i → i ≤ k → onGrid? c i = none := by
  induction count generalizing k with
  | zero =>
    obtain ⟨j, hlt, hle, -⟩ := h
    push_cast at hlt
    omega
  | succ count ih =>
    cases hfirst : onGrid? c k with
    | some x =>
      refine ⟨k, le_rfl, ?_, fun i hlt hle => by omega⟩
      rw [firstOnGrid, hfirst, Option.getD_some]
    | none =>
      obtain ⟨j, hlt, hle, hj⟩ := h
      -- nothing on this grid, so the hit is on one of the finer ones
      have hne : j ≠ k := by
        rintro rfl
        exact hj hfirst
      obtain ⟨i, hik, hi, hcoarser⟩ := ih (k := k - 1) ⟨j, by push_cast at hlt; omega, by omega, hj⟩
      refine ⟨i, by omega, ?_, fun l hil hlk => ?_⟩
      · rw [firstOnGrid, hfirst, Option.getD_none, hi]
      · rcases hlk.eq_or_lt with rfl | hlk
        · exact hfirst
        · exact hcoarser l hil (by omega)

theorem shortestMagnitude_spec (hc : 0 < c) :
    ∃ k, onGrid? c k = some (shortestMagnitude c) ∧
      ∀ j, k < j → ∀ x, OnGrid j x → readsBack c x = false := by
  have hupper : 0 < upperMidpoint c := (magnitude_pos hc).trans (magnitude_lt_upperMidpoint c)
  obtain ⟨hlow, hhigh⟩ := leadingExponent_bounds hupper
  unfold shortestMagnitude
  rw [if_neg hc.ne']
  generalize leadingExponent (upperMidpoint c) = l at hlow hhigh ⊢
  -- the last grid of the search is fine enough because `2^53 < 10^16`
  have hfine : 2 ^ 53 * (10 : Rat) ^ (l - 17) ≤ upperMidpoint c := by
    have hsplit : (10 : Rat) ^ (l - 1) = 10 ^ 16 * 10 ^ (l - 17) := by
      rw [← zpow_natCast, ← zpow_add₀ (by norm_num)]
      congr 1
      push_cast
      ring
    refine le_trans ?_ hlow
    rw [hsplit]
    gcongr
    norm_num
  obtain ⟨x, hx, hback⟩ := exists_readsBack_of_le hc hfine
  have hhit : onGrid? c (l - 17) ≠ none := by
    intro hnone
    simp [(onGrid?_eq_none_iff hc).1 hnone x hx] at hback
  obtain ⟨k, -, hk, hcoarser⟩ :=
    firstOnGrid_spec (k := l) 18 ⟨l - 17, by push_cast; omega, by omega, hhit⟩
  refine ⟨k, hk, fun j hkj x hx => ?_⟩
  rcases le_or_gt j l with hjl | hlj
  · exact (onGrid?_eq_none_iff hc).1 (hcoarser j hkj hjl) x hx
  · refine readsBack_of_upperMidpoint_lt hc (hhigh.trans_le ?_) hx
    exact zpow_le_zpow_right₀ (by norm_num) hlj

end DeskCalculator.Binary64
