import DeskCalculator.Proofs.Decimal.Printed
import DeskCalculator.Proofs.Rounding.Modes

/-!
Canonical decimals. A spelling is canonical when it is plain and its last decimal is no zero, which is
to say that it has no more decimals than its value needs. So every value with finitely many decimals
has one canonical text, and that is the one that is printed of it.
-/
namespace DeskCalculator.Decimal

/-- A minus or no sign, a whole part without a superfluous zero, and decimals up to one that is not
zero, or none and no point; but zero has no sign. -/
structure Spelling.IsCanonical (p : Spelling) : Prop where
  sign_ne : p.sign ≠ some .plus
  isWhole : IsWhole p.whole
  last_ne : ∀ ds ∈ p.afterPoint, ∃ c ∈ ds.getLast?, c ≠ '0'
  text_ne : p.text ≠ "-0"

/-! ### The last decimal and the least scale -/

theorem hasScale_pred_iff (n : Int) (s : Nat) : HasScale (n / 10 ^ (s + 1)) s ↔ 10 ∣ n := by
  have hstep : (n / 10 ^ (s + 1) * 10 ^ s : Rat) = n / 10 := by
    rw [pow_succ', div_mul_eq_mul_div, mul_div_mul_right _ _ (ten_pow_ne_zero s)]
  rw [hasScale_iff, hstep]
  constructor
  · rintro ⟨m, hm⟩
    refine ⟨m, ?_⟩
    rw [div_eq_iff (by norm_num), mul_comm] at hm
    exact_mod_cast hm
  · rintro ⟨m, rfl⟩
    refine ⟨m, ?_⟩
    rw [div_eq_iff (by norm_num), mul_comm]
    push_cast
    rfl

namespace Spelling

variable {p : Spelling}

theorem ten_dvd_mantissa_iff {ds : List Char} {c : Char} (h : p.decimals = ds ++ [c]) :
    10 ∣ p.mantissa ↔ c = '0' := by
  have hc : c.isDigit = true := by
    refine p.isDigit_of_mem c (List.mem_append_right _ ?_)
    change c ∈ p.decimals
    rw [h]
    exact List.mem_append_right _ (List.mem_singleton_self c)
  have hlt := toNat_sub_lt_ten hc
  have hnat : 10 ∣ p.mantissa ↔ 10 ∣ p.mantissa.natAbs := Int.natCast_dvd
  rw [hnat, p.natAbs_mantissa, digits, h, ← List.append_assoc, ofDigitChars_concat,
    ← toNat_sub_eq_zero_iff hc]
  omega

theorem last_ne_zero_iff :
    (∀ c ∈ p.decimals.getLast?, c ≠ '0') ↔ ∀ t < p.scale, ¬ HasScale p.value t := by
  unfold value scale
  rcases List.eq_nil_or_concat' p.decimals with h | ⟨ds, c, h⟩
  · rw [h]
    exact iff_of_true nofun nofun
  · have hlen : p.decimals.length = ds.length + 1 := by
      rw [h, List.length_append, List.length_singleton]
    have hlast : p.decimals.getLast? = some c := by
      rw [h, List.getLast?_concat]
    have hpred := (hasScale_pred_iff p.mantissa ds.length).trans (ten_dvd_mantissa_iff h)
    rw [hlast, hlen]
    constructor
    · intro hc t ht hscale
      exact hc c rfl (hpred.1 (hscale.mono (Nat.le_of_lt_succ ht)))
    · intro hleast d hd
      obtain rfl := Option.some.inj hd
      exact mt hpred.2 (hleast ds.length (Nat.lt_succ_self _))

/-! ### Canonical spellings -/

theorem mantissa_nonneg (h : p.sign ≠ some .negate) : 0 ≤ p.mantissa := by
  unfold mantissa
  split
  · exact absurd ‹_› h
  all_goals exact Int.natCast_nonneg _

theorem mantissa_nonpos (h : p.sign = some .negate) : p.mantissa ≤ 0 := by
  unfold mantissa
  rw [h]
  exact neg_nonpos.2 (Int.natCast_nonneg _)

theorem IsCanonical.mantissa_ne_zero (h : p.IsCanonical) (hsign : p.sign = some .negate) :
    p.mantissa ≠ 0 := by
  intro hzero
  have hdigits : p.whole ++ p.decimals = paddedDigits (p.scale + 1) 0 := by
    rw [← Int.natAbs_eq_zero.2 hzero, p.natAbs_mantissa]
    exact (paddedDigits_ofDigitChars h.isWhole p.isDigit_of_mem).symm
  have hall : ∀ c ∈ p.whole ++ p.decimals, c = '0' := by
    rw [hdigits]
    intro c hc
    rcases List.mem_append.1 hc with hc | hc
    · exact List.eq_of_mem_replicate hc
    · rw [Nat.toDigits_zero] at hc
      exact List.mem_singleton.1 hc
  have hpoint : p.afterPoint = none := by
    cases hafter : p.afterPoint with
    | none => rfl
    | some ds =>
      obtain ⟨c, hc, hne⟩ := h.last_ne ds hafter
      refine absurd (hall c (List.mem_append_right _ ?_)) hne
      rw [decimals, hafter]
      exact List.mem_of_getLast? hc
  rw [scale, decimals, hpoint, Option.getD_none, List.append_nil] at hdigits
  refine h.text_ne ?_
  rw [text, hsign, unsignedChars, hpoint, hdigits]
  rfl

theorem IsCanonical.isPlain (h : p.IsCanonical) : p.IsPlain := by
  refine ⟨?_, h.isWhole, fun hafter => ?_⟩
  · by_cases hsign : p.sign = some .negate
    · rw [if_pos (lt_of_le_of_ne (mantissa_nonpos hsign) (h.mantissa_ne_zero hsign)), hsign]
    · rw [if_neg (not_lt.2 (mantissa_nonneg hsign))]
      cases hp : p.sign with
      | none => rfl
      | some s =>
        cases s with
        | plus => exact absurd hp h.sign_ne
        | negate => exact absurd hp hsign
  · obtain ⟨_, hc, -⟩ := h.last_ne [] hafter
    cases hc

theorem IsPlain.text_ne (h : p.IsPlain) : p.text ≠ "-0" := by
  intro htext
  have hscale : p.scale = 0 := by
    rw [scale, ← p.fraction_text, htext]
    rfl
  have hwrites := h.writes (hscale ▸ Nat.two_pow_pos 32)
  rw [htext] at hwrites
  have hzero : p.value = 0 := by
    have hread : ofString? "-0" = some 0 := by decide +kernel
    exact Option.some.inj (hwrites.reads.symm.trans hread)
  rcases hwrites.chars '-' (by decide) with hc | hc | ⟨-, hneg⟩
  · cases hc
  · cases hc
  · exact absurd hzero hneg.ne

theorem isCanonical_iff :
    p.IsCanonical ↔ p.IsPlain ∧ ∀ t < p.scale, ¬ HasScale p.value t := by
  rw [← last_ne_zero_iff]
  constructor
  · intro h
    refine ⟨h.isPlain, fun c hc => ?_⟩
    cases hafter : p.afterPoint with
    | none =>
      rw [decimals, hafter] at hc
      cases hc
    | some ds =>
      obtain ⟨d, hd, hne⟩ := h.last_ne ds hafter
      rw [decimals, hafter, Option.getD_some, Option.mem_def.1 hd] at hc
      exact Option.some.inj hc ▸ hne
  · rintro ⟨hplain, hlast⟩
    refine ⟨?_, hplain.isWhole, fun ds hafter => ?_, hplain.text_ne⟩
    · rw [hplain.sign_eq]
      split <;> decide
    · have hds : p.decimals = ds := by rw [decimals, hafter, Option.getD_some]
      have hne : ds ≠ [] := by
        rintro rfl
        exact hplain.afterPoint_ne hafter
      rw [hds] at hlast
      exact ⟨_, List.getLast?_eq_some_getLast hne, hlast _ (List.getLast?_eq_some_getLast hne)⟩

end Spelling

/-! ### What is printed -/

theorem Spelling.IsCanonical.text_eq {p : Spelling} (h : p.IsCanonical)
    (hscale : HasScale p.value maxScale) : p.text = toText p.value := by
  obtain ⟨hplain, hleast⟩ := isCanonical_iff.1 h
  have hs : p.scale ≤ maxScale := not_lt.1 fun hlt => hleast _ hlt hscale
  rw [toText_eq_exactChars hscale, leastScale_eq p.hasScale_value hs hleast]
  exact hplain.text_eq_exactChars

theorem exists_isCanonical {v : Rat} (h : HasScale v maxScale) :
    ∃ p : Spelling, p.IsCanonical ∧ p.text = toText v ∧ p.value = v := by
  obtain ⟨p, hplain, rfl, hscale, htext⟩ :=
    exists_isPlain_of_hasScale (hasScale_leastScale_zero h)
  refine ⟨p, Spelling.isCanonical_iff.2 ⟨hplain, fun t ht hfits => ?_⟩, ?_, rfl⟩
  · rw [hscale] at ht
    exact absurd (leastScale_le hfits (Nat.zero_le t)) (not_le.2 ht)
  · rw [htext, toText_eq_exactChars h]

theorem eq_toText_iff {v : Rat} {text : String} (h : HasScale v maxScale) :
    text = toText v ↔ ∃ p : Spelling, p.IsCanonical ∧ p.text = text ∧ p.value = v := by
  constructor
  · rintro rfl
    exact exists_isCanonical h
  · rintro ⟨p, hp, rfl, rfl⟩
    exact hp.text_eq h

theorem ofString?_toText {v : Rat} (h : HasScale v maxScale) : ofString? (toText v) = some v := by
  obtain ⟨_, -, hwrites⟩ := exists_writes_toText h le_rfl
  exact hwrites.reads

end DeskCalculator.Decimal
