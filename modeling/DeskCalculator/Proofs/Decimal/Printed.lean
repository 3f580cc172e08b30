import DeskCalculator.Proofs.Decimal.Digits
import DeskCalculator.Proofs.Decimal.Literal

/-!
Printed decimals. What is printed with a number of decimals is spelled plainly: so many digits after
the point, no superfluous zero in front, and a sign only below zero. There is one such spelling for
each value and number of decimals, and it reads back as the value that was printed.
-/
namespace DeskCalculator.Decimal

/-- `text` is a literal of `v` with so many decimals, and has no sign unless `v` is below zero. -/
structure Writes (text : String) (v : Rat) (decimals : Nat) : Prop where
  reads : ofString? text = some v
  length_fraction : (fraction text).length = decimals
  chars : ∀ c ∈ text.toList, c.isDigit = true ∨ c = '.' ∨ c = '-' ∧ v < 0

theorem Writes.writtenScale_eq {text : String} {v : Rat} {decimals : Nat}
    (h : Writes text v decimals) (hcount : decimals < 2 ^ 32) : writtenScale text = decimals := by
  rw [writtenScale_of_ofString? h.reads, h.length_fraction, counted_of_lt hcount]

/-- A minus below zero and no other sign, no superfluous zero in front, and no point without digits
after it. -/
structure Spelling.IsPlain (p : Spelling) : Prop where
  sign_eq : p.sign = if p.mantissa < 0 then some .negate else none
  isWhole : IsWhole p.whole
  afterPoint_ne : p.afterPoint ≠ some []

namespace Spelling

variable {p : Spelling}

theorem natAbs_mantissa (p : Spelling) :
    p.mantissa.natAbs = Nat.ofDigitChars 10 p.digits 0 := by
  unfold mantissa
  split
  · rw [Int.natAbs_neg, Int.natAbs_natCast]
  all_goals exact Int.natAbs_natCast _

theorem IsPlain.signChars_eq (h : p.IsPlain) :
    signChars p.sign = if p.mantissa < 0 then ['-'] else [] := by
  rw [h.sign_eq]
  split <;> rfl

theorem IsPlain.writes (h : p.IsPlain) (hcount : p.scale < 2 ^ 32) :
    Writes p.text p.value p.scale := by
  refine ⟨ofString?_text_of_lt hcount, congrArg List.length p.fraction_text, fun c hc => ?_⟩
  rw [p.toList_text, h.signChars_eq] at hc
  rcases List.mem_append.1 hc with hc | hc
  · split at hc
    · rename_i hneg
      have hvalue : p.value < 0 := div_neg_of_neg_of_pos (Int.cast_lt_zero.2 hneg) (by positivity)
      exact .inr (.inr ⟨List.mem_singleton.1 hc, hvalue⟩)
    · cases hc
  · exact (isDigit_or_eq_point hc).imp_right .inl

theorem IsPlain.elim_afterPoint (h : p.IsPlain) :
    p.afterPoint.elim [] ('.' :: ·) = if p.decimals = [] then [] else '.' :: p.decimals := by
  have hne := h.afterPoint_ne
  unfold decimals
  cases hafter : p.afterPoint with
  | none => rfl
  | some ds =>
    have hds : ds ≠ [] := by
      rintro rfl
      exact hne hafter
    rw [Option.elim_some, Option.getD_some, if_neg hds]

theorem IsPlain.text_eq (h : p.IsPlain) :
    p.text = String.ofList (fixedPoint p.mantissa p.scale) := by
  have hdigits : paddedDigits (p.scale + 1) p.mantissa.natAbs = p.whole ++ p.decimals := by
    rw [p.natAbs_mantissa]
    exact paddedDigits_ofDigitChars h.isWhole p.isDigit_of_mem
  have hwhole : (p.whole ++ p.decimals).length - p.scale = p.whole.length := by
    rw [List.length_append, scale, Nat.add_sub_cancel]
  simp only [text, unsignedChars, fixedPoint, hdigits, hwhole, List.splitAt_eq, List.take_left,
    List.drop_left, h.signChars_eq, h.elim_afterPoint, List.isEmpty_iff, List.append_assoc]

end Spelling

theorem IsWhole.ne_nil {ds : List Char} (h : IsWhole ds) : ds ≠ [] := by
  rintro rfl
  rcases h with h | ⟨_, h, -⟩ <;> cases h

theorem exists_isPlain (n : Int) (scale : Nat) :
    ∃ p : Spelling, p.IsPlain ∧ p.mantissa = n ∧ p.scale = scale := by
  obtain ⟨whole, frac, hpadded, rfl⟩ : ∃ whole frac,
      paddedDigits (scale + 1) n.natAbs = whole ++ frac ∧ frac.length = scale := by
    have hlen := length_paddedDigits (scale + 1) n.natAbs
    generalize paddedDigits (scale + 1) n.natAbs = digits at hlen
    refine ⟨_, _, (List.take_append_drop (digits.length - scale) digits).symm, ?_⟩
    rw [List.length_drop]
    omega
  obtain ⟨afterPoint, hfrac, hne⟩ : ∃ afterPoint : Option (List Char),
      afterPoint.getD [] = frac ∧ afterPoint ≠ some [] := by
    cases frac with
    | nil => exact ⟨none, rfl, nofun⟩
    | cons c cs => exact ⟨some (c :: cs), rfl, by simp⟩
  subst hfrac
  have hwhole := isWhole_of_paddedDigits hpadded
  have hdigits : ∀ c ∈ whole ++ afterPoint.getD [], c.isDigit = true := by
    rw [← hpadded]
    exact fun c => isDigit_of_mem_paddedDigits
  let p : Spelling := ⟨if n < 0 then some .negate else none, whole, afterPoint, hdigits,
    List.append_ne_nil_of_left_ne_nil hwhole.ne_nil _⟩
  have hvalue : Nat.ofDigitChars 10 p.digits 0 = n.natAbs := by
    rw [← ofDigitChars_paddedDigits (_ + 1) n.natAbs, hpadded]
    rfl
  have hmantissa : p.mantissa = n := by
    unfold Spelling.mantissa
    rw [hvalue]
    by_cases hneg : n < 0
    · simp only [p, if_pos hneg]
      omega
    · simp only [p, if_neg hneg]
      omega
  exact ⟨p, ⟨by rw [hmantissa], hwhole, hne⟩, hmantissa, rfl⟩

theorem Spelling.num_value (p : Spelling) : (p.value * 10 ^ p.scale).num = p.mantissa := by
  rw [value, div_mul_cancel₀ _ (ten_pow_ne_zero _), Rat.num_intCast]

theorem Spelling.IsPlain.text_eq_exactChars {p : Spelling} (h : p.IsPlain) :
    p.text = String.ofList (exactChars p.value p.scale) := by
  rw [exactChars, p.num_value]
  exact h.text_eq

theorem exists_isPlain_of_hasScale {v : Rat} {s : Nat} (h : HasScale v s) :
    ∃ p : Spelling, p.IsPlain ∧ p.value = v ∧ p.scale = s ∧
      p.text = String.ofList (exactChars v s) := by
  obtain ⟨p, hplain, hmantissa, rfl⟩ := exists_isPlain (v * 10 ^ s).num s
  have hvalue : p.value = v := by
    rw [Spelling.value, hmantissa, (Rat.den_eq_one_iff _).1 h]
    exact mul_div_cancel_right₀ v (ten_pow_ne_zero _)
  refine ⟨p, hplain, hvalue, rfl, ?_⟩
  rw [← hvalue]
  exact hplain.text_eq_exactChars

theorem writes_exactChars {v : Rat} {s : Nat} (h : HasScale v s) (hs : s ≤ maxScale) :
    Writes (String.ofList (exactChars v s)) v s := by
  obtain ⟨p, hplain, rfl, rfl, htext⟩ := exists_isPlain_of_hasScale h
  rw [← htext]
  exact hplain.writes (hs.trans_lt maxScale_lt)

theorem toText_eq_exactChars {v : Rat} (h : HasScale v maxScale) :
    toText v = String.ofList (exactChars v (leastScale v 0)) := by
  rw [toText, toChars, truncated, roundTo_of_hasScale .toZero h]

theorem hasScale_truncated (v : Rat) : HasScale (truncated v) maxScale :=
  hasScale_roundTo .toZero maxScale v

theorem toText_truncated (v : Rat) : toText (truncated v) = toText v := by
  have hagain : truncated (truncated v) = truncated v :=
    roundTo_of_hasScale .toZero (hasScale_truncated v)
  simp only [toText, toChars, hagain]

theorem Spelling.value_neg_iff {p : Spelling} : p.value < 0 ↔ p.mantissa < 0 := by
  have hpos : (0 : Rat) < 10 ^ p.scale := by positivity
  rw [value, div_lt_iff₀ hpos, zero_mul, Int.cast_lt_zero]

theorem exists_toChars_eq {v : Rat} (h : HasScale v maxScale) :
    ∃ cs, toChars v = (if v < 0 then ['-'] else []) ++ cs ∧ ofUnsigned? cs = some |v| := by
  obtain ⟨p, hplain, rfl, hscale, htext⟩ :=
    exists_isPlain_of_hasScale (hasScale_leastScale_zero h)
  have hchars : toChars p.value = p.text.toList := by
    rw [htext, ← toText_eq_exactChars h, toText, String.toList_ofList]
  have hcount : counted p.scale = p.scale :=
    counted_of_lt (hscale ▸ (leastScale_le h (Nat.zero_le _)).trans_lt maxScale_lt)
  have habs : |p.value| = (Nat.ofDigitChars 10 p.digits 0 : Nat) / 10 ^ counted p.scale := by
    rw [hcount, Spelling.value, abs_div, abs_of_pos (by positivity : (0 : Rat) < 10 ^ p.scale),
      ← p.natAbs_mantissa, Nat.cast_natAbs, Int.cast_abs]
  refine ⟨p.unsignedChars, ?_, habs ▸ p.ofUnsigned?_unsignedChars⟩
  rw [hchars, p.toList_text, hplain.signChars_eq]
  simp only [Spelling.value_neg_iff]

theorem exists_writes_toText {v : Rat} {s : Nat} (h : HasScale v s) (hs : s ≤ maxScale) :
    ∃ decimals ≤ s, Writes (toText v) v decimals := by
  have hle := leastScale_le h (Nat.zero_le s)
  refine ⟨leastScale v 0, hle, ?_⟩
  rw [toText_eq_exactChars (h.mono hs)]
  exact writes_exactChars (hasScale_leastScale_zero (h.mono hs)) (hle.trans hs)

theorem chars_toText {v : Rat} {s : Nat} (h : HasScale v s) (hs : s ≤ maxScale) :
    ∀ c ∈ (toText v).toList, c.isDigit = true ∨ c = '.' ∨ c = '-' := by
  obtain ⟨_, -, hwrites⟩ := exists_writes_toText h hs
  intro c hc
  exact (hwrites.chars c hc).imp_right (Or.imp_right And.left)

theorem exists_writes_toTextAt {v : Rat} {s t : Nat} (h : HasScale v s) (hs : s ≤ maxScale)
    (hts : t ≤ s) :
    ∃ decimals ≤ s, Writes (toTextAt v t) v decimals ∧ (HasScale v t → decimals = t) := by
  unfold toTextAt
  by_cases ht : HasScale v t
  · rw [if_pos ht]
    exact ⟨t, hts, writes_exactChars ht (hts.trans hs), fun _ => rfl⟩
  · rw [if_neg ht]
    obtain ⟨decimals, hle, hwrites⟩ := exists_writes_toText h hs
    exact ⟨decimals, hle, hwrites, fun h => absurd h ht⟩

end DeskCalculator.Decimal
