import DeskCalculator.Proofs.Decimal.Canonical

/-!
The printer, step by step. It scales the value, cuts it off towards zero, sets the point and takes
off the zeros at the end. A canonical spelling with zeros behind it is trimmed to that spelling, so
what is printed is the canonical text of the value.
-/
namespace DeskCalculator.Decimal

theorem pow10_eq (k : Nat) : pow10 k = 10 ^ k :=
  rfl

theorem length_paddedDigits_of_lt {width n : Nat} (hwidth : width ≠ 0) (h : n < 10 ^ width) :
    (paddedDigits width n).length = width := by
  rw [length_paddedDigits]
  exact Nat.max_eq_left
    ((Nat.length_toDigits_le_iff (by decide) (Nat.pos_of_ne_zero hwidth)).2 h)

theorem paddedDigits_add_one_eq {width n : Nat} (hwidth : width ≠ 0) :
    paddedDigits (width + 1) n =
      Nat.toDigits 10 (n / 10 ^ width) ++ paddedDigits width (n % 10 ^ width) := by
  have hlen : (paddedDigits width (n % 10 ^ width)).length = width :=
    length_paddedDigits_of_lt hwidth (Nat.mod_lt _ (Nat.pow_pos (by decide)))
  have hvalue : Nat.ofDigitChars 10
      (Nat.toDigits 10 (n / 10 ^ width) ++ paddedDigits width (n % 10 ^ width)) 0 = n := by
    rw [Nat.ofDigitChars_append, Nat.ofDigitChars_ten_toDigits,
      Nat.ofDigitChars_eq_ofDigitChars_zero, hlen, ofDigitChars_paddedDigits]
    exact Nat.div_add_mod n (10 ^ width)
  have hdigits : ∀ c ∈ Nat.toDigits 10 (n / 10 ^ width) ++ paddedDigits width (n % 10 ^ width),
      c.isDigit = true := by
    intro c hc
    rcases List.mem_append.1 hc with hc | hc
    · exact Nat.isDigit_of_mem_toDigits (by decide) (by decide) hc
    · exact isDigit_of_mem_paddedDigits hc
  have hpadded := paddedDigits_ofDigitChars (isWhole_toDigits (n / 10 ^ width)) hdigits
  rwa [hvalue, hlen] at hpadded

theorem scaledChars_eq_fixedPoint (n : Int) (digits : Nat) :
    scaledChars n digits = fixedPoint n digits := by
  simp only [scaledChars, fixedPoint, pow10_eq]
  by_cases hdigits : digits = 0
  · subst hdigits
    have hone : paddedDigits 1 n.natAbs = Nat.toDigits 10 n.natAbs := by
      have hpos : 0 < (Nat.toDigits 10 n.natAbs).length :=
        List.length_pos_iff.2 Nat.toDigits_ne_nil
      simp only [paddedDigits, Nat.sub_eq_zero_of_le hpos, List.replicate_zero, List.nil_append]
    simp [hone]
  · have hlen : (paddedDigits digits (n.natAbs % 10 ^ digits)).length = digits :=
      length_paddedDigits_of_lt hdigits (Nat.mod_lt _ (by positivity))
    have hwhole : (Nat.toDigits 10 (n.natAbs / 10 ^ digits) ++
        paddedDigits digits (n.natAbs % 10 ^ digits)).length - digits =
          (Nat.toDigits 10 (n.natAbs / 10 ^ digits)).length := by
      rw [List.length_append, hlen, Nat.add_sub_cancel]
    have hne : (paddedDigits digits (n.natAbs % 10 ^ digits)).isEmpty = false := by
      rw [List.isEmpty_eq_false_iff, ← List.length_pos_iff, hlen]
      exact Nat.pos_of_ne_zero hdigits
    simp only [paddedDigits_add_one_eq hdigits, hwhole, List.splitAt_eq, List.take_left,
      List.drop_left, hne, if_neg hdigits, Bool.false_eq_true, if_false]

/-! ### Trimming -/

theorem trimmed_of_not_mem {cs : List Char} (h : '.' ∉ cs) : trimmed cs = cs :=
  if_neg h

theorem trimmed_append {front ds : List Char} (hlast : ∀ c ∈ ds.getLast?, c ≠ '0')
    (hdigits : ∀ c ∈ ds, c.isDigit = true) (zeros : Nat) :
    trimmed (front ++ '.' :: (ds ++ List.replicate zeros '0')) =
      front ++ if ds = [] then [] else '.' :: ds := by
  have hmem : '.' ∈ front ++ '.' :: (ds ++ List.replicate zeros '0') := by simp
  have hreverse : (front ++ '.' :: (ds ++ List.replicate zeros '0')).reverse =
      List.replicate zeros '0' ++ (ds.reverse ++ '.' :: front.reverse) := by simp
  have hzeros : ∀ c ∈ List.replicate zeros '0', (c == '0') = true := by simp
  rw [trimmed, if_pos hmem, hreverse, List.dropWhile_append_of_pos hzeros]
  rcases List.eq_nil_or_concat' ds with rfl | ⟨ds, c, rfl⟩
  · simp
  · have hc : c ≠ '0' := hlast c (List.getLast?_concat ..)
    have hpoint : c ≠ '.' := ne_point_of_isDigit (hdigits c (by simp))
    have hstop : (ds ++ [c]).reverse ++ '.' :: front.reverse =
        c :: (ds.reverse ++ '.' :: front.reverse) := by simp
    rw [hstop, List.dropWhile_cons_of_neg (by simpa using hc), if_neg (by simp)]
    split
    · rename_i hhead
      exact absurd (List.cons.inj hhead).1 hpoint
    · simp

/-! ### Zeros behind a canonical spelling -/

namespace Spelling

variable {p : Spelling}

def extended (p : Spelling) (zeros : Nat) : Spelling where
  sign := p.sign
  whole := p.whole
  afterPoint := some (p.decimals ++ List.replicate zeros '0')
  isDigit_of_mem := by
    intro c hc
    rw [Option.getD_some, ← List.append_assoc] at hc
    rcases List.mem_append.1 hc with hc | hc
    · exact p.isDigit_of_mem c hc
    · rw [List.eq_of_mem_replicate hc]
      rfl
  ne_nil := by
    rw [Option.getD_some, ← List.append_assoc]
    exact List.append_ne_nil_of_left_ne_nil p.ne_nil _

theorem scale_extended (p : Spelling) (zeros : Nat) :
    (p.extended zeros).scale = p.scale + zeros := by
  simp [extended, scale, decimals]

theorem mantissa_extended (p : Spelling) (zeros : Nat) :
    (p.extended zeros).mantissa = p.mantissa * 10 ^ zeros := by
  have hdigits : Nat.ofDigitChars 10 (p.extended zeros).digits 0 =
      Nat.ofDigitChars 10 p.digits 0 * 10 ^ zeros := by
    rw [digits, decimals, extended, Option.getD_some, ← List.append_assoc,
      Nat.ofDigitChars_append, Nat.ofDigitChars_replicate_zero, mul_comm]
    rfl
  have hsign : (p.extended zeros).sign = p.sign := rfl
  unfold mantissa
  rw [hsign, hdigits]
  split
  · push_cast
    rw [neg_mul]
  all_goals
    push_cast
    rfl

theorem value_extended (p : Spelling) (zeros : Nat) : (p.extended zeros).value = p.value := by
  rw [value, value, mantissa_extended, scale_extended, Int.cast_mul, Int.cast_pow, Int.cast_ofNat,
    pow_add, mul_div_mul_right _ _ (ten_pow_ne_zero zeros)]

theorem IsPlain.extended (h : p.IsPlain) {zeros : Nat} (hscale : p.scale + zeros ≠ 0) :
    (p.extended zeros).IsPlain := by
  refine ⟨?_, h.isWhole, fun hnil => hscale ?_⟩
  · have hneg : (p.extended zeros).mantissa < 0 ↔ p.mantissa < 0 := by
      rw [← value_neg_iff, value_extended, value_neg_iff]
    simp only [hneg]
    exact h.sign_eq
  · rw [← scale_extended, scale, decimals, hnil]
    rfl

theorem IsCanonical.trimmed_extended (h : p.IsCanonical) (zeros : Nat) :
    trimmed (p.extended zeros).text.toList = p.text.toList := by
  have hdigits : ∀ c ∈ p.decimals, c.isDigit = true :=
    fun c hc => p.isDigit_of_mem c (List.mem_append_right _ hc)
  obtain ⟨hplain, hleast⟩ := isCanonical_iff.1 h
  rw [toList_text, toList_text, unsignedChars, unsignedChars, hplain.elim_afterPoint,
    ← List.append_assoc, ← List.append_assoc]
  exact trimmed_append (last_ne_zero_iff.2 hleast) hdigits zeros

end Spelling

/-! ### What the steps come to -/

theorem Spelling.IsPlain.point_not_mem {p : Spelling} (h : p.IsPlain) (hscale : p.scale = 0) :
    '.' ∉ p.text.toList := by
  have hdecimals : p.decimals = [] := List.length_eq_zero_iff.1 hscale
  rw [p.toList_text, h.signChars_eq, unsignedChars, h.elim_afterPoint, if_pos hdecimals,
    List.append_nil]
  intro hpoint
  rcases List.mem_append.1 hpoint with hsign | hwhole
  · split at hsign <;> simp at hsign
  · exact ne_point_of_isDigit (p.isDigit_of_mem _ (List.mem_append_left _ hwhole)) rfl

theorem trimmed_exactChars {v : Rat} {s : Nat} (h : HasScale v s) (hs : s ≤ maxScale) :
    trimmed (exactChars v s) = toChars v := by
  obtain ⟨p, hcanonical, htext, rfl⟩ := exists_isCanonical (h.mono hs)
  obtain ⟨hplain, hleast⟩ := Spelling.isCanonical_iff.1 hcanonical
  have hle : p.scale ≤ s := not_lt.1 fun hlt => hleast s hlt h
  obtain ⟨zeros, rfl⟩ := Nat.exists_eq_add_of_le hle
  have htoChars : toChars p.value = p.text.toList := by
    rw [htext, toText, String.toList_ofList]
  rw [htoChars]
  by_cases hscale : p.scale + zeros = 0
  · -- without decimals there is no point, and nothing is taken off
    obtain ⟨hzero, rfl⟩ := Nat.add_eq_zero_iff.1 hscale
    have hchars : exactChars p.value (p.scale + 0) = p.text.toList := by
      rw [hplain.text_eq_exactChars, String.toList_ofList, Nat.add_zero]
    rw [hchars, trimmed_of_not_mem (hplain.point_not_mem hzero)]
  · have hextended := (hplain.extended hscale).text_eq_exactChars
    rw [Spelling.value_extended, Spelling.scale_extended] at hextended
    rw [← hcanonical.trimmed_extended zeros, hextended, String.toList_ofList]

theorem floor_div (n : Int) {b : Nat} (hb : 0 < b) : (n / b : Rat).floor = n / b := by
  refine eq_of_forall_le_iff fun z => ?_
  rw [Rat.le_floor_iff, Int.le_ediv_iff_mul_le (by exact_mod_cast hb), le_div_iff₀ (by positivity)]
  exact_mod_cast Iff.rfl

theorem toInteger_toZero (n : Int) {b : Nat} (hb : 0 < b) :
    RoundingMode.toZero.toInteger (n / b) = n.tdiv b := by
  have hpos : (0 : Rat) < b := by exact_mod_cast hb
  rw [RoundingMode.toInteger]
  by_cases hn : n < 0
  · have hneg : (n / b : Rat) < 0 := div_neg_of_neg_of_pos (by exact_mod_cast hn) hpos
    have hopposite : -(n / b : Rat) = (-n : Int) / b := by push_cast; ring
    rw [if_pos hneg, Rat.ceil_eq_neg_floor_neg, hopposite, floor_div (-n) hb,
      ← Int.tdiv_eq_ediv_of_nonneg (by omega), Int.neg_tdiv, neg_neg]
  · have hnonneg : 0 ≤ n := not_lt.1 hn
    have hquotient : ¬ (n / b : Rat) < 0 := not_lt.2 (by positivity)
    rw [if_neg hquotient, floor_div n hb, Int.tdiv_eq_ediv_of_nonneg hnonneg]

theorem mul_ten_pow_eq (v : Rat) (s : Nat) : v * 10 ^ s = (v.num * pow10 s : Int) / v.den := by
  rw [pow10_eq]
  push_cast
  rw [mul_div_right_comm, Rat.num_div_den]

theorem tmod_eq_zero_iff (v : Rat) (s : Nat) :
    (v.num * pow10 s).tmod v.den = 0 ↔ HasScale v s := by
  have hden : (v.den : Rat) ≠ 0 := by exact_mod_cast v.den_ne_zero
  rw [← Int.dvd_iff_tmod_eq_zero, hasScale_iff, mul_ten_pow_eq]
  refine exists_congr fun n => ?_
  rw [div_eq_iff hden, mul_comm (n : Rat)]
  exact_mod_cast Iff.rfl

theorem scaledChars_tdiv (v : Rat) (s : Nat) :
    scaledChars ((v.num * pow10 s).tdiv v.den) s = exactChars (roundTo .toZero s v) s := by
  have hscaled : roundTo .toZero s v * 10 ^ s = ((v.num * pow10 s).tdiv v.den : Int) := by
    rw [roundTo, div_mul_cancel₀ _ (ten_pow_ne_zero s), mul_ten_pow_eq,
      toInteger_toZero _ v.den_pos]
  rw [scaledChars_eq_fixedPoint, exactChars, hscaled, Rat.num_intCast]

theorem printed_eq_toText (v : Rat) : printed v = toText v := by
  have hcut : toChars (roundTo .toZero (leastScale v 0) v) = toChars v := by
    rcases hasScale_leastScale v 0 with hfits | hmax
    · rw [roundTo_of_hasScale _ hfits]
    · have htruncated := toText_truncated v
      rw [toText, toText, String.ofList_inj] at htruncated
      rw [hmax]
      exact htruncated
  rw [printed, toText, ← hcut, scaledChars_tdiv,
    trimmed_exactChars (hasScale_roundTo _ _ _) (leastScale_le_maxScale v 0)]

theorem printedAt_eq_toTextAt (v : Rat) (scale : Nat) : printedAt v scale = toTextAt v scale := by
  unfold printedAt toTextAt
  dsimp only
  by_cases h : HasScale v scale
  · rw [if_pos h, if_pos ((tmod_eq_zero_iff v scale).2 h), scaledChars_tdiv,
      roundTo_of_hasScale _ h]
  · rw [if_neg h, if_neg (mt (tmod_eq_zero_iff v scale).1 h), printed_eq_toText]

theorem Spelling.IsPlain.afterPoint_eq_none_iff {p : Spelling} (h : p.IsPlain) :
    p.afterPoint = none ↔ p.scale = 0 := by
  have hne := h.afterPoint_ne
  unfold scale decimals
  generalize p.afterPoint = afterPoint at hne
  cases afterPoint with
  | none => exact iff_of_true rfl rfl
  | some ds =>
    refine iff_of_false nofun fun hlen => hne ?_
    exact congrArg some (List.length_eq_zero_iff.1 hlen)

/-! ### What is printed -/

/-- What is printed of a value, by the steps of the printer as by the least scale. Where its
decimals end within the most that are printed, that is its only canonical text; it reads back, and
no other such value prints the same. Of any other value the text is that of the value cut off there
towards zero. With a number of decimals asked for, the text has so many and reads back where the
value fits, as long as they can be counted, and is printed without that request where it does
not. -/
theorem toText_canonical (v : Rat) :
    (printed v = toText v ∧ ∀ s, printedAt v s = toTextAt v s) ∧
    (HasScale v maxScale →
      (∀ text, text = toText v ↔
        ∃ p : Spelling, p.IsCanonical ∧ p.text = text ∧ p.value = v) ∧
      ofString? (toText v) = some v ∧
      ∀ w, HasScale w maxScale → toText w = toText v → w = v) ∧
    (∃ w, RoundingMode.toZero.Rounds maxScale v w ∧ toText v = toText w) ∧
    ∀ s,
      (HasScale v s → (s < 2 ^ 32 → ofString? (toTextAt v s) = some v) ∧
        ∃ p : Spelling, p.IsPlain ∧ p.text = toTextAt v s ∧ p.value = v ∧ p.scale = s ∧
          (p.afterPoint = none ↔ s = 0)) ∧
      (¬ HasScale v s → toTextAt v s = toText v) := by
  refine ⟨⟨printed_eq_toText v, printedAt_eq_toTextAt v⟩, fun h => ⟨fun text => eq_toText_iff h,
    ofString?_toText h, fun w hw htext => ?_⟩, ?_, fun s => ⟨fun h => ?_, fun h => if_neg h⟩⟩
  · have hread := ofString?_toText hw
    rw [htext, ofString?_toText h] at hread
    exact (Option.some.inj hread).symm
  · refine ⟨truncated v, RoundingMode.rounds_roundTo .toZero maxScale v, ?_⟩
    have hagain : truncated (truncated v) = truncated v :=
      roundTo_of_hasScale .toZero (hasScale_roundTo .toZero maxScale v)
    rw [toText, toChars, toText, toChars, hagain]
  · obtain ⟨p, hplain, rfl, rfl, htext⟩ := exists_isPlain_of_hasScale h
    rw [toTextAt, if_pos h, ← htext]
    exact ⟨Spelling.ofString?_text_of_lt, p, hplain, rfl, rfl, rfl, hplain.afterPoint_eq_none_iff⟩

theorem toText_canonical_small_negative :
    HasScale (-1 / 200) maxScale ∧ toText (-1 / 200) = "-0.005" ∧
      (∀ w, HasScale w maxScale → toText w = "-0.005" → w = -1 / 200) ∧
      ofString? (toTextAt (-1 / 200) 4) = some (-1 / 200) ∧
      toTextAt (-1 / 200) 4 = "-0.0050" := by
  have hscale : HasScale (-1 / 200) maxScale := by decide +kernel
  have htext : toText (-1 / 200) = "-0.005" := by decide +kernel
  obtain ⟨-, hcanonical, -, hasked⟩ := toText_canonical (-1 / 200)
  obtain ⟨-, -, honly⟩ := hcanonical hscale
  refine ⟨hscale, htext, fun w hw h => honly w hw (h.trans htext.symm), ?_, by decide +kernel⟩
  exact ((hasked 4).1 (by decide +kernel)).1 (by decide)

example : toText (-1 / 10 ^ 65) = "0" := by
  decide +kernel

end DeskCalculator.Decimal
