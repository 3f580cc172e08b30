import DeskCalculator.Proofs.Decimal.Literal
import Mathlib.Data.List.TakeWhile

/-!
The grammar of decimal literals, said of the characters of a text: a sign or none in front, then
digits and at most one point, with a digit among them. Every other text is refused.
-/
namespace DeskCalculator.Decimal

structure IsNumeral (cs : List Char) : Prop where
  chars : ∀ c ∈ cs, c.isDigit = true ∨ c = '.'
  points : cs.count '.' ≤ 1
  digit : ∃ c ∈ cs, c.isDigit = true

/-- A numeral after at most one sign. -/
def IsDecimal (cs : List Char) : Prop :=
  ∃ sign body, sign ∈ [[], ['+'], ['-']] ∧ cs = sign ++ body ∧ IsNumeral body

variable {cs : List Char}

theorem count_point_eq_zero (h : ∀ c ∈ cs, c.isDigit = true) : cs.count '.' = 0 :=
  List.count_eq_zero.2 fun hmem => ne_point_of_isDigit (h _ hmem) rfl

theorem Spelling.isNumeral (p : Spelling) : IsNumeral p.unsignedChars := by
  obtain ⟨hwhole, hdecimals⟩ := List.forall_mem_append.1 p.isDigit_of_mem
  obtain ⟨c, hc⟩ := List.exists_mem_of_ne_nil _ p.ne_nil
  have hdigit := p.isDigit_of_mem c hc
  refine ⟨fun c => isDigit_or_eq_point, ?_, c, ?_, hdigit⟩
  · rw [unsignedChars, List.count_append, count_point_eq_zero hwhole, Nat.zero_add]
    cases hpoint : p.afterPoint with
    | none => exact Nat.zero_le 1
    | some ds =>
      rw [hpoint, Option.getD_some] at hdecimals
      rw [Option.elim_some, List.count_cons_self, count_point_eq_zero hdecimals]
  · refine (List.mem_append.1 hc).elim (List.mem_append_left _) fun hc => ?_
    refine List.mem_append_right _ ?_
    cases hpoint : p.afterPoint with
    | none =>
      rw [hpoint] at hc
      cases hc
    | some ds =>
      rw [hpoint] at hc
      exact List.mem_cons_of_mem _ hc

theorem mem_of_mem_splitAtPoint {c : Char} (h : c ∈ (splitAtPoint cs).1 ++ (splitAtPoint cs).2) :
    c ∈ cs := by
  rcases List.mem_append.1 h with h | h
  · exact (List.takeWhile_prefix _).subset h
  · exact ((List.drop_suffix 1 _).trans (List.dropWhile_suffix _)).subset h

theorem IsNumeral.point_not_mem (h : IsNumeral cs) :
    '.' ∉ (splitAtPoint cs).1 ++ (splitAtPoint cs).2 := by
  intro hmem
  rcases List.mem_append.1 hmem with hmem | hmem
  · exact absurd (List.mem_takeWhile_imp hmem) (by decide)
  · -- a point in the second part comes after the one that parts the text
    obtain ⟨afterPoint, hcs, hafter⟩ := exists_eq_splitAtPoint_append cs
    rw [← hafter] at hmem
    cases afterPoint with
    | none => cases hmem
    | some ds =>
      have hsecond : 0 < ds.count '.' := List.count_pos_iff.2 hmem
      have hpoints := h.points
      rw [hcs, List.count_append, Option.elim_some, List.count_cons_self] at hpoints
      omega

theorem exists_ofUnsigned?_iff_isNumeral : (∃ v, ofUnsigned? cs = some v) ↔ IsNumeral cs := by
  constructor
  · rintro ⟨v, h⟩
    obtain ⟨p, -, rfl⟩ := Spelling.exists_of_ofUnsigned? h none
    exact p.isNumeral
  · intro h
    refine exists_ofUnsigned?_iff.2 ⟨fun c hc => ?_, ?_⟩
    · refine (h.chars c (mem_of_mem_splitAtPoint hc)).resolve_right ?_
      rintro rfl
      exact h.point_not_mem hc
    · obtain ⟨c, hc, hdigit⟩ := h.digit
      obtain ⟨afterPoint, hcs, hafter⟩ := exists_eq_splitAtPoint_append cs
      rw [hcs] at hc
      rw [← hafter]
      rcases List.mem_append.1 hc with hc | hc
      · exact List.append_ne_nil_of_left_ne_nil (List.ne_nil_of_mem hc) _
      · cases afterPoint with
        | none => cases hc
        | some ds =>
          have hmem := List.mem_of_ne_of_mem (ne_point_of_isDigit hdigit) hc
          exact List.append_ne_nil_of_right_ne_nil _ (List.ne_nil_of_mem hmem)

theorem exists_ofString?_iff {text : String} :
    (∃ v, ofString? text = some v) ↔ IsDecimal text.toList := by
  constructor
  · rintro ⟨v, h⟩
    obtain ⟨p, rfl, -⟩ := ofString?_eq_some_iff.1 h
    refine ⟨_, _, ?_, p.toList_text, p.isNumeral⟩
    rcases p.sign with _ | _ | _ <;> simp [Spelling.signChars]
  · rintro ⟨sign, body, hsign, htext, hbody⟩
    obtain ⟨v, hv⟩ := exists_ofUnsigned?_iff_isNumeral.2 hbody
    have hcases : sign = [] ∨ sign = ['+'] ∨ sign = ['-'] := by simpa using hsign
    unfold ofString?
    rw [htext]
    rcases hcases with rfl | rfl | rfl
    · exact ⟨v, ((unsigned_of_numerals hbody.chars).ofChars?_eq).trans hv⟩
    · exact ⟨v, hv⟩
    · exact ⟨-v, congrArg (Option.map _) hv⟩

/-- A text is a literal exactly when it spells a decimal, which is to be a numeral after at most one
sign. With fewer than `2^32` decimals it is read as the value that it spells, the digits as an
integer over the power of ten of as many as follow the point, and that is the scale that the text
announces. -/
theorem ofString?_grammar (text : String) :
    ((∃ v, ofString? text = some v) ↔ ∃ p : Spelling, p.text = text) ∧
    (ofString? text = none ↔ ¬ IsDecimal text.toList) ∧
    (∀ v, ofString? text = some v → HasScale v (writtenScale text)) ∧
    ∀ p : Spelling, p.text = text → p.scale < 2 ^ 32 →
      ofString? text = some p.value ∧ writtenScale text = p.scale ∧ HasScale p.value p.scale := by
  refine ⟨⟨?_, ?_⟩, ?_, fun v => hasScale_writtenScale, ?_⟩
  · rintro ⟨v, h⟩
    exact Spelling.exists_text_eq_of_ofString? h
  · rintro ⟨p, rfl⟩
    exact ⟨_, p.ofString?_text⟩
  · rw [← exists_ofString?_iff, Option.eq_none_iff_forall_ne_some, not_exists]
  · rintro p rfl hcount
    refine ⟨Spelling.ofString?_text_of_lt hcount, ?_, p.hasScale_value⟩
    rw [p.writtenScale_text, counted_of_lt hcount]

theorem ofString?_grammar_padded :
    ofString? "+007.50" = some (15 / 2) ∧ writtenScale "+007.50" = 2 := by
  let p : Spelling :=
    ⟨some .plus, ['0', '0', '7'], some ['5', '0'], List.all_eq_true.1 rfl, List.cons_ne_nil _ _⟩
  have hvalue : p.value = 15 / 2 := by decide +kernel
  obtain ⟨-, -, -, hcounted⟩ := ofString?_grammar "+007.50"
  obtain ⟨hread, hscale, -⟩ := hcounted p (by decide +kernel) (by decide +kernel)
  exact ⟨hvalue ▸ hread, hscale⟩

def Spelling.tiny (zeros : Nat) : Spelling where
  sign := none
  whole := []
  afterPoint := some (List.replicate zeros '0' ++ ['1'])
  isDigit_of_mem := by
    intro c hc
    rcases List.mem_append.1 hc with hc | hc
    · cases hc
    · rcases List.mem_append.1 hc with hc | hc
      · rw [List.eq_of_mem_replicate hc]
        rfl
      · rw [List.mem_singleton.1 hc]
        rfl
  ne_nil := List.append_ne_nil_of_right_ne_nil _ (List.concat_ne_nil _ _)

theorem Spelling.scale_tiny (zeros : Nat) : (tiny zeros).scale = zeros + 1 := by
  simp [tiny, scale, decimals]

theorem Spelling.mantissa_tiny (zeros : Nat) : (tiny zeros).mantissa = 1 := by
  have hdigits : Nat.ofDigitChars 10 (List.replicate zeros '0' ++ ['1']) 0 = 1 := by
    rw [Nat.ofDigitChars_append, Nat.ofDigitChars_replicate_zero, Nat.mul_zero]
    rfl
  exact congrArg Nat.cast hdigits

theorem Spelling.value_tiny_lt_one (zeros : Nat) : (tiny zeros).value < 1 := by
  rw [value, mantissa_tiny, scale_tiny, Int.cast_one]
  exact div_lt_self one_pos (one_lt_pow₀ (by norm_num) (Nat.succ_ne_zero zeros))

/-- As many decimals as 32 bits count next are counted as none, and a tiny literal reads as one. -/
theorem uncounted_decimals :
    ∃ p : Spelling,
      p.text = String.ofList ('.' :: (List.replicate (2 ^ 32 - 1) '0' ++ ['1'])) ∧
      p.scale = 2 ^ 32 ∧ p.value ≠ 1 ∧ ofString? p.text = some 1 ∧ writtenScale p.text = 0 := by
  have hscale := Spelling.scale_tiny (2 ^ 32 - 1)
  have hcounted : counted (Spelling.tiny (2 ^ 32 - 1)).scale = 0 := by
    rw [hscale]
    rfl
  refine ⟨.tiny (2 ^ 32 - 1), rfl, hscale, (Spelling.value_tiny_lt_one _).ne, ?_, ?_⟩
  · rw [Spelling.ofString?_text, Spelling.read, Spelling.mantissa_tiny, hcounted, Int.cast_one,
      pow_zero, div_one]
  · rw [Spelling.writtenScale_text, hcounted]

example : ∀ text ∈ ["", ".", "-", "+-1", "1.2.3", "1e5", "1,000", " 1", "\u0661"],
    ofString? text = none := by
  decide +kernel

end DeskCalculator.Decimal
