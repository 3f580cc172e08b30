import DeskCalculator.Decimal.Printed

/-!
The digits of a number. A run of digits without a superfluous zero in front is the printed form of its
value, and so is any run at its own length; padding therefore adds the zeros that are missing and
nothing else.
-/
namespace DeskCalculator.Decimal

def IsWhole (ds : List Char) : Prop :=
  ds = ['0'] ∨ ∃ c ∈ ds.head?, c ≠ '0'

variable {cs whole frac : List Char} {c : Char} {width n : Nat}

theorem isDigit_of_mem_paddedDigits (h : c ∈ paddedDigits width n) : c.isDigit = true := by
  rcases List.mem_append.1 h with h | h
  · rw [List.eq_of_mem_replicate h]
    rfl
  · exact Nat.isDigit_of_mem_toDigits (by decide) (by decide) h

theorem ofDigitChars_paddedDigits (width n : Nat) :
    Nat.ofDigitChars 10 (paddedDigits width n) 0 = n := by
  simp only [paddedDigits, Nat.ofDigitChars_append, Nat.ofDigitChars_replicate_zero, Nat.mul_zero,
    Nat.ofDigitChars_ten_toDigits]

theorem length_paddedDigits (width n : Nat) :
    (paddedDigits width n).length = max width (Nat.toDigits 10 n).length := by
  simp only [paddedDigits, List.length_append, List.length_replicate]
  omega

theorem paddedDigits_succ (h : (Nat.toDigits 10 n).length ≤ width) :
    paddedDigits (width + 1) n = '0' :: paddedDigits width n := by
  simp only [paddedDigits, Nat.sub_add_comm h, List.replicate_succ, List.cons_append]

theorem digitChar_sub_of_isDigit (h : c.isDigit = true) : Nat.digitChar (c.toNat - 48) = c := by
  have hrange := Char.isDigit_iff_toNat.1 h
  have hlow : 48 ≤ c.toNat := hrange.1
  have hhigh : c.toNat ≤ 57 := hrange.2
  apply Char.toNat_inj.1
  rw [Nat.toNat_digitChar_of_lt_ten (by omega)]
  omega

theorem toNat_sub_lt_ten (h : c.isDigit = true) : c.toNat - 48 < 10 := by
  have hhigh : c.toNat ≤ 57 := (Char.isDigit_iff_toNat.1 h).2
  omega

theorem toNat_sub_eq_zero_iff (h : c.isDigit = true) : c.toNat - 48 = 0 ↔ c = '0' := by
  rw [← Nat.digitChar_eq_zero, digitChar_sub_of_isDigit h]

theorem toDigits_append (hn : 0 < n) (h : ∀ c ∈ cs, c.isDigit = true) :
    Nat.toDigits 10 n ++ cs = Nat.toDigits 10 (Nat.ofDigitChars 10 cs n) := by
  induction cs generalizing n with
  | nil => rw [List.append_nil, Nat.ofDigitChars_nil]
  | cons c cs ih =>
    obtain ⟨hc, hcs⟩ := List.forall_mem_cons.1 h
    have hlt := toNat_sub_lt_ten hc
    have hone := Nat.toDigits_append_toDigits (b := 10) (by decide) hn hlt
    rw [Nat.toDigits_of_lt_base hlt, digitChar_sub_of_isDigit hc] at hone
    rw [Nat.ofDigitChars_cons, ← ih (by omega) hcs, List.append_cons, hone]
    rfl

theorem toDigits_ofDigitChars_cons (hc : c ≠ '0') (h : ∀ d ∈ c :: cs, d.isDigit = true) :
    Nat.toDigits 10 (Nat.ofDigitChars 10 (c :: cs) 0) = c :: cs := by
  obtain ⟨hdigit, hcs⟩ := List.forall_mem_cons.1 h
  have hpos : 0 < c.toNat - 48 := Nat.pos_of_ne_zero (mt (toNat_sub_eq_zero_iff hdigit).1 hc)
  have hfirst : 10 * 0 + (c.toNat - '0'.toNat) = c.toNat - 48 := Nat.zero_add _
  rw [Nat.ofDigitChars_cons, hfirst, ← toDigits_append hpos hcs,
    Nat.toDigits_of_lt_base (toNat_sub_lt_ten hdigit), digitChar_sub_of_isDigit hdigit]
  rfl

theorem paddedDigits_length_ofDigitChars (hne : cs ≠ []) (h : ∀ c ∈ cs, c.isDigit = true) :
    paddedDigits cs.length (Nat.ofDigitChars 10 cs 0) = cs := by
  induction cs with
  | nil => exact absurd rfl hne
  | cons c cs ih =>
    by_cases hc : c = '0'
    · subst hc
      cases cs with
      | nil => rfl
      | cons d cs =>
        have hrest := ih (List.cons_ne_nil d cs) (List.forall_mem_cons.1 h).2
        have hlen := congrArg List.length hrest
        rw [length_paddedDigits] at hlen
        have hzero : Nat.ofDigitChars 10 ('0' :: d :: cs) 0 = Nat.ofDigitChars 10 (d :: cs) 0 :=
          Nat.ofDigitChars_cons
        rw [hzero, List.length_cons, paddedDigits_succ (by omega), hrest]
    · simp only [paddedDigits, toDigits_ofDigitChars_cons hc h, Nat.sub_self, List.replicate_zero,
        List.nil_append]

theorem paddedDigits_ofDigitChars (hwhole : IsWhole whole)
    (h : ∀ c ∈ whole ++ frac, c.isDigit = true) :
    paddedDigits (frac.length + 1) (Nat.ofDigitChars 10 (whole ++ frac) 0) = whole ++ frac := by
  rcases hwhole with rfl | ⟨c, hc, hzero⟩
  · exact paddedDigits_length_ofDigitChars (List.cons_ne_nil _ _) h
  · obtain ⟨rest, rfl⟩ := List.head?_eq_some_iff.1 hc
    have hpad : frac.length + 1 - (c :: (rest ++ frac)).length = 0 := by
      rw [List.length_cons, List.length_append]
      omega
    rw [List.cons_append] at h ⊢
    simp only [paddedDigits, toDigits_ofDigitChars_cons hzero h, hpad, List.replicate_zero,
      List.nil_append]

theorem isWhole_toDigits (n : Nat) : IsWhole (Nat.toDigits 10 n) := by
  cases hds : Nat.toDigits 10 n with
  | nil => exact absurd hds Nat.toDigits_ne_nil
  | cons c cs =>
    by_cases hc : c = '0'
    · subst hc
      cases cs with
      | nil => exact .inl rfl
      | cons d cs =>
        -- the rest alone would have the same value and one digit less
        have hdigits : ∀ e ∈ d :: cs, e.isDigit = true := fun e he =>
          Nat.isDigit_of_mem_toDigits (b := 10) (n := n) (by decide) (by decide)
            (hds ▸ List.mem_cons_of_mem '0' he)
        have hvalue : Nat.ofDigitChars 10 (d :: cs) 0 = n := by
          rw [← Nat.ofDigitChars_ten_toDigits (n := n), hds]
          exact Nat.ofDigitChars_cons.symm
        have hlen := congrArg List.length
          (paddedDigits_length_ofDigitChars (List.cons_ne_nil d cs) hdigits)
        simp only [length_paddedDigits, hvalue, hds, List.length_cons] at hlen
        omega
    · exact .inr ⟨c, rfl, hc⟩

theorem isWhole_of_paddedDigits (h : paddedDigits (frac.length + 1) n = whole ++ frac) :
    IsWhole whole := by
  have hlen := congrArg List.length h
  rw [length_paddedDigits, List.length_append] at hlen
  by_cases hpad : (Nat.toDigits 10 n).length ≤ frac.length + 1
  · obtain ⟨c, rfl⟩ := List.length_eq_one_iff.1 (show whole.length = 1 by omega)
    by_cases hc : c = '0'
    · exact .inl (congrArg (fun c => [c]) hc)
    · exact .inr ⟨c, rfl, hc⟩
  · have hnone : frac.length + 1 - (Nat.toDigits 10 n).length = 0 := by omega
    have hdigits : Nat.toDigits 10 n = whole ++ frac := by
      rw [← h]
      simp only [paddedDigits, hnone, List.replicate_zero, List.nil_append]
    have hhead := isWhole_toDigits n
    rw [hdigits] at hhead hpad
    rcases hhead with hzero | ⟨c, hc, hne⟩
    · rw [hzero] at hpad
      exact absurd (Nat.le_add_left _ _) hpad
    · cases whole with
      | nil => exact absurd (Nat.le_succ _) hpad
      | cons d ds => exact .inr ⟨c, hc, hne⟩

theorem ofDigitChars_concat (cs : List Char) (c : Char) :
    Nat.ofDigitChars 10 (cs ++ [c]) 0 = 10 * Nat.ofDigitChars 10 cs 0 + (c.toNat - 48) := by
  rw [Nat.ofDigitChars_append, Nat.ofDigitChars_cons, Nat.ofDigitChars_nil]
  rfl

end DeskCalculator.Decimal
