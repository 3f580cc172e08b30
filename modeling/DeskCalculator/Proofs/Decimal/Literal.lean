import DeskCalculator.Decimal.Literal
import DeskCalculator.Operator
import DeskCalculator.Proofs.Decimal.Scale

/-!
What reads as a decimal literal. A spelling is a sign or none, digits, and digits after a point or no
point; the texts of the spellings are the literals. Each is read as the value that it spells as long
as its decimals can be counted, and what it is read as fits the scale that the text announces.
-/
namespace DeskCalculator.Decimal

theorem counted_of_lt {n : Nat} (h : n < 2 ^ 32) : counted n = n :=
  Nat.mod_eq_of_lt h

theorem maxScale_lt : maxScale < 2 ^ 32 := by
  decide

def fraction (text : String) : List Char :=
  (splitAtPoint text.toList).2

theorem splitAtPoint_cons {c : Char} (hc : c ≠ '.') (cs : List Char) :
    splitAtPoint (c :: cs) = (c :: (splitAtPoint cs).1, (splitAtPoint cs).2) := by
  have hkeep : (c != '.') = true := bne_iff_ne.2 hc
  simp only [splitAtPoint, List.takeWhile_cons, List.dropWhile_cons, hkeep, if_true]

theorem ne_point_of_isDigit {c : Char} (hc : c.isDigit = true) : c ≠ '.' := by
  rintro rfl
  exact Bool.false_ne_true hc

theorem splitAtPoint_append {whole : List Char} (h : ∀ c ∈ whole, c.isDigit = true)
    (rest : List Char) :
    splitAtPoint (whole ++ rest) = (whole ++ (splitAtPoint rest).1, (splitAtPoint rest).2) := by
  induction whole with
  | nil => rfl
  | cons c whole ih =>
    obtain ⟨hc, hwhole⟩ := List.forall_mem_cons.1 h
    rw [List.cons_append, splitAtPoint_cons (ne_point_of_isDigit hc), ih hwhole, List.cons_append]

theorem exists_eq_splitAtPoint_append (cs : List Char) :
    ∃ afterPoint : Option (List Char),
      cs = (splitAtPoint cs).1 ++ afterPoint.elim [] ('.' :: ·) ∧
        afterPoint.getD [] = (splitAtPoint cs).2 := by
  induction cs with
  | nil => exact ⟨none, rfl, rfl⟩
  | cons c cs ih =>
    by_cases hc : c = '.'
    · subst hc
      exact ⟨some cs, rfl, rfl⟩
    · obtain ⟨afterPoint, hcs, hafter⟩ := ih
      rw [splitAtPoint_cons hc]
      exact ⟨afterPoint, congrArg (c :: ·) hcs, hafter⟩

def Unsigned (cs : List Char) : Prop :=
  ∀ c ∈ cs.head?, c ≠ '-' ∧ c ≠ '+'

theorem unsigned_of_numerals {cs : List Char} (h : ∀ c ∈ cs, c.isDigit = true ∨ c = '.') :
    Unsigned cs := by
  intro c hc
  rcases h c (List.mem_of_mem_head? hc) with hdigit | rfl
  · constructor <;> rintro rfl <;> exact Bool.false_ne_true hdigit
  · decide

theorem Unsigned.ofChars?_eq {cs : List Char} (h : Unsigned cs) :
    ofChars? cs = ofUnsigned? cs := by
  unfold ofChars?
  split
  · exact absurd rfl (h '-' rfl).1
  · exact absurd rfl (h '+' rfl).2
  · rfl

theorem all_isDigit_and_nonempty_iff {digits : List Char} :
    (digits.all Char.isDigit && !digits.isEmpty) = true ↔
      (∀ c ∈ digits, c.isDigit = true) ∧ digits ≠ [] := by
  rw [Bool.and_eq_true_iff, List.all_eq_true, Bool.not_eq_true', List.isEmpty_eq_false_iff]

theorem exists_ofUnsigned?_iff {cs : List Char} :
    (∃ v, ofUnsigned? cs = some v) ↔
      (∀ c ∈ (splitAtPoint cs).1 ++ (splitAtPoint cs).2, c.isDigit = true) ∧
        (splitAtPoint cs).1 ++ (splitAtPoint cs).2 ≠ [] := by
  rw [← all_isDigit_and_nonempty_iff]
  simp only [ofUnsigned?]
  split
  · rename_i hdigits
    exact iff_of_true ⟨_, rfl⟩ hdigits
  · rename_i hdigits
    exact iff_of_false nofun hdigits

/-! ### Spellings -/

/-- How a decimal can be written: with a sign or none, then digits, then digits after a point or no
point, with one digit at least. -/
structure Spelling where
  sign : Option Sign
  whole : List Char
  afterPoint : Option (List Char)
  isDigit_of_mem : ∀ c ∈ whole ++ afterPoint.getD [], c.isDigit = true
  ne_nil : whole ++ afterPoint.getD [] ≠ []

namespace Spelling

variable (p : Spelling)

def decimals : List Char :=
  p.afterPoint.getD []

def digits : List Char :=
  p.whole ++ p.decimals

def scale : Nat :=
  p.decimals.length

def mantissa : Int :=
  match p.sign with
  | some .negate => -Nat.ofDigitChars 10 p.digits 0
  | some .plus | none => Nat.ofDigitChars 10 p.digits 0

def value : Rat :=
  p.mantissa / 10 ^ p.scale

/-- What it is read as: the count of the decimals may have overflowed. -/
def read : Rat :=
  p.mantissa / 10 ^ counted p.scale

def signChars : Option Sign → List Char
  | none => []
  | some .plus => ['+']
  | some .negate => ['-']

def unsignedChars : List Char :=
  p.whole ++ p.afterPoint.elim [] ('.' :: ·)

def text : String :=
  String.ofList (signChars p.sign ++ p.unsignedChars)

theorem toList_text : p.text.toList = signChars p.sign ++ p.unsignedChars :=
  String.toList_ofList

theorem splitAtPoint_unsignedChars : splitAtPoint p.unsignedChars = (p.whole, p.decimals) := by
  have hwhole : ∀ c ∈ p.whole, c.isDigit = true :=
    fun c hc => p.isDigit_of_mem c (List.mem_append_left _ hc)
  rw [unsignedChars, splitAtPoint_append hwhole, decimals]
  cases p.afterPoint with
  | none => exact congrArg (·, []) (List.append_nil _)
  | some ds => exact congrArg (·, ds) (List.append_nil _)

variable {p}

theorem read_eq_value (h : p.scale < 2 ^ 32) : p.read = p.value := by
  rw [read, value, counted_of_lt h]

theorem isDigit_or_eq_point {c : Char} (hc : c ∈ p.unsignedChars) :
    c.isDigit = true ∨ c = '.' := by
  rcases List.mem_append.1 hc with hc | hc
  · exact .inl (p.isDigit_of_mem c (List.mem_append_left _ hc))
  · cases hpoint : p.afterPoint with
    | none =>
      rw [hpoint] at hc
      cases hc
    | some ds =>
      rw [hpoint] at hc
      rcases List.mem_cons.1 hc with rfl | hc
      · exact .inr rfl
      · refine .inl (p.isDigit_of_mem c (List.mem_append_right _ ?_))
        rw [hpoint]
        exact hc

theorem eq_sign_of_mem_signChars {sign : Option Sign} {c : Char} (hc : c ∈ signChars sign) :
    c = '-' ∨ c = '+' := by
  unfold signChars at hc
  split at hc
  · cases hc
  · exact .inr (List.mem_singleton.1 hc)
  · exact .inl (List.mem_singleton.1 hc)

theorem ofUnsigned?_unsignedChars (p : Spelling) :
    ofUnsigned? p.unsignedChars =
      some (((Nat.ofDigitChars 10 p.digits 0 : Nat) : Rat) / 10 ^ counted p.scale) := by
  simp only [ofUnsigned?, splitAtPoint_unsignedChars]
  exact if_pos (all_isDigit_and_nonempty_iff.2 ⟨p.isDigit_of_mem, p.ne_nil⟩)

theorem ofString?_text (p : Spelling) : ofString? p.text = some p.read := by
  have hread := p.ofUnsigned?_unsignedChars
  unfold ofString? read mantissa
  rw [toList_text]
  rcases p.sign with _ | _ | _
  · rw [signChars, List.nil_append, (unsigned_of_numerals fun _ => isDigit_or_eq_point).ofChars?_eq,
      hread, Int.cast_natCast]
  · rw [signChars, List.singleton_append, ofChars?, hread, Int.cast_natCast]
  · rw [signChars, List.singleton_append, ofChars?, hread, Option.map_some, Int.cast_neg,
      Int.cast_natCast, neg_div]

theorem ofString?_text_of_lt (h : p.scale < 2 ^ 32) : ofString? p.text = some p.value := by
  rw [p.ofString?_text, read_eq_value h]

theorem exists_of_ofUnsigned? {cs : List Char} {v : Rat} (h : ofUnsigned? cs = some v)
    (sign : Option Sign) : ∃ p : Spelling, p.sign = sign ∧ p.unsignedChars = cs := by
  obtain ⟨hdigits, hne⟩ := exists_ofUnsigned?_iff.1 ⟨v, h⟩
  obtain ⟨afterPoint, hcs, hafter⟩ := exists_eq_splitAtPoint_append cs
  rw [← hafter] at hdigits hne
  exact ⟨⟨sign, (splitAtPoint cs).1, afterPoint, hdigits, hne⟩, rfl, hcs.symm⟩

theorem exists_text_eq_of_ofString? {text : String} {v : Rat} (h : ofString? text = some v) :
    ∃ p : Spelling, p.text = text := by
  have hspelled (sign : Option Sign) {body : List Char} {w : Rat}
      (htext : text.toList = signChars sign ++ body) (hw : ofUnsigned? body = some w) :
      ∃ p : Spelling, p.text = text := by
    obtain ⟨p, rfl, rfl⟩ := exists_of_ofUnsigned? hw sign
    exact ⟨p, String.toList_inj.1 (p.toList_text.trans htext.symm)⟩
  unfold ofString? ofChars? at h
  split at h
  · rename_i hbody
    obtain ⟨w, hw, -⟩ := Option.map_eq_some_iff.1 h
    exact hspelled (some .negate) hbody hw
  · rename_i hbody
    exact hspelled (some .plus) hbody h
  · exact hspelled none rfl h

end Spelling

theorem ofString?_eq_some_iff {text : String} {v : Rat} :
    ofString? text = some v ↔ ∃ p : Spelling, p.text = text ∧ p.read = v := by
  constructor
  · intro h
    obtain ⟨p, rfl⟩ := Spelling.exists_text_eq_of_ofString? h
    rw [p.ofString?_text] at h
    exact ⟨p, rfl, Option.some.inj h⟩
  · rintro ⟨p, rfl, rfl⟩
    exact p.ofString?_text

/-! ### Characters and scales of literals -/

theorem isDigit_or_eq_point_of_ofUnsigned? {cs : List Char} {v : Rat}
    (h : ofUnsigned? cs = some v) {c : Char} (hc : c ∈ cs) : c.isDigit = true ∨ c = '.' := by
  obtain ⟨p, -, rfl⟩ := Spelling.exists_of_ofUnsigned? h none
  exact Spelling.isDigit_or_eq_point hc

theorem ofString?_chars {text : String} {v : Rat} (h : ofString? text = some v) :
    text.toList ≠ [] ∧ ∀ c ∈ text.toList, c.isDigit = true ∨ c = '.' ∨ c = '-' ∨ c = '+' := by
  obtain ⟨p, rfl, -⟩ := ofString?_eq_some_iff.1 h
  rw [p.toList_text]
  refine ⟨List.append_ne_nil_of_right_ne_nil _ fun hnil => ?_, fun c hc => ?_⟩
  · have hread := p.ofUnsigned?_unsignedChars
    rw [hnil] at hread
    cases hread
  · rcases List.mem_append.1 hc with hc | hc
    · exact .inr (.inr (Spelling.eq_sign_of_mem_signChars hc))
    · exact (Spelling.isDigit_or_eq_point hc).imp_right .inl

theorem Spelling.fraction_text (p : Spelling) : fraction p.text = p.decimals := by
  have hskip {c : Char} (hc : c ≠ '.') (cs : List Char) :
      (splitAtPoint (c :: cs)).2 = (splitAtPoint cs).2 := by rw [splitAtPoint_cons hc]
  have hsplit : (splitAtPoint p.unsignedChars).2 = p.decimals := by
    rw [p.splitAtPoint_unsignedChars]
  unfold fraction
  rw [p.toList_text]
  rcases p.sign with _ | _ | _
  · exact hsplit
  · exact (hskip (by decide) _).trans hsplit
  · exact (hskip (by decide) _).trans hsplit

theorem utf8ByteSize_of_digits {cs : List Char} (h : ∀ c ∈ cs, c.isDigit = true) :
    (String.ofList cs).utf8ByteSize = cs.length := by
  induction cs with
  | nil => rfl
  | cons c cs ih =>
    obtain ⟨hc, hcs⟩ := List.forall_mem_cons.1 h
    have hsize : c.utf8Size = 1 := by
      rw [Char.utf8Size_eq_one_iff]
      have hle := (Char.isDigit_iff_toNat.1 hc).2
      exact UInt32.le_iff_toNat_le.2 (Nat.le_trans hle (by decide))
    have hcons : String.ofList (c :: cs) = String.singleton c ++ String.ofList cs := by
      rw [← String.toList_inj]
      simp
    rw [hcons, String.utf8ByteSize_append, ih hcs, String.utf8ByteSize_singleton, hsize,
      List.length_cons, Nat.add_comm]

theorem Spelling.writtenScale_text (p : Spelling) : writtenScale p.text = counted p.scale := by
  have hdigits : ∀ c ∈ fraction p.text, c.isDigit = true := by
    rw [p.fraction_text]
    exact fun c hc => p.isDigit_of_mem c (List.mem_append_right _ hc)
  rw [Spelling.scale, ← p.fraction_text]
  exact congrArg counted (utf8ByteSize_of_digits hdigits)

theorem Spelling.hasScale_value (p : Spelling) : HasScale p.value p.scale :=
  hasScale_div _ _

theorem Spelling.hasScale_read (p : Spelling) : HasScale p.read (counted p.scale) :=
  hasScale_div _ _

theorem writtenScale_of_ofString? {text : String} {v : Rat} (h : ofString? text = some v) :
    writtenScale text = counted (fraction text).length := by
  obtain ⟨p, rfl, -⟩ := ofString?_eq_some_iff.1 h
  rw [p.writtenScale_text, p.fraction_text, Spelling.scale]

theorem hasScale_writtenScale {text : String} {v : Rat} (h : ofString? text = some v) :
    HasScale v (writtenScale text) := by
  obtain ⟨p, rfl, rfl⟩ := ofString?_eq_some_iff.1 h
  rw [p.writtenScale_text]
  exact p.hasScale_read

end DeskCalculator.Decimal
