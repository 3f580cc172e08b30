import DeskCalculator.Text.Blank
import Mathlib.Data.List.TakeWhile

/-!
The words of a text. A blank ends a word, so that the words of a text can be read off piece by
piece; words with single spaces between them are what they were put together from. A text that has no
blank at its ends is its own trim.
-/
namespace DeskCalculator.Text

structure IsWord (w : List Char) : Prop where
  ne_nil : w ≠ []
  not_blank : ∀ c ∈ w, isBlank c = false

variable {c : Char} {w : List Char}

theorem isWord_iff :
    IsWord w ↔ w.isEmpty = false ∧ (w.all fun c => !isBlank c) = true := by
  simp only [List.isEmpty_eq_false_iff, List.all_eq_true, Bool.not_eq_true']
  exact ⟨fun h => ⟨h.ne_nil, h.not_blank⟩, fun h => ⟨h.1, h.2⟩⟩

instance (w : List Char) : Decidable (IsWord w) :=
  decidable_of_iff _ isWord_iff.symm

theorem words_append_cons (hc : isBlank c = true) (cs ds : List Char) :
    words (cs ++ c :: ds) = words cs ++ words ds := by
  unfold words
  rw [List.splitOnP_append_cons cs ds hc, List.filter_append]

theorem words_of_blank {cs : List Char} (h : ∀ c ∈ cs, isBlank c = true) : words cs = [] := by
  induction cs with
  | nil => rfl
  | cons c cs ih =>
    obtain ⟨hc, hcs⟩ := List.forall_mem_cons.1 h
    have hskip : words (c :: cs) = words cs := words_append_cons hc [] cs
    rw [hskip, ih hcs]

theorem IsWord.words_eq (h : IsWord w) : words w = [w] := by
  have hkeep : (!w.isEmpty) = true := by
    rw [Bool.not_eq_true', List.isEmpty_eq_false_iff]
    exact h.ne_nil
  rw [words, List.splitOnP_eq_singleton h.not_blank, List.filter_cons, if_pos hkeep]
  rfl

theorem getLast?_words (cs : List Char) (hc : isBlank c = true) (h : IsWord w) :
    (words (cs ++ c :: w)).getLast? = some w := by
  rw [words_append_cons hc, h.words_eq, List.getLast?_append]
  rfl

theorem words_intercalate_eq_flatMap (pieces : List (List Char)) :
    words ([' '].intercalate pieces) = pieces.flatMap words := by
  induction pieces with
  | nil => rfl
  | cons piece pieces ih =>
    cases pieces with
    | nil => rw [List.intercalate_singleton, List.flatMap_singleton]
    | cons next pieces =>
      have hspace : isBlank ' ' = true := by decide
      rw [List.intercalate_cons_cons, List.append_assoc, List.singleton_append,
        words_append_cons hspace, ih]
      rfl

theorem words_intercalate {ws : List (List Char)} (h : ∀ w ∈ ws, IsWord w) :
    words ([' '].intercalate ws) = ws := by
  rw [words_intercalate_eq_flatMap]
  induction ws with
  | nil => rfl
  | cons w ws ih =>
    obtain ⟨hw, hws⟩ := List.forall_mem_cons.1 h
    rw [List.flatMap_cons, hw.words_eq, ih hws]
    rfl

theorem words_eq_nil_iff {cs : List Char} : words cs = [] ↔ ∀ c ∈ cs, isBlank c = true := by
  refine ⟨fun h => ?_, words_of_blank⟩
  induction cs with
  | nil => exact fun _ hc => absurd hc List.not_mem_nil
  | cons c cs ih =>
    by_cases hc : isBlank c = true
    · have hskip : words (c :: cs) = words cs := words_append_cons hc [] cs
      rw [hskip] at h
      exact List.forall_mem_cons.2 ⟨hc, ih h⟩
    · -- a first character that is no blank opens a word
      rw [words, List.splitOnP_cons_eq_if_modifyHead, if_neg hc] at h
      cases hsplit : cs.splitOnP isBlank with
      | nil => exact absurd hsplit (List.splitOnP_ne_nil _ _)
      | cons first rest =>
        rw [hsplit] at h
        simp at h

theorem isBlankText_iff_words {s : String} : IsBlankText s ↔ words s.toList = [] :=
  words_eq_nil_iff.symm

/-! ### Blanks at the ends -/

theorem mem_of_mem_trim {cs : List Char} (h : c ∈ trim cs) : c ∈ cs := by
  unfold trim at h
  have hfront := (List.dropWhile_sublist isBlank).mem (List.mem_reverse.1 h)
  exact (List.dropWhile_sublist isBlank).mem (List.mem_reverse.1 hfront)

theorem exists_blanks_trim (cs : List Char) :
    ∃ front back, (∀ c ∈ front, isBlank c = true) ∧ (∀ c ∈ back, isBlank c = true) ∧
      cs = front ++ (trim cs ++ back) := by
  have hlead (ds : List Char) : ∀ c ∈ ds.takeWhile isBlank, isBlank c = true :=
    List.all_eq_true.1 List.all_takeWhile
  refine ⟨cs.takeWhile isBlank, ((cs.dropWhile isBlank).reverse.takeWhile isBlank).reverse,
    hlead cs, fun c hc => hlead _ c (List.mem_reverse.1 hc), ?_⟩
  rw [trim, ← List.reverse_append, List.takeWhile_append_dropWhile, List.reverse_reverse,
    List.takeWhile_append_dropWhile]

theorem not_isBlank_of_getLast?_trim {cs : List Char} (h : c ∈ (trim cs).getLast?) :
    isBlank c = false := by
  have hhead := List.head?_dropWhile_not isBlank (cs.dropWhile isBlank).reverse
  rw [trim, List.getLast?_reverse] at h
  rwa [Option.mem_def.1 h] at hhead

theorem mem_getLast?_trim {cs : List Char} (h : c ∈ cs.getLast?) (hc : isBlank c = false) :
    c ∈ (trim cs).getLast? := by
  obtain ⟨front, back, hfront, hback, hcs⟩ := exists_blanks_trim cs
  have hnot {blanks : List Char} (hblanks : ∀ d ∈ blanks, isBlank d = true) :
      c ∉ blanks.getLast? := by
    intro hmem
    rw [hblanks c (List.mem_of_mem_getLast? hmem)] at hc
    cases hc
  rw [hcs, List.getLast?_append, List.getLast?_append] at h
  cases hlast : back.getLast? with
  | some d =>
    rw [hlast] at h
    exact absurd (Option.mem_def.2 hlast) (Option.some.inj h ▸ hnot hback)
  | none =>
    rw [hlast, Option.none_or] at h
    cases htrim : (trim cs).getLast? with
    | some d => rwa [htrim] at h
    | none =>
      rw [htrim, Option.none_or] at h
      exact absurd h (hnot hfront)

theorem dropWhile_isBlank {cs : List Char} (h : ∀ c ∈ cs.head?, isBlank c = false) :
    cs.dropWhile isBlank = cs := by
  cases cs with
  | nil => rfl
  | cons c cs => exact List.dropWhile_cons_of_neg (by simp [h c rfl])

theorem trim_eq_self {cs : List Char} (hhead : ∀ c ∈ cs.head?, isBlank c = false)
    (hlast : ∀ c ∈ cs.getLast?, isBlank c = false) : trim cs = cs := by
  have hback : cs.reverse.dropWhile isBlank = cs.reverse := by
    apply dropWhile_isBlank
    rwa [List.head?_reverse]
  rw [trim, dropWhile_isBlank hhead, hback, List.reverse_reverse]

theorem trim_append_blank (cs : List Char) {c : Char} (hc : isBlank c = true) :
    trim (cs ++ [c]) = trim cs := by
  unfold trim
  by_cases hall : ∀ d ∈ cs, isBlank d = true
  · have hboth : ∀ d ∈ cs ++ [c], isBlank d = true := by
      intro d hd
      rcases List.mem_append.1 hd with hd | hd
      · exact hall d hd
      · exact List.mem_singleton.1 hd ▸ hc
    rw [List.dropWhile_eq_nil_iff.2 hall, List.dropWhile_eq_nil_iff.2 hboth]
  · have hne : cs.dropWhile isBlank ≠ [] := fun h => hall (List.dropWhile_eq_nil_iff.1 h)
    rw [List.dropWhile_append, if_neg (by simpa using hne)]
    simp [hc]

end DeskCalculator.Text
