import DeskCalculator.Proofs.Fault.Requests
import DeskCalculator.Proofs.Keys.Typed

/-!
What is shown and what is typed next. A line has at most one space more than what is shown of it,
and that space decides whether a digit is joined to the number in front of it. It is there or not by
what is shown alone, except just after the last character has been taken away.
-/
namespace DeskCalculator

namespace Entered
open Token

def shown (keys : List String) : String :=
  (ofKeys .algebraic keys).expression

/-- The line does not begin with a space and has no two of them in a row. -/
structure Tidy (cs : List Char) : Prop where
  head : ∀ c ∈ cs.head?, c ≠ ' '
  apart : cs.IsChain fun a b => a = ' ' → b ≠ ' '

variable {cs : List Char} {c : Char} {key : String}

theorem tidy_nil : Tidy [] := ⟨by simp, .nil⟩

theorem Tidy.concat (h : Tidy cs) (hc : c = ' ' → cs ≠ [] ∧ cs.getLast? ≠ some ' ') :
    Tidy (cs ++ [c]) := by
  constructor
  · intro d hd
    cases cs with
    | nil =>
      obtain rfl := Option.some.inj hd
      exact fun hspace => (hc hspace).1 rfl
    | cons first rest => exact h.head d hd
  · apply h.apart.append (.singleton c)
    intro a ha b hb hspace
    obtain rfl := Option.some.inj hb
    rintro rfl
    exact (hc rfl).2 (hspace ▸ Option.mem_def.1 ha)

theorem Tidy.dropLast (h : Tidy cs) : Tidy cs.dropLast := by
  refine ⟨fun d hd => h.head d ?_, h.apart.prefix (List.dropLast_prefix cs)⟩
  obtain ⟨last, hlast⟩ := List.dropLast_prefix cs
  rw [← hlast, List.head?_append, Option.mem_def.1 hd]
  rfl

theorem Tidy.spaced (h : Tidy cs) : Tidy (spaced cs) := by
  unfold Entered.spaced
  split
  · exact h
  · rename_i hspace
    exact h.concat fun _ => not_or.1 hspace

theorem Tidy.after (h : Tidy cs) (hkey : Key.IsEditing key) : Tidy (after cs key) := by
  obtain ⟨c, hc, rfl⟩ | rfl | rfl | rfl := hkey
  · have hne : c ≠ ' ' := ne_of_mem_of_not_mem hc Key.space_not_mem_symbols
    cases hnumeral : isNumeral c with
    | true =>
      rw [after_numeral hc hnumeral]
      exact h.concat fun hspace => absurd hspace hne
    | false =>
      have hmark : Tidy (Entered.spaced cs ++ [c]) :=
        h.spaced.concat fun hspace => absurd hspace hne
      have hend := hmark.concat (c := ' ') fun _ => ⟨by simp, by simpa using hne⟩
      rwa [after_symbol hc hnumeral, ← List.singleton_append, ← List.append_assoc]
  · rw [after_backspace]
    exact h.dropLast
  · rw [after_clear]
    exact tidy_nil
  · rw [after_clearEntry]
    exact tidy_nil

variable {keys : List String}

theorem tidy_line (h : ∀ key ∈ keys, Key.IsEditing key) : Tidy (line keys) := by
  induction keys using List.reverseRecOn with
  | nil => exact tidy_nil
  | append_singleton keys key ih =>
    rw [line_concat]
    have hkeys : ∀ other ∈ keys, Key.IsEditing other :=
      fun other hother => h other (List.mem_append_left _ hother)
    exact (ih hkeys).after (h key (by simp))

theorem trim_eq_self_of_symbols (hchars : ∀ c ∈ cs, c = ' ' ∨ c ∈ Key.symbols)
    (hhead : ∀ c ∈ cs.head?, c ≠ ' ') (hlast : ∀ c ∈ cs.getLast?, c ≠ ' ') :
    Text.trim cs = cs := by
  have hblank {c : Char} (hc : c ∈ cs) (hne : c ≠ ' ') : Text.isBlank c = false :=
    Key.isBlank_symbols ((hchars c hc).resolve_left hne)
  apply Text.trim_eq_self
  · exact fun c hc => hblank (List.mem_of_mem_head? hc) (hhead c hc)
  · exact fun c hc => hblank (List.mem_of_mem_getLast? hc) (hlast c hc)

theorem Tidy.trim_concat (h : Tidy cs) (hchars : ∀ d ∈ cs, d = ' ' ∨ d ∈ Key.symbols)
    (hc : c ∈ Key.symbols) : Text.trim (cs ++ [c]) = cs ++ [c] := by
  have hne : c ≠ ' ' := ne_of_mem_of_not_mem hc Key.space_not_mem_symbols
  have hmore : ∀ d ∈ cs ++ [c], d = ' ' ∨ d ∈ Key.symbols :=
    List.forall_mem_append.2 ⟨hchars, List.forall_mem_singleton.2 (.inr hc)⟩
  have htidy : Tidy (cs ++ [c]) := h.concat fun hspace => absurd hspace hne
  apply trim_eq_self_of_symbols hmore htidy.head
  rw [List.getLast?_concat]
  intro d hd
  exact Option.some.inj hd ▸ hne

theorem Tidy.trim_cases (h : Tidy cs) (hchars : ∀ c ∈ cs, c = ' ' ∨ c ∈ Key.symbols) :
    (cs = Text.trim cs ∨ cs = Text.trim cs ++ [' '] ∧ Text.trim cs ≠ []) ∧
      ∀ c ∈ (Text.trim cs).getLast?, c ∈ Key.symbols := by
  by_cases hend : cs.getLast? = some ' '
  · obtain ⟨ms, rfl⟩ := List.getLast?_eq_some_iff.1 hend
    have hne : ms ≠ [] := by
      rintro rfl
      exact h.head ' ' rfl rfl
    have hmem : ∀ c ∈ ms, c = ' ' ∨ c ∈ Key.symbols :=
      fun c hc => hchars c (List.mem_append_left _ hc)
    have hhead : ∀ c ∈ ms.head?, c ≠ ' ' := by
      intro c hc
      apply h.head c
      rw [List.head?_append, Option.mem_def.1 hc]
      rfl
    have hlast : ∀ c ∈ ms.getLast?, c ≠ ' ' := by
      intro c hc hspace
      obtain ⟨-, -, hapart⟩ := List.isChain_append.1 h.apart
      exact hapart c hc ' ' rfl hspace rfl
    have hspace : Text.isBlank ' ' = true := by decide
    have htrim : Text.trim (ms ++ [' ']) = ms :=
      (Text.trim_append_blank ms hspace).trans (trim_eq_self_of_symbols hmem hhead hlast)
    rw [htrim]
    refine ⟨.inr ⟨rfl, hne⟩, fun c hc => ?_⟩
    exact (hmem c (List.mem_of_mem_getLast? hc)).resolve_left (hlast c hc)
  · have hlast : ∀ c ∈ cs.getLast?, c ≠ ' ' := by
      rintro c hc rfl
      exact hend (Option.mem_def.1 hc)
    rw [trim_eq_self_of_symbols hchars h.head hlast]
    refine ⟨.inl rfl, fun c hc => ?_⟩
    exact (hchars c (List.mem_of_mem_getLast? hc)).resolve_left (hlast c hc)

/-! ### The space at the end -/

/-- The space that a line has after what is shown, unless the last key has taken it away. -/
def trail (cs : List Char) : List Char :=
  match cs.getLast? with
  | none => []
  | some c => if isNumeral c then [] else [' ']

theorem toList_shown (keys : List String) : (shown keys).toList = Text.trim (line keys) := by
  rw [shown, expression_algebraic, String.toList_ofList]

theorem line_cases (h : ∀ key ∈ keys, Key.IsEditing key) :
    (line keys = (shown keys).toList ∨
      line keys = (shown keys).toList ++ [' '] ∧ (shown keys).toList ≠ []) ∧
      ∀ c ∈ (shown keys).toList.getLast?, c ∈ Key.symbols := by
  rw [toList_shown]
  exact (tidy_line h).trim_cases fun c => mem_line fun key hkey => .inl (h key hkey)

theorem line_eq_nil_of_isBlankText (h : ∀ key ∈ keys, Key.IsEditing key)
    (hblank : Text.IsBlankText (shown keys)) : line keys = [] := by
  obtain ⟨hline, hsymbol⟩ := line_cases h
  have hnil : (shown keys).toList = [] := by
    apply List.getLast?_eq_none_iff.1
    apply Option.eq_none_iff_forall_not_mem.2
    intro c hc
    have hshown := Key.isBlank_symbols (hsymbol c hc)
    rw [hblank c (List.mem_of_mem_getLast? hc)] at hshown
    cases hshown
  simpa [hnil] using hline

theorem spaced_line (h : ∀ key ∈ keys, Key.IsEditing key) :
    spaced (line keys) = if (shown keys).toList = [] then [] else (shown keys).toList ++ [' '] := by
  obtain ⟨hline, hsymbol⟩ := line_cases h
  by_cases hnil : (shown keys).toList = []
  · have hempty : line keys = [] := by simpa [hnil] using hline
    simp [hempty, hnil, spaced]
  · have hlast : (shown keys).toList.getLast? ≠ some ' ' := fun hspace =>
      Key.space_not_mem_symbols (hsymbol ' ' (Option.mem_def.2 hspace))
    rcases hline with hline | ⟨hline, -⟩
    · simp [hline, spaced, hnil, hlast]
    · simp [hline, spaced, hnil]

theorem shown_append_numeral (h : ∀ key ∈ keys, Key.IsEditing key) (hc : c ∈ Key.symbols)
    (hnumeral : isNumeral c = true) :
    (shown (keys ++ [String.singleton c])).toList = line keys ++ [c] := by
  rw [toList_shown, line_concat, after_numeral hc hnumeral]
  exact (tidy_line h).trim_concat (fun d => mem_line fun key hkey => .inl (h key hkey)) hc

theorem shown_append_mark (h : ∀ key ∈ keys, Key.IsEditing key) (hc : c ∈ Key.symbols)
    (hnumeral : isNumeral c = false) :
    (shown (keys ++ [String.singleton c])).toList = spaced (line keys) ++ [c] := by
  have hspace : Text.isBlank ' ' = true := by decide
  have hchars : ∀ d ∈ spaced (line keys), d = ' ' ∨ d ∈ Key.symbols := by
    intro d hd
    rcases mem_of_mem_spaced hd with hd | hd
    · exact mem_line (fun key hkey => .inl (h key hkey)) hd
    · exact .inl hd
  have htrim := Text.trim_append_blank (spaced (line keys) ++ [c]) hspace
  rw [List.append_assoc, List.singleton_append] at htrim
  rw [toList_shown, line_concat, after_symbol hc hnumeral, htrim]
  exact (tidy_line h).spaced.trim_concat hchars hc

theorem line_of_last_key (h : ∀ key ∈ keys, Key.IsEditing key)
    (hlast : keys.getLast? ≠ some Key.backspace) :
    line keys = (shown keys).toList ++ trail (shown keys).toList := by
  rcases List.eq_nil_or_concat keys with rfl | ⟨before, key, rfl⟩
  · rfl
  rw [List.concat_eq_append] at *
  obtain ⟨hbefore, hkey⟩ := List.forall_mem_append.1 h
  obtain ⟨c, hc, rfl⟩ | rfl | rfl | rfl := List.forall_mem_singleton.1 hkey
  · cases hnumeral : isNumeral c with
    | true =>
      rw [shown_append_numeral hbefore hc hnumeral, line_concat, after_numeral hc hnumeral]
      simp [trail, hnumeral]
    | false =>
      rw [shown_append_mark hbefore hc hnumeral, line_concat, after_symbol hc hnumeral]
      simp [trail, hnumeral]
  · exact absurd (by simp) hlast
  · rw [toList_shown, line_concat, after_clear]
    rfl
  · rw [toList_shown, line_concat, after_clearEntry]
    rfl

/-! ### Going on -/

theorem after_alike {cs ds : List Char} (h : Alike cs ds) (hkey : Key.IsEditing key)
    (hne : key ≠ Key.backspace) : Alike (after cs key) (after ds key) := by
  obtain hsymbol | rfl | rfl | rfl := hkey
  · exact (alike_after hsymbol).trans ((h.append _).trans (alike_after hsymbol).symm)
  · exact absurd rfl hne
  · rw [after_clear, after_clear]
    exact .refl []
  · rw [after_clearEntry, after_clearEntry]
    exact .refl []

theorem foldl_after_alike {cs ds : List Char} (h : Alike cs ds) {k : List String}
    (hk : ∀ key ∈ k, Key.IsEditing key ∧ key ≠ Key.backspace) :
    Alike (k.foldl after cs) (k.foldl after ds) := by
  induction k generalizing cs ds with
  | nil => exact h
  | cons key k ih =>
    obtain ⟨⟨hkey, hne⟩, hrest⟩ := List.forall_mem_cons.1 hk
    exact ih (after_alike h hkey hne) hrest

theorem alike_append_space (h : ∀ c ∈ cs.getLast?, isNumeral c = false) :
    Alike (cs ++ [' ']) cs := by
  intro rest
  have hspace : Text.isBlank ' ' = true := by decide
  rw [List.append_assoc, List.singleton_append, lexemes_append_blank hspace]
  refine (lexemes_append ?_).symm
  intro c hc b _
  simp [joins, h c hc]

theorem foldl_after_backspaces (cs : List Char) (n : ℕ) :
    (List.replicate n Key.backspace).foldl after cs = cs.take (cs.length - n) := by
  induction n generalizing cs with
  | zero => simp
  | succ n ih =>
    rw [List.replicate_succ, List.foldl_cons, after_backspace, ih, List.dropLast_eq_take,
      List.take_take, List.length_take]
    congr 1
    omega

/-! ### What is shown and what it becomes -/

theorem scan_shown_of_alike {a b : List String} (ha : ∀ key ∈ a, Key.IsEditing key)
    (hb : ∀ key ∈ b, Key.IsEditing key) (h : Alike (line a) (line b)) :
    scan (shown a) = scan (shown b) := by
  have hknown {keys : List String} (hkeys : ∀ key ∈ keys, Key.IsEditing key) :
      ∀ c ∈ (String.ofList (line keys)).toList, IsKnown c := by
    rw [String.toList_ofList]
    exact fun c => isKnown_of_mem_line fun key hkey => .inl (hkeys key hkey)
  rw [shown, shown, scan_expression fun key hkey => .inl (ha key hkey),
    scan_expression fun key hkey => .inl (hb key hkey)]
  apply scan_eq_of_lexemes (hknown ha) (hknown hb)
  rw [String.toList_ofList, String.toList_ofList]
  exact h.lexemes_eq

theorem exists_scan_shown_ne {a b : List String} (hb : ∀ key ∈ b, Key.IsEditing key)
    (hline : line b = line a ++ [' ']) (hne : line a ≠ []) :
    ∃ k, (∀ key ∈ k, Key.IsEditing key) ∧ scan (shown (a ++ k)) ≠ scan (shown (b ++ k)) := by
  have hk : ∀ key ∈ List.replicate (line a).length Key.backspace, Key.IsEditing key :=
    fun key hkey => .inr (.inl (List.eq_of_mem_replicate hkey))
  -- as many steps back as `a` has characters empty its line and leave one of the line of `b`
  refine ⟨List.replicate (line a).length Key.backspace, hk, fun hscan => ?_⟩
  obtain ⟨c, cs, hcons⟩ := List.exists_cons_of_ne_nil hne
  have hempty : shown (a ++ List.replicate (line a).length Key.backspace) = "" := by
    rw [shown, expression_algebraic, line_append, foldl_after_backspaces, Nat.sub_self]
    rfl
  have hleft : line (b ++ List.replicate (line a).length Key.backspace) = [c] := by
    rw [line_append, foldl_after_backspaces, hline, List.length_append, Nat.add_sub_cancel_left,
      hcons]
    rfl
  have hblank : Text.IsBlankText (shown (b ++ List.replicate (line a).length Key.backspace)) := by
    apply isBlankText_of_scan
    rw [← hscan, hempty]
    decide +kernel
  have hboth : ∀ key ∈ b ++ List.replicate (line a).length Key.backspace, Key.IsEditing key :=
    List.forall_mem_append.2 ⟨hb, hk⟩
  rw [line_eq_nil_of_isBlankText hboth hblank] at hleft
  cases hleft

variable {a b : List String}

theorem line_eq_of_scan_shown (ha : ∀ key ∈ a, Key.IsEditing key)
    (hb : ∀ key ∈ b, Key.IsEditing key) (h : shown a = shown b)
    (hall : ∀ k, (∀ key ∈ k, Key.IsEditing key) → scan (shown (a ++ k)) = scan (shown (b ++ k))) :
    line a = line b := by
  obtain ⟨hlinea, -⟩ := line_cases ha
  obtain ⟨hlineb, -⟩ := line_cases hb
  rw [← h] at hlineb
  -- with the same shown, unequal lines differ by the space at the end of one of them
  rcases hlinea with hlinea | ⟨hlinea, hnil⟩
  · rcases hlineb with hlineb | ⟨hlineb, hnil⟩
    · exact hlinea.trans hlineb.symm
    · rw [← hlinea] at hlineb hnil
      obtain ⟨k, hk, hscan⟩ := exists_scan_shown_ne hb hlineb hnil
      exact absurd (hall k hk) hscan
  · rcases hlineb with hlineb | ⟨hlineb, -⟩
    · rw [← hlineb] at hlinea hnil
      obtain ⟨k, hk, hscan⟩ := exists_scan_shown_ne ha hlinea hnil
      exact absurd (hall k hk).symm hscan
    · exact hlinea.trans hlineb.symm

theorem shown_append_of_line (h : line a = line b) (k : List String) :
    shown (a ++ k) = shown (b ++ k) := by
  rw [shown, shown, expression_algebraic, expression_algebraic, line_append, line_append, h]

theorem line_concat_of_not_numeral (ha : ∀ key ∈ a, Key.IsEditing key)
    (hb : ∀ key ∈ b, Key.IsEditing key) (h : shown a = shown b) (hkey : Key.IsEditing key)
    (hnumeral : Key.isNumeral key = false) (hne : key ≠ Key.backspace) :
    line (a ++ [key]) = line (b ++ [key]) := by
  rw [line_concat, line_concat]
  obtain ⟨c, hc, rfl⟩ | rfl | rfl | rfl := hkey
  · rw [Key.isNumeral_singleton] at hnumeral
    rw [after_symbol hc hnumeral, after_symbol hc hnumeral, spaced_line ha, spaced_line hb, h]
  · exact absurd rfl hne
  · rw [after_clear, after_clear]
  · rw [after_clearEntry, after_clearEntry]

theorem alike_line (ha : ∀ key ∈ a, Key.IsEditing key)
    (hend : ∀ c ∈ (shown a).toList.getLast?, isNumeral c = false) :
    Alike (line a) (shown a).toList := by
  obtain ⟨hline | ⟨hline, -⟩, -⟩ := line_cases ha
  · rw [hline]
    exact .refl _
  · rw [hline]
    exact alike_append_space hend

theorem scan_shown_append (ha : ∀ key ∈ a, Key.IsEditing key) (hb : ∀ key ∈ b, Key.IsEditing key)
    (h : shown a = shown b) (hend : ∀ c ∈ (shown a).toList.getLast?, isNumeral c = false)
    {k : List String} (hk : ∀ key ∈ k, Key.IsEditing key ∧ key ≠ Key.backspace) :
    scan (shown (a ++ k)) = scan (shown (b ++ k)) := by
  have hlinea := alike_line ha hend
  have hlineb := alike_line hb (h ▸ hend)
  rw [← h] at hlineb
  have hediting : ∀ key ∈ k, Key.IsEditing key := fun key hkey => (hk key hkey).1
  apply scan_shown_of_alike (List.forall_mem_append.2 ⟨ha, hediting⟩)
    (List.forall_mem_append.2 ⟨hb, hediting⟩)
  rw [line_append, line_append]
  exact foldl_after_alike (hlinea.trans hlineb.symm) hk

theorem shown_append_cases (ha : ∀ key ∈ a, Key.IsEditing key) (hkey : Key.IsSymbol key)
    (hnumeral : Key.isNumeral key = true) :
    (line a = (shown a).toList ∧ shown (a ++ [key]) = shown a ++ key) ∨
      line a = (shown a).toList ++ [' '] ∧ shown (a ++ [key]) = shown a ++ " " ++ key := by
  obtain ⟨hline, -⟩ := line_cases ha
  obtain ⟨c, hc, rfl⟩ := hkey
  rw [Key.isNumeral_singleton] at hnumeral
  have hjoined := shown_append_numeral ha hc hnumeral
  rcases hline with hline | ⟨hline, -⟩
  · refine .inl ⟨hline, ?_⟩
    rw [← String.toList_inj, hjoined, hline, String.toList_append, String.toList_singleton]
  · refine .inr ⟨hline, ?_⟩
    rw [← String.toList_inj, hjoined, hline, String.toList_append, String.toList_append,
      String.toList_singleton]
    rfl

theorem shown_append_digit (ha : ∀ key ∈ a, Key.IsEditing key)
    (hlast : a.getLast? ≠ some Key.backspace)
    (hend : ∀ c ∈ (shown a).toList.getLast?, isNumeral c = true) (hkey : Key.IsSymbol key)
    (hnumeral : Key.isNumeral key = true) : shown (a ++ [key]) = shown a ++ key := by
  have htrail : trail (shown a).toList = [] := by
    unfold trail
    split
    · rfl
    · rename_i c hc
      rw [if_pos (hend c hc)]
  have hline := line_of_last_key ha hlast
  rw [htrail] at hline
  rcases shown_append_cases ha hkey hnumeral with ⟨-, hshown⟩ | ⟨hspace, -⟩
  · exact hshown
  · rw [hspace] at hline
    simp at hline

/-- How far what is shown decides what it becomes. Two entries that show the same go on alike if and
only if their lines are equal, and then they show the same for ever. Their lines are equal if
neither ends in a key that has taken a character away. If they are not, the entries still go on
alike from the first key that is no numeral, and as long as nothing is taken away also where no
number stands at the end. A numeral is joined to the line: to the number that is shown, unless a
space has been left after it, and none is left but by a key that has taken a character away. -/
theorem shown_determines_entry_iff (ha : ∀ key ∈ a, Key.IsEditing key)
    (hb : ∀ key ∈ b, Key.IsEditing key) (h : shown a = shown b) :
    ((∀ k, (∀ key ∈ k, Key.IsEditing key) → scan (shown (a ++ k)) = scan (shown (b ++ k))) ↔
      line a = line b) ∧
    (line a = line b → ∀ k, shown (a ++ k) = shown (b ++ k)) ∧
    (a.getLast? ≠ some Key.backspace → b.getLast? ≠ some Key.backspace → line a = line b) ∧
    (∀ key k, Key.IsEditing key → Key.isNumeral key = false → key ≠ Key.backspace →
      shown (a ++ key :: k) = shown (b ++ key :: k)) ∧
    ((∀ c ∈ (shown a).toList.getLast?, isNumeral c = false) → ∀ k,
      (∀ key ∈ k, Key.IsEditing key ∧ key ≠ Key.backspace) →
        scan (shown (a ++ k)) = scan (shown (b ++ k))) ∧
    ∀ key, Key.IsSymbol key → Key.isNumeral key = true →
      ((line a = (shown a).toList ∧ shown (a ++ [key]) = shown a ++ key) ∨
        line a = (shown a).toList ++ [' '] ∧ shown (a ++ [key]) = shown a ++ " " ++ key) ∧
      (a.getLast? ≠ some Key.backspace →
        (∀ c ∈ (shown a).toList.getLast?, isNumeral c = true) →
          shown (a ++ [key]) = shown a ++ key) := by
  refine ⟨⟨line_eq_of_scan_shown ha hb h, fun hline k _ => ?_⟩, shown_append_of_line,
    ?_, ?_, ?_, ?_⟩
  · exact congrArg scan (shown_append_of_line hline k)
  · intro hlasta hlastb
    rw [line_of_last_key ha hlasta, line_of_last_key hb hlastb, h]
  · intro key k hkey hnumeral hne
    have hline := line_concat_of_not_numeral ha hb h hkey hnumeral hne
    have hshown := shown_append_of_line hline k
    rwa [List.append_assoc, List.append_assoc] at hshown
  · exact fun hend k hk => scan_shown_append ha hb h hend hk
  · intro key hkey hnumeral
    refine ⟨shown_append_cases ha hkey hnumeral, fun hlast hend => ?_⟩
    exact shown_append_digit ha hlast hend hkey hnumeral

theorem shown_after_erased_minus :
    (∀ key ∈ ["1", "-", "BACKSPACE", "BACKSPACE"], Key.IsEditing key) ∧
    (∀ key ∈ ["1"], Key.IsEditing key) ∧
    shown ["1", "-", "BACKSPACE", "BACKSPACE"] = shown ["1"] ∧
    (¬ ∀ k, (∀ key ∈ k, Key.IsEditing key) →
      scan (shown (["1", "-", "BACKSPACE", "BACKSPACE"] ++ k)) = scan (shown (["1"] ++ k))) ∧
    ∀ k, shown (["1", "-", "BACKSPACE", "BACKSPACE"] ++ "*" :: k) = shown (["1"] ++ "*" :: k) := by
  have ha : ∀ key ∈ ["1", "-", "BACKSPACE", "BACKSPACE"], Key.IsEditing key := by decide
  have hb : ∀ key ∈ ["1"], Key.IsEditing key := by decide
  have hshown : shown ["1", "-", "BACKSPACE", "BACKSPACE"] = shown ["1"] := by decide
  have hline : line ["1", "-", "BACKSPACE", "BACKSPACE"] ≠ line ["1"] := by decide
  have htimes : Key.IsEditing "*" ∧ Key.isNumeral "*" = false ∧ "*" ≠ Key.backspace := by decide
  obtain ⟨hiff, -, -, hnext, -⟩ := shown_determines_entry_iff ha hb hshown
  refine ⟨ha, hb, hshown, fun hall => hline (hiff.1 hall), fun k => ?_⟩
  exact hnext "*" k htimes.1 htimes.2.1 htimes.2.2

theorem not_forall_shown_determines_entry :
    ¬ ∀ a b k : List String, (∀ key ∈ a, Key.IsEditing key) → (∀ key ∈ b, Key.IsEditing key) →
      (∀ key ∈ k, Key.IsEditing key) → shown a = shown b →
        scan (shown (a ++ k)) = scan (shown (b ++ k)) := by
  intro hall
  have hscan := hall ["1", "+", "BACKSPACE", "BACKSPACE"] ["1"] ["2"] (by decide) (by decide)
    (by decide) (by decide)
  have hapart : shown (["1", "+", "BACKSPACE", "BACKSPACE"] ++ ["2"]) = "1 2" := by decide
  have hjoined : shown (["1"] ++ ["2"]) = "12" := by decide
  rw [hapart, hjoined] at hscan
  exact absurd hscan (by decide +kernel)

end Entered

end DeskCalculator
