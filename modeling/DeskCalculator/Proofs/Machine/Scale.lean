import DeskCalculator.Proofs.Decimal.Printed
import DeskCalculator.Proofs.Machine.Run
import DeskCalculator.Proofs.Postfix.RoundTrip

/-!
Scales on the stack. Every entry lies on the grid of the precision and has no more decimals than
that; where all literals were read from their texts, the scale of an entry fits its value exactly.
So an entry is written with its scale, and what is written reads back as its value.
-/
namespace DeskCalculator

theorem Precision.digits_le_maxScale (p : Precision) : p.digits ≤ Decimal.maxScale :=
  Nat.le_trans p.le_max (by decide)

namespace Entry
open Decimal Expression

/-- On the grid of the precision, and shown with no more decimals. -/
structure Settled (settings : Settings) (x : Entry) : Prop where
  hasScale : HasScale x.value settings.precision.digits
  scale_le : x.scale ≤ settings.precision.digits

def Exact (x : Entry) : Prop :=
  HasScale x.value x.scale

variable {settings : Settings} {x y z : Entry}

theorem settled_settle (settings : Settings) (x : Entry) : (x.settle settings).Settled settings :=
  ⟨hasScale_roundTo _ _ _, Nat.min_le_right _ _⟩

theorem Settled.settle_eq (h : x.Settled settings) : x.settle settings = x := by
  rw [settle, roundTo_of_hasScale _ h.hasScale, Nat.min_eq_left h.scale_le]

theorem exact_settle (h : x.Exact ∨ settings.precision.digits ≤ x.scale) :
    (x.settle settings).Exact := by
  unfold Exact settle
  by_cases hle : settings.precision.digits ≤ x.scale
  · rw [Nat.min_eq_right hle]
    exact hasScale_roundTo _ _ _
  · have hlt : x.scale ≤ settings.precision.digits := Nat.le_of_not_le hle
    have hexact : HasScale x.value x.scale := h.resolve_right hle
    rw [Nat.min_eq_left hlt, roundTo_of_hasScale _ (hexact.mono hlt)]
    exact hexact

theorem settled_signed {s : Sign} (h : signed settings s x = .ok y) : y.Settled settings := by
  obtain ⟨v, -, rfl⟩ := exists_settle_of_signed h
  exact settled_settle settings _

theorem settled_combined {op : BinaryOp} (h : combined settings op x y = .ok z) :
    z.Settled settings := by
  obtain ⟨v, -, rfl⟩ := exists_settle_of_combined h
  exact settled_settle settings _

theorem exact_number {l : Literal} (h : l.IsRead) :
    (settle settings ⟨l.value, l.scale⟩).Exact :=
  exact_settle (.inl h.hasScale)

theorem exact_signed {s : Sign} (hx : x.Exact) (h : signed settings s x = .ok y) : y.Exact := by
  obtain ⟨v, hv, rfl⟩ := exists_settle_of_signed h
  refine exact_settle (.inl ?_)
  cases s with
  | plus =>
    obtain rfl := Except.ok.inj hv
    exact hx
  | negate =>
    obtain rfl := Except.ok.inj hv
    exact HasScale.neg hx

theorem exact_combined {op : BinaryOp} (hx : x.Exact) (hy : y.Exact)
    (h : combined settings op x y = .ok z) : z.Exact := by
  obtain ⟨v, hv, rfl⟩ := exists_settle_of_combined h
  have hleast (start : Nat) :
      HasScale v (leastScale v start) ∨ settings.precision.digits ≤ leastScale v start := by
    refine (hasScale_leastScale v start).imp_right fun hend => ?_
    rw [hend]
    exact settings.precision.digits_le_maxScale
  refine exact_settle ?_
  cases op with
  | add =>
    obtain rfl := Except.ok.inj hv
    exact .inl (HasScale.add hx hy)
  | subtract =>
    obtain rfl := Except.ok.inj hv
    exact .inl (HasScale.sub hx hy)
  | multiply =>
    obtain rfl := Except.ok.inj hv
    exact .inl (HasScale.mul hx hy)
  | divide => exact hleast (x.scale - y.scale)
  | power => exact hleast 0

theorem Settled.exists_writes (h : x.Settled settings) :
    ∃ decimals ≤ settings.precision.digits,
      Writes x.text x.value decimals ∧ (x.Exact → decimals = x.scale) :=
  exists_writes_toTextAt h.hasScale settings.precision.digits_le_maxScale h.scale_le

end Entry

namespace Machine
open Entry Expression

variable {settings : Settings} {stack below : List Entry} {t : Token} {e : Entry}

theorem settled_of_step (h : step settings stack t = .ok (e, below)) : e.Settled settings := by
  obtain ⟨l, -, rfl, -⟩ | ⟨s, x, -, he, -⟩ | ⟨op, x, y, -, he, -⟩ := step_eq_ok h
  · exact settled_settle settings _
  · exact settled_signed he
  · exact settled_combined he

theorem exact_of_step (hread : ∀ l, t = .number l → l.IsRead) (hstack : ∀ x ∈ stack, x.Exact)
    (h : step settings stack t = .ok (e, below)) : e.Exact := by
  obtain ⟨l, rfl, rfl, -⟩ | ⟨s, x, -, he, rfl⟩ | ⟨op, x, y, -, he, rfl⟩ := step_eq_ok h
  · exact exact_number (hread l rfl)
  · exact exact_signed (hstack x (List.mem_cons_self ..)) he
  · obtain ⟨hy, hrest⟩ := List.forall_mem_cons.1 hstack
    exact exact_combined (hrest x (List.mem_cons_self ..)) hy he

theorem settled_of_outcome {ts : List Token} (h : (run settings [] ts).outcome = .ok stack) :
    ∀ x ∈ stack, x.Settled settings :=
  forall_mem_of_outcome (fun _ _ _ _ _ _ => settled_of_step)
    (fun _ hx => absurd hx List.not_mem_nil) h

theorem exact_of_outcome {ts : List Token} (hread : Token.AllRead ts)
    (h : (run settings [] ts).outcome = .ok stack) : ∀ x ∈ stack, x.Exact :=
  forall_mem_of_outcome
    (fun _ ht _ _ _ hstack => exact_of_step (fun l hl => hread l (hl ▸ ht)) hstack)
    (fun _ hx => absurd hx List.not_mem_nil) h

end Machine

theorem Step.exists_line_eq (s : Step) :
    ∃ front, s.line.toList = front ++ ' ' :: s.pushed.text.toList := by
  unfold Step.line
  split
  · rename_i op _
    refine ⟨"apply ".toList ++ (op.symbol.toList ++ " ->".toList), ?_⟩
    simp only [String.toList_append, List.append_assoc]
    rfl
  · exact ⟨"push".toList, String.toList_append⟩

theorem Step.getLast?_words_line {s : Step} (h : Text.IsWord s.pushed.text.toList) :
    (Text.words s.line.toList).getLast? = some s.pushed.text.toList := by
  have hspace : Text.isBlank ' ' = true := by decide
  obtain ⟨front, hline⟩ := s.exists_line_eq
  rw [hline, Text.getLast?_words front hspace h]

/-- `text` is a literal of the value of the entry with at most the decimals of the precision, and
with exactly those of the entry when all literals among the tokens were read. -/
def Entry.WrittenAs (settings : Settings) (tokens : List Token) (x : Entry) (text : String) :
    Prop :=
  ∃ decimals ≤ settings.precision.digits,
    Decimal.Writes text x.value decimals ∧ (Token.AllRead tokens → decimals = x.scale)

theorem Entry.writtenAs_of_outcome {settings : Settings} {tokens read : List Token}
    {stack : List Entry} {x : Entry} (hpre : read <+: tokens)
    (h : (Machine.run settings [] read).outcome = .ok stack) (hx : x ∈ stack) :
    x.WrittenAs settings tokens x.text := by
  obtain ⟨decimals, hle, hwrites, hexact⟩ := (Machine.settled_of_outcome h x hx).exists_writes
  refine ⟨decimals, hle, hwrites, fun hread => hexact ?_⟩
  exact Machine.exact_of_outcome (hread.of_subset hpre.subset) h x hx

/-- On every stack that an evaluation comes to, all entries lie on the grid of the precision and
have no more decimals, so that the sum of two scales stays small; and where the numbers were read
from their texts, as those of both modes are, every scale fits its value. The result and the number
at the end of each line of the trace, one line for each token, are the texts of such entries. -/
theorem evaluate_scales (settings : Settings) (withTrace : Bool) (tokens : List Token) :
    (∀ read stack, read <+: tokens → (Machine.run settings [] read).outcome = .ok stack →
      (∀ x ∈ stack, x.Settled settings ∧ (Token.AllRead tokens → x.Exact)) ∧
      (∀ x ∈ stack, ∀ y ∈ stack, x.scale + y.scale ≤ 2 * settings.precision.digits) ∧
      2 * settings.precision.digits < 2 ^ 32) ∧
    (∀ e, evaluate settings withTrace tokens = .ok e →
      (Machine.run settings [] tokens).outcome = .ok [e.entry] ∧
      e.entry.WrittenAs settings tokens e.text ∧
      (withTrace = true → e.trace.length = tokens.length) ∧
      ∀ i line, e.trace[i]? = some line → ∃ x below,
        (Machine.run settings [] (tokens.take (i + 1))).outcome = .ok (x :: below) ∧
        (Text.words line.toList).getLast? = some x.text.toList ∧
        x.WrittenAs settings tokens x.text) ∧
    (∀ (mode : Mode) (text : String), mode.toPostfix text = .ok tokens →
      Token.AllRead tokens) := by
  refine ⟨?_, ?_, fun mode text => Postfix.allRead_of_toPostfix⟩
  · intro read stack hpre h
    have hsettled := Machine.settled_of_outcome h
    have hmax := settings.precision.le_max
    refine ⟨fun x hx => ⟨hsettled x hx, fun hread => ?_⟩, fun x hx y hy => ?_, by omega⟩
    · exact Machine.exact_of_outcome (hread.of_subset hpre.subset) h x hx
    · have hscale := (hsettled x hx).scale_le
      have hscale' := (hsettled y hy).scale_le
      omega
  · intro e he
    obtain ⟨houtcome, htrace⟩ := Machine.outcome_of_evaluate he
    refine ⟨houtcome, Entry.writtenAs_of_outcome List.prefix_rfl houtcome
      (List.mem_singleton_self _), fun htraced => ?_, ?_⟩
    · rw [htrace, if_pos htraced, List.length_map, Machine.length_steps houtcome]
    intro i line hline
    cases withTrace with
    | false =>
      rw [htrace] at hline
      cases hline
    | true =>
      rw [htrace, if_pos rfl, List.getElem?_map] at hline
      obtain ⟨s, hs, rfl⟩ := Option.map_eq_some_iff.1 hline
      obtain ⟨below, hbelow⟩ := Machine.exists_below_of_steps hs
      have hwritten := Entry.writtenAs_of_outcome (List.take_prefix (i + 1) tokens) hbelow
        (List.mem_cons_self ..)
      have hword : Text.IsWord s.pushed.text.toList := by
        obtain ⟨decimals, -, hwrites, -⟩ := hwritten
        exact Decimal.isWord_of_ofString? hwrites.reads
      exact ⟨s.pushed, below, hbelow, Step.getLast?_words_line hword, hwritten⟩

theorem writes_product_with_zeros : Decimal.Writes "3.00" 3 2 := by
  have he : evaluate {} true [.number ⟨3 / 2, "1.50"⟩, .number ⟨2, "2"⟩,
      .operator (.binary .multiply)] = .ok ⟨3, 2, [.number ⟨3 / 2, "1.50"⟩, .number ⟨2, "2"⟩,
        .operator (.binary .multiply)], ["push 1.50", "push 2", "apply * -> 3.00"]⟩ := by
    decide +kernel
  obtain ⟨-, hresult, hread⟩ := evaluate_scales {} true [.number ⟨3 / 2, "1.50"⟩,
    .number ⟨2, "2"⟩, .operator (.binary .multiply)]
  obtain ⟨-, ⟨decimals, -, hwrites, hscale⟩, -⟩ := hresult _ he
  obtain rfl := hscale (hread .rpn "1.50 2 *" (by decide +kernel))
  have htext : Decimal.toTextAt 3 2 = "3.00" := by decide +kernel
  rw [← htext]
  exact hwrites

end DeskCalculator
