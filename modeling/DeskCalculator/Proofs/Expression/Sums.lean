import DeskCalculator.Proofs.Machine.Scale
import Mathlib.Algebra.BigOperators.Ring.Multiset
import Mathlib.Data.Multiset.Lattice
import Mathlib.Order.Lattice.Nat

/-!
Sums. On the grid of the precision signs, sums and differences are exact, so that the rounding
after each of them moves nothing. What is left is the rounding of the literals, and then neither
their order nor their grouping matters.
-/
namespace DeskCalculator
open Decimal

namespace Sign

def factor : Sign → Rat
  | plus => 1
  | negate => -1

def times : Sign → Sign → Sign
  | plus, r => r
  | negate, plus => negate
  | negate, negate => plus

theorem factor_times (s r : Sign) : (s.times r).factor = s.factor * r.factor := by
  cases s <;> cases r <;> norm_num [times, factor]

theorem hasScale_factor_mul (s : Sign) {v : Rat} {digits : Nat} (h : HasScale v digits) :
    HasScale (s.factor * v) digits := by
  cases s with
  | plus => simpa only [factor, one_mul] using h
  | negate => simpa only [factor, neg_mul, one_mul] using h.neg

end Sign

def BinaryOp.rightSign : BinaryOp → Sign
  | subtract => .negate
  | _ => .plus

def Operator.IsAdditive : Operator → Prop
  | sign _ | binary .add | binary .subtract => True
  | binary .multiply | binary .divide | binary .power => False

def Token.AllAdditive (tokens : List Token) : Prop :=
  ∀ op, .operator op ∈ tokens → op.IsAdditive

theorem Token.AllAdditive.of_subset {tokens read : List Token} (h : AllAdditive tokens)
    (hsubset : read ⊆ tokens) : AllAdditive read :=
  fun op hop => h op (hsubset hop)

def signedSum (value : Entry → Rat) (xs : Multiset (Sign × Entry)) : Rat :=
  (xs.map fun x => x.1.factor * value x.2).sum

variable {value : Entry → Rat} {xs ys : Multiset (Sign × Entry)}

theorem signedSum_add : signedSum value (xs + ys) = signedSum value xs + signedSum value ys := by
  simp only [signedSum, Multiset.map_add, Multiset.sum_add]

theorem signedSum_map_times (s : Sign) :
    signedSum value (xs.map (Prod.map s.times id)) = s.factor * signedSum value xs := by
  simp only [signedSum, Multiset.map_map, Function.comp_apply, Prod.map_fst, Prod.map_snd, id_eq,
    Sign.factor_times, mul_assoc, Multiset.sum_map_mul_left]

theorem signedSum_congr {value' : Entry → Rat} (h : ∀ x ∈ xs, value x.2 = value' x.2) :
    signedSum value xs = signedSum value' xs := by
  have hmap := Multiset.map_congr rfl fun x hx => congrArg (x.1.factor * ·) (h x hx)
  exact congrArg Multiset.sum hmap

def greatestScale (settings : Settings) (xs : Multiset (Sign × Entry)) : Nat :=
  (xs.map fun x => min x.2.scale settings.precision.digits).sup

variable {settings : Settings}

theorem greatestScale_add : greatestScale settings (xs + ys) =
    max (greatestScale settings xs) (greatestScale settings ys) := by
  simp only [greatestScale, Multiset.map_add, Multiset.sup_add]

theorem greatestScale_map_times (s : Sign) :
    greatestScale settings (xs.map (Prod.map s.times id)) = greatestScale settings xs := by
  simp only [greatestScale, Multiset.map_map, Function.comp_def, Prod.map_snd, id_eq]

namespace Entry
open Expression

variable {x y : Entry}

theorem Settled.signed_eq (h : x.Settled settings) (s : Sign) :
    signed settings s x = .ok ⟨s.factor * x.value, x.scale⟩ := by
  have hsettled : Settled settings ⟨s.factor * x.value, x.scale⟩ :=
    ⟨s.hasScale_factor_mul h.hasScale, h.scale_le⟩
  rw [← hsettled.settle_eq]
  cases s with
  | plus => simp only [signed, Operator.applyUnary, Operator.resultScale, Sign.factor, one_mul,
      settle, Except.map]
  | negate => simp only [signed, Operator.applyUnary, Operator.resultScale, Sign.factor, neg_mul,
      one_mul, settle, Except.map]

theorem Settled.combined_eq (hx : x.Settled settings) (hy : y.Settled settings) {op : BinaryOp}
    (hop : (Operator.binary op).IsAdditive) :
    combined settings op x y =
      .ok ⟨x.value + op.rightSign.factor * y.value, max x.scale y.scale⟩ := by
  have hsum := hx.hasScale.add (op.rightSign.hasScale_factor_mul hy.hasScale)
  rw [Nat.max_self] at hsum
  have hsettled : Settled settings
      ⟨x.value + op.rightSign.factor * y.value, max x.scale y.scale⟩ :=
    ⟨hsum, Nat.max_le.2 ⟨hx.scale_le, hy.scale_le⟩⟩
  rw [← hsettled.settle_eq]
  cases op with
  | add => simp only [combined, Operator.applyBinary, Operator.resultScale, BinaryOp.rightSign,
      Sign.factor, one_mul, settle, Except.map]
  | subtract => simp only [combined, Operator.applyBinary, Operator.resultScale,
      BinaryOp.rightSign, Sign.factor, neg_mul, one_mul, ← sub_eq_add_neg, settle, Except.map]
  | multiply | divide | power => exact hop.elim

end Entry

namespace Expression

variable {t u : Expression}

/-- The literals of a sum, each with the sign that the operators above it give it. -/
def summands : Expression → Multiset (Sign × Entry)
  | number l => {(.plus, ⟨l.value, l.scale⟩)}
  | sign s operand => operand.summands.map (Prod.map s.times id)
  | binary op left right =>
    left.summands + right.summands.map (Prod.map op.rightSign.times id)

theorem exists_number_of_mem_summands {x : Sign × Entry} (h : x ∈ t.summands) :
    ∃ l, .number l ∈ t.postorder ∧ x.2 = ⟨l.value, l.scale⟩ := by
  induction t generalizing x with
  | number l =>
    obtain rfl := Multiset.mem_singleton.1 h
    exact ⟨l, List.mem_singleton_self _, rfl⟩
  | sign s operand ih =>
    obtain ⟨y, hy, rfl⟩ := Multiset.mem_map.1 h
    obtain ⟨l, hl, hvalue⟩ := ih hy
    exact ⟨l, List.mem_append_left _ hl, hvalue⟩
  | binary op left right ihl ihr =>
    rcases Multiset.mem_add.1 h with h | h
    · obtain ⟨l, hl, hvalue⟩ := ihl h
      exact ⟨l, List.mem_append_left _ (List.mem_append_left _ hl), hvalue⟩
    · obtain ⟨y, hy, rfl⟩ := Multiset.mem_map.1 h
      obtain ⟨l, hl, hvalue⟩ := ihr hy
      exact ⟨l, List.mem_append_left _ (List.mem_append_right _ hl), hvalue⟩

theorem settled_of_meaning {x : Entry} (h : t.meaning settings = .ok x) : x.Settled settings := by
  cases t with
  | number l =>
    obtain rfl := Except.ok.inj h
    exact Entry.settled_settle settings ⟨l.value, l.scale⟩
  | sign s operand =>
    obtain ⟨y, -, hy⟩ := bind_eq_ok.1 h
    exact Entry.settled_signed hy
  | binary op left right =>
    obtain ⟨y, -, hy⟩ := bind_eq_ok.1 h
    obtain ⟨z, -, hz⟩ := bind_eq_ok.1 hy
    exact Entry.settled_combined hz

def total (settings : Settings) (xs : Multiset (Sign × Entry)) : Entry :=
  ⟨signedSum (fun x => roundTo settings.rounding settings.precision.digits x.value) xs,
    greatestScale settings xs⟩

theorem meaning_of_allAdditive (h : Token.AllAdditive t.postorder) :
    t.meaning settings = .ok (total settings t.summands) := by
  induction t with
  | number l =>
    simp only [meaning, total, summands, signedSum, greatestScale, Multiset.map_singleton,
      Multiset.sum_singleton, Multiset.sup_singleton, Sign.factor, one_mul]
  | sign s operand ih =>
    have hoperand := ih (h.of_subset (List.subset_append_left _ _))
    rw [meaning, hoperand, Except.bind, (settled_of_meaning hoperand).signed_eq]
    simp only [total, summands, signedSum_map_times, greatestScale_map_times]
  | binary op left right ihl ihr =>
    have hop := h (.binary op) (List.mem_append_right _ (List.mem_singleton_self _))
    have hchildren := h.of_subset (List.subset_append_left _ _)
    have hleft := ihl (hchildren.of_subset (List.subset_append_left _ _))
    have hright := ihr (hchildren.of_subset (List.subset_append_right _ _))
    rw [meaning, hleft, hright]
    simp only [Except.bind]
    rw [(settled_of_meaning hleft).combined_eq (settled_of_meaning hright) hop]
    simp only [total, summands, signedSum_add, signedSum_map_times, greatestScale_add,
      greatestScale_map_times]

theorem signedSum_roundTo_summands (hread : Token.AllRead t.postorder)
    (hscale : ∀ l, .number l ∈ t.postorder → l.scale ≤ settings.precision.digits) :
    signedSum (fun x => roundTo settings.rounding settings.precision.digits x.value) t.summands =
      signedSum Entry.value t.summands := by
  refine signedSum_congr fun x hx => ?_
  obtain ⟨l, hl, hvalue⟩ := exists_number_of_mem_summands hx
  rw [hvalue]
  exact roundTo_of_hasScale _ ((hread l hl).hasScale.mono (hscale l hl))

/-- The value of tokens without other operators than sums, differences and signs is the sum of
their literals, each with its sign and rounded once, and is shown with the most decimals that one of
them keeps. Another order or grouping of the same summands gives the same value; and the sum is
exact where no literal, read from its text, has more decimals than the precision. -/
theorem evaluate_sum (settings : Settings) (withTrace : Bool) {tokens : List Token}
    {e : Evaluation} (hadditive : Token.AllAdditive tokens)
    (h : evaluate settings withTrace tokens = .ok e) :
    ∃ t : Expression, t.postorder = tokens ∧
      e.value = signedSum (fun x => roundTo settings.rounding settings.precision.digits x.value)
        t.summands ∧
      e.scale = greatestScale settings t.summands ∧
      (∀ (u : Expression) (traced : Bool), Token.AllAdditive u.postorder →
        u.summands = t.summands →
        (evaluate settings traced u.postorder).map Evaluation.entry = .ok e.entry) ∧
      (Token.AllRead tokens →
        (∀ l, .number l ∈ tokens → l.scale ≤ settings.precision.digits) →
        e.value = signedSum Entry.value t.summands) ∧
      ∀ (mode : Mode) (text : String), mode.toPostfix text = .ok tokens →
        Token.AllRead tokens := by
  obtain ⟨t, rfl⟩ := exists_postorder_of_evaluate h
  have hmeaning := entry_evaluate_postorder settings withTrace t
  rw [h, meaning_of_allAdditive hadditive] at hmeaning
  have hentry : e.entry = total settings t.summands := Except.ok.inj hmeaning
  have hvalue := congrArg Entry.value hentry
  refine ⟨t, rfl, hvalue, congrArg Entry.scale hentry, fun u traced hu hsummands => ?_,
    fun hread hscale => ?_, fun mode text => Postfix.allRead_of_toPostfix⟩
  · rw [entry_evaluate_postorder, meaning_of_allAdditive hu, hsummands, hentry]
  · exact hvalue.trans (signedSum_roundTo_summands hread hscale)

theorem evaluate_sum_in_other_order :
    (evaluate ⟨Precision.least, .toPositiveInfinity⟩ true
      [.number ⟨47 / 20, "2.35"⟩, .operator (.sign .negate), .operator (.sign .negate),
        .number ⟨5 / 4, "1.25"⟩, .operator (.binary .add)]).map Evaluation.entry =
      .ok ⟨37 / 10, 1⟩ := by
  let difference : Expression :=
    binary .subtract (number ⟨5 / 4, "1.25"⟩) (sign .negate (number ⟨47 / 20, "2.35"⟩))
  let reordered : Expression :=
    binary .add (sign .negate (sign .negate (number ⟨47 / 20, "2.35"⟩)))
      (number ⟨5 / 4, "1.25"⟩)
  have hadditive (t : Expression) (ht : t = difference ∨ t = reordered) :
      Token.AllAdditive t.postorder := by
    intro op hop
    rcases ht with rfl | rfl
    all_goals
      simp [difference, reordered, postorder] at hop
      rcases hop with rfl | rfl <;> trivial
  have he : evaluate ⟨Precision.least, .toPositiveInfinity⟩ false difference.postorder =
      .ok ⟨37 / 10, 1, difference.postorder, []⟩ := by decide +kernel
  obtain ⟨t, ht, -, -, hreordered, -⟩ := evaluate_sum _ false (hadditive _ (.inl rfl)) he
  obtain rfl := postorder_inj.1 ht
  have hsummands : reordered.summands = difference.summands := by decide +kernel
  exact hreordered reordered true (hadditive _ (.inr rfl)) hsummands

end Expression

end DeskCalculator
