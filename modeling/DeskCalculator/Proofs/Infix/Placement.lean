import DeskCalculator.Proofs.Answer
import DeskCalculator.Proofs.Expression.Meaning
import DeskCalculator.Proofs.Infix.Conservation
import DeskCalculator.Proofs.Infix.Grammar
import DeskCalculator.Proofs.Token.Scan
import Mathlib.Data.List.Basic

/-!
Where operands stand in an infix text. No stage looks for a missing operand, nor for one that
follows another without an operator between them; the machine only counts. A text that has a value
therefore misses as many operands as follow another one directly, and is an expression of the
grammar exactly when none does.
-/
namespace DeskCalculator

namespace Token

/-- How often a closing parenthesis or the end comes where an operand is expected. -/
def gaps : Bool → List Token → Nat
  | expecting, [] => expecting.toNat
  | expecting, rparen :: ts => expecting.toNat + gaps false ts
  | _, number _ :: ts => gaps false ts
  | _, lparen :: ts | _, operator _ :: ts => gaps true ts

/-- How often a number or an opening parenthesis comes where no operand is expected. -/
def clashes : Bool → List Token → Nat
  | _, [] => 0
  | expecting, number _ :: ts => (!expecting).toNat + clashes false ts
  | expecting, lparen :: ts => (!expecting).toNat + clashes true ts
  | _, rparen :: ts => clashes false ts
  | _, operator _ :: ts => clashes true ts

theorem Fitted.countP_isNumber {expecting : Bool} {ts : List Token} (h : Fitted expecting ts) :
    ts.countP isNumber + gaps expecting ts + (!expecting).toNat =
      ts.countP isBinary + clashes expecting ts + 1 := by
  induction h with
  | nil expecting => cases expecting <;> rfl
  | number l h ih =>
    rw [List.countP_cons_of_pos rfl, List.countP_cons_of_neg Bool.false_ne_true, gaps, clashes]
    rw [Bool.not_false, Bool.toNat_true] at ih
    omega
  | lparen h ih =>
    rw [List.countP_cons_of_neg Bool.false_ne_true, List.countP_cons_of_neg Bool.false_ne_true,
      gaps, clashes]
    rw [Bool.not_true, Bool.toNat_false] at ih
    omega
  | @rparen expecting ts h ih =>
    rw [List.countP_cons_of_neg Bool.false_ne_true, List.countP_cons_of_neg Bool.false_ne_true,
      gaps, clashes]
    rw [Bool.not_false, Bool.toNat_true] at ih
    have hnot : expecting.toNat + (!expecting).toNat = 1 := by cases expecting <;> rfl
    omega
  | sign s h ih =>
    rw [List.countP_cons_of_neg Bool.false_ne_true, List.countP_cons_of_neg Bool.false_ne_true,
      gaps, clashes]
    exact ih
  | binary op h ih =>
    rw [List.countP_cons_of_neg Bool.false_ne_true, List.countP_cons_of_pos rfl, gaps, clashes]
    rw [Bool.not_true, Bool.toNat_false] at ih
    rw [Bool.not_false, Bool.toNat_true]
    omega

/-- Operands and binary operators take turns, signs and opening parentheses before an operand,
closing ones after it; `depth` parentheses are open before the tokens, none after them. -/
inductive Placed : Bool → Nat → List Token → Prop
  | done : Placed false 0 []
  | number (l : Literal) {depth : Nat} {ts : List Token} :
      Placed false depth ts → Placed true depth (number l :: ts)
  | sign (s : Sign) {depth : Nat} {ts : List Token} :
      Placed true depth ts → Placed true depth (operator (.sign s) :: ts)
  | lparen {depth : Nat} {ts : List Token} :
      Placed true (depth + 1) ts → Placed true depth (lparen :: ts)
  | rparen {depth : Nat} {ts : List Token} :
      Placed false depth ts → Placed false (depth + 1) (rparen :: ts)
  | binary (op : BinaryOp) {depth : Nat} {ts : List Token} :
      Placed true depth ts → Placed false depth (operator (.binary op) :: ts)

theorem Placed.clashes_eq_zero {expecting : Bool} {depth : Nat} {ts : List Token}
    (h : Placed expecting depth ts) : clashes expecting ts = 0 := by
  induction h with
  | done => rfl
  | number l h ih | lparen h ih => exact (Nat.zero_add _).trans ih
  | sign s h ih | rparen h ih | binary op h ih => exact ih

theorem Fitted.placed {expecting : Bool} {ts : List Token} {depth : Nat} (h : Fitted expecting ts)
    (hparens : checkParensFrom depth ts = .ok ()) (hgaps : gaps expecting ts = 0)
    (hclashes : clashes expecting ts = 0) : Placed expecting depth ts := by
  induction h generalizing depth with
  | nil expecting =>
    cases expecting with
    | true => cases hgaps
    | false =>
      by_cases hd : depth = 0
      · exact hd ▸ .done
      · rw [checkParensFrom, if_neg hd] at hparens
        cases hparens
  | @number expecting l ts h ih =>
    obtain ⟨hhere, hrest⟩ := Nat.add_eq_zero_iff.1 hclashes
    cases expecting with
    | false => cases hhere
    | true => exact .number l (ih hparens hgaps hrest)
  | @lparen expecting ts h ih =>
    obtain ⟨hhere, hrest⟩ := Nat.add_eq_zero_iff.1 hclashes
    cases expecting with
    | false => cases hhere
    | true => exact .lparen (ih hparens hgaps hrest)
  | @rparen expecting ts h ih =>
    obtain ⟨hhere, hrest⟩ := Nat.add_eq_zero_iff.1 hgaps
    match expecting, depth with
    | true, _ => cases hhere
    | false, 0 => cases hparens
    | false, depth + 1 => exact .rparen (ih hparens hrest hclashes)
  | sign s h ih => exact .sign s (ih hparens hgaps hclashes)
  | binary op h ih => exact .binary op (ih hparens hgaps hclashes)

end Token

namespace Phrase
open Token

theorem placed_tokens {layer : Layer} (x : Phrase layer) {depth : Nat} {rest : List Token}
    (h : Placed false depth rest) : Placed true depth (x.tokens ++ rest) := by
  induction x generalizing depth rest with
  | number l => exact .number l h
  | group inner ih =>
    rw [tokens, List.cons_append, List.append_assoc]
    exact .lparen (ih (.rparen h))
  | signed signs operand ih =>
    induction signs with
    | nil => exact ih h
    | cons s signs ihs => exact .sign s ihs
  | ofSigned x ih | ofPower x ih | ofTerm x ih => exact ih h
  | power left right ihl ihr | term left op hop right ihl ihr | sum left op hop right ihl ihr =>
    rw [tokens, List.append_assoc]
    exact ihl (.binary _ (ihr h))

variable (y : Phrase .signed)

theorem exists_power_extended : (x : Phrase .power) →
    ∃ z : Phrase .power, z.tokens = x.tokens ++ .operator (.binary .power) :: y.tokens
  | .ofSigned base => ⟨.power base (.ofSigned y), rfl⟩
  | .power base exponent => by
    obtain ⟨z, hz⟩ := exists_power_extended exponent
    refine ⟨.power base z, ?_⟩
    rw [tokens, tokens, hz, List.append_assoc, List.cons_append]

theorem exists_term_extended (x : Phrase .term) {op : BinaryOp}
    (hop : op ≠ .add ∧ op ≠ .subtract) :
    ∃ z : Phrase .term, z.tokens = x.tokens ++ .operator (.binary op) :: y.tokens := by
  by_cases hpower : op = .power
  · subst hpower
    cases x with
    | ofPower x =>
      obtain ⟨z, hz⟩ := exists_power_extended y x
      exact ⟨.ofPower z, hz⟩
    | term left op' hop' right =>
      obtain ⟨z, hz⟩ := exists_power_extended y right
      refine ⟨.term left op' hop' z, ?_⟩
      rw [tokens, tokens, hz, List.append_assoc, List.cons_append]
  · have hop' : op = .multiply ∨ op = .divide := by
      cases op with
      | multiply => exact .inl rfl
      | divide => exact .inr rfl
      | add => exact absurd rfl hop.1
      | subtract => exact absurd rfl hop.2
      | power => exact absurd rfl hpower
    exact ⟨.term x op hop' (.ofSigned y), rfl⟩

theorem exists_sum_extended (x : Phrase .sum) (op : BinaryOp) :
    ∃ z : Phrase .sum, z.tokens = x.tokens ++ .operator (.binary op) :: y.tokens := by
  by_cases hop : op = .add ∨ op = .subtract
  · exact ⟨.sum x op hop (.ofPower (.ofSigned y)), rfl⟩
  · have hop := not_or.1 hop
    cases x with
    | ofTerm x =>
      obtain ⟨z, hz⟩ := exists_term_extended y x hop
      exact ⟨.ofTerm z, hz⟩
    | sum left op' hop' right =>
      obtain ⟨z, hz⟩ := exists_term_extended y right hop
      refine ⟨.sum left op' hop' z, ?_⟩
      rw [tokens, tokens, hz, List.append_assoc, List.cons_append]

abbrev Tail := List (BinaryOp × Phrase .signed)

def Tail.tokens (tail : Tail) : List Token :=
  tail.flatMap fun p => .operator (.binary p.1) :: p.2.tokens

theorem exists_tail_extended (x : Phrase .sum) (tail : Tail) :
    ∃ z : Phrase .sum, z.tokens = x.tokens ++ tail.tokens := by
  induction tail generalizing x with
  | nil => exact ⟨x, (List.append_nil _).symm⟩
  | cons p tail ih =>
    obtain ⟨z, hz⟩ := exists_sum_extended p.2 x p.1
    obtain ⟨w, hw⟩ := ih z
    refine ⟨w, ?_⟩
    rw [hw, hz, Tail.tokens, Tail.tokens, List.flatMap_cons, List.append_assoc]

def Continues (depth : Nat) (ts : List Token) : Prop :=
  ∃ (tail : Tail) (tails : List Tail), tails.length = depth ∧
    ts = tail.tokens ++ tails.flatMap fun t => .rparen :: t.tokens

theorem continues_of_placed {expecting : Bool} {depth : Nat} {ts : List Token}
    (h : Placed expecting depth ts) :
    if expecting then
      ∃ (operand : Phrase .signed) (rest : List Token),
        ts = operand.tokens ++ rest ∧ Continues depth rest
    else Continues depth ts := by
  -- the induction is on the tokens from the left, so that the groups that are still open stay cut
  -- into tails until their parentheses close
  induction h with
  | done => exact ⟨[], [], rfl, rfl⟩
  | @number l depth ts h ih => exact ⟨.signed [] (.number l), ts, rfl, ih⟩
  | sign s h ih =>
    obtain ⟨operand, rest, rfl, hrest⟩ := ih
    cases operand with
    | signed signs operand => exact ⟨.signed (s :: signs) operand, rest, rfl, hrest⟩
  | lparen h ih =>
    obtain ⟨operand, rest, rfl, tail, tails, hlen, rfl⟩ := ih
    obtain ⟨inner, hinner⟩ := exists_tail_extended (.ofTerm (.ofPower (.ofSigned operand))) tail
    obtain ⟨tail', tails, rfl⟩ := List.exists_cons_of_length_eq_add_one hlen
    refine ⟨.signed [] (.group inner), _, ?_, tail', tails, Nat.succ.inj hlen, rfl⟩
    change _ = .lparen :: (inner.tokens ++ [.rparen]) ++ _
    rw [hinner, List.flatMap_cons]
    simp only [tokens, List.cons_append, List.append_assoc, List.nil_append]
  | rparen h ih =>
    obtain ⟨tail, tails, hlen, rfl⟩ := ih
    exact ⟨[], tail :: tails, congrArg (· + 1) hlen, rfl⟩
  | binary op h ih =>
    obtain ⟨operand, rest, rfl, tail, tails, hlen, rfl⟩ := ih
    have hcons : Tail.tokens ((op, operand) :: tail) =
        .operator (.binary op) :: (operand.tokens ++ tail.tokens) := rfl
    refine ⟨(op, operand) :: tail, tails, hlen, ?_⟩
    rw [hcons, List.cons_append, List.append_assoc]

theorem exists_tokens_iff {ts : List Token} :
    (∃ x : Phrase .sum, x.tokens = ts) ↔ Placed true 0 ts := by
  constructor
  · rintro ⟨x, rfl⟩
    have h := x.placed_tokens .done
    rw [List.append_nil] at h
    exact h
  · intro h
    obtain ⟨operand, rest, rfl, tail, tails, hlen, rfl⟩ := continues_of_placed h
    obtain rfl := List.length_eq_zero_iff.1 hlen
    obtain ⟨x, hx⟩ := exists_tail_extended (.ofTerm (.ofPower (.ofSigned operand))) tail
    refine ⟨x, ?_⟩
    rw [hx, List.flatMap_nil, List.append_nil]
    rfl

end Phrase

namespace Calculator
open Token

theorem answer_adjacent :
    scan "1 2 +" = .ok [.number ⟨1, "1"⟩, .number ⟨2, "2"⟩, .operator (.binary .add)] ∧
      Calculator.answer {} ⟨"1 2 +", .algebraic, false, {}⟩ =
        .ok ⟨3, 0, [.number ⟨1, "1"⟩, .number ⟨2, "2"⟩, .operator (.binary .add)], []⟩ := by
  have hsettings : ({} : Overrides).resolve {} = .ok ({} : Settings) := rfl
  have hscan : scan "1 2 +" =
      .ok [.number ⟨1, "1"⟩, .number ⟨2, "2"⟩, .operator (.binary .add)] :=
    scan_of_scanFrom (by decide +kernel) (List.cons_ne_nil _ _) rfl
  refine ⟨hscan, ?_⟩
  rw [answer_of_scan (c := {}) (r := ⟨"1 2 +", .algebraic, false, {}⟩) rfl hsettings hscan]
  decide +kernel

/-- In a text that has a value, signs stand where an operand is expected and binary operators where
none is, and parentheses are balanced; it misses as many operands as stand directly after another
one, and is an expression of the grammar exactly when none does. Its value is the meaning of the
tree that its postfix form is the postorder of. -/
theorem clashes_of_answer {c : Calculator} {r : Request} {e : Evaluation}
    (hmode : r.mode = .algebraic) (h : c.answer r = .ok e) :
    ∃ (settings : Settings) (tokens : List Token) (t : Expression),
      r.overrides.resolve c.defaults = .ok settings ∧ scan r.expression = .ok tokens ∧
      Fitted true tokens ∧ checkParens tokens = .ok () ∧
      gaps true tokens = clashes true tokens ∧
      ((∃ x : Phrase .sum, x.tokens = tokens) ↔ clashes true tokens = 0) ∧
      Postfix.convert tokens = .ok t.postorder ∧ t.meaning settings = .ok e.entry := by
  obtain ⟨settings, tokens, out, hsettings, hscan, hout, he⟩ := exists_of_answer_eq_ok hmode h
  obtain ⟨t, rfl⟩ := Expression.exists_postorder_of_evaluate he
  obtain ⟨hfitted, hparens⟩ := scan_eq_ok hscan
  -- a postorder has one number more than binary operators, and the converter keeps them all
  have hcount := hfitted.countP_isNumber
  rw [← Postfix.countP_convert hout rfl rfl, ← Postfix.countP_convert hout rfl rfl,
    t.countP_isNumber_postorder, Bool.not_true, Bool.toNat_false] at hcount
  have hgaps : gaps true tokens = clashes true tokens := by omega
  have hmeaning := Expression.entry_evaluate_postorder settings r.withTrace t
  rw [he] at hmeaning
  refine ⟨settings, tokens, t, hsettings, hscan, hfitted, hparens, hgaps, ?_, hout, hmeaning.symm⟩
  rw [Phrase.exists_tokens_iff]
  constructor
  · exact Placed.clashes_eq_zero
  · intro hclashes
    exact hfitted.placed hparens (hgaps.trans hclashes) hclashes

theorem gaps_of_answer_adjacent :
    gaps true [.number ⟨1, "1"⟩, .number ⟨2, "2"⟩, .operator (.binary .add)] = 1 := by
  obtain ⟨hscan, hanswer⟩ := answer_adjacent
  obtain ⟨_, _, _, _, hscan', _, _, hgaps, _⟩ := clashes_of_answer rfl hanswer
  rw [Except.ok.inj (hscan'.symm.trans hscan)] at hgaps
  exact hgaps

theorem not_forall_answered_derivable :
    ¬ ∀ (c : Calculator) (r : Request) (e : Evaluation), r.mode = .algebraic →
      c.answer r = .ok e → ∃ x : Phrase .sum, scan r.expression = .ok x.tokens := by
  intro h
  obtain ⟨hscan, hanswer⟩ := answer_adjacent
  obtain ⟨x, hx⟩ := h _ _ _ rfl hanswer
  have hplaced := Phrase.exists_tokens_iff.1 ⟨x, Except.ok.inj (hx.symm.trans hscan)⟩
  cases hplaced.clashes_eq_zero

end Calculator

end DeskCalculator
