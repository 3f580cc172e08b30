import DeskCalculator.Proofs.Answer
import DeskCalculator.Proofs.Expression.Meaning
import DeskCalculator.Proofs.Infix.Conversion
import DeskCalculator.Proofs.Token.Scan
import Mathlib.Data.List.Chain

/-!
Chains of signs. The converter lets a waiting sign go before any operator, so of several signs in
front of an operand all but the last go out before it: they are applied to the operand on the left,
and where there is none they find the stack of the machine empty. The answer for a phrase follows
its tree where no sign stands directly before another, and fails for want of an operand exactly
where two do so before the first number.
-/
namespace DeskCalculator

namespace Token

def isSign : Token → Bool
  | operator (.sign _) => true
  | _ => false

def SignsApart (tokens : List Token) : Prop :=
  tokens.IsChain fun a b => ¬ (a.isSign = true ∧ b.isSign = true)

instance (tokens : List Token) : Decidable (SignsApart tokens) :=
  inferInstanceAs (Decidable (tokens.IsChain fun a b => ¬ (a.isSign = true ∧ b.isSign = true)))

def opening (tokens : List Token) : List Token :=
  tokens.takeWhile fun t => !t.isNumber

theorem signsApart_cons {t : Token} (ht : t.isSign = false) (ts : List Token) :
    SignsApart (t :: ts) ↔ SignsApart ts := by
  rw [SignsApart, List.isChain_cons]
  refine and_iff_right fun u _ hsigns => ?_
  rw [ht] at hsigns
  exact Bool.false_ne_true hsigns.1

theorem signsApart_append {as bs : List Token} (hb : ∀ b ∈ bs.head?, b.isSign = false) :
    SignsApart (as ++ bs) ↔ SignsApart as ∧ SignsApart bs := by
  rw [SignsApart, List.isChain_append]
  refine and_congr_right' (and_iff_left fun a _ b hbs hsigns => ?_)
  rw [hb b hbs] at hsigns
  exact Bool.false_ne_true hsigns.2

theorem signsApart_append_cons {t : Token} (ht : t.isSign = false) (as bs : List Token) :
    SignsApart (as ++ t :: bs) ↔ SignsApart as ∧ SignsApart bs := by
  have hhead : ∀ b ∈ (t :: bs).head?, b.isSign = false := by
    intro b hb
    rw [← Option.some.inj hb]
    exact ht
  rw [signsApart_append hhead, signsApart_cons ht]

theorem opening_signTokens_append (signs : List Sign) (ts : List Token) :
    opening (signTokens signs ++ ts) = signTokens signs ++ opening ts := by
  refine List.takeWhile_append_of_pos fun t ht => ?_
  obtain ⟨s, -, rfl⟩ := List.mem_map.1 ht
  rfl

theorem signsApart_signTokens (signs : List Sign) :
    SignsApart (signTokens signs) ↔ signs.length ≤ 1 := by
  match signs with
  | [] => exact iff_of_true .nil (Nat.zero_le 1)
  | [s] => exact iff_of_true (.singleton _) (Nat.le_refl 1)
  | s :: s' :: signs =>
    refine iff_of_false (fun h => ?_) (fun h => absurd h (by simp))
    exact (List.isChain_cons_cons.1 h).1 ⟨rfl, rfl⟩

end Token

def Expression.withSigns (t : Expression) (signs : List Sign) : Expression :=
  signs.foldl (fun operand s => .sign s operand) t

theorem Expression.postorder_withSigns (t : Expression) (signs : List Sign) :
    (t.withSigns signs).postorder = t.postorder ++ signTokens signs := by
  induction signs generalizing t with
  | nil => exact (List.append_nil _).symm
  | cons s signs ih =>
    change ((Expression.sign s t).withSigns signs).postorder = _
    rw [ih, postorder, List.append_assoc]
    rfl

theorem Expression.postorder_foldr_sign (t : Expression) (signs : List Sign) :
    (signs.foldr .sign t).postorder = t.postorder ++ signTokens signs.reverse := by
  induction signs with
  | nil => exact (List.append_nil _).symm
  | cons s signs ih =>
    rw [List.foldr_cons, postorder, ih, List.reverse_cons, signTokens_append, List.append_assoc]
    rfl

namespace Phrase
open Token

/-- The signs that go out before the first operand of a phrase: of the chains that open it, all but
the last sign of each. -/
def stray {layer : Layer} : Phrase layer → List Sign
  | number _ => []
  | group inner => inner.stray
  | signed signs operand => signs.dropLast ++ operand.stray
  | ofSigned x | ofPower x | ofTerm x => x.stray
  | power base _ => base.stray
  | term left _ _ _ | sum left _ _ _ => left.stray

/-- The expression that goes out after the stray signs of a phrase: those of a right operand are
applied to the left operand. -/
def regrouped {layer : Layer} : Phrase layer → Expression
  | number l => .number l
  | group inner => inner.regrouped
  | signed signs operand => operand.regrouped.withSigns signs.getLast?.toList
  | ofSigned x | ofPower x | ofTerm x => x.regrouped
  | power base exponent =>
    .binary .power (base.regrouped.withSigns exponent.stray) exponent.regrouped
  | term left op _ right | sum left op _ right =>
    .binary op (left.regrouped.withSigns right.stray) right.regrouped

theorem output_eq_stray_append {layer : Layer} (x : Phrase layer) :
    x.output = signTokens x.stray ++ x.regrouped.postorder := by
  induction x with
  | number l => rfl
  | group inner ih | ofSigned x ih | ofPower x ih | ofTerm x ih => exact ih
  | signed signs operand ih =>
    simp only [output, ih, stray, regrouped, signTokens_append, Expression.postorder_withSigns,
      List.append_assoc]
  | power left right ihl ihr | term left op hop right ihl ihr | sum left op hop right ihl ihr =>
    simp only [output, ihl, ihr, stray, regrouped, Expression.postorder,
      Expression.postorder_withSigns, List.append_assoc]

theorem isSign_of_head_tokens {operand : Phrase .atom} {t : Token}
    (h : t ∈ operand.tokens.head?) : t.isSign = false := by
  cases operand <;> exact Option.some.inj h ▸ rfl

theorem signsApart_tokens {layer : Layer} (x : Phrase layer) :
    SignsApart x.tokens ↔ x.AtMostOneSign := by
  induction x with
  | number l => exact iff_of_true (.singleton _) trivial
  | group inner ih =>
    rw [tokens, signsApart_cons rfl, signsApart_append_cons rfl, ih]
    exact and_iff_left .nil
  | signed signs operand ih =>
    rw [tokens, signsApart_append fun _ => isSign_of_head_tokens, signsApart_signTokens, ih,
      AtMostOneSign]
  | ofSigned x ih | ofPower x ih | ofTerm x ih => exact ih
  | power left right ihl ihr | term left op hop right ihl ihr | sum left op hop right ihl ihr =>
    rw [tokens, signsApart_append_cons rfl, ihl, ihr, AtMostOneSign]

theorem opening_tokens_append {layer : Layer} (x : Phrase layer) (rest : List Token) :
    opening (x.tokens ++ rest) = opening x.tokens := by
  -- every phrase has a number, so what opens it ends within it
  induction x generalizing rest with
  | number l => rfl
  | group inner ih =>
    have h := ih ([.rparen] ++ rest)
    rw [← List.append_assoc, ← ih [.rparen]] at h
    exact congrArg (Token.lparen :: ·) h
  | signed signs operand ih =>
    rw [tokens, List.append_assoc, opening_signTokens_append, opening_signTokens_append, ih]
  | ofSigned x ih | ofPower x ih | ofTerm x ih => exact ih rest
  | power left right ihl ihr | term left op hop right ihl ihr | sum left op hop right ihl ihr =>
    rw [tokens, List.append_assoc, ihl, ihl]

theorem signsApart_opening {layer : Layer} (x : Phrase layer) :
    SignsApart (opening x.tokens) ↔ x.stray = [] := by
  induction x with
  | number l => exact iff_of_true .nil rfl
  | group inner ih =>
    have hopen : opening (group inner).tokens = .lparen :: opening inner.tokens :=
      congrArg (Token.lparen :: ·) (inner.opening_tokens_append [.rparen])
    rw [hopen, signsApart_cons rfl, ih, stray]
  | signed signs operand ih =>
    have hhead : ∀ t ∈ (opening operand.tokens).head?, t.isSign = false := by
      intro t ht
      rw [opening, List.head?_takeWhile] at ht
      exact isSign_of_head_tokens (Option.mem_filter_iff.1 ht).1
    have hdrop : signs.dropLast = [] ↔ signs.length ≤ 1 := by
      rw [← List.length_eq_zero_iff, List.length_dropLast, Nat.sub_eq_zero_iff_le]
    rw [tokens, opening_signTokens_append, signsApart_append hhead, signsApart_signTokens, ih,
      stray, List.append_eq_nil_iff, hdrop]
  | ofSigned x ih | ofPower x ih | ofTerm x ih => exact ih
  | power left right ihl ihr | term left op hop right ihl ihr | sum left op hop right ihl ihr =>
    rw [tokens, opening_tokens_append, ihl, stray]

theorem length_output {layer : Layer} (x : Phrase layer) :
    x.output.length = x.tree.postorder.length := by
  have hsplit (signs : List Sign) :
      signs.dropLast.length + signs.getLast?.toList.length = signs.length := by
    rcases List.eq_nil_or_concat signs with rfl | ⟨init, last, rfl⟩
    · rfl
    · rw [List.concat_eq_append, List.dropLast_concat, List.getLast?_concat, List.length_append]
      rfl
  induction x with
  | number l => rfl
  | group inner ih | ofSigned x ih | ofPower x ih | ofTerm x ih => exact ih
  | signed signs operand ih =>
    have h := hsplit signs
    simp only [output, tree, Expression.postorder_foldr_sign, signTokens, List.length_append,
      List.length_map, List.length_reverse, ih]
    omega
  | power left right ihl ihr | term left op hop right ihl ihr | sum left op hop right ihl ihr =>
    simp only [output, tree, Expression.postorder, List.length_append, ihl, ihr]

theorem atMostOneSign_of_output {layer : Layer} {x : Phrase layer}
    (h : x.output = x.tree.postorder) : x.AtMostOneSign := by
  induction x with
  | number l => trivial
  | group inner ih | ofSigned x ih | ofPower x ih | ofTerm x ih => exact ih h
  | signed signs operand ih =>
    rw [output, tree] at h
    -- a block that opens with a sign is no postorder, since these open with a number
    rcases signs with _ | ⟨s, _ | ⟨s', signs⟩⟩
    · exact ⟨Nat.zero_le 1, ih ((List.append_nil _).symm.trans h)⟩
    · exact ⟨Nat.le_refl 1, ih (List.append_cancel_right h)⟩
    · obtain ⟨l, ts, hnumber⟩ :=
        Expression.postorder_eq_cons ((s :: s' :: signs).foldr .sign operand.tree)
      rw [hnumber] at h
      cases (List.cons.inj h).1
  | power left right ihl ihr | term left op hop right ihl ihr | sum left op hop right ihl ihr =>
    rw [output, tree, Expression.postorder] at h
    obtain ⟨hl, hr⟩ := List.append_inj (List.append_cancel_right h) left.length_output
    exact ⟨ihl hl, ihr hr⟩

theorem evaluate_output_of_stray (settings : Settings) (withTrace : Bool) {x : Phrase .sum}
    {s : Sign} {signs : List Sign} (h : x.stray = s :: signs) :
    evaluate settings withTrace x.output =
      .error (.missingOperands (Operator.sign s).symbol 1) := by
  rw [output_eq_stray_append, h]
  rfl

theorem entry_evaluate_output (settings : Settings) (withTrace : Bool) {x : Phrase .sum}
    (h : x.stray = []) :
    (evaluate settings withTrace x.output).map Evaluation.entry = x.regrouped.meaning settings := by
  rw [output_eq_stray_append, h]
  exact Expression.entry_evaluate_postorder settings withTrace x.regrouped

end Phrase

namespace Calculator
open Token

variable {c : Calculator} {r : Request} {settings : Settings} {x : Phrase .sum}

theorem answer_of_phrase (hmode : r.mode = .algebraic)
    (hsettings : r.overrides.resolve c.defaults = .ok settings)
    (hscan : scan r.expression = .ok x.tokens) :
    c.answer r = evaluate settings r.withTrace x.output := by
  rw [answer_of_scan hmode hsettings hscan, x.convert_tokens]
  rfl

/-- The answer to an infix expression whose operands may have any number of signs. Nothing but a
division or a power fails, if and only if no sign stands directly before another ahead of the first
number; the first sign of a chain there lacks its operand. Otherwise the answer is the meaning of
the regrouped expression, and that of the expression as written where the two agree. The postfix
form is that of the expression as written, if and only if no sign stands directly before another
anywhere, and then the answer is its meaning. -/
theorem answer_signs (hmode : r.mode = .algebraic)
    (hsettings : r.overrides.resolve c.defaults = .ok settings)
    (hscan : scan r.expression = .ok x.tokens) :
    ((∀ fault, c.answer r = .error fault → fault = .divisionByZero ∨ fault = .powerNotFinite) ↔
      SignsApart (opening x.tokens)) ∧
    (∀ s signs, x.stray = s :: signs →
      c.answer r = .error (.missingOperands (Operator.sign s).symbol 1)) ∧
    (SignsApart (opening x.tokens) →
      (c.answer r).map Evaluation.entry = x.regrouped.meaning settings) ∧
    ((c.answer r).map Evaluation.entry = x.tree.meaning settings ↔
      SignsApart (opening x.tokens) ∧ x.regrouped.meaning settings = x.tree.meaning settings) ∧
    (r.mode.toPostfix r.expression = .ok x.tree.postorder ↔ SignsApart x.tokens) ∧
    (SignsApart x.tokens → (c.answer r).map Evaluation.entry = x.tree.meaning settings) := by
  rw [answer_of_phrase hmode hsettings hscan, x.signsApart_opening, x.signsApart_tokens]
  have hstructural : (∀ fault, evaluate settings r.withTrace x.output = .error fault →
      fault = .divisionByZero ∨ fault = .powerNotFinite) ↔ x.stray = [] := by
    constructor
    · intro h
      match hstray : x.stray with
      | [] => rfl
      | s :: signs =>
        have hfault := Phrase.evaluate_output_of_stray settings r.withTrace hstray
        rcases h _ hfault with h | h <;> cases h
    · intro h fault hfault
      have hm := Phrase.entry_evaluate_output settings r.withTrace h
      rw [hfault] at hm
      exact Expression.meaning_fault hm.symm
  have hvalue (h : x.stray = []) := Phrase.entry_evaluate_output settings r.withTrace h
  refine ⟨hstructural, ?_, hvalue, ⟨fun h => ?_, fun h => ?_⟩, ⟨fun h => ?_, fun h => ?_⟩,
    fun h => ?_⟩
  · exact fun s signs hstray => Phrase.evaluate_output_of_stray settings r.withTrace hstray
  · have hstray := hstructural.1 fun fault hfault => by
      rw [hfault] at h
      exact Expression.meaning_fault h.symm
    exact ⟨hstray, (hvalue hstray).symm.trans h⟩
  · exact (hvalue h.1).trans h.2
  · rw [hmode, Mode.toPostfix, hscan] at h
    exact Phrase.atMostOneSign_of_output (Except.ok.inj (x.convert_tokens.symm.trans h))
  · rw [hmode, Mode.toPostfix, hscan, ← Phrase.output_of_atMostOneSign h]
    exact x.convert_tokens
  · rw [Phrase.output_of_atMostOneSign h]
    exact Expression.entry_evaluate_postorder settings r.withTrace x.tree

theorem answer_of_minus_chain :
    (Calculator.answer {} ⟨"1---3", .algebraic, false, {}⟩).map Evaluation.entry = .ok ⟨2, 0⟩ := by
  have hsettings : ({} : Overrides).resolve {} = .ok ({} : Settings) := rfl
  let x : Phrase .sum :=
    .sum (.ofTerm (.ofPower (.ofSigned (.signed [] (.number ⟨1, "1"⟩))))) .subtract (.inr rfl)
      (.ofPower (.ofSigned (.signed [.negate, .negate] (.number ⟨3, "3"⟩))))
  have hscan : scan "1---3" = .ok x.tokens :=
    scan_of_scanFrom (by decide +kernel) (List.cons_ne_nil _ _) rfl
  obtain ⟨-, -, hvalue, -⟩ := answer_signs (c := {})
    (r := ⟨"1---3", .algebraic, false, {}⟩) rfl hsettings hscan
  rw [hvalue (by decide)]
  decide +kernel

end Calculator

end DeskCalculator
