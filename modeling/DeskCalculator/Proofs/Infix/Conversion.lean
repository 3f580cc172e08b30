import DeskCalculator.Postfix.Conversion
import DeskCalculator.Proofs.Infix.Grammar
import DeskCalculator.Proofs.Outcome

/-!
The converter on phrases of the grammar. Whatever waits on the stack and whatever follows, a phrase
goes out as one block, as long as the stack holds nothing that the phrase would let go and what
follows lets go all that the phrase leaves there. With at most one sign for each operand that block
is the postorder of the tree.
-/
namespace DeskCalculator

namespace Layer

def rank : Layer → Nat
  | sum => 1
  | term => 2
  | power => 3
  | signed => 4
  | atom => 5

end Layer

namespace Postfix

def Steady (layer : Layer) (stack : List Token) : Prop :=
  ∀ op : Operator, layer.rank ≤ op.precedence → release op stack = ([], stack)

def Closes (layer : Layer) : List Token → Prop
  | [] | .rparen :: _ => True
  | .operator next :: _ =>
    ∀ op : Operator, layer.rank ≤ op.precedence → goesBefore op next = true
  | .number _ :: _ | .lparen :: _ => False

/-- A phrase of the layer with these tokens goes out as the block `out`. -/
def Converts (layer : Layer) (tokens out : List Token) : Prop :=
  ∀ stack rest, Steady layer stack → Closes layer rest →
    convertFrom stack (tokens ++ rest) = (convertFrom stack rest).map (out ++ ·)

theorem Steady.mono {outer inner : Layer} {stack : List Token} (h : Steady outer stack)
    (hle : outer.rank ≤ inner.rank) : Steady inner stack :=
  fun op hop => h op (Nat.le_trans hle hop)

theorem steady_nil (layer : Layer) : Steady layer [] := fun _ _ => rfl

theorem steady_lparen (layer : Layer) (stack : List Token) : Steady layer (.lparen :: stack) :=
  fun _ _ => rfl

theorem steady_operator {layer : Layer} {waiting : Operator} (stack : List Token)
    (h : ∀ op : Operator, layer.rank ≤ op.precedence → goesBefore waiting op = false) :
    Steady layer (.operator waiting :: stack) := by
  intro op hop
  rw [release, h op hop]
  rfl

theorem Closes.mono {outer inner : Layer} {rest : List Token} (h : Closes outer rest)
    (hle : outer.rank ≤ inner.rank) : Closes inner rest := by
  match rest, h with
  | [], _ | .rparen :: _, _ => trivial
  | .operator next :: _, h => exact fun op hop => h op (Nat.le_trans hle hop)

theorem Steady.convertFrom_operator {layer : Layer} {stack : List Token} {op : Operator}
    (h : Steady layer stack) (hop : layer.rank ≤ op.precedence) (ts : List Token) :
    convertFrom stack (.operator op :: ts) = convertFrom (.operator op :: stack) ts := by
  rw [convertFrom, h op hop]
  cases convertFrom (.operator op :: stack) ts <;> rfl

theorem convertFrom_release {waiting next : Operator} (h : goesBefore waiting next = true)
    (stack ts : List Token) :
    convertFrom (.operator waiting :: stack) (.operator next :: ts) =
      (convertFrom stack (.operator next :: ts)).map ([.operator waiting] ++ ·) := by
  rw [convertFrom, convertFrom, release, if_pos h]
  cases convertFrom (.operator next :: (release next stack).2) ts <;> rfl

theorem Closes.convertFrom_operator {layer : Layer} {rest : List Token} {op : Operator}
    (h : Closes layer rest) (hop : layer.rank ≤ op.precedence) (stack : List Token) :
    convertFrom (.operator op :: stack) rest =
      (convertFrom stack rest).map ([.operator op] ++ ·) := by
  match rest, h with
  | [], _ =>
    simp only [convertFrom, drain, Token.isParen]
    cases drain stack <;> rfl
  | .rparen :: ts, _ =>
    simp only [convertFrom, closeGroup]
    cases closeGroup stack with
    | error fault => rfl
    | ok r => exact (map_append_map_append (convertFrom r.2 ts) [.operator op] r.1).symm
  | .operator next :: ts, h => exact convertFrom_release (h op hop) stack ts

theorem goesBefore_left {waiting : Operator} {next : BinaryOp}
    (hassoc : next.associativity = .left) (hle : next.precedence ≤ waiting.precedence) :
    goesBefore waiting (.binary next) = true := by
  cases waiting with
  | sign s => rfl
  | binary op =>
    rw [goesBefore, Operator.fixity, Operator.associativity, hassoc]
    exact decide_eq_true hle

theorem goesBefore_tighter {waiting : BinaryOp} {next : Operator}
    (h : waiting.precedence < next.precedence) : goesBefore (.binary waiting) next = false := by
  rw [goesBefore, Operator.fixity]
  cases next.associativity with
  | left => exact decide_eq_false (Nat.not_le_of_lt h)
  | right => exact decide_eq_false (Nat.not_lt_of_le (Nat.le_of_lt h))

theorem Converts.mono {outer inner : Layer} {tokens out : List Token}
    (h : Converts inner tokens out) (hle : outer.rank ≤ inner.rank) :
    Converts outer tokens out :=
  fun stack rest hs hc => h stack rest (hs.mono hle) (hc.mono hle)

theorem converts_number (l : Literal) : Converts .atom [.number l] [.number l] :=
  fun _ _ _ _ => rfl

theorem Converts.group {tokens out : List Token} (h : Converts .sum tokens out) :
    Converts .atom (.lparen :: (tokens ++ [.rparen])) out := by
  intro stack rest _ _
  have hopen : convertFrom stack (.lparen :: (tokens ++ [.rparen]) ++ rest) =
      convertFrom (.lparen :: stack) (tokens ++ .rparen :: rest) := by
    rw [List.cons_append, List.append_assoc, convertFrom, List.singleton_append]
  have hclose : convertFrom (.lparen :: stack) (.rparen :: rest) = convertFrom stack rest := by
    simp only [convertFrom, closeGroup]
    cases convertFrom stack rest <;> rfl
  rw [hopen, h (.lparen :: stack) (.rparen :: rest) (steady_lparen _ _) trivial, hclose]

theorem convertFrom_signTokens {stack : List Token} (hs : Steady .signed stack)
    (init : List Sign) (last : Sign) (ts : List Token) :
    convertFrom stack (signTokens (init ++ [last]) ++ ts) =
      (convertFrom (.operator (.sign last) :: stack) ts).map (signTokens init ++ ·) := by
  induction init with
  | nil =>
    rw [List.nil_append]
    change convertFrom stack (.operator (.sign last) :: ts) = _
    rw [hs.convertFrom_operator (Nat.le_refl _)]
    cases convertFrom (.operator (.sign last) :: stack) ts <;> rfl
  | cons s init ih =>
    obtain ⟨next, signs, hnext⟩ : ∃ next signs, init ++ [last] = next :: signs := by
      cases init <;> exact ⟨_, _, rfl⟩
    change convertFrom stack (.operator (.sign s) :: (signTokens (init ++ [last]) ++ ts)) = _
    rw [hs.convertFrom_operator (Nat.le_refl _)]
    rw [hnext] at ih ⊢
    -- the next sign lets this one go, so only the last of them stays on the stack
    change convertFrom _ (.operator (.sign next) :: (signTokens signs ++ ts)) = _
    rw [convertFrom_release rfl]
    change (convertFrom stack (signTokens (next :: signs) ++ ts)).map _ = _
    rw [ih, map_append_map_append]
    rfl

theorem Converts.signed {tokens out : List Token} (h : Converts .atom tokens out)
    (signs : List Sign) :
    Converts .signed (signTokens signs ++ tokens)
      (signTokens signs.dropLast ++ out ++ signTokens signs.getLast?.toList) := by
  intro stack rest hs hc
  rcases List.eq_nil_or_concat signs with rfl | ⟨init, last, rfl⟩
  · have hout : signTokens [] ++ out ++ signTokens [] = out := List.append_nil out
    rw [List.dropLast_nil, List.getLast?_nil, Option.toList_none, hout]
    exact h.mono (by decide) stack rest hs hc
  · -- no operator has the precedence of an atom, so nothing passes the waiting sign
    have hatom : Steady .atom (.operator (.sign last) :: stack) := by
      refine steady_operator stack fun op hop => ?_
      rcases op with s | op
      · exact absurd hop (Nat.not_succ_le_self 4)
      · cases op <;> exact absurd hop (by decide)
    rw [List.concat_eq_append, List.append_assoc, convertFrom_signTokens hs,
      h _ rest hatom (hc.mono (by decide)), hc.convertFrom_operator (Nat.le_refl _),
      map_append_map_append, map_append_map_append, List.dropLast_concat, List.getLast?_concat]
    rfl

theorem Converts.binary {layer left right : Layer} {op : BinaryOp}
    {leftTokens leftOut rightTokens rightOut : List Token}
    (hl : Converts left leftTokens leftOut) (hr : Converts right rightTokens rightOut)
    (hleft : layer.rank ≤ left.rank) (hright : layer.rank ≤ right.rank)
    (hop : layer.rank ≤ (Operator.binary op).precedence)
    (hcloses : ∀ o : Operator, left.rank ≤ o.precedence → goesBefore o (.binary op) = true)
    (hwaits : ∀ o : Operator, right.rank ≤ o.precedence → goesBefore (.binary op) o = false) :
    Converts layer (leftTokens ++ .operator (.binary op) :: rightTokens)
      (leftOut ++ rightOut ++ [.operator (.binary op)]) := by
  intro stack rest hs hc
  have hsteady : Steady right (.operator (.binary op) :: stack) := steady_operator stack hwaits
  rw [List.append_assoc, List.cons_append,
    hl stack (.operator (.binary op) :: (rightTokens ++ rest)) (hs.mono hleft) hcloses,
    hs.convertFrom_operator hop, hr _ rest hsteady (hc.mono hright),
    hc.convertFrom_operator hop, map_append_map_append, map_append_map_append]

theorem Converts.binary_left {layer right : Layer} {op : BinaryOp}
    {leftTokens leftOut rightTokens rightOut : List Token}
    (hl : Converts layer leftTokens leftOut) (hr : Converts right rightTokens rightOut)
    (hassoc : op.associativity = .left) (hprec : op.precedence = layer.rank)
    (hlt : layer.rank < right.rank) :
    Converts layer (leftTokens ++ .operator (.binary op) :: rightTokens)
      (leftOut ++ rightOut ++ [.operator (.binary op)]) := by
  refine hl.binary hr (Nat.le_refl _) (Nat.le_of_lt hlt) (Nat.le_of_eq hprec.symm)
    (fun o ho => ?_) (fun o ho => ?_)
  · exact goesBefore_left hassoc (Nat.le_trans (Nat.le_of_eq hprec) ho)
  · refine goesBefore_tighter (Nat.lt_of_lt_of_le ?_ ho)
    rw [hprec]
    exact hlt

end Postfix

namespace Phrase
open Postfix

def output {layer : Layer} : Phrase layer → List Token
  | number l => [.number l]
  | group inner => inner.output
  | signed signs operand =>
    signTokens signs.dropLast ++ operand.output ++ signTokens signs.getLast?.toList
  | ofSigned x | ofPower x | ofTerm x => x.output
  | power base exponent => base.output ++ exponent.output ++ [.operator (.binary .power)]
  | term left op _ right | sum left op _ right =>
    left.output ++ right.output ++ [.operator (.binary op)]

theorem converts {layer : Layer} (x : Phrase layer) : Converts layer x.tokens x.output := by
  induction x with
  | number l => exact converts_number l
  | group inner ih => exact ih.group
  | signed signs operand ih => exact ih.signed signs
  | ofSigned x ih | ofPower x ih | ofTerm x ih => exact ih.mono (by decide)
  | power base exponent ihb ihe =>
    refine ihb.binary ihe (by decide) (Nat.le_refl _) (Nat.le_refl _) (fun o ho => ?_)
      (fun o ho => ?_)
    · rcases o with s | op
      · rfl
      · cases op <;> exact absurd ho (by decide)
    · -- a power waits for a power, since it associates to the right
      rcases o with s | op
      · rfl
      · cases op <;> first | rfl | exact absurd ho (by decide)
  | term left op hop right ihl ihr =>
    exact ihl.binary_left ihr (by rcases hop with rfl | rfl <;> rfl)
      (by rcases hop with rfl | rfl <;> rfl) (by decide)
  | sum left op hop right ihl ihr =>
    exact ihl.binary_left ihr (by rcases hop with rfl | rfl <;> rfl)
      (by rcases hop with rfl | rfl <;> rfl) (by decide)

theorem convert_tokens (x : Phrase .sum) : convert x.tokens = .ok x.output := by
  have h := x.converts [] [] (steady_nil _) trivial
  rw [List.append_nil] at h
  rw [convert, h]
  exact congrArg Except.ok (List.append_nil x.output)

theorem output_of_atMostOneSign {layer : Layer} {x : Phrase layer} (h : x.AtMostOneSign) :
    x.output = x.tree.postorder := by
  induction x with
  | number l => rfl
  | group inner ih => exact ih h
  | signed signs operand ih =>
    obtain ⟨hlen, h⟩ := h
    rw [output, ih h, tree]
    match signs, hlen with
    | [], _ => exact List.append_nil _
    | [s], _ => rfl
  | ofSigned x ih | ofPower x ih | ofTerm x ih => exact ih h
  | power base exponent ihb ihe => rw [output, ihb h.1, ihe h.2, tree, Expression.postorder]
  | term left op hop right ihl ihr | sum left op hop right ihl ihr =>
    rw [output, ihl h.1, ihr h.2, tree, Expression.postorder]

/-- Precedence and associativity: with at most one sign for each operand, the tokens of a phrase
convert to the postorder of its tree. -/
theorem convert_tokens_eq_postorder (x : Phrase .sum) (h : x.AtMostOneSign) :
    convert x.tokens = .ok x.tree.postorder := by
  rw [convert_tokens, output_of_atMostOneSign h]

theorem convert_tokens_of_signed_exponent :
    convert [.number ⟨2, "2"⟩, .operator (.binary .power), .operator (.sign .negate),
        .number ⟨1, "1"⟩, .operator (.binary .power), .number ⟨2, "2"⟩] =
      .ok [.number ⟨2, "2"⟩, .number ⟨1, "1"⟩, .operator (.sign .negate), .number ⟨2, "2"⟩,
        .operator (.binary .power), .operator (.binary .power)] :=
  convert_tokens_eq_postorder
    (.ofTerm (.ofPower (.power (.signed [] (.number ⟨2, "2"⟩))
      (.power (.signed [.negate] (.number ⟨1, "1"⟩)) (.ofSigned (.signed [] (.number ⟨2, "2"⟩)))))))
    (by simp [AtMostOneSign])

end Phrase

end DeskCalculator
