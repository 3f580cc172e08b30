import DeskCalculator.Token.Basic

/-!
Expression trees and the order of their tokens in postfix form. Reading postfix tokens with a stack
of trees rebuilds the trees, so that a token list is the postorder of at most one tree.
-/
namespace DeskCalculator

namespace Token

def isNumber : Token → Bool
  | number _ => true
  | _ => false

def isBinary : Token → Bool
  | operator (.binary _) => true
  | _ => false

end Token

inductive Expression
  | number (l : Literal)
  | sign (s : Sign) (operand : Expression)
  | binary (op : BinaryOp) (left right : Expression)
  deriving DecidableEq

namespace Expression

def postorder : Expression → List Token
  | number l => [.number l]
  | sign s operand => operand.postorder ++ [.operator (.sign s)]
  | binary op left right => left.postorder ++ right.postorder ++ [.operator (.binary op)]

theorem postorder_eq_cons (t : Expression) : ∃ l ts, t.postorder = .number l :: ts := by
  induction t with
  | number l => exact ⟨l, [], rfl⟩
  | sign s operand ih =>
    obtain ⟨l, ts, h⟩ := ih
    exact ⟨l, ts ++ [.operator (.sign s)], by rw [postorder, h, List.cons_append]⟩
  | binary op left right ihl ihr =>
    obtain ⟨l, ts, h⟩ := ihl
    refine ⟨l, ts ++ right.postorder ++ [.operator (.binary op)], ?_⟩
    rw [postorder, h, List.cons_append, List.cons_append]

theorem countP_isNumber_postorder (t : Expression) :
    t.postorder.countP Token.isNumber = t.postorder.countP Token.isBinary + 1 := by
  induction t with
  | number l => rfl
  | sign s operand ih =>
    rw [postorder, List.countP_append, List.countP_append, ih]
    rfl
  | binary op left right ihl ihr =>
    have hnumber : [Token.operator (.binary op)].countP Token.isNumber = 0 := rfl
    have hbinary : [Token.operator (.binary op)].countP Token.isBinary = 1 := rfl
    simp only [postorder, List.countP_append, ihl, ihr, hnumber, hbinary]
    omega

def joined (forest : List Expression) : List Token :=
  forest.reverse.flatMap postorder

/-- Reads one postfix token on a stack of trees: an operator takes its operands from the top. -/
def push? : List Expression → Token → Option (List Expression)
  | forest, .number l => some (number l :: forest)
  | operand :: forest, .operator (.sign s) => some (sign s operand :: forest)
  | right :: left :: forest, .operator (.binary op) => some (binary op left right :: forest)
  | _, _ => none

theorem foldlM_push?_postorder (t : Expression) (forest : List Expression) (ts : List Token) :
    (t.postorder ++ ts).foldlM push? forest = ts.foldlM push? (t :: forest) := by
  induction t generalizing forest ts with
  | number l => rfl
  | sign s operand ih =>
    rw [postorder, List.append_assoc, ih]
    rfl
  | binary op left right ihl ihr =>
    rw [postorder, List.append_assoc, List.append_assoc, ihl, ihr]
    rfl

theorem foldlM_push?_self (t : Expression) : t.postorder.foldlM push? [] = some [t] := by
  have h := foldlM_push?_postorder t [] []
  rw [List.append_nil] at h
  exact h

theorem postorder_inj {t u : Expression} : t.postorder = u.postorder ↔ t = u := by
  refine ⟨fun h => ?_, fun h => congrArg postorder h⟩
  -- reading a postorder back gives its tree
  have hu := foldlM_push?_self u
  rw [← h, foldlM_push?_self t] at hu
  exact List.head_eq_of_cons_eq (Option.some.inj hu)

theorem joined_cons (t : Expression) (forest : List Expression) :
    joined (t :: forest) = joined forest ++ t.postorder := by
  simp only [joined, List.reverse_cons, List.flatMap_append, List.flatMap_singleton]

theorem joined_of_push? {forest forest' : List Expression} {t : Token}
    (h : push? forest t = some forest') : joined forest' = joined forest ++ [t] := by
  unfold push? at h
  split at h
  · rw [← Option.some.inj h, joined_cons, postorder]
  · rw [← Option.some.inj h, joined_cons, joined_cons, postorder, List.append_assoc]
  · rw [← Option.some.inj h]
    simp only [joined_cons, postorder, List.append_assoc]
  · exact absurd h (Option.some_ne_none _).symm

theorem joined_of_foldlM {forest forest' : List Expression} {ts : List Token}
    (h : ts.foldlM push? forest = some forest') : joined forest' = joined forest ++ ts := by
  induction ts generalizing forest with
  | nil => rw [List.append_nil, Option.some.inj h]
  | cons t ts ih =>
    rw [List.foldlM_cons] at h
    obtain ⟨middle, hm, h⟩ := Option.bind_eq_some_iff.1 h
    rw [ih h, joined_of_push? hm, List.append_assoc, List.singleton_append]

theorem foldlM_push?_eq_some_iff {ts : List Token} {t : Expression} :
    ts.foldlM push? [] = some [t] ↔ t.postorder = ts := by
  refine ⟨fun h => ?_, fun h => h ▸ foldlM_push?_self t⟩
  have hj := joined_of_foldlM h
  rw [joined_cons] at hj
  exact hj

end Expression

end DeskCalculator
