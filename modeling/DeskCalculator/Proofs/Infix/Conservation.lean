import DeskCalculator.Postfix.Conversion
import DeskCalculator.Proofs.Outcome

/-!
The converter keeps what it reads. Tokens leave the stack from its top and in its order, and those
that go out are the tokens of the text without its parentheses, rearranged; only operators wait on
the stack, so the numbers among them keep their order.
-/
namespace DeskCalculator

namespace Token

def literal? : Token → Option Literal
  | number l => some l
  | _ => none

def operator? : Token → Option Operator
  | operator op => some op
  | _ => none

end Token

namespace Postfix

theorem release_append (next : Operator) (stack : List Token) :
    (release next stack).1 ++ (release next stack).2 = stack := by
  fun_induction release next stack with
  | case1 waiting stack h ih => exact congrArg (Token.operator waiting :: ·) ih
  | case2 | case3 => rfl

theorem isParen_of_mem_release {next : Operator} {stack : List Token} {t : Token}
    (h : t ∈ (release next stack).1) : t.isParen = false := by
  fun_induction release next stack with
  | case1 waiting stack hgoes ih =>
    rcases List.mem_cons.1 h with rfl | h
    · rfl
    · exact ih h
  | case2 | case3 => cases h

theorem closeGroup_eq_ok {stack group below : List Token}
    (h : closeGroup stack = .ok (group, below)) :
    stack = group ++ .lparen :: below ∧ ∀ t ∈ group, t.isParen = false := by
  fun_induction closeGroup stack generalizing group with
  | case1 | case3 => cases h
  | case2 stack =>
    obtain ⟨rfl, rfl⟩ := Prod.mk.inj (Except.ok.inj h)
    exact ⟨rfl, fun t ht => by cases ht⟩
  | case4 t stack hopen hclose ih =>
    obtain ⟨r, hrest, hr⟩ := map_eq_ok.1 h
    obtain ⟨rfl, rfl⟩ := Prod.mk.inj hr
    obtain ⟨rfl, hgroup⟩ := ih hrest
    refine ⟨rfl, List.forall_mem_cons.2 ⟨?_, hgroup⟩⟩
    cases t with
    | number l | operator op => rfl
    | lparen => exact absurd rfl hopen
    | rparen => exact absurd rfl hclose

theorem drain_eq_ok {stack out : List Token} (h : drain stack = .ok out) :
    stack = out ∧ ∀ t ∈ out, t.isParen = false := by
  fun_induction drain stack generalizing out with
  | case1 =>
    obtain rfl := Except.ok.inj h
    exact ⟨rfl, fun t ht => by cases ht⟩
  | case2 => cases h
  | case3 t stack ht ih =>
    obtain ⟨rest, hrest, rfl⟩ := map_eq_ok.1 h
    obtain ⟨rfl, hout⟩ := ih hrest
    exact ⟨rfl, List.forall_mem_cons.2 ⟨Bool.eq_false_iff.2 ht, hout⟩⟩

def unparenthesized (ts : List Token) : List Token :=
  ts.filter fun t => !t.isParen

theorem unparenthesized_append (as bs : List Token) :
    unparenthesized (as ++ bs) = unparenthesized as ++ unparenthesized bs :=
  List.filter_append as bs

theorem unparenthesized_eq_self {ts : List Token} (h : ∀ t ∈ ts, t.isParen = false) :
    unparenthesized ts = ts :=
  List.filter_eq_self.2 fun t ht => by rw [h t ht]; rfl

theorem convertFrom_perm {stack ts out : List Token} (h : convertFrom stack ts = .ok out) :
    out.Perm (unparenthesized (stack ++ ts)) := by
  fun_induction convertFrom stack ts generalizing out with
  | case1 stack =>
    obtain ⟨rfl, hout⟩ := drain_eq_ok h
    rw [List.append_nil, unparenthesized_eq_self hout]
  | case2 stack l ts ih =>
    obtain ⟨rest, hrest, rfl⟩ := map_eq_ok.1 h
    have hmid : unparenthesized (stack ++ .number l :: ts) =
        unparenthesized stack ++ .number l :: unparenthesized ts := unparenthesized_append _ _
    rw [hmid]
    refine .trans (.cons _ ?_) List.perm_middle.symm
    exact unparenthesized_append stack ts ▸ ih hrest
  | case3 stack op ts ih =>
    obtain ⟨rest, hrest, rfl⟩ := map_eq_ok.1 h
    have hstack : unparenthesized stack =
        (release op stack).1 ++ unparenthesized (release op stack).2 := by
      rw [← unparenthesized_eq_self fun t ht => isParen_of_mem_release ht,
        ← unparenthesized_append, release_append]
    have hmid : unparenthesized (stack ++ .operator op :: ts) =
        unparenthesized stack ++ .operator op :: unparenthesized ts := unparenthesized_append _ _
    rw [hmid, hstack, List.append_assoc]
    refine .append_left _ ((ih hrest).trans ?_)
    have hrest : unparenthesized (.operator op :: (release op stack).2 ++ ts) =
        .operator op :: (unparenthesized (release op stack).2 ++ unparenthesized ts) :=
      congrArg (Token.operator op :: ·) (unparenthesized_append _ _)
    rw [hrest]
    exact List.perm_middle.symm
  | case4 stack ts ih =>
    have hopen : unparenthesized (stack ++ .lparen :: ts) =
        unparenthesized stack ++ unparenthesized ts := unparenthesized_append _ _
    rw [hopen, ← unparenthesized_append]
    exact ih h
  | case5 stack ts fault hclose => cases h
  | case6 stack ts group below hclose ih =>
    obtain ⟨rest, hrest, rfl⟩ := map_eq_ok.1 h
    obtain ⟨rfl, hgroup⟩ := closeGroup_eq_ok hclose
    have hclosed : unparenthesized (group ++ .lparen :: below ++ .rparen :: ts) =
        group ++ unparenthesized (below ++ ts) := by
      simp only [unparenthesized_append, unparenthesized_eq_self hgroup, List.append_assoc]
      rfl
    rw [hclosed]
    exact (ih hrest).append_left group

theorem convert_perm {tokens out : List Token} (h : convert tokens = .ok out) :
    out.Perm (unparenthesized tokens) :=
  convertFrom_perm (mapError_eq_ok.1 h)

theorem countP_convert {tokens out : List Token} (h : convert tokens = .ok out) {p : Token → Bool}
    (hopen : p .lparen = false) (hclose : p .rparen = false) : out.countP p = tokens.countP p := by
  rw [(convert_perm h).countP_eq, unparenthesized, List.countP_filter]
  refine List.countP_congr fun t _ => ?_
  cases t with
  | number l | operator op => exact Bool.and_eq_true_iff.trans (and_iff_left rfl)
  | lparen => rw [hopen, Bool.false_and]
  | rparen => rw [hclose, Bool.false_and]

/-! ### Numbers and operators -/

theorem literals_convertFrom {stack ts out : List Token} (h : convertFrom stack ts = .ok out)
    (hstack : stack.filterMap Token.literal? = []) :
    out.filterMap Token.literal? = ts.filterMap Token.literal? := by
  fun_induction convertFrom stack ts generalizing out with
  | case1 stack =>
    obtain ⟨rfl, -⟩ := drain_eq_ok h
    exact hstack
  | case2 stack l ts ih =>
    obtain ⟨rest, hrest, rfl⟩ := map_eq_ok.1 h
    exact congrArg (l :: ·) (ih hrest hstack)
  | case3 stack op ts ih =>
    obtain ⟨rest, hrest, rfl⟩ := map_eq_ok.1 h
    rw [← release_append op stack, List.filterMap_append, List.append_eq_nil_iff] at hstack
    rw [List.filterMap_append, hstack.1, List.nil_append]
    exact ih hrest hstack.2
  | case4 stack ts ih => exact ih h hstack
  | case5 => cases h
  | case6 stack ts group below hclose ih =>
    obtain ⟨rest, hrest, rfl⟩ := map_eq_ok.1 h
    obtain ⟨rfl, -⟩ := closeGroup_eq_ok hclose
    rw [List.filterMap_append, List.append_eq_nil_iff] at hstack
    rw [List.filterMap_append, hstack.1, List.nil_append]
    exact ih hrest hstack.2

theorem operators_unparenthesized (ts : List Token) :
    (unparenthesized ts).filterMap Token.operator? = ts.filterMap Token.operator? := by
  rw [unparenthesized, List.filterMap_filter]
  refine List.filterMap_congr fun t _ => ?_
  cases t <;> rfl

theorem length_unparenthesized (ts : List Token) :
    (unparenthesized ts).length + ts.countP Token.isParen = ts.length := by
  rw [unparenthesized, ← List.countP_eq_length_filter, Nat.add_comm,
    List.length_eq_countP_add_countP Token.isParen]
  simp only [Bool.not_eq_true, Bool.decide_eq_false]

/-- Whatever the tokens, if they convert then no parenthesis goes out, the numbers go out in their
order, the operators go out rearranged, and nothing else does. -/
theorem convert_conserves {tokens out : List Token} (h : convert tokens = .ok out) :
    (∀ t ∈ out, t.isParen = false) ∧
    out.filterMap Token.literal? = tokens.filterMap Token.literal? ∧
    (out.filterMap Token.operator?).Perm (tokens.filterMap Token.operator?) ∧
    out.length + tokens.countP Token.isParen = tokens.length := by
  have hperm := convert_perm h
  refine ⟨fun t ht => ?_, literals_convertFrom (mapError_eq_ok.1 h) rfl, ?_, ?_⟩
  · have hkept := (List.mem_filter.1 (hperm.subset ht)).2
    rwa [Bool.not_eq_true'] at hkept
  · rw [← operators_unparenthesized tokens]
    exact hperm.filterMap _
  · rw [hperm.length_eq, length_unparenthesized]

theorem convert_conserves_malformed :
    convert [.number ⟨1, "1"⟩, .number ⟨2, "2"⟩, .operator (.binary .subtract), .lparen,
        .operator (.binary .power), .rparen] =
      .ok [.number ⟨1, "1"⟩, .number ⟨2, "2"⟩, .operator (.binary .power),
        .operator (.binary .subtract)] ∧
    [Operator.binary .power, .binary .subtract].Perm [.binary .subtract, .binary .power] := by
  have h : convert [.number ⟨1, "1"⟩, .number ⟨2, "2"⟩, .operator (.binary .subtract), .lparen,
        .operator (.binary .power), .rparen] =
      .ok [.number ⟨1, "1"⟩, .number ⟨2, "2"⟩, .operator (.binary .power),
        .operator (.binary .subtract)] := rfl
  exact ⟨h, (convert_conserves h).2.2.1⟩

end Postfix

end DeskCalculator
