import Mathlib.Data.List.Basic
import Mathlib.Data.Option.Basic

/-! # Trees of binary operators

Operands are put to the right end of a tree one after the other; an operator takes as its left operand
what is at the end and binds at least as tight.
-/
namespace Edelib.Foundation

inductive OperatorTree (O α : Type)
  | leaf (a : α)
  | node (o : O) (left right : OperatorTree O α)

namespace OperatorTree
variable {O α β V : Type}

def operators : OperatorTree O α → List O
  | leaf _ => []
  | node o left right => left.operators ++ o :: right.operators

/-- What is written in order, with `operand` and `operator` as the texts of the two. -/
def inorder (operand : α → List β) (operator : O → β) : OperatorTree O α → List β
  | leaf a => operand a
  | node o left right => left.inorder operand operator ++ operator o :: right.inorder operand operator

def eval (apply : O → V → V → Option V) (val : α → Option V) : OperatorTree O α → Option V
  | leaf a => val a
  | node o left right => (left.eval apply val).bind (fun x => (right.eval apply val).bind (apply o x))

def attach (level : O → ℕ) (t : OperatorTree O α) (o : O) (a : α) : OperatorTree O α :=
  match t with
  | leaf b => node o (leaf b) (leaf a)
  | node p left right =>
    if level p < level o then node p left (attach level right o a)
    else node o (node p left right) (leaf a)

/-- What is below an operator on the left binds at least as tight, and what is on the right tighter. -/
def Grouped (level : O → ℕ) : OperatorTree O α → Prop
  | leaf _ => True
  | node o left right => (∀ p ∈ left.operators, level o ≤ level p) ∧ (∀ p ∈ right.operators, level o < level p) ∧
      left.Grouped level ∧ right.Grouped level

variable {level : O → ℕ} {t : OperatorTree O α} {o : O} {a : α}

theorem inorder_attach (operand : α → List β) (operator : O → β) :
    (t.attach level o a).inorder operand operator = t.inorder operand operator ++ operator o :: operand a := by
  induction t with
  | leaf b => rfl
  | node p left right _ ih =>
    rw [attach]
    split_ifs
    · rw [inorder,ih,inorder,List.append_assoc]
      rfl
    · rfl

theorem operators_attach : (t.attach level o a).operators = t.operators ++ [o] := by
  induction t with
  | leaf b => rfl
  | node p left right _ ih =>
    rw [attach]
    split_ifs
    · rw [operators,ih,operators,List.append_assoc]
      rfl
    · rfl

theorem Grouped.attach (h : t.Grouped level) (o : O) (a : α) : (t.attach level o a).Grouped level := by
  induction t with
  | leaf b =>
    exact ⟨fun p hp => absurd hp List.not_mem_nil,fun p hp => absurd hp List.not_mem_nil,trivial,trivial⟩
  | node p left right _ ih =>
    obtain ⟨hleft,hright,hgleft,hgright⟩ := h
    rw [OperatorTree.attach]
    split_ifs with hlevel
    · refine ⟨hleft,fun q hq => ?_,hgleft,ih hgright⟩
      rw [operators_attach] at hq
      rcases List.mem_append.mp hq with hq | hq
      · exact hright q hq
      · rwa [List.mem_singleton.mp hq]
    · refine ⟨fun q hq => ?_,fun q hq => absurd hq List.not_mem_nil,⟨hleft,hright,hgleft,hgright⟩,trivial⟩
      have hle : level o ≤ level p := Nat.le_of_not_lt hlevel
      rcases List.mem_append.mp hq with hq | hq
      · exact Nat.le_trans hle (hleft q hq)
      · rcases List.mem_cons.mp hq with rfl | hq
        · exact hle
        · exact Nat.le_trans hle (Nat.le_of_lt (hright q hq))

/-- An operator that binds no tighter than any becomes the root. -/
theorem attach_of_le (h : ∀ p ∈ t.operators, level o ≤ level p) : t.attach level o a = node o t (leaf a) := by
  cases t with
  | leaf b => rfl
  | node p left right =>
    have hp : level o ≤ level p := h p (List.mem_append_right _ List.mem_cons_self)
    rw [attach,if_neg (Nat.not_lt.mpr hp)]

variable {apply : O → V → V → Option V} {val : α → Option V}

theorem eval_node {left right : OperatorTree O α} {x y : V} (hleft : left.eval apply val = some x)
    (hright : right.eval apply val = some y) : (node o left right).eval apply val = apply o x y := by
  rw [eval,hleft,hright]
  rfl

/-- An operand that changes nothing may be put to the end. -/
theorem eval_attach_neutral {e : V} (ha : val a = some e) (he : ∀ x, apply o x e = some x) :
    (t.attach level o a).eval apply val = t.eval apply val := by
  have hlast : ∀ s : OperatorTree O α, (node o s (leaf a)).eval apply val = s.eval apply val := by
    intro s
    rw [eval,eval,ha]
    simp only [Option.bind_some,he]
    exact Option.bind_fun_some _
  induction t with
  | leaf b => exact hlast _
  | node p left right _ ih =>
    rw [attach]
    split_ifs
    · rw [eval,ih,eval]
    · exact hlast _

end OperatorTree
end Edelib.Foundation
