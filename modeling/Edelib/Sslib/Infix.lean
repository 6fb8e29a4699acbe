import Edelib.Foundation.OperatorTree
import Mathlib.Data.Rat.Defs
import Mathlib.Algebra.Field.Rat
import Mathlib.Tactic.LinearCombination

/-! # Infix expressions

A list is split at the last of its operators with the lowest precedence, and so are the two parts. In the
table `*` binds tighter than `/`.
-/
namespace Edelib.Infix
open Foundation

/-! ## The functions -/

inductive Datum
  | number (q : ℚ)
  | symbol (s : String)
  | list (lst : List Datum)

def take {α : Type} : ℕ → List α → List α
  | _, [] => []
  | 0, _ => []
  | n + 1, x :: lst => x :: take n lst

def drop {α : Type} : ℕ → List α → List α
  | _, [] => []
  | 0, lst => lst
  | n + 1, _ :: lst => drop n lst

def splitAt {α : Type} (n : ℕ) (lst : List α) : List α × List α := (take n lst,drop n lst)

/-- `*edelib-scheme-precedence-table*` -/
def precedenceTable : List (String × ℕ) :=
  [("||",10),("&&",20),("==",30),("=",30),("!=",30),("<",40),(">",40),("<=",40),(">=",40),("-",50),("+",50),("/",60),
    ("*",70),("mod",80)]

/-- `*edelib-scheme-precedence-table-max*` -/
def precedenceTableMax : ℕ := 80

def precedence : Datum → Option ℕ
  | .symbol s => precedenceTable.lookup s
  | _ => none

def lowestLoop (i : ℕ) : List Datum → Option ℕ → ℕ → Option ℕ
  | [], lowestI, _ => lowestI
  | key :: lst, lowestI, lowestPrec =>
    match precedence key with
    | some prec =>
      if prec ≤ lowestPrec then lowestLoop (i + 1) lst (some i) prec else lowestLoop (i + 1) lst lowestI lowestPrec
    | none => lowestLoop (i + 1) lst lowestI lowestPrec

def findLowestPrecedence (lst : List Datum) : Option ℕ := lowestLoop 0 lst none precedenceTableMax

theorem take_eq {α : Type} (n : ℕ) (lst : List α) : take n lst = lst.take n := by
  induction lst generalizing n with
  | nil => cases n <;> rfl
  | cons x lst ih =>
    cases n with
    | zero => rfl
    | succ n => rw [take,ih,List.take_succ_cons]

theorem drop_eq {α : Type} (n : ℕ) (lst : List α) : drop n lst = lst.drop n := by
  induction lst generalizing n with
  | nil => cases n <;> rfl
  | cons x lst ih =>
    cases n with
    | zero => rfl
    | succ n => rw [drop,ih,List.drop_succ_cons]

theorem lowestLoop_lt {i : ℕ} {lst : List Datum} {lowestI : Option ℕ} {lowestPrec lowest : ℕ}
    (hi : ∀ j, lowestI = some j → j < i) (h : lowestLoop i lst lowestI lowestPrec = some lowest) :
    lowest < i + lst.length := by
  induction lst generalizing i lowestI lowestPrec with
  | nil => exact hi lowest h
  | cons key lst ih =>
    have hnext : ∀ j, lowestI = some j → j < i + 1 := fun j hj => (hi j hj).trans (Nat.lt_succ_self i)
    have hhere : ∀ j, some i = some j → j < i + 1 := fun j hj => by
      cases hj
      exact Nat.lt_succ_self i
    rw [List.length_cons,Nat.add_comm lst.length,← Nat.add_assoc]
    rw [lowestLoop] at h
    split at h
    · split_ifs at h
      · exact ih hhere h
      · exact ih hnext h
    · exact ih hnext h

theorem findLowestPrecedence_lt {lst : List Datum} {lowest : ℕ} (h : findLowestPrecedence lst = some lowest) :
    lowest < lst.length := by
  have hlt := lowestLoop_lt (fun j hj => by cases hj) h
  rwa [Nat.zero_add] at hlt

/-- The list goes on at an index that was found. -/
theorem splitAt_ne_nil {lst : List Datum} {lowest : ℕ} (h : findLowestPrecedence lst = some lowest) :
    (splitAt lowest lst).2 ≠ [] := by
  rw [splitAt,drop_eq]
  exact List.ne_nil_of_length_pos (by rw [List.length_drop]; have := findLowestPrecedence_lt h; omega)

theorem sizeOf_take_lt {lst : List Datum} {n : ℕ} (h : n < lst.length) : sizeOf (take n lst) < sizeOf lst := by
  induction lst generalizing n with
  | nil => exact absurd h (Nat.not_lt_zero _)
  | cons x lst ih =>
    cases n with
    | zero =>
      have hpos : 0 < sizeOf lst := by cases lst <;> simp
      simp only [take,List.nil.sizeOf_spec,List.cons.sizeOf_spec]
      omega
    | succ n =>
      have := ih (Nat.lt_of_succ_lt_succ h)
      simp only [take,List.cons.sizeOf_spec]
      omega

theorem sizeOf_drop_le (lst : List Datum) (n : ℕ) : sizeOf (drop n lst) ≤ sizeOf lst := by
  induction lst generalizing n with
  | nil => cases n <;> exact Nat.le_refl _
  | cons x lst ih =>
    cases n with
    | zero => exact Nat.le_refl _
    | succ n =>
      have := ih n
      simp only [drop,List.cons.sizeOf_spec]
      omega

def infixToPrefix (d : Datum) : Datum :=
  match d with
  | .list [x] => infixToPrefix x
  | .list lst =>
    match hlowest : findLowestPrecedence lst with
    | some lowest =>
      match htl : (splitAt lowest lst).2 with
      | op :: tl => .list [op,infixToPrefix (.list (splitAt lowest lst).1),infixToPrefix (.list tl)]
      | [] => absurd htl (splitAt_ne_nil hlowest)
    | none => .list lst
  | d => d
termination_by sizeOf d
decreasing_by
  · simp
    omega
  · have := sizeOf_take_lt (findLowestPrecedence_lt hlowest)
    simp [splitAt]
    omega
  · have hle := sizeOf_drop_le lst lowest
    rw [show drop lowest lst = op :: tl from htl,List.cons.sizeOf_spec] at hle
    simp
    omega

@[simp] theorem infixToPrefix_number (q : ℚ) : infixToPrefix (.number q) = .number q := by
  rw [infixToPrefix] <;> rintro _ ⟨⟩

@[simp] theorem infixToPrefix_symbol (s : String) : infixToPrefix (.symbol s) = .symbol s := by
  rw [infixToPrefix] <;> rintro _ ⟨⟩

/-! ## What is written and what it means -/

inductive Op
  | add | sub | mul | div
deriving DecidableEq

namespace Op

def name : Op → String
  | add => "+"
  | sub => "-"
  | mul => "*"
  | div => "/"

def ofName (s : String) : Option Op := [add,sub,mul,div].find? (fun o => o.name == s)

def apply : Op → ℚ → ℚ → Option ℚ
  | add, x, y => some (x + y)
  | sub, x, y => some (x - y)
  | mul, x, y => some (x * y)
  | div, x, y => if y = 0 then none else some (x / y)

end Op

-- a variable is not called as an operator
mutual
inductive Operand
  | number (q : ℚ)
  | var (name : String) (h : precedenceTable.lookup name = none)
  | list (l : Expr)
inductive Expr
  | one (x : Operand)
  | more (l : Expr) (o : Op) (x : Operand)
end

mutual
def Operand.datum : Operand → Datum
  | .number q => .number q
  | .var name _ => .symbol name
  | .list l => .list l.data
def Expr.data : Expr → List Datum
  | .one x => [x.datum]
  | .more l o x => l.data ++ [.symbol o.name,x.datum]
end

structure Terms where
  sum : ℚ
  last : ℚ

def Terms.total (m : Terms) : ℚ := m.sum + m.last

/-- `+` and `-` begin a term, `*` and `/` go on with the last one. -/
def Terms.next (m : Terms) : Op → ℚ → Option Terms
  | .add, x => some ⟨m.total,x⟩
  | .sub, x => some ⟨m.total,-x⟩
  | .mul, x => some ⟨m.sum,m.last * x⟩
  | .div, x => if x = 0 then none else some ⟨m.sum,m.last / x⟩

-- without a value where there is a division by zero
mutual
def Operand.value (ρ : String → ℚ) : Operand → Option ℚ
  | .number q => some q
  | .var name _ => some (ρ name)
  | .list l => (l.terms ρ).map Terms.total
def Expr.terms (ρ : String → ℚ) : Expr → Option Terms
  | .one x => (x.value ρ).map (fun q => ⟨0,q⟩)
  | .more l o x => (l.terms ρ).bind (fun m => (x.value ρ).bind (m.next o))
end

def Expr.value (ρ : String → ℚ) (l : Expr) : Option ℚ := (l.terms ρ).map Terms.total

def evalPrefix (ρ : String → ℚ) : Datum → Option ℚ
  | .number q => some q
  | .symbol s => some (ρ s)
  | .list [.symbol s,x,y] =>
    (Op.ofName s).bind (fun o => (evalPrefix ρ x).bind (fun a => (evalPrefix ρ y).bind (o.apply a)))
  | .list _ => none

-- numbers, variables and operators as they are written
mutual
def Operand.sequence : Operand → List Datum
  | .number q => [.number q]
  | .var name _ => [.symbol name]
  | .list l => l.sequence
def Expr.sequence : Expr → List Datum
  | .one x => x.sequence
  | .more l o x => l.sequence ++ .symbol o.name :: x.sequence
end

def Datum.inorder : Datum → List Datum
  | .list [op,x,y] => x.inorder ++ op :: y.inorder
  | d => [d]

structure KeepsMeaning (l : Expr) : Prop where
  inorder : (infixToPrefix (.list l.data)).inorder = l.sequence
  value : ∀ ρ v, l.value ρ = some v → evalPrefix ρ (infixToPrefix (.list l.data)) = some v

-- the form of a list: how it is nested, and the operators
mutual
def Operand.form : Operand → Operand
  | .number _ => .number 0
  | .var _ _ => .number 0
  | .list l => .list l.form
def Expr.form : Expr → Expr
  | .one x => .one x.form
  | .more l o x => .more l.form o x.form
end

/-- There is a `/` in the last term. -/
def Expr.Divided : Expr → Prop
  | .one _ => False
  | .more _ .add _ => False
  | .more _ .sub _ => False
  | .more l .mul _ => l.Divided
  | .more _ .div _ => True

-- no `*` comes after a `/` in one term, also of the lists inside
mutual
def Operand.NoTimesAfterDivision : Operand → Prop
  | .number _ => True
  | .var _ _ => True
  | .list l => l.NoTimesAfterDivision
def Expr.NoTimesAfterDivision : Expr → Prop
  | .one x => x.NoTimesAfterDivision
  | .more l o x => l.NoTimesAfterDivision ∧ x.NoTimesAfterDivision ∧ (o = .mul → ¬ l.Divided)
end

/-! ## The tree of a list -/

namespace Op

def prec : Op → ℕ
  | add => 50
  | sub => 50
  | mul => 70
  | div => 60

theorem precedence_name (o : Op) : precedence (.symbol o.name) = some o.prec := by
  cases o <;> decide

theorem ofName_name (o : Op) : ofName o.name = some o := by
  cases o <;> decide

end Op

abbrev Tree := OperatorTree Op Operand

def Expr.tree : Expr → Tree
  | .one x => .leaf x
  | .more l o x => l.tree.attach Op.prec o x

def infixOf (t : Tree) : List Datum := t.inorder (fun x => [x.datum]) (fun o => .symbol o.name)

def prefixOf : Tree → Datum
  | .leaf x => infixToPrefix x.datum
  | .node o left right => .list [.symbol o.name,prefixOf left,prefixOf right]

/-- Induction over operands and lists at once. -/
theorem induction_nested {P : Operand → Prop} {Q : Expr → Prop} (number : ∀ q, P (.number q))
    (var : ∀ name h, P (.var name h)) (list : ∀ l, Q l → P (.list l)) (one : ∀ x, P x → Q (.one x))
    (more : ∀ l o x, Q l → P x → Q (.more l o x)) : (∀ x, P x) ∧ ∀ l, Q l :=
  ⟨fun x => Operand.rec number var list one more x,fun l => Expr.rec number var list one more l⟩

theorem infixOf_tree (l : Expr) : infixOf l.tree = l.data := by
  refine (induction_nested (P := fun _ => True) (Q := fun l => infixOf l.tree = l.data) (fun _ => trivial)
    (fun _ _ => trivial) (fun _ _ => trivial) (fun x _ => rfl) (fun l o x ih _ => ?_)).2 l
  rw [Expr.tree,infixOf,OperatorTree.inorder_attach,← infixOf,ih,Expr.data]

theorem grouped_tree (l : Expr) : l.tree.Grouped Op.prec := by
  refine (induction_nested (P := fun _ => True) (Q := fun l => l.tree.Grouped Op.prec) (fun _ => trivial)
    (fun _ _ => trivial) (fun _ _ => trivial) (fun x _ => trivial) (fun l o x ih _ => ?_)).2 l
  exact ih.attach o x

theorem precedence_datum (x : Operand) : precedence x.datum = none := by
  cases x with
  | number q => rfl
  | var name h => exact h
  | list l => rfl

/-- What has a level in the list of a tree is one of its operators. -/
theorem mem_operators {t : Tree} {z : Datum} {p : ℕ} (hz : z ∈ infixOf t) (hp : precedence z = some p) :
    ∃ o ∈ t.operators, o.prec = p := by
  induction t with
  | leaf x =>
    cases List.mem_singleton.mp hz
    rw [precedence_datum] at hp
    cases hp
  | node o left right ihleft ihright =>
    rcases List.mem_append.mp hz with hz | hz
    · obtain ⟨q,hq,hqp⟩ := ihleft hz
      exact ⟨q,List.mem_append_left _ hq,hqp⟩
    · rcases List.mem_cons.mp hz with rfl | hz
      · rw [Op.precedence_name] at hp
        exact ⟨o,List.mem_append_right _ List.mem_cons_self,Option.some.inj hp⟩
      · obtain ⟨q,hq,hqp⟩ := ihright hz
        exact ⟨q,List.mem_append_right _ (List.mem_cons_of_mem _ hq),hqp⟩

/-! ## The search for the lowest -/

variable {i lowestPrec : ℕ} {lowestI : Option ℕ}

theorem lowestLoop_eq_self {zs : List Datum} (hzs : ∀ z ∈ zs, ∀ p, precedence z = some p → lowestPrec < p) :
    lowestLoop i zs lowestI lowestPrec = lowestI := by
  induction zs generalizing i with
  | nil => rfl
  | cons z zs ih =>
    obtain ⟨hz,hzs⟩ := List.forall_mem_cons.mp hzs
    rw [lowestLoop]
    split
    · rename_i p hp
      rw [if_neg (Nat.not_le.mpr (hz p hp)),ih hzs]
    · exact ih hzs

/-- The last of the lowest is found. -/
theorem lowestLoop_eq_some {xs zs : List Datum} {y : Datum} {p : ℕ} (hy : precedence y = some p)
    (hxs : ∀ x ∈ xs, ∀ q, precedence x = some q → p ≤ q) (hzs : ∀ z ∈ zs, ∀ q, precedence z = some q → p < q)
    (hp : p ≤ lowestPrec) : lowestLoop i (xs ++ y :: zs) lowestI lowestPrec = some (i + xs.length) := by
  induction xs generalizing i lowestI lowestPrec with
  | nil =>
    rw [List.nil_append,lowestLoop,hy]
    dsimp only
    rw [if_pos hp,lowestLoop_eq_self hzs]
    rfl
  | cons x xs ih =>
    obtain ⟨hx,hxs⟩ := List.forall_mem_cons.mp hxs
    have hlen : i + (x :: xs).length = i + 1 + xs.length := by
      rw [List.length_cons]
      omega
    rw [List.cons_append,lowestLoop,hlen]
    split
    · rename_i q hq
      split_ifs
      · exact ih hxs (hx q hq)
      · exact ih hxs hp
    · exact ih hxs hp

theorem infixToPrefix_split {hd tl : List Datum} {op : Datum} (hhd : hd ≠ [])
    (hlowest : findLowestPrecedence (hd ++ op :: tl) = some hd.length) :
    infixToPrefix (.list (hd ++ op :: tl)) = .list [op,infixToPrefix (.list hd),infixToPrefix (.list tl)] := by
  have hlen : 0 < hd.length := List.length_pos_iff.mpr hhd
  have hlong : ∀ x, hd ++ op :: tl ≠ [x] := by
    intro x hx
    have := congrArg List.length hx
    rw [List.length_append,List.length_cons,List.length_singleton] at this
    omega
  have hsplit : splitAt hd.length (hd ++ op :: tl) = (hd,op :: tl) := by
    rw [splitAt,take_eq,drop_eq,List.take_left,List.drop_left]
  rw [infixToPrefix]
  · split
    · rename_i lowest hlowest'
      cases hlowest.symm.trans hlowest'
      split
      · rename_i op' tl' htl
        rw [hsplit] at htl ⊢
        cases htl
        rfl
      · rename_i htl
        rw [hsplit] at htl
        cases htl
    · rename_i hnone
      rw [hlowest] at hnone
      cases hnone
  · exact hlong

/-- The list of a tree is split at the root. -/
theorem infixToPrefix_infixOf {t : Tree} (h : t.Grouped Op.prec) : infixToPrefix (.list (infixOf t)) = prefixOf t := by
  induction t with
  | leaf x =>
    change infixToPrefix (.list [x.datum]) = _
    rw [infixToPrefix]
    rfl
  | node o left right ihleft ihright =>
    obtain ⟨hleft,hright,hgleft,hgright⟩ := h
    have hne : infixOf left ≠ [] := by
      cases left with
      | leaf x => exact List.cons_ne_nil _ _
      | node p l r => exact List.append_ne_nil_of_right_ne_nil _ (List.cons_ne_nil _ _)
    have hlowest : findLowestPrecedence (infixOf left ++ .symbol o.name :: infixOf right) = some (infixOf left).length := by
      have hmax : o.prec ≤ precedenceTableMax := by cases o <;> decide
      rw [findLowestPrecedence,lowestLoop_eq_some o.precedence_name _ _ hmax,Nat.zero_add]
      · intro x hx q hq
        obtain ⟨p,hp,rfl⟩ := mem_operators hx hq
        exact hleft p hp
      · intro x hx q hq
        obtain ⟨p,hp,rfl⟩ := mem_operators hx hq
        exact hright p hp
    have hsplit := infixToPrefix_split hne hlowest
    rwa [ihleft hgleft,ihright hgright] at hsplit

theorem infixToPrefix_data (l : Expr) : infixToPrefix (.list l.data) = prefixOf l.tree := by
  rw [← infixOf_tree,infixToPrefix_infixOf (grouped_tree l)]

theorem inorder_prefixOf (t : Tree) :
    (prefixOf t).inorder = t.inorder (fun x => (infixToPrefix x.datum).inorder) (fun o => .symbol o.name) := by
  induction t with
  | leaf x => rfl
  | node o left right ihleft ihright => rw [prefixOf,Datum.inorder,ihleft,ihright,OperatorTree.inorder]

theorem inorder_infixToPrefix (l : Expr) : (infixToPrefix (.list l.data)).inorder = l.sequence := by
  have hboth := induction_nested (P := fun x => (infixToPrefix x.datum).inorder = x.sequence)
    (Q := fun l => l.tree.inorder (fun x => (infixToPrefix x.datum).inorder) (fun o => .symbol o.name) = l.sequence)
    (fun q => by rw [Operand.datum,infixToPrefix_number]; rfl)
    (fun name h => by rw [Operand.datum,infixToPrefix_symbol]; rfl)
    (fun l ih => by rw [Operand.datum,infixToPrefix_data,inorder_prefixOf,ih]; rfl)
    (fun x ih => ih)
    (fun l o x ihl ihx => by rw [Expr.tree,OperatorTree.inorder_attach,ihl,ihx]; rfl)
  rw [infixToPrefix_data,inorder_prefixOf,hboth.2 l]

/-! ## Values of the translation -/

variable {ρ : String → ℚ}

def Operand.translated (ρ : String → ℚ) (x : Operand) : Option ℚ := evalPrefix ρ (infixToPrefix x.datum)

def valueOf (ρ : String → ℚ) (t : Tree) : Option ℚ := t.eval Op.apply (Operand.translated ρ)

theorem evalPrefix_prefixOf (t : Tree) : evalPrefix ρ (prefixOf t) = valueOf ρ t := by
  induction t with
  | leaf x => rfl
  | node o left right ihleft ihright =>
    rw [prefixOf,evalPrefix,Op.ofName_name,ihleft,ihright]
    rfl

theorem valueOf_leaf {x : Operand} : valueOf ρ (.leaf x) = x.translated ρ := rfl

theorem valueOf_node {o : Op} {left right : Tree} {a b : ℚ} (hleft : valueOf ρ left = some a)
    (hright : valueOf ρ right = some b) : valueOf ρ (.node o left right) = o.apply a b :=
  OperatorTree.eval_node hleft hright

/-- A term as it is grouped: what is multiplied, and from the last `/` on what it is divided by. -/
inductive Factors (ρ : String → ℚ) : Tree → ℚ → Option ℚ → Prop
  | product {t : Tree} {n : ℚ} (ht : valueOf ρ t = some n) (hops : ∀ o ∈ t.operators, o = .mul) : Factors ρ t n none
  | quotient {left right : Tree} {n d : ℚ} (hleft : valueOf ρ left = some n) (hright : valueOf ρ right = some d)
      (hd : d ≠ 0) (hlops : ∀ o ∈ left.operators, o = .mul ∨ o = .div) (hrops : ∀ o ∈ right.operators, o = .mul) :
      Factors ρ (.node .div left right) n (some d)

/-- A list as it is grouped: the sum of the terms before the last, and the last. -/
inductive Summands (ρ : String → ℚ) : Tree → ℚ → ℚ → Option ℚ → Prop
  | term {t : Tree} {n : ℚ} {d : Option ℚ} (ht : Factors ρ t n d) : Summands ρ t 0 n d
  | add {left right : Tree} {s n : ℚ} {d : Option ℚ} (hleft : valueOf ρ left = some s) (hright : Factors ρ right n d) :
      Summands ρ (.node .add left right) s n d
  | sub {left right : Tree} {s n : ℚ} {d : Option ℚ} (hleft : valueOf ρ left = some s) (hright : Factors ρ right n d) :
      Summands ρ (.node .sub left right) s (-n) d

variable {t : Tree} {s n q : ℚ} {d : Option ℚ} {x : Operand}

theorem Factors.value_eq (h : Factors ρ t n d) : valueOf ρ t = some (n / d.getD 1) := by
  cases h with
  | product ht _ => rw [ht,Option.getD_none,div_one]
  | quotient hleft hright hd _ _ =>
    rw [valueOf_node hleft hright]
    exact if_neg hd

theorem Factors.operators (h : Factors ρ t n d) : ∀ o ∈ t.operators, o = .mul ∨ o = .div := by
  intro o ho
  cases h with
  | product _ hops => exact .inl (hops o ho)
  | quotient _ _ _ hlops hrops =>
    rcases List.mem_append.mp ho with ho | ho
    · exact hlops o ho
    · rcases List.mem_cons.mp ho with rfl | ho
      · exact .inr rfl
      · exact .inl (hrops o ho)

/-- A divisor begins. -/
theorem Factors.attach_div (h : Factors ρ t n d) (hx : x.translated ρ = some q) (hq : q ≠ 0) :
    Factors ρ (t.attach Op.prec .div x) (n / d.getD 1) (some q) := by
  have hle : ∀ p ∈ t.operators, Op.prec .div ≤ Op.prec p := by
    intro p hp
    rcases h.operators p hp with rfl | rfl <;> decide
  rw [OperatorTree.attach_of_le hle]
  exact .quotient h.value_eq hx hq h.operators (fun o ho => absurd ho List.not_mem_nil)

theorem product_attach_mul (ht : valueOf ρ t = some n) (hops : ∀ o ∈ t.operators, o = .mul)
    (hx : x.translated ρ = some q) : valueOf ρ (t.attach Op.prec .mul x) = some (n * q) ∧
    ∀ o ∈ (t.attach Op.prec .mul x).operators, o = .mul := by
  have hle : ∀ p ∈ t.operators, Op.prec .mul ≤ Op.prec p := fun p hp => by rw [hops p hp]
  refine ⟨?_,fun o ho => ?_⟩
  · rw [OperatorTree.attach_of_le hle,valueOf_node ht (valueOf_leaf.trans hx)]
    rfl
  · rw [OperatorTree.operators_attach] at ho
    rcases List.mem_append.mp ho with ho | ho
    · exact hops o ho
    · exact List.mem_singleton.mp ho

/-- A `*` goes to the divisor, if there is one. -/
theorem Factors.attach_mul_some {e : ℚ} (h : Factors ρ t n (some e)) (hx : x.translated ρ = some q) (hq : q ≠ 0) :
    Factors ρ (t.attach Op.prec .mul x) n (some (e * q)) := by
  cases h with
  | quotient hleft hright hd hlops hrops =>
    obtain ⟨hvalue,hops⟩ := product_attach_mul hright hrops hx
    rw [OperatorTree.attach,if_pos (by decide)]
    exact .quotient hleft hvalue (mul_ne_zero hd hq) hlops hops

theorem Factors.attach_mul_none (h : Factors ρ t n none) (hx : x.translated ρ = some q) :
    Factors ρ (t.attach Op.prec .mul x) (n * q) none := by
  cases h with
  | product ht hops =>
    obtain ⟨hvalue,hops'⟩ := product_attach_mul ht hops hx
    exact .product hvalue hops'

theorem Summands.value_eq (h : Summands ρ t s n d) : valueOf ρ t = some (s + n / d.getD 1) := by
  cases h with
  | term ht => rw [ht.value_eq,zero_add]
  | add hleft hright =>
    rw [valueOf_node hleft hright.value_eq]
    rfl
  | sub hleft hright =>
    rw [valueOf_node hleft hright.value_eq,neg_div,← sub_eq_add_neg]
    rfl

/-- `+` and `-` are below no operator. -/
theorem attach_add_sub {o : Op} (ho : o = .add ∨ o = .sub) : t.attach Op.prec o x = .node o t (.leaf x) := by
  refine OperatorTree.attach_of_le (fun p _ => ?_)
  rcases ho with rfl | rfl <;> cases p <;> decide

theorem factors_leaf (hx : x.translated ρ = some q) : Factors ρ (.leaf x) q none :=
  .product hx (fun _ ho => absurd ho List.not_mem_nil)

theorem Summands.attach_add (h : Summands ρ t s n d) (hx : x.translated ρ = some q) :
    Summands ρ (t.attach Op.prec .add x) (s + n / d.getD 1) q none := by
  rw [attach_add_sub (.inl rfl)]
  exact .add h.value_eq (factors_leaf hx)

theorem Summands.attach_sub (h : Summands ρ t s n d) (hx : x.translated ρ = some q) :
    Summands ρ (t.attach Op.prec .sub x) (s + n / d.getD 1) (-q) none := by
  rw [attach_add_sub (.inr rfl)]
  exact .sub h.value_eq (factors_leaf hx)

theorem Summands.attach_div (h : Summands ρ t s n d) (hx : x.translated ρ = some q) (hq : q ≠ 0) :
    Summands ρ (t.attach Op.prec .div x) s (n / d.getD 1) (some q) := by
  cases h with
  | term ht => exact .term (ht.attach_div hx hq)
  | add hleft hright => exact .add hleft (hright.attach_div hx hq)
  | sub hleft hright =>
    rw [neg_div]
    exact .sub hleft (hright.attach_div hx hq)

theorem Summands.attach_mul_some {e : ℚ} (h : Summands ρ t s n (some e)) (hx : x.translated ρ = some q) (hq : q ≠ 0) :
    Summands ρ (t.attach Op.prec .mul x) s n (some (e * q)) := by
  cases h with
  | term ht => exact .term (ht.attach_mul_some hx hq)
  | add hleft hright => exact .add hleft (hright.attach_mul_some hx hq)
  | sub hleft hright => exact .sub hleft (hright.attach_mul_some hx hq)

theorem Summands.attach_mul_none (h : Summands ρ t s n none) (hx : x.translated ρ = some q) :
    Summands ρ (t.attach Op.prec .mul x) s (n * q) none := by
  cases h with
  | term ht => exact .term (ht.attach_mul_none hx)
  | add hleft hright => exact .add hleft (hright.attach_mul_none hx)
  | sub hleft hright =>
    rw [neg_mul]
    exact .sub hleft (hright.attach_mul_none hx)

/-! ## Where no `*` comes after a `/` -/

theorem terms_more {l : Expr} {o : Op} {m : Terms} (h : (l.more o x).terms ρ = some m) :
    ∃ m' q, l.terms ρ = some m' ∧ x.value ρ = some q ∧ m'.next o q = some m := by
  rw [Expr.terms,Option.bind_eq_some_iff] at h
  obtain ⟨m',hm',h⟩ := h
  obtain ⟨q,hq,h⟩ := Option.bind_eq_some_iff.mp h
  exact ⟨m',q,hm',hq,h⟩

/-- The list is grouped as it is read, if it is read like that up to an operand. -/
theorem summands_more {l : Expr} {o : Op} {m m' : Terms} (h : Summands ρ l.tree m.sum n d) (hlast : m.last = n / d.getD 1)
    (hdiv : ¬ l.Divided → d = none) (hx : x.translated ρ = some q) (ho : o = .mul → ¬ l.Divided)
    (hnext : m.next o q = some m') : ∃ n' d', Summands ρ (l.more o x).tree m'.sum n' d' ∧ m'.last = n' / d'.getD 1 ∧
      (¬ (l.more o x).Divided → d' = none) := by
  have htotal : m.total = m.sum + n / d.getD 1 := by rw [Terms.total,hlast]
  cases o with
  | add =>
    cases hnext
    rw [htotal]
    exact ⟨_,_,h.attach_add hx,by rw [Option.getD_none,div_one],fun _ => rfl⟩
  | sub =>
    cases hnext
    rw [htotal]
    exact ⟨_,_,h.attach_sub hx,by rw [Option.getD_none,div_one],fun _ => rfl⟩
  | mul =>
    cases hnext
    cases hdiv (ho rfl)
    exact ⟨_,_,h.attach_mul_none hx,by simp only [hlast,Option.getD_none,div_one],fun _ => rfl⟩
  | div =>
    by_cases hq : q = 0
    · rw [Terms.next,if_pos hq] at hnext
      cases hnext
    · rw [Terms.next,if_neg hq] at hnext
      cases hnext
      exact ⟨_,_,h.attach_div hx hq,by rw [hlast]; rfl,fun hno => absurd trivial hno⟩

theorem translated_eq_value :
    (∀ x : Operand, x.NoTimesAfterDivision → ∀ v, x.value ρ = some v → x.translated ρ = some v) ∧
    ∀ l : Expr, l.NoTimesAfterDivision → ∀ m, l.terms ρ = some m → ∃ n d, Summands ρ l.tree m.sum n d ∧
      m.last = n / d.getD 1 ∧ (¬ l.Divided → d = none) := by
  refine induction_nested ?_ ?_ ?_ ?_ ?_
  · intro q _ v hv
    rwa [Operand.translated,Operand.datum,infixToPrefix_number]
  · intro name h _ v hv
    rwa [Operand.translated,Operand.datum,infixToPrefix_symbol]
  · intro l ih h v hv
    obtain ⟨m,hm,rfl⟩ := Option.map_eq_some_iff.mp hv
    obtain ⟨n,d,hsummands,hlast,-⟩ := ih h m hm
    rw [Operand.translated,Operand.datum,infixToPrefix_data,evalPrefix_prefixOf,hsummands.value_eq,← hlast]
    rfl
  · intro x ih h m hm
    obtain ⟨q,hq,rfl⟩ := Option.map_eq_some_iff.mp hm
    exact ⟨q,none,.term (factors_leaf (ih h q hq)),by rw [Option.getD_none,div_one],fun _ => rfl⟩
  · intro l o x ihl ihx h m hm
    obtain ⟨hl,hx,ho⟩ := h
    obtain ⟨m',q,hm',hq,hnext⟩ := terms_more hm
    obtain ⟨n,d,hsummands,hlast,hdiv⟩ := ihl hl m' hm'
    exact summands_more hsummands hlast hdiv (ihx hx q hq) ho hnext

theorem keepsMeaning_of_noTimes {l : Expr} (h : l.NoTimesAfterDivision) : KeepsMeaning l :=
  ⟨inorder_infixToPrefix l,fun ρ v hv => (@translated_eq_value ρ).1 (.list l) h v hv⟩

/-! ## Where one does -/

def Op.neutral : Op → ℚ
  | add => 0
  | sub => 0
  | mul => 1
  | div => 1

theorem Op.apply_neutral (o : Op) (a : ℚ) : o.apply a o.neutral = some a := by
  cases o with
  | add => exact congrArg some (add_zero a)
  | sub => exact congrArg some (sub_zero a)
  | mul => exact congrArg some (mul_one a)
  | div =>
    change (if (1 : ℚ) = 0 then none else some (a / 1)) = some a
    rw [if_neg one_ne_zero,div_one]

theorem value_more_neutral {l : Expr} {o : Op} (hx : x.value ρ = some o.neutral) :
    (l.more o x).value ρ = l.value ρ := by
  rw [Expr.value,Expr.value,Expr.terms,hx]
  cases l.terms ρ with
  | none => rfl
  | some m =>
    simp only [Option.bind_some,Option.map_some]
    cases o with
    | add => exact congrArg some (add_zero m.total)
    | sub => exact congrArg some ((congrArg (m.total + ·) neg_zero).trans (add_zero m.total))
    | mul => exact congrArg (fun a => some (m.sum + a)) (mul_one m.last)
    | div =>
      change (if (1 : ℚ) = 0 then none else some (⟨m.sum,m.last / 1⟩ : Terms)).map Terms.total = some m.total
      rw [if_neg one_ne_zero,div_one]
      rfl

theorem valueOf_more_neutral {l : Expr} {o : Op} (hx : x.translated ρ = some o.neutral) :
    valueOf ρ (l.more o x).tree = valueOf ρ l.tree :=
  OperatorTree.eval_attach_neutral hx o.apply_neutral

theorem translated_number (q : ℚ) : (Operand.number q).translated ρ = some q := by
  rw [Operand.translated,Operand.datum,infixToPrefix_number]
  rfl

theorem translated_list (l : Expr) : (Operand.list l).translated ρ = valueOf ρ l.tree := by
  rw [Operand.translated,Operand.datum,infixToPrefix_data,evalPrefix_prefixOf]

/-- With other operands an operand or a list comes to any value. -/
theorem exists_value : (∀ x : Operand, ∀ v, ∃ x' : Operand, x'.form = x.form ∧
      ∀ ρ, x'.value ρ = some v ∧ x'.translated ρ = some v) ∧
    ∀ l : Expr, ∀ v, ∃ l' : Expr, l'.form = l.form ∧ ∀ ρ, l'.value ρ = some v ∧ valueOf ρ l'.tree = some v := by
  refine induction_nested ?_ ?_ ?_ ?_ ?_
  · exact fun q v => ⟨.number v,rfl,fun ρ => ⟨rfl,translated_number v⟩⟩
  · exact fun name h v => ⟨.number v,rfl,fun ρ => ⟨rfl,translated_number v⟩⟩
  · intro l ih v
    obtain ⟨l',hform,hl'⟩ := ih v
    exact ⟨.list l',congrArg Operand.list hform,fun ρ => ⟨(hl' ρ).1,(translated_list l').trans (hl' ρ).2⟩⟩
  · intro x ih v
    obtain ⟨x',hform,hx'⟩ := ih v
    refine ⟨.one x',congrArg Expr.one hform,fun ρ => ⟨?_,(hx' ρ).2⟩⟩
    rw [Expr.value,Expr.terms,(hx' ρ).1]
    exact congrArg some (zero_add v)
  · intro l o x ihl ihx v
    obtain ⟨l',hlform,hl'⟩ := ihl v
    obtain ⟨x',hxform,hx'⟩ := ihx o.neutral
    refine ⟨.more l' o x',by rw [Expr.form,hlform,hxform]; rfl,fun ρ => ⟨?_,?_⟩⟩
    · rw [value_more_neutral (hx' ρ).1,(hl' ρ).1]
    · rw [valueOf_more_neutral (hx' ρ).2,(hl' ρ).2]

theorem terms_of_value {l : Expr} {v : ℚ} (h : l.value ρ = some v) : ∃ m, l.terms ρ = some m ∧ m.total = v :=
  Option.map_eq_some_iff.mp h

theorem terms_more_eq {l : Expr} {o : Op} {m : Terms} (hl : l.terms ρ = some m) (hx : x.value ρ = some q) :
    (l.more o x).terms ρ = m.next o q := by
  rw [Expr.terms,hl,hx]
  rfl

/-- Put to a list without a value before it, an operand is the last term. -/
theorem summands_after_zero {l : Expr} (hl : l.value ρ = some 0) (htree : valueOf ρ l.tree = some 0)
    (hx : x.value ρ = some q) (hx' : x.translated ρ = some r) :
    ((l.more .add x).terms ρ = some ⟨0,q⟩ ∧ Summands ρ (l.more .add x).tree 0 r none) ∧
    (l.more .sub x).terms ρ = some ⟨0,-q⟩ ∧ Summands ρ (l.more .sub x).tree 0 (-r) none := by
  obtain ⟨m,hm,htotal⟩ := terms_of_value hl
  refine ⟨⟨?_,?_⟩,?_,?_⟩
  · rw [terms_more_eq hm hx,Terms.next,htotal]
  · rw [Expr.tree,attach_add_sub (.inl rfl)]
    exact .add htree (factors_leaf hx')
  · rw [terms_more_eq hm hx,Terms.next,htotal]
  · rw [Expr.tree,attach_add_sub (.inr rfl)]
    exact .sub htree (factors_leaf hx')

/-- With other operands nothing is before the last term, and what it is divided by is one. -/
structure IsUnit (l l' : Expr) (u : ℚ) (d : Option ℚ) : Prop where
  form : l'.form = l.form
  ne_zero : u ≠ 0
  divided : l.Divided → d = some 1
  undivided : ¬ l.Divided → d = none
  terms : ∀ ρ, l'.terms ρ = some ⟨0,u⟩
  summands : ∀ ρ, Summands ρ l'.tree 0 u d

theorem IsUnit.getD {l l' : Expr} {u : ℚ} {d : Option ℚ} (h : IsUnit l l' u d) : d.getD 1 = 1 := by
  by_cases hdiv : l.Divided
  · rw [h.divided hdiv]
    rfl
  · rw [h.undivided hdiv]
    rfl

theorem exists_unit (l : Expr) : ∃ l' u d, IsUnit l l' u d := by
  refine (induction_nested (P := fun _ => True) (Q := fun l => ∃ l' u d, IsUnit l l' u d) (fun _ => trivial)
    (fun _ _ => trivial) (fun _ _ => trivial) (fun x _ => ?_) (fun l o x ih _ => ?_)).2 l
  · obtain ⟨x',hform,hx'⟩ := exists_value.1 x 1
    refine ⟨.one x',1,none,congrArg Expr.one hform,one_ne_zero,fun h => h.elim,fun _ => rfl,fun ρ => ?_,fun ρ => ?_⟩
    · rw [Expr.terms,(hx' ρ).1]
      rfl
    · exact .term (factors_leaf (hx' ρ).2)
  · obtain ⟨x',hxform,hx'⟩ := exists_value.1 x 1
    obtain ⟨l₀,hlform,hl₀⟩ := exists_value.2 l 0
    obtain ⟨l',u,d,hunit⟩ := ih
    have hform₀ : (l₀.more o x').form = (l.more o x).form := by rw [Expr.form,hlform,hxform,Expr.form]
    have hform : (l'.more o x').form = (l.more o x).form := by rw [Expr.form,hunit.form,hxform,Expr.form]
    have hafter := fun ρ => summands_after_zero (hl₀ ρ).1 (hl₀ ρ).2 (hx' ρ).1 (hx' ρ).2
    cases o with
    | add =>
      exact ⟨_,1,none,hform₀,one_ne_zero,fun h => h.elim,fun _ => rfl,fun ρ => (hafter ρ).1.1,fun ρ => (hafter ρ).1.2⟩
    | sub =>
      exact ⟨_,-1,none,hform₀,neg_ne_zero.mpr one_ne_zero,fun h => h.elim,fun _ => rfl,fun ρ => (hafter ρ).2.1,
        fun ρ => (hafter ρ).2.2⟩
    | mul =>
      refine ⟨_,u,d,hform,hunit.ne_zero,hunit.divided,hunit.undivided,fun ρ => ?_,fun ρ => ?_⟩
      · rw [terms_more_eq (hunit.terms ρ) (hx' ρ).1,Terms.next,mul_one]
      · by_cases hdiv : l.Divided
        · have hsummands := hunit.summands ρ
          rw [hunit.divided hdiv] at hsummands ⊢
          have hmul := hsummands.attach_mul_some (hx' ρ).2 one_ne_zero
          rwa [mul_one] at hmul
        · have hsummands := hunit.summands ρ
          rw [hunit.undivided hdiv] at hsummands ⊢
          have hmul := hsummands.attach_mul_none (hx' ρ).2
          rwa [mul_one] at hmul
    | div =>
      refine ⟨_,u,some 1,hform,hunit.ne_zero,fun _ => rfl,fun hno => absurd trivial hno,fun ρ => ?_,fun ρ => ?_⟩
      · rw [terms_more_eq (hunit.terms ρ) (hx' ρ).1,Terms.next,if_neg one_ne_zero,div_one]
      · have hdivide := (hunit.summands ρ).attach_div (hx' ρ).2 one_ne_zero
        rwa [hunit.getD,div_one] at hdivide

structure Differs (l l' : Expr) (a b : ℚ) : Prop where
  form : l'.form = l.form
  ne_zero : a ≠ 0
  ne_zero' : b ≠ 0
  ne : a ≠ b
  value : ∀ ρ, l'.value ρ = some a
  translated : ∀ ρ, valueOf ρ l'.tree = some b

theorem value_of_terms {l : Expr} {u : ℚ} (h : l.terms ρ = some ⟨0,u⟩) : l.value ρ = some u := by
  rw [Expr.value,h]
  exact congrArg some (zero_add u)

theorem Summands.value_zero (h : Summands ρ t 0 n d) (hd : d.getD 1 = 1) : valueOf ρ t = some n := by
  rw [h.value_eq,hd,div_one,zero_add]

/-- A `*` after a `/`: what is multiplied with is divided by. -/
theorem differs_mul {l : Expr} (hdiv : l.Divided) (x : Operand) : ∃ l' a b, Differs (l.more .mul x) l' a b := by
  obtain ⟨x',hxform,hx'⟩ := exists_value.1 x 2
  obtain ⟨l',u,d,hunit⟩ := exists_unit l
  have hu := hunit.ne_zero
  refine ⟨l'.more .mul x',u * 2,u / 2,?_,mul_ne_zero hu two_ne_zero,div_ne_zero hu two_ne_zero,fun h => ?_,
    fun ρ => ?_,fun ρ => ?_⟩
  · rw [Expr.form,hunit.form,hxform,Expr.form]
  · have hfour : u * 3 = 0 := by linear_combination 2 * h
    exact mul_ne_zero hu three_ne_zero hfour
  · exact value_of_terms (by rw [terms_more_eq (hunit.terms ρ) (hx' ρ).1]; rfl)
  · have hsummands := hunit.summands ρ
    rw [hunit.divided hdiv] at hsummands
    have hmul := hsummands.attach_mul_some (hx' ρ).2 two_ne_zero
    rw [one_mul] at hmul
    rw [Expr.tree,hmul.value_eq,zero_add]
    rfl

/-- The difference of an operand shows, unless the operator goes on with a divisor. -/
theorem differs_operand {a b : ℚ} {l : Expr} {x' : Operand} {o : Op} (ho : o = .mul → ¬ l.Divided)
    (hform : x'.form = x.form) (ha : a ≠ 0) (hb : b ≠ 0) (hab : a ≠ b)
    (hx' : ∀ ρ, x'.value ρ = some a ∧ x'.translated ρ = some b) : ∃ l' c e, Differs (l.more o x) l' c e := by
  obtain ⟨l₀,hlform,hl₀⟩ := exists_value.2 l 0
  obtain ⟨l',u,d,hunit⟩ := exists_unit l
  have hu := hunit.ne_zero
  have hform₀ : (l₀.more o x').form = (l.more o x).form := by rw [Expr.form,hlform,hform,Expr.form]
  have hform' : (l'.more o x').form = (l.more o x).form := by rw [Expr.form,hunit.form,hform,Expr.form]
  have hafter := fun ρ => summands_after_zero (hl₀ ρ).1 (hl₀ ρ).2 (hx' ρ).1 (hx' ρ).2
  cases o with
  | add =>
    exact ⟨_,a,b,hform₀,ha,hb,hab,fun ρ => value_of_terms (hafter ρ).1.1,fun ρ => (hafter ρ).1.2.value_zero rfl⟩
  | sub =>
    exact ⟨_,-a,-b,hform₀,neg_ne_zero.mpr ha,neg_ne_zero.mpr hb,fun h => hab (neg_injective h),
      fun ρ => value_of_terms (hafter ρ).2.1,fun ρ => (hafter ρ).2.2.value_zero rfl⟩
  | mul =>
    refine ⟨_,u * a,u * b,hform',mul_ne_zero hu ha,mul_ne_zero hu hb,fun h => hab (mul_left_cancel₀ hu h),
      fun ρ => ?_,fun ρ => ?_⟩
    · exact value_of_terms (by rw [terms_more_eq (hunit.terms ρ) (hx' ρ).1]; rfl)
    · have hsummands := hunit.summands ρ
      rw [hunit.undivided (ho rfl)] at hsummands
      exact (hsummands.attach_mul_none (hx' ρ).2).value_zero rfl
  | div =>
    have hne : u / a ≠ u / b := fun h => hab (mul_left_cancel₀ hu ((div_eq_div_iff ha hb).mp h)).symm
    refine ⟨_,u / a,u / b,hform',div_ne_zero hu ha,div_ne_zero hu hb,hne,fun ρ => ?_,fun ρ => ?_⟩
    · exact value_of_terms (by rw [terms_more_eq (hunit.terms ρ) (hx' ρ).1]; exact if_neg ha)
    · have hdivide := (hunit.summands ρ).attach_div (hx' ρ).2 hb
      rw [Expr.tree,hdivide.value_eq,zero_add,hunit.getD,div_one]
      rfl

theorem exists_differs : (∀ x : Operand, ¬ x.NoTimesAfterDivision → ∃ (x' : Operand) (a b : ℚ), x'.form = x.form ∧
      a ≠ 0 ∧ b ≠ 0 ∧ a ≠ b ∧ ∀ ρ, x'.value ρ = some a ∧ x'.translated ρ = some b) ∧
    ∀ l : Expr, ¬ l.NoTimesAfterDivision → ∃ l' a b, Differs l l' a b := by
  refine induction_nested ?_ ?_ ?_ ?_ ?_
  · exact fun q h => absurd trivial h
  · exact fun name hname h => absurd trivial h
  · intro l ih h
    obtain ⟨l',a,b,hdiffers⟩ := ih h
    exact ⟨.list l',a,b,congrArg Operand.list hdiffers.form,hdiffers.ne_zero,hdiffers.ne_zero',hdiffers.ne,
      fun ρ => ⟨hdiffers.value ρ,(translated_list l').trans (hdiffers.translated ρ)⟩⟩
  · intro x ih h
    obtain ⟨x',a,b,hform,ha,hb,hab,hx'⟩ := ih h
    refine ⟨.one x',a,b,congrArg Expr.one hform,ha,hb,hab,fun ρ => ?_,fun ρ => (hx' ρ).2⟩
    rw [Expr.value,Expr.terms,(hx' ρ).1]
    exact congrArg some (zero_add a)
  · intro l o x ihl ihx h
    by_cases hl : l.NoTimesAfterDivision
    · by_cases ho : o = .mul ∧ l.Divided
      · obtain ⟨rfl,hdiv⟩ := ho
        exact differs_mul hdiv x
      · have hx : ¬ x.NoTimesAfterDivision := fun hx => h ⟨hl,hx,fun hmul hdiv => ho ⟨hmul,hdiv⟩⟩
        obtain ⟨x',a,b,hform,ha,hb,hab,hx'⟩ := ihx hx
        exact differs_operand (fun hmul hdiv => ho ⟨hmul,hdiv⟩) hform ha hb hab hx'
    · obtain ⟨l',a,b,hdiffers⟩ := ihl hl
      obtain ⟨x',hxform,hx'⟩ := exists_value.1 x o.neutral
      refine ⟨l'.more o x',a,b,?_,hdiffers.ne_zero,hdiffers.ne_zero',hdiffers.ne,fun ρ => ?_,fun ρ => ?_⟩
      · rw [Expr.form,hdiffers.form,hxform,Expr.form]
      · rw [value_more_neutral (hx' ρ).1,hdiffers.value ρ]
      · rw [valueOf_more_neutral (hx' ρ).2,hdiffers.translated ρ]

theorem noTimes_form : (∀ x : Operand, x.form.NoTimesAfterDivision ↔ x.NoTimesAfterDivision) ∧
    ∀ l : Expr, (l.form.NoTimesAfterDivision ↔ l.NoTimesAfterDivision) ∧ (l.form.Divided ↔ l.Divided) := by
  refine induction_nested (fun _ => Iff.rfl) (fun _ _ => Iff.rfl) (fun l ih => ih.1) (fun x ih => ⟨ih,Iff.rfl⟩) ?_
  intro l o x ihl ihx
  refine ⟨?_,?_⟩
  · rw [Expr.form,Expr.NoTimesAfterDivision,Expr.NoTimesAfterDivision,ihl.1,ihx,ihl.2]
  · cases o with
    | mul => exact ihl.2
    | add => exact Iff.rfl
    | sub => exact Iff.rfl
    | div => exact Iff.rfl

/-- All lists of a form keep their meaning iff no `*` comes after a `/` in one of its terms. -/
theorem keepsMeaning_iff (l : Expr) : (∀ l' : Expr, l'.form = l.form → KeepsMeaning l') ↔ l.NoTimesAfterDivision := by
  constructor
  · intro h
    by_contra hno
    obtain ⟨l',a,b,hdiffers⟩ := exists_differs.2 l hno
    have hvalue := (h l' hdiffers.form).value (fun _ => 0) a (hdiffers.value _)
    rw [infixToPrefix_data,evalPrefix_prefixOf,hdiffers.translated] at hvalue
    exact hdiffers.ne (Option.some.inj hvalue).symm
  · intro h l' hform
    refine keepsMeaning_of_noTimes ?_
    rw [← (noTimes_form.2 l').1,hform]
    exact (noTimes_form.2 l).1.mpr h

/-- `1 / 2 * 3` is translated as `1 / (2 * 3)`. -/
theorem not_keepsMeaning : ¬ ∀ l : Expr, KeepsMeaning l := by
  intro h
  have hvalue := (h (.more (.more (.one (.number 1)) .div (.number 2)) .mul (.number 3))).value (fun _ => 0) (3 / 2)
    (by decide +kernel)
  have hnumber : ∀ q : ℚ, valueOf (fun _ => 0) (.leaf (.number q)) = some q := fun q => translated_number q
  have hright := valueOf_node (o := .mul) (hnumber 2) (hnumber 3)
  have hgroup := valueOf_node (o := .div) (hnumber 1) (hright.trans (by decide +kernel : _ = some (6 : ℚ)))
  rw [infixToPrefix_data,evalPrefix_prefixOf] at hvalue
  exact absurd (hgroup.symm.trans hvalue) (by decide +kernel)

end Edelib.Infix
