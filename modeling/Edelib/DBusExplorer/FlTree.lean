import Edelib.Foundation.CString
import Edelib.Foundation.Separated

/-! # The tree widget

Items are added by their path, with those above them. Which tree is used is decided where the program is
built: one comes with it, and others return a null pointer for an item that is there already.
-/
namespace Edelib.DBusExplorer
open Foundation

/-- A tree as a scan uses it; a backslash would escape a separator in some. -/
structure FlTree where
  Tree : Type
  cleared : Tree
  Has : Tree → List (List UInt8) → Prop
  add : Tree → CString → Option Tree
  refuses : Bool
  not_has_cleared : ∀ item, ¬ Has cleared item
  add_eq_none : ∀ t path, 92 ∉ path.bytes → Separated.tokens 47 path.bytes ≠ [] →
    (add t path = none ↔ refuses = true ∧ Has t (Separated.tokens 47 path.bytes))
  has_add : ∀ t t' path, 92 ∉ path.bytes → add t path = some t' →
    ∀ item, Has t' item ↔ Has t item ∨ item ≠ [] ∧ item <+: Separated.tokens 47 path.bytes

/-! ## The one that comes with the program -/

inductive FlTreeItem
  | mk (label : List UInt8) (children : List FlTreeItem)

namespace FlTreeItem

def label : FlTreeItem → List UInt8
  | .mk label _ => label

def children : FlTreeItem → List FlTreeItem
  | .mk _ children => children

def descend (name : List UInt8) (add : FlTreeItem → FlTreeItem) : List FlTreeItem → List FlTreeItem
  | [] => [add (.mk name [])]
  | c :: cs => if c.label = name then add c :: cs else c :: descend name add cs

def add : List (List UInt8) → FlTreeItem → FlTreeItem
  | [],item => item
  | name :: arr,.mk label children => .mk label (descend name (add arr) children)

def findItem : List (List UInt8) → FlTreeItem → Option FlTreeItem
  | [],item => some item
  | name :: arr,item => (item.children.find? (fun c => c.label == name)).bind (findItem arr)

theorem label_add (arr : List (List UInt8)) (item : FlTreeItem) : (item.add arr).label = item.label := by
  cases item with
  | mk label children =>
    cases arr with
    | nil => rfl
    | cons name arr => rfl

theorem find_descend {add : FlTreeItem → FlTreeItem} (hadd : ∀ c, (add c).label = c.label) (name other : List UInt8)
    (cs : List FlTreeItem) :
    (descend name add cs).find? (fun c => c.label == other) = if other = name then
      some (add ((cs.find? (fun c => c.label == name)).getD (.mk name []))) else cs.find? (fun c => c.label == other) := by
  induction cs with
  | nil =>
    have hlabel : (add (.mk name [])).label = name := hadd _
    by_cases hother : other = name
    · rw [if_pos hother,hother]
      simp [descend,hlabel]
    · rw [if_neg hother]
      simp [descend,hlabel,Ne.symm hother]
  | cons c cs ih =>
    rw [descend]
    by_cases hc : c.label = name
    · rw [if_pos hc]
      by_cases hother : other = name
      · rw [if_pos hother,hother]
        simp [hadd,hc]
      · have hne : c.label ≠ other := fun heq => hother (heq.symm.trans hc)
        rw [if_neg hother]
        simp [hadd,hne]
    · rw [if_neg hc]
      by_cases hother : other = name
      · rw [hother] at ih ⊢
        rw [List.find?_cons_of_neg (by simpa using hc),ih,if_pos rfl,if_pos rfl,List.find?_cons_of_neg (by simpa using hc)]
      · rw [List.find?_cons,ih,if_neg hother,if_neg hother,List.find?_cons]

/-- An item is there with every one on its path. -/
theorem findItem_add (arr : List (List UInt8)) (item : FlTreeItem) (path : List (List UInt8)) :
    (findItem path (item.add arr)).isSome ↔ (findItem path item).isSome ∨ path <+: arr := by
  induction arr generalizing item path with
  | nil =>
    rw [add,List.prefix_nil]
    refine ⟨.inl,?_⟩
    rintro (h | rfl)
    · exact h
    · rfl
  | cons name arr ih =>
    cases path with
    | nil => exact iff_of_true rfl (.inr List.nil_prefix)
    | cons first path =>
      cases item with
      | mk label children =>
        rw [add,findItem,findItem,FlTreeItem.children,FlTreeItem.children,find_descend (label_add arr),List.cons_prefix_cons]
        by_cases hfirst : first = name
        · subst hfirst
          rw [if_pos rfl,Option.bind_some,ih]
          cases hchild : children.find? (fun c => c.label == first) with
          | none =>
            cases path with
            | nil => simp [List.nil_prefix]
            | cons second path => simp [findItem,FlTreeItem.children]
          | some c => simp
        · rw [if_neg hfirst]
          simp [hfirst]

end FlTreeItem

/-- The root is made with the first item and is none itself. -/
def flTree (refuses : Bool) : FlTree where
  Tree := FlTreeItem
  cleared := .mk [] []
  Has t path := path ≠ [] ∧ (FlTreeItem.findItem path t).isSome
  add t path :=
    let arr := Separated.tokens 47 path.bytes
    if refuses && !arr.isEmpty && (FlTreeItem.findItem arr t).isSome then none else some (t.add arr)
  refuses := refuses
  not_has_cleared path := by
    cases path with
    | nil => simp
    | cons name path => simp [FlTreeItem.findItem,FlTreeItem.children]
  add_eq_none t path _ harr := by
    cases refuses with
    | false => simp
    | true => simp [harr,Option.isSome_iff_ne_none]
  has_add t t' path _ h item := by
    simp only [Option.ite_none_left_eq_some,Option.some.injEq] at h
    rw [← h.2,FlTreeItem.findItem_add]
    tauto

end Edelib.DBusExplorer
