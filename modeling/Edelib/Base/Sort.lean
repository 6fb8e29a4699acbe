import Edelib.Base.List
import Edelib.Foundation.LinkedChain

/-! # Sorting a linked list

A merge sort of the nodes themselves. The ring is cut open at its last node, halved by a
pointer that goes two nodes for each node of another, and merged behind a node on the
stack; on a tie the node of the second half comes first. Loops and recursion are bounded by a
number of steps.
-/
namespace Edelib.Base
open Foundation

namespace ListState
variable {T : Type} (cmp : T → T → Bool)

def compareNodes (h : Links T) (a b : ℕ) : Option Bool :=
  (h.value a).join.bind fun x => (h.value b).join.map fun y => cmp x y

/-- The node `n` is linked in behind `c`; what comes after it is left to merge. -/
def linkBehind (h : Links T) (n c : ℕ) (cprev : Option ℕ) : Option (Links T × Option ℕ × ℕ) := do
  let h ← h.setNext c (some n)
  let n ← h.next n
  let c ← (h.next c).join
  let h ← h.setPrev c cprev
  some (h,n,c)

def mergeLoop : ℕ → Links T → Option ℕ → Option ℕ → ℕ → Option ℕ → Option (Links T × Option ℕ × Option ℕ × ℕ)
  | 0,_,_,_,_,_ => none
  | fuel + 1,h,some a,some b,c,cprev => do
    if ← compareNodes cmp h a b then
      let (h,a,c) ← linkBehind h a c cprev
      mergeLoop fuel h a (some b) c (some c)
    else
      let (h,b,c) ← linkBehind h b c cprev
      mergeLoop fuel h (some a) b c (some c)
  | _ + 1,h,a,b,c,_ => some (h,a,b,c)

def mergeTail (h : Links T) (a b : Option ℕ) (c : ℕ) : Option (Links T) := do
  let h ← h.setNext c (if a = none then b else a)
  let n ← (h.next c).join
  h.setPrev n (some c)

/-- `merge_nodes`, with its stack node at `head`. -/
def mergeNodes (fuel : ℕ) (h : Links T) (head : ℕ) (a b : Option ℕ) : Option (Links T × Option ℕ) := do
  let h := h.put head (some ⟨none,none,none⟩)
  let (h,a,b,c) ← mergeLoop cmp fuel h a b head none
  let h ← mergeTail h a b c
  let n ← h.next head
  some (h.put head none,n)

def halfway : ℕ → Links T → ℕ → Option ℕ → Option ℕ
  | 0,_,_,_ => none
  | fuel + 1,h,c,b =>
    match b with
    | none => some c
    | some b => do
      match ← h.next b with
      | none => some c
      | some b =>
        let c ← (h.next c).join
        let b ← h.next b
        halfway fuel h c b

def mergesort : ℕ → Links T → ℕ → Option ℕ → Option (Links T × Option ℕ)
  | 0,_,_,_ => none
  | fuel + 1,h,head,c => do
    let a ← c
    let b ← h.next a
    if b = none then some (h,some a)
    else
      let c ← halfway fuel h a b
      let b ← h.next c
      let h ← h.setNext c none
      let (h,a) ← mergesort fuel h head (some a)
      let (h,b) ← mergesort fuel h head b
      mergeNodes cmp fuel h head a b

def relink : ℕ → Links T → ℕ → ℕ → Option (Links T)
  | 0,_,_,_ => none
  | fuel + 1,h,tl,nn => do
    match ← h.next nn with
    | some nn => relink fuel h tl nn
    | none =>
      let h ← h.setNext nn (some tl)
      h.setPrev tl (some nn)

def sort (fuel : ℕ) (s : ListState T) : Option (ListState T) :=
  if s.size.toNat ≤ 1 then some s
  else do
    let tl ← s.tail
    let h := Links.ofNodes s.nodes
    let last ← (h.prev tl).join
    let h ← h.setNext last none
    let first ← h.next tl
    let (h,nn) ← mergesort cmp fuel h s.fresh first
    let h ← h.setNext tl nn
    let nn ← nn
    let h ← h.setPrev nn (some tl)
    let h ← relink fuel h tl nn
    some { s with nodes := h.toNodes }

end ListState
end Edelib.Base
