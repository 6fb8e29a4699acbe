import Edelib.Foundation.LinkedRing
import Edelib.Foundation.Transition

/-! # The linked list

A list is a ring of nodes through a tail node without a value, which is made by the first
insertion and kept until the list is cleared. Iterators are addresses of nodes.
-/
namespace Edelib.Base
open Foundation

/-- `list<T>`, with the nodes it points to and the address that `new` returns next. -/
structure ListState (T : Type) where
  sz : BitVec 32
  tail : Option ℕ
  nodes : Nodes T
  fresh : ℕ

namespace ListState
variable {T : Type}

def empty : ListState T where
  sz := 0
  tail := none
  nodes := fun _ => none
  fresh := 0

/-- Iterators are null while there is no tail. -/
def beginIt (s : ListState T) : Option ℕ := s.tail.bind s.nodes.next

def endIt (s : ListState T) : Option ℕ := s.tail

def succIt (s : ListState T) (it : Option ℕ) : Option ℕ := it.bind s.nodes.next

def predIt (s : ListState T) (it : Option ℕ) : Option ℕ := it.bind s.nodes.prev

/-- `*it`; the assertions fail on a null iterator and on a node without a value. -/
def deref (s : ListState T) (it : Option ℕ) : Option T := (it.bind s.nodes.value).join

def iter (s : ListState T) (i : ℕ) : Option ℕ := s.succIt^[i] s.beginIt

def size (s : ListState T) : BitVec 32 := s.sz

/-- The first node is linked to a new tail, whatever the iterator is. -/
def insert (s : ListState T) (it : Option ℕ) (val : T) : Option (ListState T × Option ℕ) :=
  let tmp := s.fresh
  match s.tail with
  | none =>
    let tl := s.fresh + 1
    let nodes := (s.nodes.put tmp (some ⟨some val,tl,tl⟩)).put tl (some ⟨none,tmp,tmp⟩)
    some ({ sz := s.sz + 1, tail := some tl, nodes, fresh := s.fresh + 2 },some tmp)
  | some _ => do
    let node ← it
    let nodes ← s.nodes.insertBefore tmp val node
    some ({ s with sz := s.sz + 1, nodes, fresh := s.fresh + 1 },some tmp)

def erase (s : ListState T) (it : Option ℕ) : Option (ListState T × Option ℕ) :=
  if it = s.tail then none
  else do
    let node ← it
    let (nodes,ret) ← s.nodes.unlink node
    some ({ s with sz := s.sz - 1, nodes },some ret)

def pushBack (s : ListState T) (val : T) : Option (ListState T × Option ℕ) := s.insert s.endIt val

def pushFront (s : ListState T) (val : T) : Option (ListState T × Option ℕ) := s.insert s.beginIt val

def clear (s : ListState T) : Option (ListState T) :=
  match s.tail with
  | none => if s.sz = 0 then some s else none
  | some tl => do
    let p ← s.nodes.next tl
    let nodes ← Nodes.freeUpTo tl s.fresh s.nodes p
    some { s with sz := 0, tail := none, nodes := nodes.put tl none }

def forward (s : ListState T) : ℕ → Option ℕ → Option (List T)
  | 0,_ => none
  | fuel + 1,it =>
    if it = s.endIt then some []
    else do
      let val ← s.deref it
      let rest ← forward s fuel (s.succIt it)
      some (val :: rest)

def backward (s : ListState T) : ℕ → Option ℕ → Option (List T)
  | 0,_ => none
  | fuel + 1,it =>
    if it = s.beginIt then some []
    else do
      let val ← s.deref (s.predIt it)
      let rest ← backward s fuel (s.predIt it)
      some (val :: rest)

end ListState

/-- The calls; a position stands for the iterator there. -/
inductive ListAction (T : Type)
  | insert (i : ℕ) (val : T)
  | erase (i : ℕ)
  | pushBack (val : T)
  | pushFront (val : T)
  | clear

namespace ListAction
variable {T : Type}

def apply (s : ListState T) : ListAction T → Option (ListState T × Option ℕ)
  | insert i val => s.insert (s.iter i) val
  | erase i => s.erase (s.iter i)
  | pushBack val => (s.pushBack val).map (fun ret => (ret.1,none))
  | pushFront val => (s.pushFront val).map (fun ret => (ret.1,none))
  | clear => s.clear.map (fun s => (s,none))

def step (s : ListState T) (a : ListAction T) : Option (ListState T) := (apply s a).map Prod.fst

def seqStep (xs : List T) : ListAction T → Option (List T)
  | insert i val => if i ≤ xs.length then some (xs.insertIdx i val) else none
  | erase i => if i < xs.length then some (xs.eraseIdx i) else none
  | pushBack val => some (xs ++ [val])
  | pushFront val => some (val :: xs)
  | clear => some []

def position : ListAction T → Option ℕ
  | insert i _ => some i
  | erase i => some i
  | _ => none

/-- The list is the sequence: its nodes form a ring with the values, or there are none; the
size is counted in 32 bits; both ways along the iterators the sequence is found, and an
iterator at every node. -/
structure Refines (s : ListState T) (xs : List T) : Prop where
  ring : s.tail = none ∧ xs = [] ∧ (∀ a, s.nodes.value a = none) ∨ ∃ tl as, s.tail = some tl ∧ s.nodes.Ring tl as xs
  size : s.size = BitVec.ofNat 32 xs.length
  forward : ∀ fuel, xs.length < fuel → s.forward fuel s.beginIt = some xs
  backward : ∀ fuel, xs.length < fuel → s.backward fuel s.endIt = some xs.reverse
  iterators : ∀ a, s.nodes.value a ≠ none → ∃ i, i ≤ xs.length ∧ s.iter i = some a

end ListAction
end Edelib.Base
