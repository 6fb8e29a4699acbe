import Edelib.Base.List
import Edelib.Edbus.Data

/-! # Lists of D-Bus data

An EdbusList is a handle to a list that others may share. It is copied before it is changed, unless
its count says that there is one handle. An argument may be an element of the same list, and is read
where that element is, as long as it is there.
-/
namespace Edelib.Edbus
open Base Foundation

/-- `EdbusContainerImpl`. -/
structure ListImpl (D : Type) where
  lst : ListState D
  ref : BitVec 32

/-- The lists with their handles, each with the address of its list and its array mode. -/
structure Lists (D : Type) where
  impls : ℕ → Option (ListImpl D)
  fresh : ℕ
  vars : ℕ → Option (ℕ × Bool)

/-- A `const EdbusData&`: data elsewhere, or the value of a node. -/
inductive DataRef (D : Type)
  | value (val : D)
  | node (c n : ℕ)

def DataRef.isNode {D : Type} (c : ℕ) (it : Option ℕ) : DataRef D → Bool
  | value _ => false
  | node c' n => c' == c && it == some n

inductive DataArg (D : Type)
  | value (val : D)
  | element (y i : ℕ)

namespace Lists
variable {D : Type}

def empty : Lists D where
  impls := fun _ => none
  fresh := 0
  vars := fun _ => none

def put (s : Lists D) (c : ℕ) (impl : Option (ListImpl D)) : Lists D :=
  { s with impls := Function.update s.impls c impl }

def setVar (s : Lists D) (x : ℕ) (var : Option (ℕ × Bool)) : Lists D :=
  { s with vars := Function.update s.vars x var }

/-- `impl->lst` after a change. -/
def setList (s : Lists D) (c : ℕ) (lst : ListState D) : Lists D :=
  s.put c ((s.impls c).map (fun impl => { impl with lst }))

def list (s : Lists D) (c : ℕ) : Option (ListState D) := (s.impls c).map ListImpl.lst

def read (s : Lists D) : DataRef D → Option D
  | .value val => some val
  | .node c n => (s.list c).bind (fun lst => lst.deref (some n))

def resolve (s : Lists D) : DataArg D → Option (DataRef D)
  | .value val => some (.value val)
  | .element y i => do
    let (c,_) ← s.vars y
    let lst ← s.list c
    let n ← lst.iter i
    some (.node c n)

def copyFrom (lst : ListState D) : ℕ → Option ℕ → ListState D → Option (ListState D)
  | 0,_,_ => none
  | fuel + 1,it,new =>
    if it = lst.endIt then some new
    else do
      let val ← lst.deref it
      let (new,_) ← new.pushBack val
      copyFrom lst fuel (lst.succIt it) new

def contentOf (lst : ListState D) : Option (ListState D) :=
  if lst.size ≠ 0 then copyFrom lst (lst.fresh + 1) lst.beginIt .empty else some .empty

/-- `EdbusContainer::unhook`. -/
def unhook (s : Lists D) (x : ℕ) : Option (Lists D × ℕ) := do
  let (c,arrayMode) ← s.vars x
  let impl ← s.impls c
  if impl.ref = 1 then some (s,c)
  else do
    let lst ← contentOf impl.lst
    let newOne := s.fresh
    let s := (s.put c (some { impl with ref := impl.ref - 1 })).put newOne (some ⟨lst,1⟩)
    some ({ s.setVar x (some (newOne,arrayMode)) with fresh := newOne + 1 },newOne)

section Model
variable (type : D → EdbusDataType) (equal : D → D → Bool)

/-- Whether `append` ignores the argument. -/
def ignores (s : Lists D) (arrayMode : Bool) (lst : ListState D) (val : DataRef D) : Option Bool :=
  if arrayMode ∧ lst.size ≠ 0 then do
    let first ← lst.deref lst.beginIt
    let v ← s.read val
    some (decide (type first ≠ type v))
  else some false

def append (s : Lists D) (x : ℕ) (val : DataRef D) : Option (Lists D) := do
  let (c,arrayMode) ← s.vars x
  let lst ← s.list c
  if ← ignores type s arrayMode lst val then some s
  else do
    let (s,c) ← unhook s x
    let lst ← s.list c
    let v ← s.read val
    let (lst,_) ← lst.pushBack v
    some (s.setList c lst)

def clear (s : Lists D) (x : ℕ) : Option (Lists D) := do
  let (s,c) ← unhook s x
  let lst ← s.list c
  let lst ← lst.clear
  some (s.setList c lst)

/-- `==` of the data of a node and an argument: data is equal to itself, without a comparison. -/
def equalTo (c : ℕ) (it : Option ℕ) (elem : D) (val : DataRef D) (v : D) : Bool := val.isNode c it || equal elem v

def removeLoop (c : ℕ) (val : DataRef D) (itEnd : Option ℕ) : ℕ → Lists D → Option ℕ → Option (Lists D)
  | 0,_,_ => none
  | fuel + 1,s,it =>
    if it = itEnd then some s
    else do
      let lst ← s.list c
      let elem ← lst.deref it
      let v ← s.read val
      if equalTo equal c it elem val v then do
        let (lst,_) ← lst.erase it
        some (s.setList c lst)
      else removeLoop c val itEnd fuel s (lst.succIt it)

def remove (s : Lists D) (x : ℕ) (val : DataRef D) : Option (Lists D) := do
  let (s,c) ← unhook s x
  let lst ← s.list c
  removeLoop equal c val lst.endIt (lst.fresh + 1) s lst.beginIt

/-- The loop of `remove_all`; the argument is read again for every element. -/
def removeAllLoop (c : ℕ) (val : DataRef D) (itEnd : Option ℕ) : ℕ → Lists D → Option ℕ → Option (Lists D)
  | 0,_,_ => none
  | fuel + 1,s,it =>
    if it = itEnd then some s
    else do
      let lst ← s.list c
      let elem ← lst.deref it
      let v ← s.read val
      if equalTo equal c it elem val v then do
        let (lst,it) ← lst.erase it
        removeAllLoop c val itEnd fuel (s.setList c lst) it
      else removeAllLoop c val itEnd fuel s (lst.succIt it)

def removeAll (s : Lists D) (x : ℕ) (val : DataRef D) : Option (Lists D) := do
  let (s,c) ← unhook s x
  let lst ← s.list c
  removeAllLoop equal c val lst.endIt (lst.fresh + 1) s lst.beginIt

end Model

/-! ## Handles -/

/-- One handle less; the list is deleted with the last. -/
def release (s : Lists D) (c : ℕ) : Option (Lists D) := do
  let impl ← s.impls c
  let impl := { impl with ref := impl.ref - 1 }
  if impl.ref = 0 then do
    let _ ← impl.lst.clear
    some (s.put c none)
  else some (s.put c (some impl))

def share (s : Lists D) (y : ℕ) : Option (Lists D × ℕ × Bool) := do
  let (c,arrayMode) ← s.vars y
  let impl ← s.impls c
  some (s.put c (some { impl with ref := impl.ref + 1 }),c,arrayMode)

def create (s : Lists D) (x : ℕ) (arrayMode : Bool) : Lists D :=
  { (s.put s.fresh (some ⟨.empty,1⟩)).setVar x (some (s.fresh,arrayMode)) with fresh := s.fresh + 1 }

def copy (s : Lists D) (x y : ℕ) : Option (Lists D) := do
  let (s,var) ← share s y
  some (s.setVar x (some var))

def assign (s : Lists D) (x y : ℕ) : Option (Lists D) := do
  let (s,var) ← share s y
  let (c,_) ← s.vars x
  let s ← release s c
  some (s.setVar x (some var))

def destroy (s : Lists D) (x : ℕ) : Option (Lists D) := do
  let (c,_) ← s.vars x
  let s ← release s c
  some (s.setVar x none)

end Lists

inductive ListsAction (D : Type)
  | create (x : ℕ) (arrayMode : Bool)
  | copy (x y : ℕ)
  | assign (x y : ℕ)
  | destroy (x : ℕ)
  | append (x : ℕ) (val : DataArg D)
  | remove (x : ℕ) (val : DataArg D)
  | removeAll (x : ℕ) (val : DataArg D)
  | clear (x : ℕ)

namespace ListsAction
variable {D : Type} (type : D → EdbusDataType) (equal : D → D → Bool)

def step (s : Lists D) : ListsAction D → Option (Lists D)
  | create x arrayMode => some (s.create x arrayMode)
  | copy x y => s.copy x y
  | assign x y => s.assign x y
  | destroy x => s.destroy x
  | append x val => do s.append type x (← s.resolve val)
  | remove x val => do s.remove equal x (← s.resolve val)
  | removeAll x val => do s.removeAll equal x (← s.resolve val)
  | clear x => s.clear x

end ListsAction

/-! ## Sequences -/

abbrev ListSequences (D : Type) := ℕ → Option (Bool × List D)

namespace DataArg
variable {D : Type}

def seq (xs : ListSequences D) : DataArg D → Option D
  | value val => some val
  | element y i => (xs y).bind (fun ys => ys.2[i]?)

end DataArg

namespace ListsAction
variable {D : Type} (type : D → EdbusDataType) (equal : D → D → Bool)

def Takes (arrayMode : Bool) (ys : List D) (v : D) : Prop := arrayMode = true → ∀ first ∈ ys.head?, type first = type v

instance (arrayMode : Bool) (ys : List D) (v : D) : Decidable (Takes type arrayMode ys v) :=
  inferInstanceAs (Decidable (_ → _))

def seqChange (xs : ListSequences D) (x : ℕ) (f : Bool → List D → List D) : Option (ListSequences D) :=
  (xs x).map (fun ys => Function.update xs x (some (ys.1,f ys.1 ys.2)))

def seqStep (xs : ListSequences D) : ListsAction D → Option (ListSequences D)
  | create x arrayMode => if xs x = none then some (Function.update xs x (some (arrayMode,[]))) else none
  | copy x y => if xs x = none then (xs y).map (fun ys => Function.update xs x (some ys)) else none
  | assign x y => (xs x).bind (fun _ => (xs y).map (fun ys => Function.update xs x (some ys)))
  | destroy x => (xs x).map (fun _ => Function.update xs x none)
  | append x val => (val.seq xs).bind (fun v =>
      seqChange xs x (fun arrayMode ys => if Takes type arrayMode ys v then ys ++ [v] else ys))
  | remove x val => (val.seq xs).bind (fun v => seqChange xs x (fun _ ys => ys.eraseP (equal · v)))
  | removeAll x val => (val.seq xs).bind (fun v => seqChange xs x (fun _ ys => ys.filter (fun elem => !equal elem v)))
  | clear x => seqChange xs x (fun _ _ => [])

/-- Every handle has its mode, and its list is the sequence. -/
def Refines (s : Lists D) (xs : ListSequences D) : Prop :=
  (∀ x, s.vars x = none ↔ xs x = none) ∧
    ∀ x arrayMode ys, xs x = some (arrayMode,ys) →
      ∃ c lst, s.vars x = some (c,arrayMode) ∧ s.list c = some lst ∧ ListAction.Refines lst ys

/-! ## The condition on a call -/

/-- A size of 0 is that of an empty list. -/
def Sized (lst : ListState D) : Prop := lst.size = 0 → lst.beginIt = lst.endIt

instance (lst : ListState D) : Decidable (Sized lst) := inferInstanceAs (Decidable (_ → _))

def InPlace (s : Lists D) (x y : ℕ) (P : ListState D → Prop) : Prop :=
  ∀ varx ∈ s.vars x, ∀ vary ∈ s.vars y, varx.1 = vary.1 → ∀ impl ∈ s.impls varx.1, impl.ref = 1 → P impl.lst

instance (s : Lists D) (x y : ℕ) (P : ListState D → Prop) [DecidablePred P] : Decidable (InPlace s x y P) :=
  inferInstanceAs (Decidable (∀ varx ∈ s.vars x, ∀ vary ∈ s.vars y, varx.1 = vary.1 → ∀ impl ∈ s.impls varx.1,
    impl.ref = 1 → P impl.lst))

/-- Such an element is taken for equal: it is so, or one before it is. -/
def Agrees (s : Lists D) (x : ℕ) : DataArg D → Prop
  | .value _ => True
  | .element y i => InPlace s x y (fun lst => ∀ v ∈ lst.deref (lst.iter i),
      equal v v = true ∨ ∃ j < i, ∃ elem ∈ lst.deref (lst.iter j), equal elem v = true)

instance (s : Lists D) (x : ℕ) : (val : DataArg D) → Decidable (Agrees equal s x val)
  | .value _ => inferInstanceAs (Decidable True)
  | .element y i => inferInstanceAs (Decidable (InPlace s x y (fun lst => ∀ v ∈ lst.deref (lst.iter i),
      equal v v = true ∨ ∃ j < i, ∃ elem ∈ lst.deref (lst.iter j), equal elem v = true)))

/-- Such an element is the last: it is erased, and those behind it would be compared with it. -/
def Outlives (s : Lists D) (x : ℕ) : DataArg D → Prop
  | .value _ => True
  | .element y i => InPlace s x y (fun lst =>
      lst.iter (i + 1) = lst.endIt ∧ ∀ v ∈ lst.deref (lst.iter i), equal v v = true)

instance (s : Lists D) (x : ℕ) : (val : DataArg D) → Decidable (Outlives equal s x val)
  | .value _ => inferInstanceAs (Decidable True)
  | .element y i => inferInstanceAs (Decidable (InPlace s x y (fun lst =>
      lst.iter (i + 1) = lst.endIt ∧ ∀ v ∈ lst.deref (lst.iter i), equal v v = true)))

/-- The count of the handles does not wrap. -/
def Counts (s : Lists D) (y : ℕ) : Prop := ∀ var ∈ s.vars y, ∀ impl ∈ s.impls var.1, impl.ref + 1 ≠ 0

instance (s : Lists D) (y : ℕ) : Decidable (Counts s y) :=
  inferInstanceAs (Decidable (∀ var ∈ s.vars y, ∀ impl ∈ s.impls var.1, impl.ref + 1 ≠ 0))

/-- A list that is copied has a size of 0 only where it is empty. -/
def Copies (s : Lists D) (x : ℕ) : Prop := ∀ var ∈ s.vars x, ∀ impl ∈ s.impls var.1, impl.ref ≠ 1 → Sized impl.lst

instance (s : Lists D) (x : ℕ) : Decidable (Copies s x) :=
  inferInstanceAs (Decidable (∀ var ∈ s.vars x, ∀ impl ∈ s.impls var.1, impl.ref ≠ 1 → Sized impl.lst))

def Meets (s : Lists D) : ListsAction D → Prop
  | copy _ y => Counts s y
  | assign _ y => Counts s y
  -- the type of the first element is looked at where there is one
  | append x _ => Copies s x ∧ ∀ var ∈ s.vars x, ∀ lst ∈ s.list var.1, var.2 = true → Sized lst
  | remove x val => Copies s x ∧ Agrees equal s x val
  | removeAll x val => Copies s x ∧ Outlives equal s x val
  | _ => True

instance (s : Lists D) : (a : ListsAction D) → Decidable (a.Meets equal s)
  | copy _ y => inferInstanceAs (Decidable (Counts s y))
  | assign _ y => inferInstanceAs (Decidable (Counts s y))
  | append _ _ => inferInstanceAs (Decidable (_ ∧ _))
  | remove _ _ => inferInstanceAs (Decidable (_ ∧ _))
  | removeAll _ _ => inferInstanceAs (Decidable (_ ∧ _))
  | create _ _ => inferInstanceAs (Decidable True)
  | destroy _ => inferInstanceAs (Decidable True)
  | clear _ => inferInstanceAs (Decidable True)

end ListsAction
end Edelib.Edbus
