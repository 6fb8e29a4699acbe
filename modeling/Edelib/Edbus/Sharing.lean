import Edelib.Edbus.Data
import Edelib.Foundation.SharedContent
import Edelib.Foundation.Transition

/-! # Shared data and containers

Handles to data, lists and dicts share what they refer to. Every class counts the handles
by hand, and a container that is to be changed is copied first if it is shared.
-/
namespace Edelib.Edbus.Sharing
open Foundation

/-- The private part of data, of a list or of a dict, or a variable with one handle. -/
inductive Shape
  | basic (v : EdbusBasic)
  | variant
  | list (arrayMode : Bool)
  | dict
  | elements
  | entries
  | dataVar
  | listVar (arrayMode : Bool)
  | dictVar
deriving DecidableEq

inductive HandleKind
  | data
  | list (arrayMode : Bool)
  | dict
deriving DecidableEq

/-- The handles of a block are all of one class. A dict's entries are kept as a key and a
value each, and an `EdbusVariant` is the handle it consists of. -/
def Shape.holds : Shape → Option HandleKind
  | basic _ => none
  | variant => some .data
  | list arrayMode => some (.list arrayMode)
  | dict => some .dict
  | elements => some .data
  | entries => some .data
  | dataVar => some .data
  | listVar arrayMode => some (.list arrayMode)
  | dictVar => some .dict

def HandleKind.var : HandleKind → Shape
  | data => .dataVar
  | list arrayMode => .listVar arrayMode
  | dict => .dictVar

def HandleKind.wrapped : HandleKind → Shape
  | data => .variant
  | list arrayMode => .list arrayMode
  | dict => .dict

def HandleKind.sameClass : HandleKind → HandleKind → Bool
  | data,data => true
  | list _,list _ => true
  | dict,dict => true
  | _,_ => false

def Shape.type : Shape → EdbusDataType
  | basic v => v.type
  | variant => .variant
  | list arrayMode => if arrayMode then .array else .struct
  | dict => .dict
  | _ => .invalid

abbrev Store := Heap Shape

section Model
variable (s : Store)

def typeOf (a : ℕ) : Option EdbusDataType := (s.get a).map (fun impl => impl.payload.type)

def basicType (a : ℕ) : Bool :=
  match (s.get a).map Block.payload with
  | some (.basic _) => true
  | _ => false

/-- The handle at a place, which a reference may denote: a variable's own, or one inside. -/
def handleAt (loc : ℕ × ℕ) : Option (HandleKind × ℕ) := do
  let a ← s.read loc
  let blk ← s.get loc.1
  let kind ← blk.payload.holds
  some (kind,a)

def newVar (kind : HandleKind) (a : ℕ) : Store :=
  s.alloc { payload := kind.var, pinned := true, held := [a], refs := 0 }

def construct (shape : Shape) (held : List ℕ) (kind : HandleKind) : Store :=
  newVar (s.alloc { payload := shape, pinned := false, held, refs := 1 }) kind s.blocks.length

/-- `EdbusContainer::unhook`: where the container is shared its variable gets a copy. -/
def unhook (x : ℕ) : Option (Store × ℕ) := do
  let c ← s.read (x,0)
  let impl ← s.get c
  if impl.refs = 1 then some (s,c)
  else do
    let newOne := s.blocks.length
    let s ← s.incAll impl.held
    let s := s.alloc { impl with refs := 1 }
    let var ← s.get x
    let s ← (s.put x { var with held := var.held.set 0 newOne }).dec c
    some (s,newOne)

def push (c : ℕ) (new : List ℕ) : Option Store := do
  let s ← s.incAll new
  let impl ← s.get c
  some (s.put c { impl with held := impl.held ++ new })

def erase (c n i : ℕ) : Option Store := do
  let impl ← s.get c
  (s.put c { impl with held := impl.held.take (n * i) ++ impl.held.drop (n * i + n) }).release
    ((impl.held.drop (n * i)).take n)

def clear (x : ℕ) : Option Store := do
  let (s,c) ← unhook s x
  let impl ← s.get c
  (s.put c { impl with held := [] }).release impl.held

/-- `operator=` of either class; that of a list copies `array_mode` as well. -/
def assign (x : ℕ) (src : ℕ × ℕ) : Option Store := do
  let (kindX,_) ← handleAt s (x,0)
  let (kind,_) ← handleAt s src
  if kindX.sameClass kind then do
    let s ← s.assign (x,0) src
    let var ← s.get x
    some (s.put x { var with payload := kind.var })
  else none

def listTakes (arrayMode : Bool) (c val : ℕ) : Bool :=
  match Heap.heldBy (s.get c) with
  | first :: _ => !arrayMode || typeOf s first == typeOf s val
  | [] => true

/-- `EdbusList::append`. -/
def listAppend (x : ℕ) (src : ℕ × ℕ) : Option Store := do
  let (kind,c) ← handleAt s (x,0)
  let val ← s.read src
  if listTakes s (kind = .list true) c val then do
    let (s,c) ← unhook s x
    push s c [val]
  else some s

/-- The key is basic, and key and value are of the types of the first ones. -/
def dictTakes (c key value : ℕ) : Bool :=
  basicType s key &&
    match Heap.heldBy (s.get c) with
    | key0 :: value0 :: _ => typeOf s key == typeOf s key0 && typeOf s value == typeOf s value0
    | _ => true

section Search
variable (equal : Store → ℕ × ℕ → ℕ × ℕ → Bool)

def search (c n : ℕ) (key : ℕ × ℕ) : Option ℕ := do
  let impl ← s.get c
  (List.range (impl.held.length / n)).find? (fun i => equal s (c,n * i) key)

def remove (n x : ℕ) (key : ℕ × ℕ) : Option Store := do
  let (s,c) ← unhook s x
  match search s equal c n key with
  | some i => erase s c n i
  | none => some s

def listRemove (x : ℕ) (val : ℕ × ℕ) : Option Store := remove s equal 1 x val

def dictRemove (x : ℕ) (key : ℕ × ℕ) : Option Store := remove s equal 2 x key

/-- `EdbusDict::append`: the value of an equal key is assigned to. The new entry's own object
is gone when its copy is in the list. -/
def dictAppend (x : ℕ) (key value : ℕ × ℕ) : Option Store := do
  let c ← s.read (x,0)
  let k ← s.read key
  let v ← s.read value
  if dictTakes s c k v then do
    let (s,c) ← unhook s x
    match search s equal c 2 key with
    | some i => s.assign (c,2 * i + 1) value
    | none => push s c [k,v]
  else some s

end Search
end Model

/-- The calls of a program. A source or a key is given by its place, a container that is
changed by its variable. -/
inductive Action
  | data (v : EdbusBasic)
  | list (arrayMode : Bool)
  | dict
  | copy (src : ℕ × ℕ)
  | wrap (src : ℕ × ℕ)
  | assign (x : ℕ) (src : ℕ × ℕ)
  | destroy (x : ℕ)
  | listAppend (x : ℕ) (val : ℕ × ℕ)
  | listRemove (x : ℕ) (val : ℕ × ℕ)
  | dictAppend (x : ℕ) (key value : ℕ × ℕ)
  | dictRemove (x : ℕ) (key : ℕ × ℕ)
  | clear (x : ℕ)

namespace Action

def target : Action → Option ℕ
  | assign x _ => some x
  | destroy x => some x
  | listAppend x _ => some x
  | listRemove x _ => some x
  | dictAppend x _ _ => some x
  | dictRemove x _ => some x
  | clear x => some x
  | _ => none

/-- The outcome of `==` on keys and elements is left open. -/
def step (equal : Store → ℕ × ℕ → ℕ × ℕ → Bool) (s : Store) : Action → Option Store
  | data v => some (construct s (.basic v) [] .data)
  | list arrayMode => some (construct s .elements [] (.list arrayMode))
  | dict => some (construct s .entries [] .dict)
  | copy src => do
    let (kind,a) ← handleAt s src
    let s ← s.inc a
    some (newVar s kind a)
  | wrap src => do
    let (kind,a) ← handleAt s src
    let s ← s.inc a
    some (construct s kind.wrapped [a] .data)
  | assign x src => Sharing.assign s x src
  | destroy x => do
    let var ← s.get x
    if var.pinned then (s.free x).release var.held else none
  | listAppend x val => Sharing.listAppend s x val
  | listRemove x val => Sharing.listRemove s equal x val
  | dictAppend x key value => Sharing.dictAppend s equal x key value
  | dictRemove x key => Sharing.dictRemove s equal x key
  | clear x => Sharing.clear s x

/-! ## What is expected of a call -/

section Law
variable (equal : Store → ℕ × ℕ → ℕ × ℕ → Bool) (s : Store)

def Handle (loc : ℕ × ℕ) (kind : HandleKind) : Prop := ∃ a, handleAt s loc = some (kind,a)

def Var (x : ℕ) (kind : HandleKind) : Prop :=
  Handle s (x,0) kind ∧ ∃ blk, s.get x = some blk ∧ blk.pinned = true

def Legal : Action → Prop
  | copy src => ∃ kind, Handle s src kind
  | wrap src => ∃ kind, Handle s src kind
  | assign x src => ∃ kindX kind, Var s x kindX ∧ Handle s src kind ∧ kindX.sameClass kind = true
  | destroy x => ∃ kind, Var s x kind
  | listAppend x val => (∃ arrayMode, Var s x (.list arrayMode)) ∧ Handle s val .data
  | listRemove x val => (∃ arrayMode, Var s x (.list arrayMode)) ∧ Handle s val .data
  | dictAppend x key value => Var s x .dict ∧ Handle s key .data ∧ Handle s value .data
  | dictRemove x key => Var s x .dict ∧ Handle s key .data
  | clear x => ∃ kind, Var s x kind ∧ kind ≠ .data
  | _ => True

/-- The handles to one thing, and once more those among them in one block, which a copy of
that block would add, are fewer than 32 bits can count. -/
def Room : Prop := ∀ a p blk, s.get p = some blk → s.handles a + blk.held.count a < 4294967296

/-- The block with the source of an assignment can be reached without the handle that is
assigned to. -/
def SourceStays : Action → Prop
  | assign x src => s.Reaches (x,0) src.1
  | dictAppend x key value => ∀ c k v, s.read (x,0) = some c → s.read key = some k → s.read value = some v →
      dictTakes s c k v = true → ∀ s' c' i, unhook s x = some (s',c') → search s' equal c' 2 key = some i →
      s'.Reaches (c',2 * i + 1) value.1
  | _ => True

/-- The call returns. Every count is the number of handles, and what has none is freed, once;
the other variables keep their handles, and through any other handle the same is seen as
before. -/
structure Sound (a : Action) (s' : Store) : Prop where
  counted : s'.Counted []
  counts : ∀ a blk, s'.get a = some blk → s'.handles a < 4294967296 → blk.refs.toNat = s'.handles a
  vars : ∀ x var, s.get x = some var → var.pinned = true → some x ≠ a.target →
    ∃ var', s'.get x = some var' ∧ var'.held = var.held
  others : ∀ loc b blk', (∀ x, a.target = some x → loc ≠ (x,0)) → s.read loc = some b → s'.get b = some blk' →
    ∀ path, s'.look b path = s.look b path

end Law
end Action
end Edelib.Edbus.Sharing
