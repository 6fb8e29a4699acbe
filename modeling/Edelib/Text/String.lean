import Edelib.Foundation.Blocks
import Edelib.Foundation.CString
import Edelib.Foundation.Transition

/-! # Strings

A String points to data of its own or, as long as nothing has been put into it, to the
`null_data` that all Strings share, whose characters are a literal.
-/
namespace Edelib.Text
open Foundation

abbrev Memory := Blocks UInt8

def STERM : UInt8 := 0

/-- Lengths are unsigned and have 32 bits. -/
def sizeType (n : ℕ) : ℕ := n % 4294967296

def npos : ℕ := 4294967295

def nullChars : ℕ := 0

inductive StringData
  | nullData
  | own (length capacity chars : ℕ)
  deriving DecidableEq

namespace StringData

def length : StringData → ℕ
  | nullData => 0
  | own len _ _ => len

def capacity : StringData → ℕ
  | nullData => 0
  | own _ cap _ => cap

def chars : StringData → ℕ
  | nullData => nullChars
  | own _ _ chars => chars

/-- `sdata->length += len`. -/
def addLength (d : StringData) (n : ℕ) : StringData :=
  match d with
  | nullData => nullData
  | own len cap chars => own (sizeType (len + n)) cap chars

end StringData

/-- Where a `const char*` argument points to: a text of the caller, or the characters of
a String. -/
inductive Source
  | text (data : List UInt8)
  | chars (a : ℕ)

namespace Source

def read (m : Memory) (len : ℕ) : Source → Except Fault (List UInt8)
  | text data => if len ≤ data.length + 1 then .ok ((data ++ [STERM]).take len) else .error .outside
  | chars a => m.read a len

def strlen (m : Memory) : Source → Except Fault ℕ
  | text data => .ok (CString.ofBuf data).strlen
  | chars a =>
    match m.block a with
    | none => .error .freed
    | some b => if STERM ∈ b.data then .ok (CString.ofBuf b.data).strlen else .error .outside

end Source

/-! ## The members -/

def init (m : Memory) (len cap : ℕ) : Except Fault (Memory × StringData) :=
  if len ≤ cap then do
    let (m,chars) := m.alloc (sizeType (cap + 1))
    let m ← m.write chars 0 [STERM]
    pure (m,.own len cap chars)
  else .error .assertion

def dispose (m : Memory) : StringData → Except Fault Memory
  | .nullData => .ok m
  | .own _ _ chars => m.free chars

/-- The temporary String that is swapped with this one is destroyed. -/
def reserve (m : Memory) (d : StringData) (cap : ℕ) : Except Fault (Memory × StringData) :=
  if cap > d.capacity then do
    let (m,tmp) ← init m d.length cap
    let bytes ← m.read d.chars d.length
    let m ← m.write tmp.chars 0 bytes
    let m ← dispose m d
    pure (m,tmp)
  else pure (m,d)

def assignLen (m : Memory) (d : StringData) (str : Source) (len : ℕ) : Except Fault (Memory × StringData) :=
  if len < npos / 2 then do
    let cap := d.capacity
    let m ← dispose m d
    let (m,d) ← (if len < cap then init m len cap else init m len len)
    let bytes ← str.read m len
    let m ← m.write d.chars 0 bytes
    let m ← m.write d.chars len [STERM]
    pure (m,d)
  else .error .assertion

def assign (m : Memory) (d : StringData) (str : Source) : Except Fault (Memory × StringData) := do
  let len ← str.strlen m
  assignLen m d str (sizeType len)

def putBehind (m : Memory) (d : StringData) (bytes : List UInt8) (len : ℕ) : Except Fault (Memory × StringData) := do
  let m ← m.write d.chars d.length bytes
  let d := d.addLength len
  let m ← m.write d.chars d.length [STERM]
  pure (m,d)

def appendLen (m : Memory) (d : StringData) (str : Source) (len : ℕ) : Except Fault (Memory × StringData) :=
  if len = 0 then pure (m,d)
  else if sizeType (len + d.length) ≤ d.capacity then do
    let bytes ← str.read m len
    putBehind m d bytes len
  else do
    let (m,d) ← reserve m d (sizeType (sizeType (d.capacity + len) * 2))
    let bytes ← str.read m len
    putBehind m d bytes len

def append (m : Memory) (d : StringData) (str : Source) : Except Fault (Memory × StringData) := do
  let len ← str.strlen m
  appendLen m d str (sizeType len)

def appendChars (m : Memory) (d : StringData) (num : ℕ) (ch : UInt8) : Except Fault (Memory × StringData) :=
  if sizeType (num + d.length) ≤ d.capacity then putBehind m d (List.replicate num ch) num
  else do
    let (m,buff) := m.alloc num
    let m ← m.write buff 0 (List.replicate num ch)
    let (m,d) ← appendLen m d (.chars buff) num
    let m ← m.free buff
    pure (m,d)

def clear (m : Memory) (d : StringData) : Except Fault (Memory × StringData) := do
  let m ← dispose m d
  pure (m,.nullData)

/-! ## Programs with Strings -/

structure StringState where
  mem : Memory
  sdata : ℕ → Option StringData

/-- Only the literal is there; what the memory holds elsewhere is left open. -/
def StringState.initial (junk : ℕ → ℕ → UInt8) : StringState where
  mem := { block := fun a => if a = nullChars then some ⟨[STERM],true⟩ else none, fresh := 1, junk }
  sdata := fun _ => none

/-- A `const char*` argument: a text of the caller, or `c_str()` of a String. -/
inductive CharsArg
  | text (data : List UInt8)
  | cStr (j : ℕ)
  deriving DecidableEq

inductive Member
  | assignLen (str : CharsArg) (len : BitVec 32)
  | assign (str : CharsArg)
  | assignString (j : ℕ)
  | appendLen (str : CharsArg) (len : BitVec 32)
  | append (str : CharsArg)
  | appendString (j : ℕ)
  | appendChars (num : BitVec 32) (ch : UInt8)
  | operatorAssign (str : CharsArg)
  | operatorAssignString (j : ℕ)
  | operatorAdd (str : CharsArg)
  | operatorAddString (j : ℕ)
  | operatorAddChar (ch : UInt8)
  | reserve (cap : BitVec 32)
  | clear

inductive StringAction
  | create (i : ℕ)
  | createFrom (i : ℕ) (str : CharsArg)
  | createCopy (i j : ℕ)
  | destroy (i : ℕ)
  | call (i : ℕ) (f : Member)
  | swap (i j : ℕ)

namespace StringState

/-- The data of a String; there is none where no String is live. -/
def data (s : StringState) (i : ℕ) : Except Fault StringData :=
  match s.sdata i with
  | none => .error .freed
  | some d => .ok d

def source (s : StringState) : CharsArg → Except Fault Source
  | .text data => .ok (.text data)
  | .cStr j => (s.data j).map (fun d => .chars d.chars)

def set (s : StringState) (i : ℕ) (r : Memory × StringData) : StringState :=
  ⟨r.1,Function.update s.sdata i (some r.2)⟩

theorem set_self (s : StringState) (i : ℕ) (r : Memory × StringData) : (s.set i r).sdata i = some r.2 :=
  Function.update_self i _ _

theorem set_of_ne (s : StringState) {i j : ℕ} (h : j ≠ i) (r : Memory × StringData) :
    (s.set i r).sdata j = s.sdata j :=
  Function.update_of_ne h _ _

end StringState

namespace Member

def apply (s : StringState) (i : ℕ) (d : StringData) : Member → Except Fault (Memory × StringData)
  | assignLen str len => do Text.assignLen s.mem d (← s.source str) len.toNat
  | assign str => do Text.assign s.mem d (← s.source str)
  | assignString j => do
    let str ← s.data j
    Text.assignLen s.mem d (.chars str.chars) str.length
  | appendLen str len => do Text.appendLen s.mem d (← s.source str) len.toNat
  | append str => do Text.append s.mem d (← s.source str)
  | appendString j => do
    let str ← s.data j
    Text.appendLen s.mem d (.chars str.chars) str.length
  | appendChars num ch => Text.appendChars s.mem d num.toNat ch
  | operatorAssign str => do Text.assign s.mem d (← s.source str)
  | operatorAssignString j =>
    if j ≠ i then do
      let str ← s.data j
      Text.assignLen s.mem d (.chars str.chars) str.length
    else pure (s.mem,d)
  | operatorAdd str => do Text.append s.mem d (← s.source str)
  | operatorAddString j => do
    let str ← s.data j
    Text.appendLen s.mem d (.chars str.chars) str.length
  | operatorAddChar ch => Text.appendChars s.mem d 1 ch
  | reserve cap => Text.reserve s.mem d cap.toNat
  | clear => Text.clear s.mem d

end Member

namespace StringAction

def apply (s : StringState) : StringAction → Except Fault StringState
  | create i => .ok (s.set i (s.mem,.nullData))
  | createFrom i str => do
    let r ← assign s.mem .nullData (← s.source str)
    pure (s.set i r)
  | createCopy i j => do
    let str ← s.data j
    if str.length ≠ 0 then
      let r ← assign s.mem .nullData (.chars str.chars)
      pure (s.set i r)
    else pure (s.set i (s.mem,.nullData))
  | destroy i => do
    let d ← s.data i
    let m ← dispose s.mem d
    pure ⟨m,Function.update s.sdata i none⟩
  | call i f => do
    let d ← s.data i
    let r ← f.apply s i d
    pure (s.set i r)
  | swap i j => do
    let d ← s.data i
    let e ← s.data j
    pure { s with sdata := Function.update (Function.update s.sdata i (some e)) j (some d) }

def step (s : StringState) (a : StringAction) : Option StringState := (apply s a).toOption

end StringAction
end Edelib.Text
