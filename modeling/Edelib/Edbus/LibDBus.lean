import Edelib.Foundation.CString

/-! # Messages of libdbus

The arguments of a message are typed values. The library writes and reads them through
iterators, one call for a basic value and two around the parts of a container. All that
is assumed of it: a sequence of well-typed appends is stored, and read back in order.
-/
namespace Edelib.Edbus
open Foundation

inductive DBusType
  | invalid | byte | boolean | int16 | uint16 | int32 | uint32 | int64 | uint64 | double | string | objectPath
  | array | variant | struct | dictEntry
deriving DecidableEq, Repr

inductive DBusBasic
  | byte (v : UInt8)
  | boolean (v : BitVec 32)
  | int16 (v : BitVec 16)
  | uint16 (v : BitVec 16)
  | int32 (v : BitVec 32)
  | uint32 (v : BitVec 32)
  | int64 (v : BitVec 64)
  | uint64 (v : BitVec 64)
  | double (v : BitVec 64)
  | string (v : CString)
  | objectPath (v : CString)

/-- A value in a message; an array is opened with the signature of its elements. -/
inductive DBusValue
  | basic (v : DBusBasic)
  | array (elementSig : List Char) (elements : List DBusValue)
  | struct (fields : List DBusValue)
  | dictEntry (key value : DBusValue)
  | variant (value : DBusValue)

def DBusBasic.type : DBusBasic → DBusType
  | byte _ => .byte
  | boolean _ => .boolean
  | int16 _ => .int16
  | uint16 _ => .uint16
  | int32 _ => .int32
  | uint32 _ => .uint32
  | int64 _ => .int64
  | uint64 _ => .uint64
  | double _ => .double
  | string _ => .string
  | objectPath _ => .objectPath

def DBusBasic.code : DBusBasic → Char
  | byte _ => 'y'
  | boolean _ => 'b'
  | int16 _ => 'n'
  | uint16 _ => 'q'
  | int32 _ => 'i'
  | uint32 _ => 'u'
  | int64 _ => 'x'
  | uint64 _ => 't'
  | double _ => 'd'
  | string _ => 's'
  | objectPath _ => 'o'

namespace DBusValue

def type : DBusValue → DBusType
  | basic v => v.type
  | array _ _ => .array
  | struct _ => .struct
  | dictEntry _ _ => .dictEntry
  | variant _ => .variant

def children : DBusValue → List DBusValue
  | basic _ => []
  | array _ elements => elements
  | struct fields => fields
  | dictEntry key value => [key,value]
  | variant value => [value]

mutual
def signature : DBusValue → List Char
  | basic v => [v.code]
  | array elementSig _ => 'a' :: elementSig
  | struct fields => '(' :: (signatures fields ++ [')'])
  | dictEntry key value => '\x7b' :: (key.signature ++ value.signature ++ ['\x7d'])
  | variant _ => ['v']
  termination_by structural x => x
def signatures : List DBusValue → List Char
  | [] => []
  | v :: values => v.signature ++ signatures values
  termination_by structural x => x
end

/-- Containers have parts, the elements of an array have its signature, and entries with
a basic key are elements only. -/
inductive WellTyped : DBusValue → Prop
  | basic (v : DBusBasic) : WellTyped (.basic v)
  | array {elementSig : List Char} {elements : List DBusValue} (nonempty : elements ≠ [])
      (sig : ∀ v ∈ elements, v.signature = elementSig) (typed : ∀ v ∈ elements, WellTyped v) :
      WellTyped (.array elementSig elements)
  | struct {fields : List DBusValue} (nonempty : fields ≠ []) (complete : ∀ v ∈ fields, v.type ≠ .dictEntry)
      (typed : ∀ v ∈ fields, WellTyped v) : WellTyped (.struct fields)
  | dictEntry (key : DBusBasic) {value : DBusValue} (complete : value.type ≠ .dictEntry)
      (typed : WellTyped value) : WellTyped (.dictEntry (.basic key) value)
  | variant {value : DBusValue} (complete : value.type ≠ .dictEntry) (typed : WellTyped value) :
      WellTyped (.variant value)

def Argument (v : DBusValue) : Prop := v.type ≠ .dictEntry ∧ v.WellTyped

end DBusValue

structure LibDBusCalls where
  AppendIter : Type
  ReadIter : Type
  initAppend : AppendIter
  appendBasic : AppendIter → DBusBasic → AppendIter
  openContainer : AppendIter → DBusType → Option (List Char) → AppendIter
  closeContainer : AppendIter → AppendIter → AppendIter
  initRead : AppendIter → ReadIter
  getArgType : ReadIter → DBusType
  getElementType : ReadIter → DBusType
  getBasic : ReadIter → DBusBasic
  recurse : ReadIter → ReadIter
  next : ReadIter → ReadIter

namespace LibDBusCalls
variable (lib : LibDBusCalls)

mutual
def appendValue (it : lib.AppendIter) : DBusValue → lib.AppendIter
  | .basic v => lib.appendBasic it v
  | .array elementSig elements =>
    lib.closeContainer it (appendValues (lib.openContainer it .array (some elementSig)) elements)
  | .struct fields => lib.closeContainer it (appendValues (lib.openContainer it .struct none) fields)
  | .dictEntry key value =>
    let sub := lib.openContainer it .dictEntry none
    lib.closeContainer it (appendValue (appendValue sub key) value)
  | .variant value =>
    lib.closeContainer it (appendValue (lib.openContainer it .variant (some value.signature)) value)
  termination_by structural x => x
def appendValues (it : lib.AppendIter) : List DBusValue → lib.AppendIter
  | [] => it
  | v :: values => appendValues (appendValue it v) values
  termination_by structural x => x
end

def skip : ℕ → lib.ReadIter → lib.ReadIter
  | 0,it => it
  | n + 1,it => skip n (lib.next it)

end LibDBusCalls

/-- What the library promises. `Reading it values`: the iterator is at the first of the
values and reaches the others in turn. -/
structure LibDBus extends LibDBusCalls where
  Reading : ReadIter → List DBusValue → Prop
  stores : ∀ values, (∀ v ∈ values, v.Argument) →
    Reading (initRead (toLibDBusCalls.appendValues initAppend values)) values
  reading_nil : ∀ it, Reading it [] → getArgType it = .invalid
  reading_type : ∀ it v values, Reading it (v :: values) → getArgType it = v.type
  reading_next : ∀ it v values, Reading it (v :: values) → Reading (next it) values
  reading_basic : ∀ it v values, Reading it (.basic v :: values) → getBasic it = v
  reading_element : ∀ it sig v elements values, Reading it (.array sig (v :: elements) :: values) →
    getElementType it = v.type
  reading_recurse : ∀ it v values, Reading it (v :: values) → v.children ≠ [] →
    Reading (recurse it) v.children

end Edelib.Edbus
