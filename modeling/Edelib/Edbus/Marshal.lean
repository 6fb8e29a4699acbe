import Edelib.Edbus.Containers
import Edelib.Edbus.LibDBus
import Edelib.Edbus.ObjectPath

/-! # Marshalling

Data are appended to a message and read back from one. A failed assertion, a null text
used as one and an unknown type end either direction without a result.
-/
namespace Edelib.Edbus
open Foundation

/-- `from_edbusdata_type_to_dbus_type_string`; the text of the invalid type is null. -/
def typeString : EdbusDataType → Option (List Char)
  | .byte => some ['y']
  | .bool => some ['b']
  | .int16 => some ['n']
  | .uint16 => some ['q']
  | .int32 => some ['i']
  | .uint32 => some ['u']
  | .int64 => some ['x']
  | .uint64 => some ['t']
  | .double => some ['d']
  | .string => some ['s']
  | .objectPath => some ['o']
  | .array => some ['a']
  | .struct => some ['r']
  | .dict => some ['e']
  | .variant => some ['v']
  | .invalid => none

/-- `sig +=` the text of a type. -/
def appendTypeString (type : EdbusDataType) (sig : List Char) : Option (List Char) :=
  (typeString type).map (fun str => sig ++ str)

mutual
def buildSignature (data : EdbusData) (sig : List Char) : Option (List Char) :=
  match data with
  | .dict [] => some sig
  | .dict (⟨key,value⟩ :: lst) =>
    if dictSize (⟨key,value⟩ :: lst) = 0 then some sig
    else do
      let sig ← appendTypeString key.type (sig ++ ['a','\x7b'])
      let sig ← (if value.basicType then appendTypeString value.type sig else buildSignature value sig)
      some (sig ++ ['\x7d'])
  | .array [] => some sig
  | .array (d :: lst) =>
    if listSize (d :: lst) = 0 then some sig
    else
      let sig := sig ++ ['a']
      if d.basicType then appendTypeString d.type sig else buildSignature d sig
  | .struct lst =>
    if listSize lst = 0 then some sig
    else do
      let sig ← buildSignatures lst (sig ++ ['('])
      some (sig ++ [')'])
  | .basic v => appendTypeString v.type sig
  | .variant _ => appendTypeString .variant sig
  termination_by structural data
def buildSignatures (lst : List EdbusData) (sig : List Char) : Option (List Char) :=
  match lst with
  | [] => some sig
  | d :: lst => do
    let sig ← (if d.basicType then appendTypeString d.type sig else buildSignature d sig)
    buildSignatures lst sig
  termination_by structural lst
end

/-- `value_type_is_container`, on the value it looks at. -/
def valueTypeIsContainer (value : EdbusData) : Bool := !value.basicType && value.type != .variant

def partSignature (value : EdbusData) : Option (List Char) :=
  if valueTypeIsContainer value then buildSignature value [] else typeString value.type

def variantSignature (value : EdbusData) : Option (List Char) :=
  if !value.basicType then buildSignature value [] else typeString value.type

/-- `snprintf` into `sig[256]`: no more than 255 characters are kept. -/
def dictSignature (keySig valueSig : List Char) : List Char :=
  ('\x7b' :: (keySig ++ valueSig ++ ['\x7d'])).take 255

section Encode
variable (lib : LibDBusCalls)

def toDBusIterFromBasicType (it : lib.AppendIter) : EdbusBasic → Option lib.AppendIter
  | .bool v => some (lib.appendBasic it (.boolean (if v then 1 else 0)))
  | .byte v => some (lib.appendBasic it (.byte v))
  | .int16 v => some (lib.appendBasic it (.int16 v))
  | .uint16 v => some (lib.appendBasic it (.uint16 v))
  | .int32 v => some (lib.appendBasic it (.int32 v))
  | .uint32 v => some (lib.appendBasic it (.uint32 v))
  | .int64 v => some (lib.appendBasic it (.int64 v))
  | .uint64 v => some (lib.appendBasic it (.uint64 v))
  | .double v => some (lib.appendBasic it (.double v))
  | .string v => some (lib.appendBasic it (.string v))
  | _ => none

/-- The same on data that are not basic, which fail the assertion. -/
def toDBusIterFromKey (it : lib.AppendIter) : EdbusData → Option lib.AppendIter
  | .basic v => toDBusIterFromBasicType lib it v
  | _ => none

def toDBusIterFromDict (parent : lib.AppendIter) (dict : List EdbusDictEntry)
    (entries : lib.AppendIter → Option lib.AppendIter) : Option lib.AppendIter :=
  match dict with
  | [] => some parent
  | first :: _ =>
    if dictSize dict = 0 then some parent
    else do
      let keySig ← typeString first.key.type
      let valueSig ← partSignature first.value
      let sub ← entries (lib.openContainer parent .array (some (dictSignature keySig valueSig)))
      some (lib.closeContainer parent sub)

def toDBusIterFromArray (parent : lib.AppendIter) (arr : List EdbusData)
    (elements : lib.AppendIter → Option lib.AppendIter) : Option lib.AppendIter :=
  match arr with
  | [] => some parent
  | first :: _ =>
    if listSize arr = 0 then some parent
    else do
      let valueSig ← partSignature first
      let sub ← elements (lib.openContainer parent .array (some valueSig))
      some (lib.closeContainer parent sub)

def toDBusIterFromStruct (parent : lib.AppendIter) (fields : lib.AppendIter → Option lib.AppendIter) :
    Option lib.AppendIter := do
  let sub ← fields (lib.openContainer parent .struct none)
  some (lib.closeContainer parent sub)

def toDBusIterFromVariant (parent : lib.AppendIter) (value : EdbusData)
    (append : lib.AppendIter → Option lib.AppendIter) : Option lib.AppendIter :=
  if value.type = .invalid then some parent
  else do
    let valueSig ← variantSignature value
    let sub ← append (lib.openContainer parent .variant (some valueSig))
    some (lib.closeContainer parent sub)

mutual
/-- `to_dbus_iter_from_edbusdata_type`. -/
def toDBusIter (parent : lib.AppendIter) : EdbusData → Option lib.AppendIter
  | .basic v => toDBusIterFromBasicType lib parent v
  | .dict lst => toDBusIterFromDict lib parent lst (fun sub => toDBusIterEntries sub lst)
  | .array lst => toDBusIterFromArray lib parent lst (fun sub => toDBusIterElements sub lst)
  | .struct lst => toDBusIterFromStruct lib parent (fun sub => toDBusIterElements sub lst)
  | .variant value => toDBusIterFromVariant lib parent value (fun sub => toDBusIter sub value)
  termination_by structural x => x
def toDBusIterElements (sub : lib.AppendIter) : List EdbusData → Option lib.AppendIter
  | [] => some sub
  | it :: lst => do
    let sub ← toDBusIter sub it
    toDBusIterElements sub lst
  termination_by structural x => x
def toDBusIterEntries (sub : lib.AppendIter) : List EdbusDictEntry → Option lib.AppendIter
  | [] => some sub
  | ⟨key,value⟩ :: lst => do
    let dictEntryIter := lib.openContainer sub .dictEntry none
    let dictEntryIter ← toDBusIterFromKey lib dictEntryIter key
    let dictEntryIter ← toDBusIter dictEntryIter value
    toDBusIterEntries (lib.closeContainer sub dictEntryIter) lst
  termination_by structural x => x
end

theorem toDBusIter_struct (parent : lib.AppendIter) (lst : List EdbusData) : toDBusIter lib parent (.struct lst) =
    toDBusIterFromStruct lib parent (fun sub => toDBusIterElements lib sub lst) := by
  rw [toDBusIter]

end Encode

section Decode
variable (lib : LibDBusCalls)

def fromBasic : DBusBasic → EdbusBasic
  | .boolean v => .bool (v != 0)
  | .byte v => .byte v
  | .int16 v => .int16 v
  | .uint16 v => .uint16 v
  | .int32 v => .int32 v
  | .uint32 v => .uint32 v
  | .int64 v => .int64 v
  | .uint64 v => .uint64 v
  | .double v => .double v
  | .string v => .string v
  | .objectPath v => .objectPath (objectPath v)

mutual
/-- `from_dbus_iter_to_edbusdata_type`; the fuel bounds the calls and turns of loops. -/
def fromDBusIter : ℕ → lib.ReadIter → Option EdbusData
  | 0,_ => none
  | fuel + 1,iter =>
    match lib.getArgType iter with
    | .array =>
      if lib.getElementType iter = .dictEntry then
        let arrayIter := lib.recurse iter
        if lib.getArgType arrayIter = .invalid then some (.dict [])
        else (fromDBusIterEntries fuel arrayIter []).map .dict
      else (fromDBusIterElements fuel true (lib.recurse iter) []).map .array
    | .variant => (fromDBusIter fuel (lib.recurse iter)).map .variant
    | .struct => (fromDBusIterElements fuel false (lib.recurse iter) []).map .struct
    | .invalid => none
    | .dictEntry => none
    | dtype =>
      let v := lib.getBasic iter
      if v.type = dtype then some (.basic (fromBasic v)) else none
  termination_by structural x => x
def fromDBusIterElements : ℕ → Bool → lib.ReadIter → List EdbusData → Option (List EdbusData)
  | 0,_,_,_ => none
  | fuel + 1,arrayMode,it,lst =>
    if lib.getArgType it = .invalid then some lst
    else do
      let val ← fromDBusIter fuel it
      fromDBusIterElements fuel arrayMode (lib.next it) (listAppend arrayMode lst val)
  termination_by structural x => x
def fromDBusIterEntries : ℕ → lib.ReadIter → List EdbusDictEntry → Option (List EdbusDictEntry)
  | 0,_,_ => none
  | fuel + 1,arrayIter,ret =>
    if lib.getArgType arrayIter ≠ .dictEntry then some ret
    else
      let kv := lib.recurse arrayIter
      if lib.getArgType kv = .invalid then fromDBusIterEntries fuel (lib.next arrayIter) ret
      else do
        let key ← fromDBusIter fuel kv
        let kv := lib.next kv
        if lib.getArgType kv = .invalid then fromDBusIterEntries fuel (lib.next arrayIter) ret
        else
          let value ← fromDBusIter fuel kv
          let ret ← dictAppend ret key value
          fromDBusIterEntries fuel (lib.next arrayIter) ret
  termination_by structural x => x
end
end Decode

end Edelib.Edbus
