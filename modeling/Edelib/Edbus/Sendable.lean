import Edelib.Edbus.Marshal

/-! # Data that can be sent

Data stand for a typed value of a message. Their signature is what `build_signature`
computes, and it determines their type.
-/
namespace Edelib.Edbus
open Foundation

/-! ## The value that stands for the data in a message -/

/-- Data without a value are never sent. -/
def toBasic : EdbusBasic → DBusBasic
  | .invalid => .byte 0
  | .byte v => .byte v
  | .bool v => .boolean (if v then 1 else 0)
  | .int16 v => .int16 v
  | .uint16 v => .uint16 v
  | .int32 v => .int32 v
  | .uint32 v => .uint32 v
  | .int64 v => .int64 v
  | .uint64 v => .uint64 v
  | .double v => .double v
  | .string v => .string v
  | .objectPath v => .objectPath v

def firstSignature : List DBusValue → List Char
  | [] => []
  | v :: _ => v.signature

mutual
def toValue : EdbusData → DBusValue
  | .basic v => .basic (toBasic v)
  | .array lst => .array (firstSignature (toValues lst)) (toValues lst)
  | .struct lst => .struct (toValues lst)
  | .dict lst => .array (firstSignature (toEntries lst)) (toEntries lst)
  | .variant value => .variant (toValue value)
  termination_by structural x => x
def toValues : List EdbusData → List DBusValue
  | [] => []
  | d :: lst => toValue d :: toValues lst
  termination_by structural x => x
def toEntries : List EdbusDictEntry → List DBusValue
  | [] => []
  | ⟨key,value⟩ :: lst => .dictEntry (toValue key) (toValue value) :: toEntries lst
  termination_by structural x => x
end

def EdbusData.signature (d : EdbusData) : List Char := (toValue d).signature

def toEntry (e : EdbusDictEntry) : DBusValue := .dictEntry (toValue e.key) (toValue e.value)

theorem toValues_eq_map (lst : List EdbusData) : toValues lst = lst.map toValue := by
  induction lst with
  | nil => rfl
  | cons d lst ih => rw [toValues,ih,List.map_cons]

theorem toEntries_eq_map (lst : List EdbusDictEntry) : toEntries lst = lst.map toEntry := by
  induction lst with
  | nil => rfl
  | cons e lst ih =>
    obtain ⟨key,value⟩ := e
    rw [toEntries,ih,List.map_cons]
    rfl

/-! ## Data that can be sent -/

/-- No data without a value, no container that is counted as empty, one signature for the
parts of arrays and dicts; the keys of a dict are basic and no two are equal. -/
def sendable (d : EdbusData) : Bool :=
  everywhere (fun
    | .basic v => v != .invalid
    | .array lst => listSize lst != 0 && lst.all (fun d => d.signature == firstSignature (toValues lst))
    | .struct lst => listSize lst != 0
    | .dict lst => dictSize lst != 0 && decide (DistinctKeys lst) &&
      lst.all (fun e => (toEntry e).signature == firstSignature (toEntries lst))
    | .variant _ => true) d

def noObjectPath (d : EdbusData) : Bool :=
  everywhere (fun
    | .basic (.objectPath _) => false
    | _ => true) d

/-- The signature of a dict's entries fits the 255 characters kept of it. -/
def shortDicts (d : EdbusData) : Bool :=
  everywhere (fun
    | .dict (first :: _) => decide (first.value.signature.length ≤ 252)
    | _ => true) d

theorem sendable_basic {v : EdbusBasic} : sendable (.basic v) = true ↔ v ≠ .invalid := by
  simp [sendable]

theorem sendable_array {lst : List EdbusData} : sendable (.array lst) = true ↔
    listSize lst ≠ 0 ∧ (∀ d ∈ lst, d.signature = firstSignature (toValues lst)) ∧ ∀ d ∈ lst, sendable d = true := by
  simp [sendable,and_assoc]

theorem sendable_struct {lst : List EdbusData} : sendable (.struct lst) = true ↔
    listSize lst ≠ 0 ∧ ∀ d ∈ lst, sendable d = true := by
  simp [sendable]

theorem sendable_dict {lst : List EdbusDictEntry} : sendable (.dict lst) = true ↔
    dictSize lst ≠ 0 ∧ DistinctKeys lst ∧ (∀ e ∈ lst, (toEntry e).signature = firstSignature (toEntries lst)) ∧
      ∀ e ∈ lst, sendable e.key = true ∧ sendable e.value = true := by
  simp [sendable,and_assoc]

theorem sendable_variant {value : EdbusData} : sendable (.variant value) = true ↔ sendable value = true := by
  simp [sendable]

/-! ## Signatures -/

theorem toValue_type_ne (d : EdbusData) : (toValue d).type ≠ .dictEntry := by
  cases d with
  | basic v => cases v <;> nofun
  | _ => nofun

theorem toValue_type_valid (d : EdbusData) : (toValue d).type ≠ .invalid := by
  cases d with
  | basic v => cases v <;> nofun
  | _ => nofun

/-- No signature of data is that of an entry. -/
theorem signature_head (d : EdbusData) : ∃ c str, d.signature = c :: str ∧ c ≠ '\x7b' := by
  cases d with
  | basic v => exact ⟨_,[],rfl,by cases v <;> simp [toBasic,DBusBasic.code]⟩
  | array lst => exact ⟨'a',_,rfl,by decide⟩
  | struct lst => exact ⟨'(',_,rfl,by decide⟩
  | dict lst => exact ⟨'a',_,rfl,by decide⟩
  | variant value => exact ⟨'v',[],rfl,by decide⟩

def typeOfSignature : List Char → EdbusDataType
  | 'y' :: _ => .byte
  | 'b' :: _ => .bool
  | 'n' :: _ => .int16
  | 'q' :: _ => .uint16
  | 'i' :: _ => .int32
  | 'u' :: _ => .uint32
  | 'x' :: _ => .int64
  | 't' :: _ => .uint64
  | 'd' :: _ => .double
  | 's' :: _ => .string
  | 'o' :: _ => .objectPath
  | 'a' :: '\x7b' :: _ => .dict
  | 'a' :: _ => .array
  | '(' :: _ => .struct
  | 'v' :: _ => .variant
  | _ => .invalid

theorem typeOfSignature_signature {d : EdbusData} (h : sendable d = true) :
    typeOfSignature d.signature = d.type := by
  cases d with
  | basic v =>
    cases v with
    | invalid => exact absurd rfl (sendable_basic.mp h)
    | _ => rfl
  | array lst =>
    cases lst with
    | nil => exact absurd rfl (ne_nil_of_listSize (sendable_array.mp h).1)
    | cons d lst =>
      obtain ⟨c,str,hsig,hc⟩ := signature_head d
      change typeOfSignature ('a' :: d.signature) = .array
      rw [hsig]
      simp [typeOfSignature,hc]
  | struct lst => rfl
  | dict lst =>
    cases lst with
    | nil => exact absurd rfl (ne_nil_of_dictSize (sendable_dict.mp h).1)
    | cons e lst =>
      obtain ⟨key,value⟩ := e
      rfl
  | variant value => rfl

theorem type_eq_of_signature {d1 d2 : EdbusData} (h1 : sendable d1 = true) (h2 : sendable d2 = true)
    (h : d1.signature = d2.signature) : d1.type = d2.type := by
  rw [← typeOfSignature_signature h1,h,typeOfSignature_signature h2]

theorem typeString_basic {v : EdbusBasic} (h : v ≠ .invalid) :
    typeString v.type = some (EdbusData.basic v).signature := by
  cases v with
  | invalid => exact absurd rfl h
  | _ => rfl

/-- A basic part takes the short way to what `build_signature` would append as well. -/
theorem part_buildSignature (d : EdbusData) (sig : List Char) :
    (if d.basicType then appendTypeString d.type sig else buildSignature d sig) = buildSignature d sig := by
  cases d <;> rfl

theorem buildSignatures_eq {lst : List EdbusData}
    (ih : ∀ d ∈ lst, ∀ sig, buildSignature d sig = some (sig ++ d.signature)) (sig : List Char) :
    buildSignatures lst sig = some (sig ++ DBusValue.signatures (toValues lst)) := by
  induction lst generalizing sig with
  | nil => simp [buildSignatures,toValues,DBusValue.signatures]
  | cons d lst ihl =>
    obtain ⟨hd,hlst⟩ := List.forall_mem_cons.mp ih
    rw [buildSignatures,part_buildSignature,hd,Option.bind_eq_bind,Option.bind_some,ihl hlst]
    simp [toValues,DBusValue.signatures,EdbusData.signature]

theorem buildSignature_eq {d : EdbusData} (h : sendable d = true) (sig : List Char) :
    buildSignature d sig = some (sig ++ d.signature) := by
  induction d using EdbusData.induct generalizing sig with
  | basic v =>
    change appendTypeString v.type sig = _
    rw [appendTypeString,typeString_basic (sendable_basic.mp h),Option.map_some]
  | array lst ih =>
    obtain ⟨hsize,-,hparts⟩ := sendable_array.mp h
    cases lst with
    | nil => exact absurd rfl hsize
    | cons d lst =>
      have hd := ih d List.mem_cons_self (hparts d List.mem_cons_self) (sig ++ ['a'])
      rw [buildSignature,if_neg hsize,part_buildSignature,hd]
      simp [EdbusData.signature,toValue,toValues,firstSignature,DBusValue.signature]
  | struct lst ih =>
    obtain ⟨hsize,hparts⟩ := sendable_struct.mp h
    rw [buildSignature,if_neg hsize,buildSignatures_eq (fun d hd => ih d hd (hparts d hd)) (sig ++ ['('])]
    simp [EdbusData.signature,toValue,DBusValue.signature]
  | dict lst ih =>
    obtain ⟨hsize,hkeys,-,hparts⟩ := sendable_dict.mp h
    cases lst with
    | nil => exact absurd rfl hsize
    | cons e lst =>
      obtain ⟨key,value⟩ := e
      obtain ⟨hskey,hsvalue⟩ := hparts ⟨key,value⟩ List.mem_cons_self
      have hvalue : ∀ sig, buildSignature value sig = some (sig ++ value.signature) :=
        (ih ⟨key,value⟩ List.mem_cons_self).2 hsvalue
      have hkey := hkeys.basic ⟨key,value⟩ List.mem_cons_self
      cases key with
      | basic v =>
        have hv : appendTypeString (EdbusData.basic v).type (sig ++ ['a','\x7b']) = _ :=
          congrArg (Option.map _) (typeString_basic (sendable_basic.mp hskey))
        rw [buildSignature,if_neg hsize,hv]
        simp only [Option.map_some,Option.bind_eq_bind,Option.bind_some,part_buildSignature]
        rw [hvalue]
        simp [EdbusData.signature,toValue,toEntries,firstSignature,DBusValue.signature]
      | _ => cases hkey
  | variant value ih => rfl

theorem partSignature_eq {d : EdbusData} (h : sendable d = true) : partSignature d = some d.signature := by
  have hbuild := buildSignature_eq h []
  cases d with
  | basic v => exact typeString_basic (sendable_basic.mp h)
  | variant value => rfl
  | _ => exact hbuild

theorem variantSignature_eq {d : EdbusData} (h : sendable d = true) : variantSignature d = some d.signature := by
  have hbuild := buildSignature_eq h []
  cases d with
  | basic v => exact typeString_basic (sendable_basic.mp h)
  | _ => exact hbuild

theorem sendable_type {d : EdbusData} (h : sendable d = true) : d.type ≠ .invalid := by
  cases d with
  | basic v =>
    cases v with
    | invalid => exact absurd rfl (sendable_basic.mp h)
    | _ => nofun
  | _ => nofun

end Edelib.Edbus
