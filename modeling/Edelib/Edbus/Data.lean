import Edelib.Foundation.CString

/-! # D-Bus data

A value is basic or a container: an array, a struct, a dict or a variant. Arrays and
structs hold the elements of one list, dicts the entries of another.
-/
namespace Edelib.Edbus
open Foundation

inductive EdbusDataType
  | invalid | byte | bool | int16 | uint16 | int32 | uint32 | int64 | uint64 | double | string | objectPath
  | array | struct | dict | variant
deriving DecidableEq, Repr

/-- What `basic_type` calls basic; the data without a value count as such. -/
inductive EdbusBasic
  | invalid
  | byte (v : UInt8)
  | bool (v : Bool)
  | int16 (v : BitVec 16)
  | uint16 (v : BitVec 16)
  | int32 (v : BitVec 32)
  | uint32 (v : BitVec 32)
  | int64 (v : BitVec 64)
  | uint64 (v : BitVec 64)
  | double (v : BitVec 64)
  | string (v : CString)
  | objectPath (v : CString)
deriving DecidableEq

mutual
inductive EdbusData
  | basic (v : EdbusBasic)
  | array (lst : List EdbusData)
  | struct (lst : List EdbusData)
  | dict (lst : List EdbusDictEntry)
  | variant (value : EdbusData)
inductive EdbusDictEntry
  | mk (key value : EdbusData)
end

def EdbusDictEntry.key : EdbusDictEntry → EdbusData
  | mk key _ => key

def EdbusDictEntry.value : EdbusDictEntry → EdbusData
  | mk _ value => value

@[simp] theorem EdbusDictEntry.key_mk (key value : EdbusData) : (mk key value).key = key := rfl

@[simp] theorem EdbusDictEntry.value_mk (key value : EdbusData) : (mk key value).value = value := rfl

def EdbusBasic.type : EdbusBasic → EdbusDataType
  | invalid => .invalid
  | byte _ => .byte
  | bool _ => .bool
  | int16 _ => .int16
  | uint16 _ => .uint16
  | int32 _ => .int32
  | uint32 _ => .uint32
  | int64 _ => .int64
  | uint64 _ => .uint64
  | double _ => .double
  | string _ => .string
  | objectPath _ => .objectPath

def EdbusData.type : EdbusData → EdbusDataType
  | basic v => v.type
  | array _ => .array
  | struct _ => .struct
  | dict _ => .dict
  | variant _ => .variant

/-- The part at the head of a path: an element, a key or a value of an entry, or the value
of a variant. -/
def EdbusData.child : EdbusData → ℕ → Option EdbusData
  | array lst,i => lst[i]?
  | struct lst,i => lst[i]?
  | dict lst,i => lst[i / 2]?.map (if i % 2 = 0 then EdbusDictEntry.key else EdbusDictEntry.value)
  | variant value,0 => some value
  | _,_ => none

def EdbusData.place : EdbusData → List ℕ → Option EdbusData
  | d,[] => some d
  | d,i :: path => (d.child i).bind (fun part => part.place path)

def EdbusData.basicType : EdbusData → Bool
  | basic _ => true
  | _ => false

/-- What holds of a container whenever it holds of its parts holds of all data. -/
@[elab_as_elim]
theorem EdbusData.induct {P : EdbusData → Prop} (basic : ∀ v, P (.basic v))
    (array : ∀ lst, (∀ d ∈ lst, P d) → P (.array lst))
    (struct : ∀ lst, (∀ d ∈ lst, P d) → P (.struct lst))
    (dict : ∀ lst, (∀ e ∈ lst, P e.key ∧ P e.value) → P (.dict lst))
    (variant : ∀ value, P value → P (.variant value)) (d : EdbusData) : P d :=
  @EdbusData.rec P (fun e => P e.key ∧ P e.value) (fun lst => ∀ d ∈ lst, P d)
    (fun lst => ∀ e ∈ lst, P e.key ∧ P e.value) basic array struct dict variant
    (fun _ _ hkey hvalue => ⟨hkey,hvalue⟩) nofun
    (fun _ _ hd hlst => List.forall_mem_cons.mpr ⟨hd,hlst⟩) nofun
    (fun _ _ he hlst => List.forall_mem_cons.mpr ⟨he,hlst⟩) d

/-- `size` of a list, whose counter has 32 bits. -/
def listSize (lst : List EdbusData) : BitVec 32 := BitVec.ofNat 32 lst.length

/-- `size` of a dict, whose entries are in a list. -/
def dictSize (lst : List EdbusDictEntry) : BitVec 32 := BitVec.ofNat 32 lst.length

theorem ofNat_length_ne_zero {α : Type} {lst : List α} (hne : lst ≠ []) (hlen : lst.length < 2 ^ 32) :
    BitVec.ofNat 32 lst.length ≠ 0 := by
  intro hzero
  have hsize := congrArg BitVec.toNat hzero
  rw [BitVec.toNat_ofNat,Nat.mod_eq_of_lt hlen] at hsize
  exact hne (List.eq_nil_of_length_eq_zero hsize)

theorem listSize_ne_zero {lst : List EdbusData} (hne : lst ≠ []) (hlen : lst.length < 2 ^ 32) : listSize lst ≠ 0 :=
  ofNat_length_ne_zero hne hlen

theorem dictSize_ne_zero {lst : List EdbusDictEntry} (hne : lst ≠ []) (hlen : lst.length < 2 ^ 32) : dictSize lst ≠ 0 :=
  ofNat_length_ne_zero hne hlen

theorem listSize_cons_inj {d1 d2 : EdbusData} {l1 l2 : List EdbusData} :
    listSize (d1 :: l1) = listSize (d2 :: l2) ↔ listSize l1 = listSize l2 := by
  rw [listSize,listSize,List.length_cons,List.length_cons,BitVec.ofNat_add,BitVec.ofNat_add]
  exact BitVec.add_left_inj 1#32

theorem ne_nil_of_listSize {lst : List EdbusData} (h : listSize lst ≠ 0) : lst ≠ [] := by
  rintro rfl
  exact h rfl

theorem ne_nil_of_dictSize {lst : List EdbusDictEntry} (h : dictSize lst ≠ 0) : lst ≠ [] := by
  rintro rfl
  exact h rfl

mutual
def everywhere (p : EdbusData → Bool) : EdbusData → Bool
  | .basic v => p (.basic v)
  | .array lst => p (.array lst) && everywhereIn p lst
  | .struct lst => p (.struct lst) && everywhereIn p lst
  | .dict lst => p (.dict lst) && everywhereInEntries p lst
  | .variant value => p (.variant value) && everywhere p value
  termination_by structural x => x
def everywhereIn (p : EdbusData → Bool) : List EdbusData → Bool
  | [] => true
  | d :: lst => everywhere p d && everywhereIn p lst
  termination_by structural x => x
def everywhereInEntries (p : EdbusData → Bool) : List EdbusDictEntry → Bool
  | [] => true
  | ⟨key,value⟩ :: lst => everywhere p key && everywhere p value && everywhereInEntries p lst
  termination_by structural x => x
end

section Everywhere
variable {p : EdbusData → Bool}

theorem everywhereIn_iff {lst : List EdbusData} : everywhereIn p lst = true ↔ ∀ d ∈ lst, everywhere p d = true := by
  induction lst with
  | nil => simp [everywhereIn]
  | cons d lst ih => simp [everywhereIn,ih]

theorem everywhereInEntries_iff {lst : List EdbusDictEntry} : everywhereInEntries p lst = true ↔
    ∀ e ∈ lst, everywhere p e.key = true ∧ everywhere p e.value = true := by
  induction lst with
  | nil => simp [everywhereInEntries]
  | cons e lst ih =>
    obtain ⟨key,value⟩ := e
    simp [everywhereInEntries,ih]

@[simp] theorem everywhere_basic {v : EdbusBasic} : everywhere p (.basic v) = p (.basic v) := rfl

@[simp] theorem everywhere_array {lst : List EdbusData} :
    everywhere p (.array lst) = true ↔ p (.array lst) = true ∧ ∀ d ∈ lst, everywhere p d = true := by
  rw [everywhere,Bool.and_eq_true,everywhereIn_iff]

@[simp] theorem everywhere_struct {lst : List EdbusData} :
    everywhere p (.struct lst) = true ↔ p (.struct lst) = true ∧ ∀ d ∈ lst, everywhere p d = true := by
  rw [everywhere,Bool.and_eq_true,everywhereIn_iff]

@[simp] theorem everywhere_dict {lst : List EdbusDictEntry} : everywhere p (.dict lst) = true ↔
    p (.dict lst) = true ∧ ∀ e ∈ lst, everywhere p e.key = true ∧ everywhere p e.value = true := by
  rw [everywhere,Bool.and_eq_true,everywhereInEntries_iff]

@[simp] theorem everywhere_variant {value : EdbusData} :
    everywhere p (.variant value) = true ↔ p (.variant value) = true ∧ everywhere p value = true := by
  rw [everywhere,Bool.and_eq_true]

end Everywhere

end Edelib.Edbus
