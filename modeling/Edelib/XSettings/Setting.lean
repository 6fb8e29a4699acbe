import Edelib.Foundation.CString
import Edelib.Foundation.SortedList

/-! # Settings and settings lists

A setting is a named value with the serial of its last change. The lists of settings
are kept sorted by name, in the order of `strcmp`.
-/
namespace Edelib.XSettings
open Foundation KeyedList SortedList

structure XSettingsColor where
  red : BitVec 16
  green : BitVec 16
  blue : BitVec 16
  alpha : BitVec 16
deriving DecidableEq, Repr

/-- The type of a setting with its value. A type byte the decoder does not know is
stored as it is, and then there is no value. -/
inductive XSettingsValue
  | int (vInt : BitVec 32)
  | string (vString : CString)
  | color (vColor : XSettingsColor)
  | other (type : UInt8) (unknown : 2 < type)
deriving DecidableEq

def XSettingsValue.type : XSettingsValue → UInt8
  | int _ => 0
  | string _ => 1
  | color _ => 2
  | other type _ => type

def XSettingsValue.Known : XSettingsValue → Prop
  | other _ _ => False
  | _ => True

instance : (v : XSettingsValue) → Decidable v.Known
  | .int _ => isTrue trivial
  | .string _ => isTrue trivial
  | .color _ => isTrue trivial
  | .other _ _ => isFalse id

structure XSettingsSetting where
  name : CString
  value : XSettingsValue
  lastChangeSerial : BitVec 64
deriving DecidableEq

abbrev XSettingsList := List XSettingsSetting

abbrev Sorted (list : XSettingsList) : Prop := StrictSorted XSettingsSetting.name list

def listAdd : XSettingsList → XSettingsSetting → Bool × XSettingsList
  | [], setting => (true,[setting])
  | iter :: next, setting =>
    let cmp := setting.name.strcmp iter.name
    if cmp < 0 then (true,setting :: iter :: next)
    else if cmp = 0 then (false,iter :: next)
    else
      let (added,next) := listAdd next setting
      (added,iter :: next)

def listFind (list : XSettingsList) (name : CString) : Option XSettingsSetting :=
  list.find? (fun iter => iter.name.strcmp name == 0)

def listRemove : XSettingsList → CString → Bool × XSettingsList
  | [], _ => (false,[])
  | iter :: next, name =>
    if iter.name.strcmp name = 0 then (true,next)
    else
      let (removed,next) := listRemove next name
      (removed,iter :: next)

def settingEqual (s1 s2 : XSettingsSetting) : Bool :=
  if s1.value.type ≠ s2.value.type then false
  else if s1.name.strcmp s2.name ≠ 0 then false
  else
    match s1.value,s2.value with
    | .int v1,.int v2 => v1 == v2
    | .color c1,.color c2 =>
      c1.red == c2.red && c1.green == c2.green && c1.blue == c2.blue && c1.alpha == c2.alpha
    | .string v1,.string v2 => v1.strcmp v2 == 0
    | _,_ => false

/-! ## The list functions on names -/

theorem listAdd_eq_insertNew (list : XSettingsList) (setting : XSettingsSetting) :
    listAdd list setting = insertNew XSettingsSetting.name setting list := by
  induction list with
  | nil => rfl
  | cons iter next ih =>
    simp only [listAdd,insertNew,CString.strcmp_neg,CString.strcmp_eq_zero,ih]

theorem listFind_eq_record (list : XSettingsList) (name : CString) :
    listFind list name = record XSettingsSetting.name name list := by
  simp only [listFind,record,beq_eq_decide,CString.strcmp_eq_zero]

theorem listRemove_snd (list : XSettingsList) (name : CString) :
    (listRemove list name).2 = eraseKey XSettingsSetting.name name list := by
  induction list with
  | nil => rfl
  | cons iter next ih =>
    simp only [listRemove,eraseKey,List.eraseP_cons,CString.strcmp_eq_zero] at ih ⊢
    by_cases h : iter.name = name
    · simp [h]
    · simp [h,ih]

/-- Two settings are equal when their names are and their values, of a known type. -/
theorem settingEqual_iff {s1 s2 : XSettingsSetting} :
    settingEqual s1 s2 = true ↔ s1.name = s2.name ∧ s1.value = s2.value ∧ s1.value.Known := by
  obtain ⟨n1,v1,_⟩ := s1
  obtain ⟨n2,v2,_⟩ := s2
  by_cases hn : n1 = n2
  · subst hn
    have hcmp : n1.strcmp n1 = 0 := CString.strcmp_eq_zero.mpr rfl
    cases v1 with
    | int v1 => cases v2 <;> simp [settingEqual,hcmp,XSettingsValue.type,XSettingsValue.Known]
    | string v1 =>
      cases v2 <;> simp [settingEqual,hcmp,XSettingsValue.type,XSettingsValue.Known,CString.strcmp_eq_zero]
    | color c1 =>
      obtain ⟨r1,g1,b1,a1⟩ := c1
      cases v2 with
      | color c2 =>
        obtain ⟨r2,g2,b2,a2⟩ := c2
        simp [settingEqual,hcmp,XSettingsValue.type,XSettingsValue.Known,and_assoc]
      | int v2 => simp [settingEqual,XSettingsValue.type]
      | string v2 => simp [settingEqual,XSettingsValue.type]
      | other t ht => simp [settingEqual]
    | other t ht => cases v2 <;> simp [settingEqual,XSettingsValue.Known]
  · have hcmp : n1.strcmp n2 ≠ 0 := fun h => hn (CString.strcmp_eq_zero.mp h)
    simp [settingEqual,hcmp,hn]

end Edelib.XSettings
