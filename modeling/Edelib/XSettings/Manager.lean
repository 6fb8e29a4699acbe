import Edelib.XSettings.RoundTrip
import Edelib.Foundation.Transition

/-! # Setting and deleting

A setting is stamped with the serial current when it is set, unless it has the value
already.
-/
namespace Edelib.XSettings
open Foundation KeyedList SortedList

/-- A copy owns its texts; its contents are the same. -/
def settingCopy (setting : XSettingsSetting) : XSettingsSetting := setting

/-- `xsettings_manager_set_setting`; the serial of the setting passed in is not read. -/
def setSetting (data : XSettingsData) (setting : XSettingsSetting) : XSettingsData :=
  match listFind data.settings setting.name with
  | some oldSetting =>
    if settingEqual oldSetting setting then data
    else
      let settings := (listRemove data.settings setting.name).2
      let newSetting := { settingCopy setting with lastChangeSerial := data.serial }
      { data with settings := (listAdd settings newSetting).2 }
  | none =>
    let newSetting := { settingCopy setting with lastChangeSerial := data.serial }
    { data with settings := (listAdd data.settings newSetting).2 }

def deleteSetting (data : XSettingsData) (name : CString) : XSettingsData :=
  { data with settings := (listRemove data.settings name).2 }

/-- The three `set` methods fill a setting on the stack, all but its serial. -/
def setValue (data : XSettingsData) (name : CString) (value : XSettingsValue) : XSettingsData :=
  setSetting data ⟨name,value,0⟩

/-! ## What a change does to the list -/

@[simp] theorem setValue_serial (data : XSettingsData) (name : CString) (value : XSettingsValue) :
    (setValue data name value).serial = data.serial := by
  unfold setValue setSetting
  dsimp only
  cases listFind data.settings name with
  | none => rfl
  | some old =>
    dsimp only
    split_ifs <;> rfl

theorem setValue_eq_self {data : XSettingsData} {old : XSettingsSetting} {value : XSettingsValue}
    (hold : listFind data.settings old.name = some old) (hvalue : old.value = value) (hknown : value.Known) :
    setValue data old.name value = data := by
  have heq : settingEqual old ⟨old.name,value,0⟩ = true :=
    settingEqual_iff.mpr ⟨rfl,hvalue,hvalue ▸ hknown⟩
  simp only [setValue,setSetting,hold,heq,↓reduceIte]

theorem name_of_listFind {list : XSettingsList} {name : CString} {s : XSettingsSetting}
    (h : listFind list name = some s) : s ∈ list ∧ s.name = name := by
  rw [listFind_eq_record] at h
  exact ⟨List.mem_of_find?_eq_some h,by simpa using List.find?_some h⟩

/-- Everything `setValue` can do: nothing, for an equal value, or stamp the value and put
it in the place of the old one. -/
theorem setValue_cases (data : XSettingsData) (name : CString) (value : XSettingsValue) :
    (setValue data name value = data ∧ ∃ old ∈ data.settings, old.name = name ∧ old.value = value) ∨
    setValue data name value = { data with
      settings := (insertNew XSettingsSetting.name ⟨name,value,data.serial⟩
        (eraseKey XSettingsSetting.name name data.settings)).2 } := by
  unfold setValue setSetting
  dsimp only
  cases hfind : listFind data.settings name with
  | none =>
    right
    rw [listFind_eq_record,record_eq_none] at hfind
    have herase : eraseKey XSettingsSetting.name name data.settings = data.settings :=
      List.eraseP_of_forall_not (by simpa using hfind)
    simp only [settingCopy,listAdd_eq_insertNew,herase]
  | some old =>
    obtain ⟨hmem,hname⟩ := name_of_listFind hfind
    dsimp only
    split_ifs with heq
    · exact Or.inl ⟨rfl,old,hmem,hname,(settingEqual_iff.mp heq).2.1⟩
    · right
      simp only [settingCopy,listAdd_eq_insertNew,listRemove_snd]

theorem sorted_setValue {data : XSettingsData} (h : Sorted data.settings) (name : CString)
    (value : XSettingsValue) : Sorted (setValue data name value).settings := by
  rcases setValue_cases data name value with ⟨he,-⟩ | he
  · exact he.symm ▸ h
  · rw [he]
    exact strictSorted_insertNew (strictSorted_eraseKey h name) _

theorem mem_setValue {data : XSettingsData} {name : CString} {value : XSettingsValue} {s : XSettingsSetting}
    (h : s ∈ (setValue data name value).settings) : s ∈ data.settings ∨ s = ⟨name,value,data.serial⟩ := by
  rcases setValue_cases data name value with ⟨he,-⟩ | he <;> rw [he] at h
  · exact Or.inl h
  · rcases mem_insertNew h with rfl | h
    · exact Or.inr rfl
    · exact Or.inl (List.mem_of_mem_eraseP h)

def valueOf (list : XSettingsList) (name : CString) : Option XSettingsValue :=
  (record XSettingsSetting.name name list).map XSettingsSetting.value

theorem valueOf_setValue {data : XSettingsData} (h : Sorted data.settings) (name : CString)
    (value : XSettingsValue) (q : CString) :
    valueOf (setValue data name value).settings q = if q = name then some value else valueOf data.settings q := by
  rcases setValue_cases data name value with ⟨he,old,hmem,hname,hvalue⟩ | he <;> rw [he]
  · by_cases hq : q = name
    · rw [if_pos hq,hq,valueOf,← hname,record_of_mem h hmem,Option.map_some,hvalue]
    · rw [if_neg hq]
  · have hnone : record XSettingsSetting.name name (eraseKey XSettingsSetting.name name data.settings) = none := by
      rw [record_eraseKey h,if_pos rfl]
    simp only [valueOf]
    rw [record_insertNew (strictSorted_eraseKey h name) hnone,record_eraseKey h]
    by_cases hq : q = name
    · simp [hq]
    · simp [hq]

theorem sorted_deleteSetting {data : XSettingsData} (h : Sorted data.settings) (name : CString) :
    Sorted (deleteSetting data name).settings := by
  rw [deleteSetting,listRemove_snd]
  exact strictSorted_eraseKey h name

theorem mem_deleteSetting {data : XSettingsData} {name : CString} {s : XSettingsSetting}
    (h : s ∈ (deleteSetting data name).settings) : s ∈ data.settings := by
  rw [deleteSetting,listRemove_snd] at h
  exact List.mem_of_mem_eraseP h

theorem valueOf_deleteSetting {data : XSettingsData} (h : Sorted data.settings) (name q : CString) :
    valueOf (deleteSetting data name).settings q = if q = name then none else valueOf data.settings q := by
  rw [valueOf,deleteSetting,listRemove_snd,record_eraseKey h]
  by_cases hq : q = name
  · rw [if_pos hq,if_pos hq,Option.map_none]
  · rw [if_neg hq,if_neg hq,valueOf]

theorem valueOf_onWire (list : XSettingsList) (name : CString) :
    valueOf (list.map onWire) name = valueOf list name := by
  simp only [valueOf,record,List.find?_map,Option.map_map]
  rfl

theorem sorted_onWire {list : XSettingsList} (h : Sorted list) : Sorted (list.map onWire) :=
  List.pairwise_map.mpr h

end Edelib.XSettings
