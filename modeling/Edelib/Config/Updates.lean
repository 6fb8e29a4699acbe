import Edelib.Config.Content
import Edelib.Config.RoundTrip

/-! # Setting values in a loaded configuration

Once the names that are stored and the names that are set are told apart, sets change the finite
map that was loaded, and reads give its values.
-/
namespace Edelib
open Foundation StrUtil KeyedList

structure Told (sects : List CString) (entries : List SetCall) (s k : CString) : Prop where
  sect : ∀ s' ∈ sects, s' ≠ s → accepted s' s = false
  key : ∀ e ∈ entries, e.sect = s → e.key ≠ k → accepted e.key k = false

namespace Config

structure NamedBy (sects : List CString) (entries : List SetCall) (c : Config) : Prop where
  sections : ∀ cs ∈ c.sectionList, cs.sname ∈ sects
  keys : ∀ cs ∈ c.sectionList, ∀ e ∈ cs.entryList, ∃ call ∈ entries, call.sect = cs.sname ∧ call.key = e.key

variable {sects : List CString} {entries : List SetCall} {c c' : Config}

theorem NamedBy.congr (h : NamedBy sects entries c) (hsections : c'.sectionList = c.sectionList) :
    NamedBy sects entries c' :=
  ⟨hsections ▸ h.sections,hsections ▸ h.keys⟩

theorem NamedBy.mono (h : NamedBy sects entries c) {sects' : List CString} {entries' : List SetCall}
    (hs : sects ⊆ sects') (he : entries ⊆ entries') : NamedBy sects' entries' c := by
  refine ⟨fun cs hcs => hs (h.sections cs hcs),fun cs hcs e hmem => ?_⟩
  obtain ⟨call,hcall,hkey⟩ := h.keys cs hcs e hmem
  exact ⟨call,he hcall,hkey⟩

theorem namedBy_empty : NamedBy sects entries empty := ⟨by simp [empty],by simp [empty]⟩

/-- The lookup of names that are told apart is exact. -/
theorem NamedBy.lookupClear (h : NamedBy sects entries c) {s k : CString} (ht : Told sects entries s k) :
    c.LookupClear s k := by
  constructor
  · intro cs hcs
    have hne : cs.sname ≠ s := by simpa using List.mem_takeWhile_imp hcs
    refine ht.sect cs.sname (h.sections cs ?_) hne
    rcases List.mem_append.mp (List.takeWhile_subset _ hcs) with hmem | hmem
    · obtain ⟨i,-,hi⟩ := Option.bind_eq_some_iff.mp (Option.mem_toList.mp hmem)
      exact List.mem_of_getElem? hi
    · exact hmem
  · intro cs hcs hname e he
    have hne : e.key ≠ k := by simpa using List.mem_takeWhile_imp he
    obtain ⟨call,hcall,hsect,hkey⟩ := h.keys cs hcs e (List.takeWhile_subset _ he)
    have hacc := ht.key call hcall (hsect.trans hname) (by rw [hkey]; exact hne)
    rwa [hkey] at hacc

theorem NamedBy.set (h : NamedBy sects entries c) {call : SetCall} (ht : Told sects entries call.sect call.key)
    (hsect : call.sect ∈ sects) (hcall : call ∈ entries) :
    NamedBy sects entries (c.set call.sect call.key call.value) := by
  have hapart : ∀ cs ∈ c.sectionList, cs.sname ≠ call.sect → accepted cs.sname call.sect = false :=
    fun cs hcs hne => ht.sect cs.sname (h.sections cs hcs) hne
  refine ⟨fun cs hcs => ?_,fun cs hcs e he => ?_⟩ <;> rcases mem_set hapart hcs with hcs | ⟨cs',hcs',hname,rfl⟩
  · exact h.sections cs hcs
  · rw [ConfigSection.addEntry_sname,hname]
    exact hsect
  · exact h.keys cs hcs e he
  · rw [ConfigSection.addEntry_sname]
    rcases (mem_addEntry he).1 with ⟨e',he',hkey⟩ | hkey
    · rcases hcs' with hcs' | rfl
      · exact hkey ▸ h.keys cs' hcs' e' he'
      · simp [ConfigSection.new] at he'
    · exact ⟨call,hcall,hname.symm,hkey.symm⟩

def setAll (c : Config) (sets : List SetCall) : Config :=
  sets.foldl (fun c call => c.set call.sect call.key call.value) c

theorem setAll_snoc (c : Config) (sets : List SetCall) (call : SetCall) :
    c.setAll (sets ++ [call]) = (c.setAll sets).set call.sect call.key call.value := by
  simp only [setAll,List.foldl_append,List.foldl_cons,List.foldl_nil]

/-- Sets of names that are told apart change the map at these names, each to the last value. -/
theorem setAll_spec (hc : c.Valid) (h : NamedBy sects entries c) {sets : List SetCall}
    (hsets : ∀ call ∈ sets, call.sect ∈ sects ∧ call ∈ entries ∧ Told sects entries call.sect call.key) :
    (c.setAll sets).Valid ∧ NamedBy sects entries (c.setAll sets) ∧
      ∀ s k, (c.setAll sets).value s k = (lastSet sets s k).or (c.value s k) := by
  induction sets using List.reverseRecOn with
  | nil => exact ⟨hc,h,fun s k => rfl⟩
  | append_singleton sets call ih =>
    obtain ⟨hvalid,hnamed,hvalue⟩ := ih (fun a ha => hsets a (List.mem_append_left _ ha))
    obtain ⟨hsect,hcall,ht⟩ := hsets call (by simp)
    rw [setAll_snoc]
    refine ⟨valid_set hvalid _ _ _,hnamed.set ht hsect hcall,fun s k => ?_⟩
    rw [value_set hvalid (hnamed.lookupClear ht),lastSet_snoc,hvalue]
    split_ifs <;> simp

theorem foundValue_eq (hc : c.Valid) (h : NamedBy sects entries c) {s k : CString} (ht : Told sects entries s k) :
    c.foundValue s k = c.value s k := by
  rw [← getEntry_value]
  exact getEntry_eq_value hc (h.lookupClear ht)

/-! ## Loaded files -/

theorem ContentOf.namedBy {lines : List (List UInt8)} (h : ContentOf c lines) :
    NamedBy (sectionNames lines) (fileEntries none lines) c := by
  refine ⟨fun cs hcs => h.mem_sectionNames hcs,fun cs hcs e he => ?_⟩
  have hkey : e.key ∈ cs.entryList.map ConfigEntry.key := List.mem_map_of_mem he
  rw [h.keys cs hcs,List.mem_eraseDups] at hkey
  obtain ⟨call,hcall,hkey⟩ := List.mem_map.mp hkey
  obtain ⟨hcall,hsect⟩ := List.mem_filter.mp hcall
  exact ⟨call,hcall,by simpa using hsect,hkey⟩

/-- The map that was loaded gives each name the value of the last line for it. -/
theorem ContentOf.value {lines : List (List UInt8)} (h : ContentOf c lines) (s k : CString) :
    c.value s k = lastSet (fileEntries none lines) s k := by
  unfold Config.value
  cases hr : record ConfigSection.sname s c.sectionList with
  | some cs =>
    have hcs := List.mem_of_find?_eq_some hr
    have hname : cs.sname = s := by simpa using List.find?_some hr
    rw [Option.bind_some,h.values cs hcs,hname]
  | none =>
    have hno := (record_eq_none ConfigSection.sname).mp hr
    rw [Option.bind_none]
    cases hlast : lastSet (fileEntries none lines) s k with
    | none => rfl
    | some v =>
      have hsome : (lastSet (fileEntries none lines) s k).isSome = true := by rw [hlast]; rfl
      obtain ⟨e,he,hse,-⟩ := (lastSet_isSome _ s k).mp hsome
      have hmem : s ∈ c.names := by
        rw [h.sections,List.mem_eraseDups,← hse]
        exact fileEntries_sect he
      obtain ⟨cs,hcs,hname⟩ := List.mem_map.mp hmem
      exact absurd hname (hno cs hcs)

end Config
end Edelib
