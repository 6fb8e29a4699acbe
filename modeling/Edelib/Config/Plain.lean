import Edelib.Config.Map
import Edelib.Config.File

/-! # Names that are never mistaken

A stored name can be mistaken only for a longer one that begins with it, so a given name is
compared with its own prefixes once and for all. Lookups of such names are exact in every
configuration that is made by `set` or read by `load`.
-/
namespace Edelib
open Foundation StrUtil KeyedList

def PlainName (q : CString) : Prop := ∀ s, accepted s q = true → s = q

theorem plainName_of_inits {q : CString}
    (h : ∀ p ∈ q.bytes.inits, strHash q 0 = strHash (CString.ofBuf p) 0 → p = q.bytes) : PlainName q := by
  intro s hs
  obtain ⟨hhash,hpre⟩ := accepted_iff.mp hs
  ext1
  refine h s.bytes ((List.mem_inits _ _).mpr hpre) ?_
  rwa [CString.ofBuf_bytes]

theorem PlainName.unmistaken {α : Type} {key : α → CString} {q : CString} (hq : PlainName q) (l : List α) :
    Unmistaken key (fun a q => accepted (key a) q) q l := by
  intro a ha
  have hne : key a ≠ q := by simpa using List.mem_takeWhile_imp ha
  by_contra hacc
  exact hne (hq _ (by simpa using hacc))

/-- What is stored under a key stays when an entry is added for which it is not mistaken. -/
theorem ConfigSection.value_addEntry_other {cs : ConfigSection} (hcs : (cs.entryList.map ConfigEntry.key).Nodup)
    {key key' : CString} (h : accepted key' key = false) (value : CString) :
    (cs.addEntry key value).value key' = cs.value key' := by
  have hne : key' ≠ key := by
    rintro rfl
    rw [accepted_self] at h
    cases h
  unfold addEntry ConfigSection.value
  cases hf : cs.findEntry key with
  | none =>
    simp only [record_append ConfigEntry.key (ConfigEntry.create_key key value) (not_keyed_of_findEntry hf)]
    rw [if_neg hne]
  | some i =>
    obtain ⟨hi,hacc,-⟩ := List.findIdx?_eq_some_iff_getElem.mp hf
    rw [ConfigEntry.hasKey_eq] at hacc
    have hpos := position_of_getElem? ConfigEntry.key hcs (List.getElem?_eq_getElem hi) rfl
    have hkey : key' ≠ cs.entryList[i].key := by
      intro he
      rw [he,hacc] at h
      cases h
    simp only [record_modify ConfigEntry.key hpos (fun e => ConfigEntry.setValue_key e value)]
    rw [if_neg hkey]

namespace Config
variable {c c' : Config} {sect key : CString}

theorem lookupClear (hsect : PlainName sect) (hkey : PlainName key) : c.LookupClear sect key :=
  ⟨hsect.unmistaken _,fun _ _ _ => hkey.unmistaken _⟩

theorem value_set_other (hc : c.Valid) (hsect : PlainName sect) {key' : CString} (h : accepted key' key = false)
    (value : CString) : (c.set sect key value).value sect key' = c.value sect key' := by
  have hpos := (findSection_eq_position_iff hc sect).mpr (hsect.unmistaken _)
  unfold Config.value
  rcases c.set_cases sect key value with ⟨i,p,hf,-,he⟩ | ⟨p,hf,-,he⟩ <;> rw [he] <;> dsimp only
  · have hi : position ConfigSection.sname sect c.sectionList = some i := hpos ▸ hf
    obtain ⟨cs,hcs,hname⟩ := key_of_position ConfigSection.sname hi
    have hkeys := hc.keys cs (List.mem_of_getElem? hcs)
    rw [record_modify ConfigSection.sname hi (fun cs => cs.addEntry_sname key value),
      record_eq_of_position ConfigSection.sname hi,hcs,if_pos rfl]
    exact ConfigSection.value_addEntry_other hkeys h value
  · have hn := c.not_named_of_findSection hf
    have hx : ((ConfigSection.new sect).addEntry key value).sname = sect :=
      ConfigSection.addEntry_sname (ConfigSection.new sect) key value
    rw [record_append ConfigSection.sname hx hn,if_pos rfl,(record_eq_none ConfigSection.sname).mpr hn]
    exact @ConfigSection.value_addEntry_other (ConfigSection.new sect) List.nodup_nil _ _ h value

/-! ## Lookups change no section -/

structure SameSections (c c' : Config) : Prop where
  sections : c'.sectionList = c.sectionList
  valid : c.Valid → c'.Valid

theorem SameSections.value (h : SameSections c c') (sect key : CString) : c'.value sect key = c.value sect key := by
  rw [Config.value,h.sections,← Config.value]

theorem sameSections_findSection (c : Config) (sect : CString) : SameSections c (c.findSection sect).2 := by
  obtain ⟨p,hp,hlt⟩ := c.findSection_state sect
  rw [hp]
  exact ⟨rfl,fun hc => ⟨hc.names,hc.keys,hlt hc⟩⟩

theorem sameSections_keyExist (c : Config) (sect key : CString) : SameSections c (c.keyExist sect key).2 := by
  have h := sameSections_findSection c sect
  unfold keyExist
  cases hf : c.findSection sect with
  | mk found c' =>
    rw [hf] at h
    cases found <;> exact h

theorem sameSections_getEntry (c : Config) (sect key : CString) : SameSections c (c.getEntry sect key).2 := by
  have h := sameSections_findSection c sect
  unfold getEntry
  cases hf : c.findSection sect with
  | mk found c' =>
    rw [hf] at h
    have hcode : ∀ e, SameSections c { c' with errcode := e } :=
      fun _ => ⟨h.sections,fun hc => ⟨(h.valid hc).names,(h.valid hc).keys,(h.valid hc).cached_lt⟩⟩
    cases found with
    | none => exact hcode _
    | some i =>
      dsimp only
      cases c'.sectionList[i]?.bind (fun cs => (cs.findEntry key).bind (fun j => cs.entryList[j]?)) with
      | none => exact hcode _
      | some e => exact h

theorem get_state (c : Config) (sect key : CString) (size : ℕ) :
    (c.get sect key size).2 = (c.getEntry sect key).2 := by
  unfold get
  cases c.getEntry sect key with
  | mk r c' => cases r <;> rfl

theorem keyExist_eq_getEntry (c : Config) (sect key : CString) :
    (c.keyExist sect key).1 = (c.getEntry sect key).1.toOption.isSome := by
  unfold keyExist getEntry
  cases c.findSection sect with
  | mk found c' =>
    cases found with
    | none => rfl
    | some i =>
      dsimp only
      cases hcs : c'.sectionList[i]? with
      | none => rfl
      | some cs =>
        rw [Option.bind_some,Option.bind_some]
        cases hj : cs.findEntry key with
        | none => rfl
        | some j =>
          obtain ⟨hlt,-⟩ := List.findIdx?_eq_some_iff_getElem.mp hj
          rw [Option.bind_some,List.getElem?_eq_getElem hlt]
          rfl

theorem keyExist_eq (hc : c.Valid) (hsect : PlainName sect) (hkey : PlainName key) :
    (c.keyExist sect key).1 = (c.value sect key).isSome := by
  rw [keyExist_eq_getEntry,← getEntry_eq_value hc (lookupClear hsect hkey),Option.isSome_map]

def bufferOf (v : CString) (size : ℕ) : List UInt8 :=
  if v.strlen % 2 ^ 32 > size then (strncpyInto v size).set (size - 1) 0 else strncpyInto v size

theorem get_eq_bufferOf (hc : c.Valid) (hsect : PlainName sect) (hkey : PlainName key) (size : ℕ) :
    (c.get sect key size).1 = (c.value sect key).map (fun v => bufferOf v size) := by
  rw [← getEntry_eq_value hc (lookupClear hsect hkey)]
  unfold get
  cases c.getEntry sect key with
  | mk r c' =>
    cases r with
    | error e => rfl
    | ok e =>
      dsimp only
      rw [e.valuelen_eq]
      rfl

theorem bufferOf_fits {v : CString} {size : ℕ} (h : v.strlen ≤ size) :
    bufferOf v size = v.bytes ++ List.replicate (size - v.strlen) 0 := by
  rw [bufferOf,if_neg (Nat.not_lt.mpr ((Nat.mod_le _ _).trans h)),strncpyInto,List.take_of_length_le h]

theorem ofBuf_bufferOf_fits {v : CString} {size : ℕ} (h : v.strlen < size) : CString.ofBuf (bufferOf v size) = v := by
  obtain ⟨k,hk⟩ : ∃ k, size - v.strlen = k + 1 := ⟨size - v.strlen - 1,by omega⟩
  rw [bufferOf_fits h.le,hk,List.replicate_succ,CString.ofBuf_bytes_append_nul]

/-- A long value is copied without a terminator where its length is not seen in 32 bits. -/
theorem bufferOf_full {v : CString} {size : ℕ} (h : size ≤ v.strlen) (hlow : v.strlen % 2 ^ 32 ≤ size) :
    bufferOf v size = v.bytes.take size := by
  rw [bufferOf,if_neg (Nat.not_lt.mpr hlow),strncpyInto,Nat.sub_eq_zero_of_le h,List.replicate_zero,List.append_nil]

theorem bufferOf_cut {v : CString} {n : ℕ} (h : n + 1 < v.strlen % 2 ^ 32) :
    bufferOf v (n + 1) = v.bytes.take n ++ [0] := by
  have hlong : n + 1 < v.strlen := h.trans_le (Nat.mod_le _ _)
  have hlt : n < v.bytes.length := Nat.lt_of_succ_lt hlong
  rw [bufferOf,if_pos h,strncpyInto,Nat.sub_eq_zero_of_le (Nat.le_of_lt hlong),List.replicate_zero,List.append_nil,
    Nat.add_sub_cancel,List.take_add_one,List.getElem?_eq_getElem hlt,Option.toList_some,
    List.set_append_right _ _ (by rw [List.length_take]; omega),List.length_take,Nat.min_eq_left (Nat.le_of_lt hlt),
    Nat.sub_self]
  rfl

theorem ofBuf_bufferOf (v : CString) (n : ℕ) :
    (CString.ofBuf (bufferOf v (n + 1))).bytes = v.bytes.take (if v.strlen % 2 ^ 32 ≤ n + 1 then n + 1 else n) := by
  have hnul : ∀ k, (0 : UInt8) ∉ v.bytes.take k := fun k hmem => v.nulFree (List.mem_of_mem_take hmem)
  split_ifs with h
  · rcases Nat.lt_or_ge v.strlen (n + 1) with hlt | hge
    · rw [ofBuf_bufferOf_fits hlt,List.take_of_length_le hlt.le]
    · rw [bufferOf_full hge h,CString.ofBuf_eq (hnul _)]
  · rw [bufferOf_cut (Nat.not_le.mp h),CString.ofBuf_append_nul,CString.ofBuf_eq (hnul n)]

/-! ## What `load` leaves -/

theorem valid_addSection (hc : c.Valid) (sect : CString) : (c.addSection sect).2.Valid := by
  have h := sameSections_findSection c sect
  unfold addSection
  cases hf : c.findSection sect with
  | mk found c' =>
    rw [hf] at h
    have hc' := h.valid hc
    cases found with
    | some i => exact hc'
    | none =>
      have hn : ∀ cs ∈ c'.sectionList, cs.sname ≠ sect := by
        rw [h.sections]
        exact c.not_named_of_findSection (by rw [hf])
      exact hc'.appendSection rfl List.nodup_nil hn

theorem valid_loadLine {st st' : LoadState} {buf : List UInt8} {more : Bool} (hc : st.config.Valid)
    (h : loadLine st buf = some (st',more)) : st'.config.Valid := by
  have hnum : { st.config with linenum := st.config.linenum + 1 }.Valid := ⟨hc.names,hc.keys,hc.cached_lt⟩
  obtain ⟨-,rfl⟩ | ⟨-,found,vallen,e,rfl⟩ | ⟨-,sect,rfl⟩ | ⟨-,i,key,value,rfl⟩ := loadText_cases h
  · exact hnum
  · exact ⟨hc.names,hc.keys,hc.cached_lt⟩
  · exact valid_addSection hnum sect
  · exact hnum.addEntryAt i key value

/-- The loop ends with the file, or a line ends it, or it goes on after the line. -/
theorem loadLoop_cases {st st' : LoadState} {f : List UInt8} (h : loadLoop st f = some st') :
    ∃ g, configGetline st.buflen f = some g ∧ (g.ret = none ∧ st' = { st with buflen := g.len } ∨
      g.ret ≠ none ∧ ∃ st₁ more, loadLine { st with buflen := g.len } g.buf = some (st₁,more) ∧
        (st' = st₁ ∨ loadLoop st₁ g.rest = some st')) := by
  cases hg : configGetline st.buflen f with
  | none =>
    rw [loadLoop_none hg] at h
    cases h
  | some g =>
    refine ⟨g,rfl,?_⟩
    by_cases hret : g.ret = none
    · rw [loadLoop_end hg hret] at h
      exact Or.inl ⟨hret,(Option.some.inj h).symm⟩
    · rw [loadLoop_getline hg hret] at h
      refine Or.inr ⟨hret,?_⟩
      cases hline : loadLine { st with buflen := g.len } g.buf with
      | none =>
        rw [hline] at h
        cases h
      | some r =>
        obtain ⟨st₁,more⟩ := r
        rw [hline] at h
        refine ⟨st₁,more,rfl,?_⟩
        cases more with
        | false => exact Or.inl (Option.some.inj h).symm
        | true => exact Or.inr h

theorem valid_loadLoop {st st' : LoadState} {f : List UInt8} (hc : st.config.Valid)
    (h : loadLoop st f = some st') : st'.config.Valid := by
  induction hn : f.length using Nat.strong_induction_on generalizing st f with
  | _ n ih =>
    subst hn
    obtain ⟨g,hg,⟨-,rfl⟩ | ⟨hret,st₁,more,hline,hrest⟩⟩ := loadLoop_cases h
    · exact hc
    · have hc₁ : st₁.config.Valid := @valid_loadLine { st with buflen := g.len } _ _ _ hc hline
      rcases hrest with rfl | hrest
      · exact hc₁
      · exact ih g.rest.length (configGetline_rest_lt hg hret) hc₁ hrest rfl

theorem valid_load {f : List UInt8} {status : Bool} (h : c.load f = some (status,c')) : c'.Valid := by
  obtain ⟨st,hst,hr⟩ := Option.map_eq_some_iff.mp h
  cases hr
  exact valid_loadLoop valid_empty hst

end Config
end Edelib
