import Edelib.Config.Reads

/-! # Localized keys

`set_localized` stores under the first two bytes of the locale, or under the plain key when the
locale has no more than two. `get_localized` tries the locale in full and what stands before each
delimiter it has; the plain key is read for the default locales only.
-/
namespace Edelib
open Foundation StrUtil Remembered

namespace ConfigSection
variable (cs : ConfigSection) (key key' value : CString)

/-- Once a value is set under `key`, a lookup of `key'` finds the entry that was set. -/
def ReadsSet : Prop := cs.findEntry key' = cs.findEntry key ∧ (cs.findEntry key = none → accepted key key' = true)

instance : Decidable (cs.ReadsSet key key') := inferInstanceAs (Decidable (_ ∧ _))

theorem findEntry_keys :
    cs.findEntry key = (cs.entryList.map ConfigEntry.key).findIdx? (fun k => accepted k key) := by
  simp only [findEntry,ConfigEntry.hasKey_eq,List.findIdx?_map,Function.comp_def]

theorem findEntry_congr {cs' : ConfigSection}
    (h : cs'.entryList.map ConfigEntry.key = cs.entryList.map ConfigEntry.key) :
    cs'.findEntry key' = cs.findEntry key' := by
  rw [findEntry_keys,findEntry_keys,h]

/-- What a section holds where a lookup found a key, after a value is set there. -/
theorem entryOf_addEntry_of_found {i : ℕ} (hi : cs.findEntry key = some i) :
    ((cs.addEntry key value).entryOf key').map ConfigEntry.value =
      if cs.findEntry key' = some i then some value else (cs.entryOf key').map ConfigEntry.value := by
  obtain ⟨hlt,-⟩ := List.findIdx?_eq_some_iff_getElem.mp hi
  have hset : cs.addEntry key value =
      { cs with entryList := cs.entryList.modify i (fun e => e.setValue value) } := by rw [addEntry,hi]
  have hkeep : (cs.addEntry key value).findEntry key' = cs.findEntry key' :=
    cs.findEntry_congr key' (by rw [hset]; exact KeyedList.map_modify ConfigEntry.key cs.entryList i (fun _ => rfl))
  rw [entryOf,hkeep,hset,entryOf]
  cases cs.findEntry key' with
  | none => simp
  | some j =>
    by_cases hij : j = i
    · subst hij
      simp [hlt]
    · simp [hij,List.getElem?_modify,Ne.symm hij]

/-- What a section holds after a value is set under a key that no lookup found. -/
theorem entryOf_addEntry_of_not_found (hi : cs.findEntry key = none) :
    ((cs.addEntry key value).entryOf key').map ConfigEntry.value =
      if cs.findEntry key' = none ∧ accepted key key' = true then some value
      else (cs.entryOf key').map ConfigEntry.value := by
  have hset : cs.addEntry key value =
      { cs with entryList := cs.entryList ++ [ConfigEntry.create key value] } := by rw [addEntry,hi]
  rw [entryOf,hset,entryOf]
  simp only [findEntry_keys,List.map_append,List.findIdx?_append]
  cases hfound : (cs.entryList.map ConfigEntry.key).findIdx? (fun k => accepted k key') with
  | none => by_cases hacc : accepted key key' = true <;> simp [hacc]
  | some j =>
    obtain ⟨hj,-⟩ := List.findIdx?_eq_some_iff_getElem.mp hfound
    simp [List.getElem?_append_left (by simpa using hj)]

/-- A value that is set is found under its key, and under every key that is taken for it. -/
theorem entryOf_addEntry : ((cs.addEntry key value).entryOf key').map ConfigEntry.value =
    if cs.ReadsSet key key' then some value else (cs.entryOf key').map ConfigEntry.value := by
  by_cases hi : cs.findEntry key = none
  · simp only [cs.entryOf_addEntry_of_not_found key key' value hi,ReadsSet,hi,true_implies]
  · obtain ⟨i,hi⟩ := Option.ne_none_iff_exists'.mp hi
    simp [cs.entryOf_addEntry_of_found key key' value hi,ReadsSet,hi]

end ConfigSection

namespace Config
variable {c : Config} {sect key key' value : CString}

/-- The section that a `set` changes: the one a lookup finds, or a new one. -/
def openSection (c : Config) (sect : CString) : ConfigSection := (c.foundSection sect).getD (ConfigSection.new sect)

theorem foundValue_open (c : Config) (sect key : CString) :
    c.foundValue sect key = ((c.openSection sect).entryOf key).map ConfigEntry.value := by
  unfold foundValue openSection
  cases c.foundSection sect <;> rfl

/-- The section that a `set` changed is found again. -/
theorem foundSection_set (c : Config) (sect key value : CString) :
    (c.set sect key value).foundSection sect = some ((c.openSection sect).addEntry key value) := by
  have hnames : ∀ i, (c.sectionList.modify i (fun cs => cs.addEntry key value)).map ConfigSection.sname = c.names :=
    fun i => KeyedList.map_modify ConfigSection.sname c.sectionList i (fun cs => cs.addEntry_sname key value)
  unfold openSection foundSection set addSection
  simp only [findSection_eq]
  cases hf : lookup accepted c.names c.cached sect with
  | some i =>
    obtain ⟨n,hn,-⟩ := accept_of_lookup hf
    obtain ⟨cs,hcs,-⟩ := List.getElem?_map .. |>.symm.trans hn |> Option.map_eq_some_iff.mp
    have hagain : lookup accepted (Config.names { c with
        cached := remember accepted c.names c.cached sect,
        sectionList := c.sectionList.modify i (fun cs => cs.addEntry key value) })
        (remember accepted c.names c.cached sect) sect = some i := by
      rw [names,hnames]
      exact lookup_remember_self hf
    simp [hagain,hcs]
  | none =>
    have hagain : lookup accepted (c.names ++ [sect]) (remember accepted c.names c.cached sect) sect =
        some c.sectionList.length := by
      rw [remember,hf,Option.none_or,lookup_append_self hf (accepted_self sect)]
      simp [names]
    have hadded : (c.sectionList ++ [(ConfigSection.new sect).addEntry key value]).map ConfigSection.sname =
        c.names ++ [sect] := by
      rw [List.map_append,List.map_singleton,ConfigSection.addEntry_sname]
      rfl
    simp only [KeyedList.modify_append_last]
    rw [names,hadded,hagain]
    simp

/-- What is found after a `set`: the value, under every key that reads what was set. -/
theorem foundValue_set (c : Config) (sect key value key' : CString) :
    (c.set sect key value).foundValue sect key' =
      if (c.openSection sect).ReadsSet key key' then some value else c.foundValue sect key' := by
  rw [c.foundValue_open,foundValue,foundSection_set,Option.bind_some]
  exact (c.openSection sect).entryOf_addEntry key key' value

theorem keyExist_iff (c : Config) (sect key : CString) :
    (c.keyExist sect key).1 = (c.foundValue sect key).isSome := by
  rw [keyExist_eq_getEntry,← getEntry_value,Option.isSome_map]

/-! ## Writer and reader -/

/-- The tag of the key that `setLocalized` stores under for a locale that is not a default one. -/
def writtenTag (lang : CString) : Option (List UInt8) := if lang.strlen > 2 then some (lang.bytes.take 2) else none

def triedTags : Option CString → List (List UInt8)
  | none => []
  | some lang => if DefaultLocale lang then [] else localeCodes lang

theorem localizedKey_eq {lang : CString} (hd : ¬ DefaultLocale lang) (key : CString) :
    localizedKey (some lang) key = (writtenTag lang).elim key (localizedName key) := by
  have hd' : ¬ (lang.bytes.head? = some 67 ∨ lang.strncmp (CString.ofBuf [101,110,95,85,83]) 5 = 0) := hd
  rw [localizedKey,if_neg hd',writtenTag]
  by_cases hlen : lang.strlen > 2
  · rw [if_pos hlen,if_pos hlen]
    rfl
  · rw [if_neg hlen,if_neg hlen]
    rfl

/-- A tag that is longer than the written one; every tag is where none is written. -/
def MoreSpecific (lang : CString) (code : List UInt8) : Prop := ∀ tag ∈ writtenTag lang, tag.length < code.length

instance (lang : CString) (code : List UInt8) : Decidable (MoreSpecific lang code) :=
  inferInstanceAs (Decidable (∀ tag ∈ writtenTag lang, _))

def Untagged (c : Config) (sect key : CString) (code : List UInt8) : Prop :=
  (c.keyExist sect (localizedName key code)).1 = false

instance (c : Config) (sect key : CString) (code : List UInt8) : Decidable (c.Untagged sect key code) :=
  inferInstanceAs (Decidable (_ = false))

theorem untagged_iff {code : List UInt8} :
    c.Untagged sect key code ↔ c.foundValue sect (localizedName key code) = none := by
  rw [Untagged,keyExist_iff,Option.isSome_eq_false_iff,Option.isNone_iff_eq_none]

structure LocalizedAgree (c : Config) (lang : Option CString) (sect key : CString) : Prop where
  set_get : (∀ code ∈ triedTags lang, (∀ l ∈ lang, MoreSpecific l code) → c.Untagged sect key code) →
    ∀ value : CString, ∀ size, value.strlen < size →
      ((c.setLocalized lang sect key value).getLocalized lang sect key size).1.map CString.ofBuf = some value
  plain : (∀ code ∈ triedTags lang, c.Untagged sect key code) →
    ∀ size, (c.getLocalized lang sect key size).1 = (c.get sect key size).1

/-- Among the tags that are tried, one reads what is written, and no key exists for those before it. -/
def ReadBack (c : Config) (lang : Option CString) (sect key : CString) : Prop :=
  ∃ before code after, triedTags lang = before ++ code :: after ∧
    (c.openSection sect).ReadsSet (localizedKey lang key) (localizedName key code) ∧
    ∀ b ∈ before, c.Untagged sect key b

/-- The locale is a default one; or what is written is read back, unless a more specific key exists,
and there is no plain key, unless some tagged key exists. -/
def AgreeWhen (c : Config) (lang : Option CString) (sect key : CString) : Prop :=
  triedTags lang = [] ∨
    ((∀ code ∈ triedTags lang, (∀ l ∈ lang, MoreSpecific l code) → c.Untagged sect key code) →
      c.ReadBack lang sect key) ∧
    ((∀ code ∈ triedTags lang, c.Untagged sect key code) → (c.keyExist sect key).1 = false)

/-! ## What the reader finds -/

theorem get_eq_found (c : Config) (sect key : CString) (size : ℕ) :
    (c.get sect key size).1 = (c.foundValue sect key).map (fun v => bufferOf v size) := by
  rw [get_eq_entry,← getEntry_value,Option.map_map]
  rfl

theorem getLocalized_of_default {lang : Option CString} (h : triedTags lang = []) (c : Config) (sect key : CString)
    (size : ℕ) : (c.getLocalized lang sect key size).1 = (c.get sect key size).1 := by
  cases lang with
  | none => rfl
  | some lang =>
    have hd : DefaultLocale lang := by
      by_contra hd
      simp [triedTags,hd,localeCodes] at h
    simp [getLocalized,hd]

theorem getLocalized_of_tried {lang : Option CString} (h : triedTags lang ≠ []) (c : Config) (sect key : CString)
    (size : ℕ) : (c.getLocalized lang sect key size).1 =
      ((triedTags lang).findSome? (fun code => c.foundValue sect (localizedName key code))).map
        (fun v => cutOf v size) := by
  cases lang with
  | none => exact absurd rfl h
  | some lang =>
    by_cases hd : DefaultLocale lang
    · exact absurd (if_pos hd) h
    · have hrun := ReadCall.run_answer (D := Unit) (F := Unit) (fun _ => ()) id c (.getLocalized (some lang) sect key size)
      simpa [ReadCall.run,ReadCall.answer,ReadCall.ofValue,ReadCall.pick,ReadCall.sect,triedTags,hd] using hrun

theorem localizedKey_of_default {lang : Option CString} (h : triedTags lang = []) (key : CString) :
    localizedKey lang key = key := by
  cases lang with
  | none => rfl
  | some lang =>
    have hd : DefaultLocale lang := by
      by_contra hd
      simp [triedTags,hd,localeCodes] at h
    exact if_pos hd

theorem readsSet_self (cs : ConfigSection) (key : CString) : cs.ReadsSet key key := ⟨rfl,fun _ => accepted_self key⟩

end Config

/-- A search finds what is put in for some of the elements exactly if one of these comes first. -/
theorem findSome?_ite_iff {α β : Type*} [Nontrivial β] {p : α → Prop} [DecidablePred p] {f : α → Option β} {l : List α} :
    (∀ v, l.findSome? (fun a => if p a then some v else f a) = some v) ↔
      ∃ before a after, l = before ++ a :: after ∧ p a ∧ ∀ b ∈ before, f b = none := by
  constructor
  · intro h
    induction l with
    | nil => exact absurd (h (Classical.arbitrary β)) (by simp)
    | cons a l ih =>
      by_cases ha : p a
      · exact ⟨[],a,l,rfl,ha,by simp⟩
      · cases hf : f a with
        | some w =>
          obtain ⟨v,hv⟩ := exists_ne w
          have hw := h v
          rw [List.findSome?_cons,if_neg ha,hf] at hw
          exact absurd (Option.some.inj hw).symm hv
        | none =>
          obtain ⟨before,b,after,rfl,hb,hnone⟩ := ih (fun v => by simpa [List.findSome?_cons,ha,hf] using h v)
          exact ⟨a :: before,b,after,rfl,hb,by simpa [hf] using hnone⟩
  · rintro ⟨before,a,after,rfl,ha,hnone⟩ v
    induction before with
    | nil => simp [ha]
    | cons b before ih =>
      have hrest := ih (fun b hb => hnone b (List.mem_cons_of_mem _ hb))
      rw [List.cons_append,List.findSome?_cons,hnone b List.mem_cons_self]
      by_cases hb : p b <;> simp only [hb,if_true,if_false,hrest]

instance : Nontrivial CString := ⟨CString.empty,CString.ofBuf [65],fun h => by cases congrArg CString.bytes h⟩

namespace Config
variable {c : Config} {lang : Option CString} {sect key : CString}

theorem ofBuf_cutOf {v : CString} {size : ℕ} (h : v.strlen < size) : CString.ofBuf (cutOf v size) = v := by
  rw [cutOf_fits h]
  obtain ⟨k,hk⟩ : ∃ k, size - v.strlen = k + 1 := ⟨size - v.strlen - 1,by omega⟩
  rw [hk,List.replicate_succ,CString.ofBuf_bytes_append_nul]

theorem localizedAgree_of_default (h : triedTags lang = []) (c : Config) (sect key : CString) :
    LocalizedAgree c lang sect key := by
  refine ⟨fun _ value size hsize => ?_,fun _ size => getLocalized_of_default h c sect key size⟩
  rw [getLocalized_of_default h,setLocalized,localizedKey_of_default h,get_eq_found,foundValue_set,
    if_pos (readsSet_self _ key)]
  rw [Option.map_some,Option.map_some,ofBuf_bufferOf_fits hsize]

/-- Every value comes back exactly if what is written is read back. -/
theorem set_get_iff (h : triedTags lang ≠ []) :
    (∀ value : CString, ∀ size, value.strlen < size →
      ((c.setLocalized lang sect key value).getLocalized lang sect key size).1.map CString.ofBuf = some value) ↔
      c.ReadBack lang sect key := by
  have hfound : ∀ value size, ((c.setLocalized lang sect key value).getLocalized lang sect key size).1 =
      ((triedTags lang).findSome? (fun code =>
        if (c.openSection sect).ReadsSet (localizedKey lang key) (localizedName key code) then some value
        else c.foundValue sect (localizedName key code))).map (fun v => cutOf v size) := by
    intro value size
    rw [getLocalized_of_tried h,setLocalized]
    simp only [foundValue_set]
  unfold ReadBack
  simp only [untagged_iff]
  rw [← findSome?_ite_iff]
  constructor
  · intro hback value
    -- a buffer with room for the value and for whatever is found instead
    have hread := fun size => hfound value size
    generalize (triedTags lang).findSome? _ = found at hread ⊢
    have hsome := hback value (value.strlen + (found.elim 0 CString.strlen) + 1) (by omega)
    rw [hread] at hsome
    cases found with
    | none => cases hsome
    | some w =>
      rw [Option.map_some,Option.map_some,ofBuf_cutOf (by simp only [Option.elim]; omega)] at hsome
      exact hsome
  · intro hvalue value size hsize
    rw [hfound,hvalue value]
    exact congrArg some (ofBuf_cutOf hsize)

/-- A language of two letters is written and read back, with whatever follows it, unless a more
specific key exists. -/
theorem readBack_of_two_letters {a b d : UInt8} {rest : List UInt8} {lang : CString}
    (hlang : lang.bytes = a :: b :: d :: rest) (hd : d = 46 ∨ d = 64 ∨ d = 95)
    (ha : a ∉ [46,64,95]) (hb : b ∉ [46,64,95]) (hdefault : ¬ DefaultLocale lang)
    (h : ∀ code ∈ localeCodes lang, MoreSpecific lang code → c.Untagged sect key code) :
    c.ReadBack (some lang) sect key := by
  have htag : writtenTag lang = some [a,b] := by simp [writtenTag,CString.strlen,hlang]
  have htried : triedTags (some lang) = localeCodes lang := if_neg hdefault
  have hmem : [a,b] ∈ localeCodes lang := by
    rw [localeCodes,hlang]
    refine List.mem_cons_of_mem _ (List.mem_filterMap.mpr ⟨d,by simpa using hd,?_⟩)
    have had : a ≠ d := fun he => ha (by simpa [he] using hd)
    have hbd : b ≠ d := fun he => hb (by simpa [he] using hd)
    simp [had,hbd]
  have hlong : ∀ code ∈ localeCodes lang, code ≠ [a,b] → 2 < code.length := by
    intro code hcode hne
    rw [localeCodes,hlang] at hcode
    rcases List.mem_cons.mp hcode with rfl | hcode
    · simp
    · obtain ⟨delim,hdelim,hcut⟩ := List.mem_filterMap.mp hcode
      have hade : a ≠ delim := fun he => ha (he ▸ hdelim)
      have hbde : b ≠ delim := fun he => hb (he ▸ hdelim)
      obtain ⟨-,hcode⟩ := Option.ite_none_right_eq_some.mp hcut
      obtain rfl := Option.some.inj hcode
      by_cases hdde : d = delim
      · exact absurd (by simp [hade,hbde,hdde]) hne
      · simp [hade,hbde,hdde]
  obtain ⟨before,after,hsplit,hfirst⟩ := List.eq_append_cons_of_mem hmem
  refine ⟨before,[a,b],after,htried.trans hsplit,?_,fun code hcode => ?_⟩
  · rw [localizedKey_eq hdefault,htag]
    exact readsSet_self _ _
  · refine h code (by simp [hsplit,hcode]) (fun tag ht => ?_)
    obtain rfl : [a,b] = tag := Option.some.inj (htag.symm.trans ht)
    exact hlong code (by simp [hsplit,hcode]) (fun he => hfirst (he ▸ hcode))

/-- Localized set and get agree if and only if the locale, the section and the key meet the condition. -/
theorem localizedAgree_iff (c : Config) (lang : Option CString) (sect key : CString) :
    LocalizedAgree c lang sect key ↔ AgreeWhen c lang sect key := by
  by_cases h : triedTags lang = []
  · exact iff_of_true (localizedAgree_of_default h c sect key) (Or.inl h)
  · rw [AgreeWhen,or_iff_right h,← set_get_iff h]
    constructor
    · intro hagree
      refine ⟨hagree.set_get,fun hnone => ?_⟩
      have hplain := hagree.plain hnone 1
      have hmissing : (triedTags lang).findSome? (fun code => c.foundValue sect (localizedName key code)) = none :=
        List.findSome?_eq_none_iff.mpr (fun code hcode => untagged_iff.mp (hnone code hcode))
      rw [getLocalized_of_tried h,hmissing,get_eq_found] at hplain
      rw [keyExist_iff,Option.map_eq_none_iff.mp hplain.symm]
      rfl
    · rintro ⟨hset,hnot⟩
      refine ⟨hset,fun hnone size => ?_⟩
      have hmissing : (triedTags lang).findSome? (fun code => c.foundValue sect (localizedName key code)) = none :=
        List.findSome?_eq_none_iff.mpr (fun code hcode => untagged_iff.mp (hnone code hcode))
      have hkey := hnot hnone
      rw [keyExist_iff,Option.isSome_eq_false_iff,Option.isNone_iff_eq_none] at hkey
      rw [getLocalized_of_tried h,hmissing,get_eq_found,hkey]
      rfl

/-- `de` is stored under the plain key, which is not read; for `de_DE` a plain key is not read either. -/
theorem not_localizedAgree_german :
    ¬ LocalizedAgree .empty (some (CString.ofBuf [100,101])) (CString.ofBuf [83]) (CString.ofBuf [75]) ∧
      ¬ LocalizedAgree (run [⟨CString.ofBuf [83],CString.ofBuf [75],CString.ofBuf [118]⟩])
        (some (CString.ofBuf [100,101,95,68,69])) (CString.ofBuf [83]) (CString.ofBuf [75]) := by
  constructor <;> intro h
  · have hread := h.set_get (by decide) (CString.ofBuf [118]) 2 (by decide)
    revert hread
    decide
  · have hread := h.plain (by decide +kernel) 2
    revert hread
    decide +kernel

end Config
end Edelib
