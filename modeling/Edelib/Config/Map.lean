import Edelib.Config.Model
import Edelib.Foundation.Remembered

/-! # The configuration as a finite map

Lookups compare a hash and then a prefix, so a stored name can be mistaken for a
longer one with the same hash. Where no examined name is mistaken, every run of
`set` is a run of updates of one finite map, whatever section is cached.
-/
namespace Edelib
open Foundation StrUtil KeyedList Remembered

/-- The test a lookup applies: equal hashes, and the stored name a prefix of the query. -/
def accepted (stored query : CString) : Bool :=
  strHash query 0 == strHash stored 0 && stored.strncmp query stored.strlen == 0

theorem accepted_iff {stored query : CString} :
    accepted stored query = true ↔
      strHash query 0 = strHash stored 0 ∧ stored.bytes <+: query.bytes := by
  simp only [accepted,Bool.and_eq_true,beq_iff_eq,CString.strncmp_strlen_eq_zero]

@[simp] theorem accepted_self (s : CString) : accepted s s = true :=
  accepted_iff.mpr ⟨rfl,List.prefix_refl _⟩

theorem ConfigEntry.hasKey_eq (e : ConfigEntry) (key : CString) :
    e.hasKey (strHash key 0) key = accepted e.key key := by
  simp only [hasKey,accepted,e.hash_eq,e.keylen_eq,strHash_strlen]

theorem ConfigSection.isNamed_eq (cs : ConfigSection) (sect : CString) :
    cs.isNamed (strHash sect 0) sect = accepted cs.sname sect := by
  simp only [isNamed,accepted,cs.shash_eq,cs.snamelen_eq,strHash_strlen,
    BEq.comm (a := strHash cs.sname 0)]

/-! ## Lookups that are exact -/

/-- No key standing before `key` in the section is mistaken for it. -/
def ConfigSection.KeyClear (cs : ConfigSection) (key : CString) : Prop :=
  Unmistaken ConfigEntry.key (fun e q => accepted e.key q) key cs.entryList

/-- The sections in the order a lookup examines them: the cached one comes first. -/
def Config.examined (c : Config) : List ConfigSection :=
  (c.cached.bind (fun i => c.sectionList[i]?)).toList ++ c.sectionList

/-- No section examined before the one named `sect` is mistaken for it. -/
def Config.SectionClear (c : Config) (sect : CString) : Prop :=
  Unmistaken ConfigSection.sname (fun cs q => accepted cs.sname q) sect c.examined

def Config.LookupClear (c : Config) (sect key : CString) : Prop :=
  c.SectionClear sect ∧ ∀ cs ∈ c.sectionList, cs.sname = sect → cs.KeyClear key

instance (cs : ConfigSection) (key : CString) : Decidable (cs.KeyClear key) := by
  unfold ConfigSection.KeyClear
  infer_instance

instance (c : Config) (sect : CString) : Decidable (c.SectionClear sect) := by
  unfold Config.SectionClear
  infer_instance

instance (c : Config) (sect key : CString) : Decidable (c.LookupClear sect key) := by
  unfold Config.LookupClear
  infer_instance

/-- A key lookup is exact if and only if no earlier key is mistaken. -/
theorem ConfigSection.findEntry_eq_position_iff (cs : ConfigSection) (key : CString) :
    cs.findEntry key = position ConfigEntry.key key cs.entryList ↔ cs.KeyClear key := by
  simp only [findEntry,ConfigEntry.hasKey_eq]
  exact findIdx?_eq_position_iff ConfigEntry.key (fun e q => accepted e.key q)
    (fun e => accepted_self e.key) key cs.entryList

structure Config.Valid (c : Config) : Prop where
  names : (c.sectionList.map ConfigSection.sname).Nodup
  keys : ∀ cs ∈ c.sectionList, (cs.entryList.map ConfigEntry.key).Nodup
  cached_lt : ∀ i, c.cached = some i → i < c.sectionList.length

theorem Config.valid_empty : Config.empty.Valid :=
  ⟨List.nodup_nil,by simp [Config.empty],by simp [Config.empty]⟩

def Config.names (c : Config) : List CString := c.sectionList.map ConfigSection.sname

/-- A section lookup is one that remembers its last result. -/
theorem Config.findSection_eq (c : Config) (sect : CString) :
    c.findSection sect = (lookup accepted c.names c.cached sect,
      { c with cached := remember accepted c.names c.cached sect }) := by
  have hcached : c.cachedSection sect = c.cached.filter (fun i => c.names[i]?.any (fun n => accepted n sect)) := by
    simp only [cachedSection,names,ConfigSection.isNamed_eq,List.getElem?_map,Option.any_map]
  have hfirst : c.sectionList.findIdx? (fun cs => cs.isNamed (strHash sect 0) sect) = first accepted c.names sect := by
    simp only [first,names,ConfigSection.isNamed_eq,List.findIdx?_map,Function.comp_def]
  unfold findSection remember lookup
  rw [← hcached]
  simp only [hfirst]
  cases hd : c.cachedSection sect with
  | some i =>
    have hi : c.cached = some i := by
      rw [cachedSection] at hd
      exact (Option.filter_eq_some_iff.mp hd).1
    rw [Option.some_or,Option.some_or,← hi]
    cases c
    subst hi
    rfl
  | none => cases first accepted c.names sect <;> rfl

/-- A lookup leaves everything but the cached pointer, which stays in the list. -/
theorem Config.findSection_state (c : Config) (sect : CString) :
    ∃ p, (c.findSection sect).2 = { c with cached := p } ∧
      (c.Valid → ∀ i, p = some i → i < c.sectionList.length) := by
  rw [findSection_eq]
  refine ⟨_,rfl,fun hc i hi => ?_⟩
  have hlt : i < c.names.length := remember_lt (fun j hj => by simpa [names] using hc.cached_lt j hj) hi
  simpa [names] using hlt

theorem Config.not_named_of_findSection {c : Config} {sect : CString} (h : (c.findSection sect).1 = none) :
    ∀ cs ∈ c.sectionList, cs.sname ≠ sect := by
  rw [findSection_eq] at h
  rintro cs hcs rfl
  have hno := not_accept_of_lookup h cs.sname (List.mem_map_of_mem hcs)
  rw [accepted_self] at hno
  cases hno

theorem Config.accepted_of_findSection {c : Config} {sect : CString} {i : ℕ} (h : (c.findSection sect).1 = some i) :
    ∃ cs, c.sectionList[i]? = some cs ∧ accepted cs.sname sect = true := by
  rw [findSection_eq] at h
  obtain ⟨n,hn,hacc⟩ := accept_of_lookup h
  obtain ⟨cs,hcs,rfl⟩ := Option.map_eq_some_iff.mp (List.getElem?_map.symm.trans hn)
  exact ⟨cs,hcs,hacc⟩

/-- A section lookup is exact if and only if no examined section is mistaken. -/
theorem Config.findSection_eq_position_iff {c : Config} (hc : c.Valid) (sect : CString) :
    (c.findSection sect).1 = position ConfigSection.sname sect c.sectionList ↔ c.SectionClear sect := by
  have hall := findIdx?_eq_position_iff ConfigSection.sname
    (fun cs q => accepted cs.sname q) (fun cs => accepted_self cs.sname) sect c.sectionList
  have hidx : c.sectionList.findIdx? (fun cs => cs.isNamed (strHash sect 0) sect) =
      c.sectionList.findIdx? (fun cs => accepted cs.sname sect) := by
    simp only [ConfigSection.isNamed_eq]
  unfold findSection SectionClear examined
  cases hcache : c.cached with
  | none =>
    have hd : c.cachedSection sect = none := by simp [cachedSection,hcache]
    simp only [hd,hidx,Option.bind_none,Option.toList_none,List.nil_append]
    rw [← hall]
    cases c.sectionList.findIdx? (fun cs => accepted cs.sname sect) <;> rfl
  | some i =>
    have hi := hc.cached_lt i hcache
    have hget : c.sectionList[i]? = some c.sectionList[i] := List.getElem?_eq_getElem hi
    have hd : c.cachedSection sect = if accepted c.sectionList[i].sname sect = true then some i else none := by
      simp only [cachedSection,hcache,Option.filter_some,hget,Option.any_some,ConfigSection.isNamed_eq]
    simp only [Option.bind_some,hget,Option.toList_some,List.singleton_append,hd]
    by_cases hn : c.sectionList[i].sname = sect
    · -- the cached section is the one asked for
      have hp := position_of_getElem? ConfigSection.sname hc.names hget hn
      simp [hn,hp,Unmistaken]
    · by_cases ha : accepted c.sectionList[i].sname sect = true
      · refine iff_of_false ?_ (fun h => ?_)
        · intro he
          simp only [ha,↓reduceIte] at he
          obtain ⟨cs,hcs,hname⟩ := key_of_position ConfigSection.sname he.symm
          rw [hget] at hcs
          exact hn ((Option.some.inj hcs) ▸ hname)
        · have := h c.sectionList[i] (by simp [hn])
          exact absurd this (by simpa using ha)
      · have ha' : accepted c.sectionList[i].sname sect = false := by simpa using ha
        simp only [ha',Bool.false_eq_true,↓reduceIte,hidx]
        have hu : Unmistaken ConfigSection.sname (fun cs q => accepted cs.sname q) sect
            (c.sectionList[i] :: c.sectionList) ↔
            Unmistaken ConfigSection.sname (fun cs q => accepted cs.sname q) sect c.sectionList := by
          simp [Unmistaken,hn,ha']
        rw [hu,← hall]
        cases c.sectionList.findIdx? (fun cs => accepted cs.sname sect) <;> rfl

/-! ## The map a configuration stands for -/

def ConfigSection.value (cs : ConfigSection) (key : CString) : Option CString :=
  (record ConfigEntry.key key cs.entryList).map ConfigEntry.value

def Config.value (c : Config) (sect key : CString) : Option CString :=
  (record ConfigSection.sname sect c.sectionList).bind (fun cs => cs.value key)

@[simp] theorem ConfigSection.addEntry_sname (cs : ConfigSection) (key value : CString) :
    (cs.addEntry key value).sname = cs.sname := by
  unfold addEntry
  cases cs.findEntry key <;> rfl

theorem ConfigSection.not_keyed_of_findEntry {cs : ConfigSection} {key : CString}
    (h : cs.findEntry key = none) : ∀ e ∈ cs.entryList, e.key ≠ key := by
  rintro e he rfl
  have := List.findIdx?_eq_none_iff.mp h e he
  simp [ConfigEntry.hasKey_eq] at this

theorem ConfigSection.addEntry_keys_nodup {cs : ConfigSection} (h : (cs.entryList.map ConfigEntry.key).Nodup)
    (key value : CString) : ((cs.addEntry key value).entryList.map ConfigEntry.key).Nodup := by
  unfold addEntry
  cases hf : cs.findEntry key with
  | none => exact nodup_append ConfigEntry.key h rfl (not_keyed_of_findEntry hf)
  | some i => exact nodup_modify ConfigEntry.key h i (fun e => ConfigEntry.setValue_key e value)

/-- Adding an entry whose key is not mistaken updates the section's map at that key. -/
theorem ConfigSection.value_addEntry {cs : ConfigSection} {key : CString} (h : cs.KeyClear key)
    (value : CString) (key' : CString) :
    (cs.addEntry key value).value key' = if key' = key then some value else cs.value key' := by
  have hpos := (cs.findEntry_eq_position_iff key).mpr h
  unfold addEntry ConfigSection.value
  cases hf : cs.findEntry key with
  | none =>
    simp only [record_append ConfigEntry.key (ConfigEntry.create_key key value) (not_keyed_of_findEntry hf)]
    split_ifs <;> simp
  | some i =>
    have hi : position ConfigEntry.key key cs.entryList = some i := hpos ▸ hf
    obtain ⟨e,he,-⟩ := key_of_position ConfigEntry.key hi
    simp only [record_modify ConfigEntry.key hi (fun e => ConfigEntry.setValue_key e value),
      record_eq_of_position ConfigEntry.key hi,he]
    split_ifs <;> simp

theorem ConfigSection.addEntry_keys {cs : ConfigSection} {key : CString} (h : cs.KeyClear key) (value : CString) :
    (cs.addEntry key value).entryList.map ConfigEntry.key =
      if key ∈ cs.entryList.map ConfigEntry.key then cs.entryList.map ConfigEntry.key
      else cs.entryList.map ConfigEntry.key ++ [key] := by
  have hpos := (cs.findEntry_eq_position_iff key).mpr h
  unfold addEntry
  cases hf : cs.findEntry key with
  | none =>
    have hnot : key ∉ cs.entryList.map ConfigEntry.key := by
      intro hmem
      obtain ⟨e,he,hkey⟩ := List.mem_map.mp hmem
      exact not_keyed_of_findEntry hf e he hkey
    rw [if_neg hnot]
    simp
  | some i =>
    obtain ⟨e,he,hkey⟩ := key_of_position ConfigEntry.key (hpos ▸ hf)
    rw [if_pos (hkey ▸ List.mem_map_of_mem (List.mem_of_getElem? he))]
    exact map_modify ConfigEntry.key cs.entryList i (fun e => ConfigEntry.setValue_key e value)

@[simp] theorem ConfigSection.value_new (sect key : CString) : (ConfigSection.new sect).value key = none := rfl

/-- Everything `set` can do: change the section found, or append a new one. -/
theorem Config.set_cases (c : Config) (sect key value : CString) :
    (∃ i p, (c.findSection sect).1 = some i ∧ (c.Valid → ∀ i, p = some i → i < c.sectionList.length) ∧
      c.set sect key value = { c with
        cached := p,
        sectionList := c.sectionList.modify i (fun cs => cs.addEntry key value) }) ∨
    (∃ p, (c.findSection sect).1 = none ∧ (c.Valid → ∀ i, p = some i → i < c.sectionList.length) ∧
      c.set sect key value = { c with
        cached := p,
        sectnum := c.sectnum + 1,
        sectionList := c.sectionList ++ [(ConfigSection.new sect).addEntry key value] }) := by
  obtain ⟨p,hp,hlt⟩ := c.findSection_state sect
  cases hf : c.findSection sect with
  | mk found c' =>
    simp only [hf] at hp
    subst hp
    cases found with
    | some i => exact Or.inl ⟨i,p,rfl,hlt,by simp only [set,addSection,hf]⟩
    | none =>
      refine Or.inr ⟨p,rfl,hlt,?_⟩
      simp only [set,addSection,hf]
      congr 1
      exact modify_append_last c.sectionList (ConfigSection.new sect) (fun cs => cs.addEntry key value)

theorem Config.Valid.remember {c : Config} (hc : c.Valid) {p : Option ℕ}
    (hp : ∀ i, p = some i → i < c.sectionList.length) : { c with cached := p }.Valid :=
  ⟨hc.names,hc.keys,hp⟩

theorem Config.Valid.addEntryAt {c : Config} (hc : c.Valid) (i : ℕ) (key value : CString) :
    { c with sectionList := c.sectionList.modify i (fun cs => cs.addEntry key value) }.Valid := by
  refine ⟨nodup_modify ConfigSection.sname hc.names i (fun cs => cs.addEntry_sname key value),fun cs hcs => ?_,
    fun j hj => ?_⟩
  · obtain ⟨j,hj,rfl⟩ := List.getElem_of_mem hcs
    simp only [List.length_modify] at hj
    simp only [List.getElem_modify]
    split_ifs
    · exact ConfigSection.addEntry_keys_nodup (hc.keys _ (List.getElem_mem hj)) key value
    · exact hc.keys _ (List.getElem_mem hj)
  · simpa only [List.length_modify] using hc.cached_lt j hj

theorem Config.Valid.appendSection {c : Config} (hc : c.Valid) {cs : ConfigSection} {sect : CString}
    (hname : cs.sname = sect) (hkeys : (cs.entryList.map ConfigEntry.key).Nodup)
    (hn : ∀ cs ∈ c.sectionList, cs.sname ≠ sect) :
    { c with sectnum := c.sectnum + 1, sectionList := c.sectionList ++ [cs] }.Valid := by
  refine ⟨nodup_append ConfigSection.sname hc.names hname hn,fun cs' hcs' => ?_,fun j hj => ?_⟩
  · rcases List.mem_append.mp hcs' with hcs' | hcs'
    · exact hc.keys cs' hcs'
    · rw [List.mem_singleton.mp hcs']
      exact hkeys
  · have hlt := hc.cached_lt j hj
    rw [List.length_append]
    exact Nat.lt_add_right _ hlt

theorem Config.valid_set {c : Config} (hc : c.Valid) (sect key value : CString) :
    (c.set sect key value).Valid := by
  rcases c.set_cases sect key value with ⟨i,p,hf,hp,he⟩ | ⟨p,hf,hp,he⟩ <;> rw [he]
  · exact (hc.remember (hp hc)).addEntryAt i key value
  · exact (hc.remember (hp hc)).appendSection ((ConfigSection.new sect).addEntry_sname key value)
      (@ConfigSection.addEntry_keys_nodup (ConfigSection.new sect) List.nodup_nil key value)
      (c.not_named_of_findSection hf)

/-- A `set` whose lookups are clear updates the map at its section and key. -/
theorem Config.value_set {c : Config} (hc : c.Valid) {sect key : CString} (h : c.LookupClear sect key)
    (value sect' key' : CString) :
    (c.set sect key value).value sect' key' =
      if sect' = sect ∧ key' = key then some value else c.value sect' key' := by
  have hpos := (Config.findSection_eq_position_iff hc sect).mpr h.1
  unfold Config.value
  rcases c.set_cases sect key value with ⟨i,p,hf,-,he⟩ | ⟨p,hf,-,he⟩ <;> rw [he] <;> dsimp only
  · have hi : position ConfigSection.sname sect c.sectionList = some i := hpos ▸ hf
    obtain ⟨cs,hcs,hname⟩ := key_of_position ConfigSection.sname hi
    have hk := h.2 cs (List.mem_of_getElem? hcs) hname
    rw [record_modify ConfigSection.sname hi (fun cs => cs.addEntry_sname key value),
      record_eq_of_position ConfigSection.sname hi,hcs]
    by_cases hs : sect' = sect
    · subst hs
      simp [record_eq_of_position ConfigSection.sname hi,hcs,ConfigSection.value_addEntry hk]
    · simp [hs]
  · have hn := c.not_named_of_findSection hf
    have hx : ((ConfigSection.new sect).addEntry key value).sname = sect :=
      ConfigSection.addEntry_sname (ConfigSection.new sect) key value
    have hnew : (ConfigSection.new sect).KeyClear key := by
      intro e he
      simp [ConfigSection.new] at he
    rw [record_append ConfigSection.sname hx hn]
    by_cases hs : sect' = sect
    · subst hs
      simp [ConfigSection.value_addEntry hnew,(record_eq_none ConfigSection.sname).mpr hn]
    · simp [hs]

/-- A getter whose lookups are clear finds the entry that holds the stored value. -/
theorem Config.getEntry_eq_value {c : Config} (hc : c.Valid) {sect key : CString}
    (h : c.LookupClear sect key) :
    (c.getEntry sect key).1.toOption.map ConfigEntry.value = c.value sect key := by
  have hpos := (Config.findSection_eq_position_iff hc sect).mpr h.1
  obtain ⟨p,hp,-⟩ := c.findSection_state sect
  unfold Config.value getEntry
  cases hf : c.findSection sect with
  | mk found c' =>
    simp only [hf] at hp hpos
    subst hp
    cases found with
    | none => simp [Except.toOption,(record_eq_none ConfigSection.sname).mpr
        ((position_eq_none ConfigSection.sname).mp hpos.symm)]
    | some i =>
      obtain ⟨cs,hcs,hname⟩ := key_of_position ConfigSection.sname hpos.symm
      have hk := (cs.findEntry_eq_position_iff key).mpr (h.2 cs (List.mem_of_getElem? hcs) hname)
      simp only [hcs,Option.bind_some,record_eq_of_position ConfigSection.sname hpos.symm,hk,
        ConfigSection.value]
      cases hj : position ConfigEntry.key key cs.entryList with
      | none => simp [Except.toOption,(record_eq_none ConfigEntry.key).mpr
          ((position_eq_none ConfigEntry.key).mp hj)]
      | some j =>
        obtain ⟨e,he,-⟩ := key_of_position ConfigEntry.key hj
        simp [Except.toOption,record_eq_of_position ConfigEntry.key hj,he]

/-! ## Runs of `set` -/

structure SetCall where
  sect : CString
  key : CString
  value : CString

namespace Config

/-- The configuration after a run of `set` calls on an empty one. -/
def run (calls : List SetCall) : Config :=
  calls.foldl (fun c call => c.set call.sect call.key call.value) empty

def lastSet (calls : List SetCall) (sect key : CString) : Option CString :=
  (calls.reverse.find? (fun call => decide (call.sect = sect ∧ call.key = key))).map SetCall.value

/-- The map law for one section and key, in every state a run goes through. -/
def FiniteMapLaw (calls : List SetCall) (sect key : CString) : Prop :=
  ∀ done, done <+: calls →
    ((run done).getAllocated sect key).1 = lastSet done sect key ∧
    (∀ size, (∀ v ∈ lastSet done sect key, v.strlen < size) →
      ((run done).get sect key size).1.map CString.ofBuf = lastSet done sect key) ∧
    (((run done).getAllocated sect key).1.isSome = true ↔
      ∃ call ∈ done, call.sect = sect ∧ call.key = key) ∧
    ∀ call, done ++ [call] <+: calls → (call.sect,call.key) ≠ (sect,key) →
      ((run (done ++ [call])).getAllocated sect key).1 = ((run done).getAllocated sect key).1

/-- All names and values are shorter than 2^32 bytes, so that 32 bits hold their lengths. -/
structure ShortRun (calls : List SetCall) (sect key : CString) : Prop where
  sect : sect.strlen < 2 ^ 32
  key : key.strlen < 2 ^ 32
  calls : ∀ call ∈ calls, call.sect.strlen < 2 ^ 32 ∧ call.key.strlen < 2 ^ 32 ∧ call.value.strlen < 2 ^ 32

/-- Along the run, no `set` and no lookup of the queried name meets a mistaken name. -/
def NothingMistaken (calls : List SetCall) (sect key : CString) : Prop :=
  ∀ done, done <+: calls →
    (run done).LookupClear sect key ∧
    ∀ call, done ++ [call] <+: calls → (run done).LookupClear call.sect call.key

theorem run_snoc (calls : List SetCall) (call : SetCall) :
    run (calls ++ [call]) = (run calls).set call.sect call.key call.value := by
  simp only [run,List.foldl_append,List.foldl_cons,List.foldl_nil]

theorem valid_run (calls : List SetCall) : (run calls).Valid := by
  induction calls using List.reverseRecOn with
  | nil => exact valid_empty
  | append_singleton calls call ih => exact run_snoc calls call ▸ valid_set ih _ _ _

theorem lastSet_snoc (calls : List SetCall) (call : SetCall) (sect key : CString) :
    lastSet (calls ++ [call]) sect key =
      if sect = call.sect ∧ key = call.key then some call.value else lastSet calls sect key := by
  simp only [lastSet,List.reverse_append,List.reverse_singleton,List.singleton_append,List.find?_cons,
    eq_comm (a := sect),eq_comm (a := key)]
  by_cases h : call.sect = sect ∧ call.key = key <;> simp [h]

theorem lastSet_isSome (calls : List SetCall) (sect key : CString) :
    (lastSet calls sect key).isSome = true ↔ ∃ call ∈ calls, call.sect = sect ∧ call.key = key := by
  simp [lastSet,List.find?_isSome]

/-- A run without mistaken names stores, everywhere, the value set last. -/
theorem value_run {calls : List SetCall} (h : ∀ done call, done ++ [call] <+: calls →
    (run done).LookupClear call.sect call.key) (sect key : CString) :
    (run calls).value sect key = lastSet calls sect key := by
  induction calls using List.reverseRecOn with
  | nil => rfl
  | append_singleton calls call ih =>
    have hpre : calls <+: calls ++ [call] := List.prefix_append _ _
    rw [run_snoc,value_set (valid_run calls) (h calls call (List.prefix_refl _)),lastSet_snoc,
      ih (fun done c hd => h done c (hd.trans hpre))]

/-- The copy of a value that `getAllocated` makes: as many bytes as the recorded length says. -/
def allocatedOf (v : CString) : CString := CString.ofBuf (v.bytes.take (v.strlen % 2 ^ 32))

theorem allocatedOf_short {v : CString} (h : v.strlen < 2 ^ 32) : allocatedOf v = v := by
  rw [allocatedOf,Nat.mod_eq_of_lt h,CString.strlen,List.take_length,CString.ofBuf_bytes]

theorem getAllocated_entry (c : Config) (sect key : CString) : (c.getAllocated sect key).1 =
    ((c.getEntry sect key).1.toOption.map ConfigEntry.value).map allocatedOf := by
  unfold getAllocated
  cases c.getEntry sect key with
  | mk r c' =>
    cases r with
    | error e => rfl
    | ok e => simp only [e.valuelen_eq,Except.toOption,Option.map_some,allocatedOf]

theorem getAllocated_eq_value {c : Config} (hc : c.Valid) {sect key : CString} (h : c.LookupClear sect key)
    (hshort : ∀ v ∈ c.value sect key, v.strlen < 2 ^ 32) : (c.getAllocated sect key).1 = c.value sect key := by
  rw [getAllocated_entry,getEntry_eq_value hc h]
  cases hv : c.value sect key with
  | none => rfl
  | some v => rw [Option.map_some,allocatedOf_short (hshort v hv)]

/-- A buffer longer than the value receives the value and a terminator. -/
theorem get_eq_value {c : Config} (hc : c.Valid) {sect key : CString} (h : c.LookupClear sect key)
    {size : ℕ} (hsize : ∀ v ∈ c.value sect key, v.strlen < size) :
    (c.get sect key size).1.map CString.ofBuf = c.value sect key := by
  rw [← getEntry_eq_value hc h] at hsize ⊢
  unfold get
  cases hg : c.getEntry sect key with
  | mk r c' =>
    cases r with
    | error e => rfl
    | ok e =>
      have hlt : e.value.strlen < size := hsize e.value (by simp [hg,Except.toOption])
      have hv : ¬ e.valuelen > size := by
        have hle := Nat.mod_le e.value.strlen (2 ^ 32)
        rw [e.valuelen_eq]
        omega
      have hbuf : strncpyInto e.value size = e.value.bytes ++ 0 :: List.replicate (size - e.value.strlen - 1) 0 := by
        have : size - e.value.strlen = (size - e.value.strlen - 1) + 1 := by omega
        rw [strncpyInto,List.take_of_length_le (by exact hlt.le),this,List.replicate_succ]
        rfl
      simp [hv,hbuf,CString.ofBuf_bytes_append_nul,Except.toOption]

theorem lastSet_short {calls : List SetCall} {sect key v : CString}
    (h : ∀ call ∈ calls, call.value.strlen < 2 ^ 32) (hv : lastSet calls sect key = some v) : v.strlen < 2 ^ 32 := by
  obtain ⟨call,hcall,rfl⟩ := Option.map_eq_some_iff.mp hv
  exact h call (List.mem_reverse.mp (List.mem_of_find?_eq_some hcall))

/-- The run decides the condition: only finitely many lookups are made. -/
theorem nothingMistaken_iff {calls : List SetCall} {sect key : CString} :
    (∀ i ∈ List.range (calls.length + 1), (run (calls.take i)).LookupClear sect key ∧
      ∀ call ∈ (calls.drop i).head?, (run (calls.take i)).LookupClear call.sect call.key) ↔
    NothingMistaken calls sect key := by
  constructor
  · rintro h done ⟨rest,rfl⟩
    obtain ⟨h1,h2⟩ := h done.length (List.mem_range.mpr (by rw [List.length_append]; omega))
    simp only [List.take_left,List.drop_left] at h1 h2
    refine ⟨h1,?_⟩
    rintro call ⟨tail,htail⟩
    have hrest : rest = call :: tail := by simpa using htail.symm
    exact h2 call (by simp [hrest])
  · intro h i _
    obtain ⟨h1,h2⟩ := h (calls.take i) (List.take_prefix i calls)
    refine ⟨h1,fun call hcall => h2 call ⟨(calls.drop i).tail,?_⟩⟩
    obtain ⟨tail,htail⟩ := List.head?_eq_some_iff.mp hcall
    rw [htail,List.tail_cons,List.append_assoc,List.singleton_append,← htail,List.take_append_drop]

instance (calls : List SetCall) (sect key : CString) : Decidable (NothingMistaken calls sect key) :=
  decidable_of_iff _ nothingMistaken_iff

end Config
end Edelib
