import Edelib.Edbus.Sendable

/-! # Sending data and reading them back

Data without object paths, whose dicts have short signatures, are appended as the value
that stands for them, and read back from it.
-/
namespace Edelib.Edbus
open Foundation

/-! ## The value is well typed -/

theorem wellTyped_toValue {d : EdbusData} (h : sendable d = true) : (toValue d).WellTyped := by
  induction d using EdbusData.induct with
  | basic v => exact .basic _
  | array lst ih =>
    obtain ⟨hsize,hsig,hparts⟩ := sendable_array.mp h
    have hne := ne_nil_of_listSize hsize
    rw [toValue,toValues_eq_map] at *
    refine .array (by simpa using hne) (fun v hv => ?_) (fun v hv => ?_)
    · obtain ⟨d,hd,rfl⟩ := List.mem_map.mp hv
      exact hsig d hd
    · obtain ⟨d,hd,rfl⟩ := List.mem_map.mp hv
      exact ih d hd (hparts d hd)
  | struct lst ih =>
    obtain ⟨hsize,hparts⟩ := sendable_struct.mp h
    have hne := ne_nil_of_listSize hsize
    rw [toValue,toValues_eq_map]
    refine .struct (by simpa using hne) (fun v hv => ?_) (fun v hv => ?_)
    · obtain ⟨d,-,rfl⟩ := List.mem_map.mp hv
      exact toValue_type_ne d
    · obtain ⟨d,hd,rfl⟩ := List.mem_map.mp hv
      exact ih d hd (hparts d hd)
  | dict lst ih =>
    obtain ⟨hsize,hkeys,hsig,hparts⟩ := sendable_dict.mp h
    have hne := ne_nil_of_dictSize hsize
    rw [toValue,toEntries_eq_map] at *
    refine .array (by simpa using hne) (fun v hv => ?_) (fun v hv => ?_)
    · obtain ⟨e,he,rfl⟩ := List.mem_map.mp hv
      exact hsig e he
    · obtain ⟨e,he,rfl⟩ := List.mem_map.mp hv
      have hkey := hkeys.basic e he
      have hvalue := (ih e he).2 (hparts e he).2
      obtain ⟨key,value⟩ := e
      cases key with
      | basic v => exact .dictEntry _ (toValue_type_ne value) hvalue
      | _ => cases hkey
  | variant value ih => exact .variant (toValue_type_ne value) (ih (sendable_variant.mp h))

/-! ## Appending -/

section Append
variable (lib : LibDBusCalls)

theorem toDBusIterFromBasicType_eq {v : EdbusBasic} (hs : sendable (.basic v) = true)
    (hp : noObjectPath (.basic v) = true) (it : lib.AppendIter) :
    toDBusIterFromBasicType lib it v = some (lib.appendBasic it (toBasic v)) := by
  cases v with
  | invalid => exact absurd rfl (sendable_basic.mp hs)
  | objectPath v => cases hp
  | _ => rfl

theorem toDBusIterElements_eq {lst : List EdbusData}
    (ih : ∀ d ∈ lst, ∀ it, toDBusIter lib it d = some (lib.appendValue it (toValue d))) (sub : lib.AppendIter) :
    toDBusIterElements lib sub lst = some (lib.appendValues sub (toValues lst)) := by
  induction lst generalizing sub with
  | nil => rfl
  | cons d lst ihl =>
    obtain ⟨hd,hlst⟩ := List.forall_mem_cons.mp ih
    rw [toDBusIterElements,hd,Option.bind_eq_bind,Option.bind_some,ihl hlst]
    rfl

theorem toDBusIterEntries_eq {lst : List EdbusDictEntry}
    (ih : ∀ e ∈ lst, (∀ it, toDBusIterFromKey lib it e.key = some (lib.appendValue it (toValue e.key))) ∧
      ∀ it, toDBusIter lib it e.value = some (lib.appendValue it (toValue e.value))) (sub : lib.AppendIter) :
    toDBusIterEntries lib sub lst = some (lib.appendValues sub (toEntries lst)) := by
  induction lst generalizing sub with
  | nil => rfl
  | cons e lst ihl =>
    obtain ⟨⟨hkey,hvalue⟩,hlst⟩ := List.forall_mem_cons.mp ih
    obtain ⟨key,value⟩ := e
    simp only [EdbusDictEntry.key_mk,EdbusDictEntry.value_mk] at hkey hvalue
    simp only [toDBusIterEntries,hkey,hvalue,Option.bind_eq_bind,Option.bind_some,ihl hlst]
    rfl

/-- A short signature is kept whole. -/
theorem dictSignature_eq {keySig valueSig : List Char} (hkey : keySig.length = 1) (hvalue : valueSig.length ≤ 252) :
    dictSignature keySig valueSig = '\x7b' :: (keySig ++ valueSig ++ ['\x7d']) := by
  apply List.take_of_length_le
  simp only [List.length_cons,List.length_append,List.length_nil]
  omega

theorem length_signature_key {key : EdbusData} (h : key.basicType = true) : key.signature.length = 1 := by
  cases key with
  | basic v => rfl
  | _ => cases h

theorem typeString_key {key : EdbusData} (h : key.basicType = true) (hs : sendable key = true) :
    typeString key.type = some key.signature := by
  cases key with
  | basic v => exact typeString_basic (sendable_basic.mp hs)
  | _ => cases h

theorem toDBusIter_basic_key (lib : LibDBusCalls) {key : EdbusData} (h : key.basicType = true) (it : lib.AppendIter) :
    toDBusIterFromKey lib it key = toDBusIter lib it key := by
  cases key with
  | basic v => rfl
  | _ => cases h

theorem toDBusIter_eq {d : EdbusData} (hs : sendable d = true) (hp : noObjectPath d = true)
    (hd : shortDicts d = true) (it : lib.AppendIter) :
    toDBusIter lib it d = some (lib.appendValue it (toValue d)) := by
  induction d using EdbusData.induct generalizing it with
  | basic v => exact toDBusIterFromBasicType_eq lib hs hp it
  | array lst ih =>
    obtain ⟨hsize,-,hparts⟩ := sendable_array.mp hs
    have helements := toDBusIterElements_eq lib (fun d hmem it =>
      ih d hmem (hparts d hmem) ((everywhere_array.mp hp).2 d hmem) ((everywhere_array.mp hd).2 d hmem) it)
    cases lst with
    | nil => exact absurd rfl hsize
    | cons d lst =>
      have hsig := partSignature_eq (hparts d List.mem_cons_self)
      simp only [toDBusIter,toDBusIterFromArray,if_neg hsize,hsig,helements,Option.bind_eq_bind,Option.bind_some]
      rfl
  | struct lst ih =>
    obtain ⟨-,hparts⟩ := sendable_struct.mp hs
    have helements := toDBusIterElements_eq lib (fun d hmem it =>
      ih d hmem (hparts d hmem) ((everywhere_struct.mp hp).2 d hmem) ((everywhere_struct.mp hd).2 d hmem) it)
    simp only [toDBusIter_struct,toDBusIterFromStruct,helements,Option.bind_eq_bind,Option.bind_some]
    rfl
  | dict lst ih =>
    obtain ⟨hsize,hkeys,-,hparts⟩ := sendable_dict.mp hs
    have hpaths := (everywhere_dict.mp hp).2
    obtain ⟨hshort,hdicts⟩ := everywhere_dict.mp hd
    have hentries : ∀ sub, toDBusIterEntries lib sub lst = some (lib.appendValues sub (toEntries lst)) := by
      refine toDBusIterEntries_eq lib (fun e he => ⟨fun it => ?_,fun it => ?_⟩)
      · rw [toDBusIter_basic_key lib (hkeys.basic e he)]
        exact (ih e he).1 (hparts e he).1 (hpaths e he).1 (hdicts e he).1 it
      · exact (ih e he).2 (hparts e he).2 (hpaths e he).2 (hdicts e he).2 it
    cases lst with
    | nil => exact absurd rfl hsize
    | cons e lst =>
      obtain ⟨hkey,hvalue⟩ := hparts e List.mem_cons_self
      have hb := hkeys.basic e List.mem_cons_self
      have hlen : e.value.signature.length ≤ 252 := of_decide_eq_true hshort
      have hsig := dictSignature_eq (length_signature_key hb) hlen
      simp only [toDBusIter,toDBusIterFromDict,if_neg hsize,typeString_key hb hkey,partSignature_eq hvalue,hsig,hentries,
        Option.bind_eq_bind,Option.bind_some]
      cases e
      rfl
  | variant value ih =>
    have hvalue := sendable_variant.mp hs
    have happend := ih hvalue (everywhere_variant.mp hp).2 (everywhere_variant.mp hd).2
    have hsig := variantSignature_eq hvalue
    simp only [toDBusIter,toDBusIterFromVariant,if_neg (sendable_type hvalue),hsig,happend,Option.bind_eq_bind,
      Option.bind_some]
    rfl

end Append

/-! ## Reading -/

section Read
variable (lib : LibDBus)

def Finds (it : lib.ReadIter) (d : EdbusData) : Prop :=
  ∃ n, ∀ fuel, n ≤ fuel → fromDBusIter lib.toLibDBusCalls fuel it = some d

variable {lib}

theorem finds_basic {it : lib.ReadIter} {v : EdbusBasic} {values : List DBusValue}
    (hs : sendable (.basic v) = true) (hp : noObjectPath (.basic v) = true)
    (h : lib.Reading it (toValue (.basic v) :: values)) : Finds lib it (.basic v) := by
  have htype := lib.reading_type it _ _ h
  have hbasic := lib.reading_basic it (toBasic v) _ h
  refine ⟨1,fun fuel hfuel => ?_⟩
  obtain ⟨k,rfl⟩ : ∃ k, fuel = k + 1 := ⟨fuel - 1,by omega⟩
  cases v with
  | invalid => exact absurd rfl (sendable_basic.mp hs)
  | objectPath v => cases hp
  | bool v => cases v <;> simp [fromDBusIter,htype,hbasic,toValue,toBasic,DBusValue.type,DBusBasic.type,fromBasic]
  | _ => simp [fromDBusIter,htype,hbasic,toValue,toBasic,DBusValue.type,DBusBasic.type,fromBasic]

theorem reads_elements {lst : List EdbusData} (arrayMode : Bool)
    (ih : ∀ d ∈ lst, ∀ it values, lib.Reading it (toValue d :: values) → Finds lib it d)
    {done : List EdbusData} (htypes : arrayMode = true → (done ++ lst).Pairwise (fun d1 d2 => d1.type = d2.type))
    {it : lib.ReadIter} (h : lib.Reading it (toValues lst)) :
    ∃ n, ∀ fuel, n ≤ fuel →
      fromDBusIterElements lib.toLibDBusCalls fuel arrayMode it done = some (done ++ lst) := by
  induction lst generalizing done it with
  | nil =>
    have htype := lib.reading_nil it h
    refine ⟨1,fun fuel hfuel => ?_⟩
    obtain ⟨k,rfl⟩ : ∃ k, fuel = k + 1 := ⟨fuel - 1,by omega⟩
    simp [fromDBusIterElements,htype]
  | cons d lst ihl =>
    obtain ⟨hd,hlst⟩ := List.forall_mem_cons.mp ih
    obtain ⟨n,hn⟩ := hd it (toValues lst) h
    have happend : listAppend arrayMode done d = done ++ [d] := by
      refine listAppend_same (fun harray d' hd' => ?_)
      exact (List.pairwise_append.mp (htypes harray)).2.2 d' hd' d List.mem_cons_self
    have hassoc : done ++ [d] ++ lst = done ++ d :: lst := by simp
    obtain ⟨m,hm⟩ := @ihl hlst (done ++ [d]) (hassoc.symm ▸ htypes) (lib.next it) (lib.reading_next it _ _ h)
    have htype : ¬ lib.getArgType it = .invalid := by
      rw [lib.reading_type it _ _ h]
      exact toValue_type_valid d
    refine ⟨n + m + 1,fun fuel hfuel => ?_⟩
    obtain ⟨k,rfl⟩ : ∃ k, fuel = k + 1 := ⟨fuel - 1,by omega⟩
    simp only [fromDBusIterElements,if_neg htype,hn k (by omega),Option.bind_eq_bind,Option.bind_some,happend]
    rw [hm k (by omega),hassoc]

theorem reads_entries {lst : List EdbusDictEntry}
    (ih : ∀ e ∈ lst, (∀ it values, lib.Reading it (toValue e.key :: values) → Finds lib it e.key) ∧
      ∀ it values, lib.Reading it (toValue e.value :: values) → Finds lib it e.value)
    {done : List EdbusDictEntry} (hkeys : DistinctKeys (done ++ lst))
    (htypes : (done ++ lst).Pairwise (fun e1 e2 => e2.key.type = e1.key.type ∧ e2.value.type = e1.value.type))
    {it : lib.ReadIter} (h : lib.Reading it (toEntries lst)) :
    ∃ n, ∀ fuel, n ≤ fuel → fromDBusIterEntries lib.toLibDBusCalls fuel it done = some (done ++ lst) := by
  induction lst generalizing done it with
  | nil =>
    have htype := lib.reading_nil it h
    refine ⟨1,fun fuel hfuel => ?_⟩
    obtain ⟨k,rfl⟩ : ∃ k, fuel = k + 1 := ⟨fuel - 1,by omega⟩
    simp [fromDBusIterEntries,htype]
  | cons e lst ihl =>
    obtain ⟨⟨hkey,hvalue⟩,hlst⟩ := List.forall_mem_cons.mp ih
    obtain ⟨key,value⟩ := e
    have hkv : lib.Reading (lib.recurse it) [toValue key,toValue value] :=
      lib.reading_recurse it _ _ h (by simp [DBusValue.children])
    have hv := lib.reading_next _ _ _ hkv
    obtain ⟨n,hn⟩ := hkey _ _ hkv
    obtain ⟨n',hn'⟩ := hvalue _ _ hv
    have happend : dictAppend done key value = some (done ++ [⟨key,value⟩]) := by
      refine dictAppend_new (hkeys.basic ⟨key,value⟩ (by simp)) (fun e' he' => ?_) (fun e' he' => ?_)
      · exact (List.pairwise_append.mp hkeys.distinct).2.2 e' he' ⟨key,value⟩ List.mem_cons_self
      · exact (List.pairwise_append.mp htypes).2.2 e' he' ⟨key,value⟩ List.mem_cons_self
    have hassoc : done ++ [⟨key,value⟩] ++ lst = done ++ ⟨key,value⟩ :: lst := by simp
    obtain ⟨m,hm⟩ := @ihl hlst (done ++ [⟨key,value⟩]) (hassoc.symm ▸ hkeys) (hassoc.symm ▸ htypes)
      (lib.next it) (lib.reading_next it _ _ h)
    have hentry : lib.getArgType it = .dictEntry := lib.reading_type it _ _ h
    have hkeyType : ¬ lib.getArgType (lib.recurse it) = .invalid := by
      rw [lib.reading_type _ _ _ hkv]
      exact toValue_type_valid key
    have hvalueType : ¬ lib.getArgType (lib.next (lib.recurse it)) = .invalid := by
      rw [lib.reading_type _ _ _ hv]
      exact toValue_type_valid value
    refine ⟨n + n' + m + 1,fun fuel hfuel => ?_⟩
    obtain ⟨k,rfl⟩ : ∃ k, fuel = k + 1 := ⟨fuel - 1,by omega⟩
    simp only [EdbusDictEntry.key_mk,EdbusDictEntry.value_mk] at hn hn'
    simp only [fromDBusIterEntries,hentry,ne_eq,not_true_eq_false,if_false,if_neg hkeyType,if_neg hvalueType,
      hn k (by omega),hn' k (by omega),Option.bind_eq_bind,Option.bind_some,happend]
    rw [hm k (by omega),hassoc]

theorem pairwise_types {lst : List EdbusData} (hparts : ∀ d ∈ lst, sendable d = true) {sig : List Char}
    (hsig : ∀ d ∈ lst, d.signature = sig) : lst.Pairwise (fun d1 d2 => d1.type = d2.type) := by
  refine List.pairwise_of_forall_mem_list (fun d1 h1 d2 h2 => ?_)
  exact type_eq_of_signature (hparts d1 h1) (hparts d2 h2) ((hsig d1 h1).trans (hsig d2 h2).symm)

theorem entry_types {e1 e2 : EdbusDictEntry} (h1 : sendable e1.key = true ∧ sendable e1.value = true)
    (h2 : sendable e2.key = true ∧ sendable e2.value = true) (hb1 : e1.key.basicType = true)
    (hb2 : e2.key.basicType = true) (hsig : (toEntry e1).signature = (toEntry e2).signature) :
    e2.key.type = e1.key.type ∧ e2.value.type = e1.value.type := by
  have hkeys : e1.key.signature = e2.key.signature ∧
      e1.value.signature ++ ['\x7d'] = e2.value.signature ++ ['\x7d'] := by
    obtain ⟨key1,value1⟩ := e1
    obtain ⟨key2,value2⟩ := e2
    cases key1 with
    | basic v1 =>
      cases key2 with
      | basic v2 =>
        rw [toEntry,toEntry,DBusValue.signature,DBusValue.signature,List.append_assoc,List.append_assoc] at hsig
        exact List.append_inj (List.cons.inj hsig).2 rfl
      | _ => cases hb2
    | _ => cases hb1
  exact ⟨type_eq_of_signature h2.1 h1.1 hkeys.1.symm,
    type_eq_of_signature h2.2 h1.2 (List.append_inj_left' hkeys.2 rfl).symm⟩

theorem finds_toValue {d : EdbusData} (hs : sendable d = true) (hp : noObjectPath d = true) {it : lib.ReadIter}
    {values : List DBusValue} (h : lib.Reading it (toValue d :: values)) : Finds lib it d := by
  induction d using EdbusData.induct generalizing it values with
  | basic v => exact finds_basic hs hp h
  | array lst ih =>
    obtain ⟨hsize,hsig,hparts⟩ := sendable_array.mp hs
    have hne := ne_nil_of_listSize hsize
    have hpaths := (everywhere_array.mp hp).2
    have htypes := pairwise_types hparts hsig
    have hlen : toValues lst ≠ [] := by simpa [toValues_eq_map] using hne
    have htype : lib.getArgType it = .array := lib.reading_type it _ _ h
    obtain ⟨n,hn⟩ := @reads_elements lib lst true (fun d hd it values h => ih d hd (hparts d hd) (hpaths d hd) h)
      [] (fun _ => htypes) _ (lib.reading_recurse it _ _ h hlen)
    have helement : ¬ lib.getElementType it = .dictEntry := by
      cases lst with
      | nil => exact absurd rfl hne
      | cons d lst =>
        rw [lib.reading_element it _ (toValue d) (toValues lst) values h]
        exact toValue_type_ne d
    refine ⟨n + 1,fun fuel hfuel => ?_⟩
    obtain ⟨k,rfl⟩ : ∃ k, fuel = k + 1 := ⟨fuel - 1,by omega⟩
    simp only [fromDBusIter,htype,if_neg helement,hn k (by omega),Option.map_some,List.nil_append]
  | struct lst ih =>
    obtain ⟨hsize,hparts⟩ := sendable_struct.mp hs
    have hne := ne_nil_of_listSize hsize
    have hpaths := (everywhere_struct.mp hp).2
    have hlen : toValues lst ≠ [] := by simpa [toValues_eq_map] using hne
    have htype : lib.getArgType it = .struct := lib.reading_type it _ _ h
    obtain ⟨n,hn⟩ := @reads_elements lib lst false (fun d hd it values h => ih d hd (hparts d hd) (hpaths d hd) h)
      [] nofun _ (lib.reading_recurse it _ _ h hlen)
    refine ⟨n + 1,fun fuel hfuel => ?_⟩
    obtain ⟨k,rfl⟩ : ∃ k, fuel = k + 1 := ⟨fuel - 1,by omega⟩
    simp only [fromDBusIter,htype,hn k (by omega),Option.map_some,List.nil_append]
  | dict lst ih =>
    obtain ⟨hsize,hkeys,hsig,hparts⟩ := sendable_dict.mp hs
    have hne := ne_nil_of_dictSize hsize
    have hpaths := (everywhere_dict.mp hp).2
    have htypes : lst.Pairwise (fun e1 e2 => e2.key.type = e1.key.type ∧ e2.value.type = e1.value.type) := by
      refine List.pairwise_of_forall_mem_list (fun e1 h1 e2 h2 => ?_)
      exact entry_types (hparts e1 h1) (hparts e2 h2) (hkeys.basic e1 h1) (hkeys.basic e2 h2)
        ((hsig e1 h1).trans (hsig e2 h2).symm)
    have hlen : toEntries lst ≠ [] := by simpa [toEntries_eq_map] using hne
    have htype : lib.getArgType it = .array := lib.reading_type it _ _ h
    have hread := lib.reading_recurse it _ _ h hlen
    obtain ⟨n,hn⟩ := @reads_entries lib lst (fun e he =>
      ⟨fun it values h => (ih e he).1 (hparts e he).1 (hpaths e he).1 h,
        fun it values h => (ih e he).2 (hparts e he).2 (hpaths e he).2 h⟩) [] hkeys htypes _ hread
    obtain ⟨helement,hfirst⟩ : lib.getElementType it = .dictEntry ∧
        ¬ lib.getArgType (lib.recurse it) = .invalid := by
      cases lst with
      | nil => exact absurd rfl hne
      | cons e lst =>
        obtain ⟨key,value⟩ := e
        have htype := lib.reading_type _ (.dictEntry (toValue key) (toValue value)) (toEntries lst) hread
        refine ⟨lib.reading_element it _ (.dictEntry (toValue key) (toValue value)) (toEntries lst) values h,?_⟩
        rw [htype]
        nofun
    refine ⟨n + 1,fun fuel hfuel => ?_⟩
    obtain ⟨k,rfl⟩ : ∃ k, fuel = k + 1 := ⟨fuel - 1,by omega⟩
    simp only [fromDBusIter,htype,helement,if_true,if_neg hfirst,hn k (by omega),Option.map_some,List.nil_append]
  | variant value ih =>
    have htype : lib.getArgType it = .variant := lib.reading_type it _ _ h
    have hread : lib.Reading (lib.recurse it) [toValue value] := lib.reading_recurse it _ _ h nofun
    obtain ⟨n,hn⟩ := ih (sendable_variant.mp hs) (everywhere_variant.mp hp).2 hread
    refine ⟨n + 1,fun fuel hfuel => ?_⟩
    obtain ⟨k,rfl⟩ : ∃ k, fuel = k + 1 := ⟨fuel - 1,by omega⟩
    simp only [fromDBusIter,htype,hn k (by omega),Option.map_some]

end Read

end Edelib.Edbus
