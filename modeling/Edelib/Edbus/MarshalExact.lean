import Edelib.Edbus.MarshalRoundTrip
import Edelib.Edbus.CheckedMessages

/-! # When marshalling round trips

A library that checks elements refuses what is announced with a cut signature, and no
library is asked to append an object path: the assertion fails first.
-/
namespace Edelib.Edbus
open Foundation

/-- After any arguments, the data are appended without a failed assertion, and what is
read at their place is the data again. -/
def RoundTrips (d : EdbusData) : Prop :=
  ∀ (lib : LibDBus) (before : List DBusValue), (∀ v ∈ before, v.Argument) →
    ∃ it, toDBusIter lib.toLibDBusCalls (lib.appendValues lib.initAppend before) d = some it ∧
      Finds lib (lib.skip before.length (lib.initRead it)) d

theorem appendValues_append (lib : LibDBusCalls) (it : lib.AppendIter) (before values : List DBusValue) :
    lib.appendValues it (before ++ values) = lib.appendValues (lib.appendValues it before) values := by
  induction before generalizing it with
  | nil => rfl
  | cons w before ih =>
    rw [List.cons_append,LibDBusCalls.appendValues,ih]
    rfl

theorem reading_skip (lib : LibDBus) (before : List DBusValue) {it : lib.ReadIter} {values : List DBusValue}
    (h : lib.Reading it (before ++ values)) : lib.Reading (lib.skip before.length it) values := by
  induction before generalizing it with
  | nil => exact h
  | cons v before ih => exact ih (lib.reading_next it v _ h)

theorem roundTrips_of_conditions {d : EdbusData} (hs : sendable d = true) (hp : noObjectPath d = true)
    (hd : shortDicts d = true) : RoundTrips d := by
  intro lib before hbefore
  refine ⟨_,toDBusIter_eq lib.toLibDBusCalls hs hp hd _,?_⟩
  have happend := appendValues_append lib.toLibDBusCalls lib.initAppend before [toValue d]
  change Finds lib (lib.skip before.length (lib.initRead (lib.appendValues _ [toValue d]))) d
  rw [← happend]
  have hargs : ∀ v ∈ before ++ [toValue d], v.Argument := by
    intro v hv
    rcases List.mem_append.mp hv with hv | hv
    · exact hbefore v hv
    · rw [List.mem_singleton.mp hv]
      exact ⟨toValue_type_ne d,wellTyped_toValue hs⟩
  exact finds_toValue hs hp (reading_skip lib before (lib.stores _ hargs))

/-! ## What is refused -/

/-- A failed assertion, or an iterator of no use. -/
def Refused (result : Option checkedCalls.AppendIter) : Prop := ∀ it, result = some it → it = none

theorem refused_none : Refused none := nofun

theorem refused_bind {result : Option checkedCalls.AppendIter}
    {rest : checkedCalls.AppendIter → Option checkedCalls.AppendIter} (h : Refused result)
    (hrest : Refused (rest none)) : Refused (result.bind rest) := by
  cases result with
  | none => exact refused_none
  | some it =>
    obtain rfl := h it rfl
    exact hrest

/-- The loops close over what their last part left. -/
theorem refused_close {result : Option checkedCalls.AppendIter} (parent : checkedCalls.AppendIter)
    (h : Refused result) : Refused (result.bind (fun sub => some (checkedCalls.closeContainer parent sub))) := by
  cases result with
  | none => exact refused_none
  | some it =>
    obtain rfl := h it rfl
    rintro _ ⟨⟩
    rfl

theorem refused_basic (v : EdbusBasic) : Refused (toDBusIterFromBasicType checkedCalls none v) := by
  cases v <;> first | exact refused_none | (rintro _ ⟨⟩; rfl)

theorem refused_key (key : EdbusData) : Refused (toDBusIterFromKey checkedCalls none key) := by
  cases key with
  | basic v => exact refused_basic v
  | _ => exact refused_none

theorem refused_elements {lst : List EdbusData} (ih : ∀ d ∈ lst, Refused (toDBusIter checkedCalls none d)) :
    Refused (toDBusIterElements checkedCalls none lst) := by
  induction lst with
  | nil =>
    rintro _ ⟨⟩
    rfl
  | cons d lst ihl =>
    obtain ⟨hd,hlst⟩ := List.forall_mem_cons.mp ih
    exact refused_bind hd (ihl hlst)

theorem refused_entries {lst : List EdbusDictEntry}
    (ih : ∀ e ∈ lst, Refused (toDBusIter checkedCalls none e.value)) :
    Refused (toDBusIterEntries checkedCalls none lst) := by
  induction lst with
  | nil =>
    rintro _ ⟨⟩
    rfl
  | cons e lst ihl =>
    obtain ⟨he,hlst⟩ := List.forall_mem_cons.mp ih
    obtain ⟨key,value⟩ := e
    exact refused_bind (refused_key key) (refused_bind he (ihl hlst))

theorem refused_of_none (d : EdbusData) : Refused (toDBusIter checkedCalls none d) := by
  induction d using EdbusData.induct with
  | basic v => exact refused_basic v
  | array lst ih =>
    cases lst with
    | nil =>
      rintro _ ⟨⟩
      rfl
    | cons first lst =>
      rw [toDBusIter,toDBusIterFromArray]
      by_cases hsize : listSize (first :: lst) = 0
      · rw [if_pos hsize]
        rintro _ ⟨⟩
        rfl
      · rw [if_neg hsize]
        cases partSignature first with
        | none => exact refused_none
        | some sig => exact refused_close none (refused_elements ih)
  | struct lst ih => exact refused_close none (refused_elements ih)
  | dict lst ih =>
    cases lst with
    | nil =>
      rintro _ ⟨⟩
      rfl
    | cons first lst =>
      rw [toDBusIter,toDBusIterFromDict]
      by_cases hsize : dictSize (first :: lst) = 0
      · rw [if_pos hsize]
        rintro _ ⟨⟩
        rfl
      · rw [if_neg hsize]
        cases typeString first.key.type with
        | none => exact refused_none
        | some keySig =>
          cases partSignature first.value with
          | none => exact refused_none
          | some sig => exact refused_close none (refused_entries (fun e he => (ih e he).2))
  | variant value ih =>
    rw [toDBusIter,toDBusIterFromVariant]
    by_cases htype : value.type = .invalid
    · rw [if_pos htype]
      rintro _ ⟨⟩
      rfl
    · rw [if_neg htype]
      cases variantSignature value with
      | none => exact refused_none
      | some sig => exact refused_close none ih

theorem refused_elements_of_mem {lst : List EdbusData} {d : EdbusData} (hmem : d ∈ lst)
    (hd : ∀ it, Refused (toDBusIter checkedCalls it d)) (it : checkedCalls.AppendIter) :
    Refused (toDBusIterElements checkedCalls it lst) := by
  induction lst generalizing it with
  | nil => cases hmem
  | cons first lst ih =>
    rw [toDBusIterElements]
    rcases List.mem_cons.mp hmem with rfl | hmem
    · exact refused_bind (hd it) (refused_elements (fun d _ => refused_of_none d))
    · cases toDBusIter checkedCalls it first with
      | none => exact refused_none
      | some sub => exact ih hmem sub

theorem refused_entries_of_mem {lst : List EdbusDictEntry} {e : EdbusDictEntry} (hmem : e ∈ lst)
    (he : (∀ it, Refused (toDBusIterFromKey checkedCalls it e.key)) ∨
      ∀ it, Refused (toDBusIter checkedCalls it e.value)) (it : checkedCalls.AppendIter) :
    Refused (toDBusIterEntries checkedCalls it lst) := by
  have hnone := fun lst => @refused_entries lst (fun e _ => refused_of_none e.value)
  induction lst generalizing it with
  | nil => cases hmem
  | cons first lst ih =>
    obtain ⟨key,value⟩ := first
    rw [toDBusIterEntries]
    dsimp only
    rcases List.mem_cons.mp hmem with rfl | hmem
    · rcases he with hkey | hvalue
      · exact refused_bind (hkey _) (refused_bind (refused_of_none value) (hnone lst))
      · cases toDBusIterFromKey checkedCalls (checkedCalls.openContainer it .dictEntry none) key with
        | none => exact refused_none
        | some sub =>
          change Refused ((toDBusIter checkedCalls sub value).bind _)
          exact refused_bind (hvalue sub) (hnone lst)
    · cases toDBusIterFromKey checkedCalls (checkedCalls.openContainer it .dictEntry none) key with
      | none => exact refused_none
      | some sub =>
        change Refused ((toDBusIter checkedCalls sub value).bind _)
        cases toDBusIter checkedCalls sub value with
        | none => exact refused_none
        | some sub' => exact ih hmem _

structure Conditions (d : EdbusData) : Prop where
  sendable : sendable d = true
  noObjectPath : noObjectPath d = true
  shortDicts : shortDicts d = true

/-- No data without a value, no container counted as empty, and dicts as their append operation fills them. -/
def proper (d : EdbusData) : Bool :=
  everywhere (fun
    | .basic v => v != .invalid
    | .array lst => listSize lst != 0
    | .struct lst => listSize lst != 0
    | .dict lst => dictSize lst != 0 && decide (DistinctKeys lst)
    | .variant _ => true) d

theorem proper_array {lst : List EdbusData} :
    proper (.array lst) = true ↔ listSize lst ≠ 0 ∧ ∀ d ∈ lst, proper d = true := by
  simp [proper]

theorem proper_struct {lst : List EdbusData} :
    proper (.struct lst) = true ↔ listSize lst ≠ 0 ∧ ∀ d ∈ lst, proper d = true := by
  simp [proper]

theorem proper_dict {lst : List EdbusDictEntry} : proper (.dict lst) = true ↔
    dictSize lst ≠ 0 ∧ DistinctKeys lst ∧ ∀ e ∈ lst, proper e.key = true ∧ proper e.value = true := by
  simp [proper,and_assoc]

theorem proper_variant {value : EdbusData} : proper (.variant value) = true ↔ proper value = true := by
  simp [proper]

theorem proper_type {d : EdbusData} (h : proper d = true) : d.type ≠ .invalid := by
  cases d with
  | basic v =>
    cases v with
    | invalid => cases h
    | _ => nofun
  | _ => nofun

theorem proper_of_sendable {d : EdbusData} (h : sendable d = true) : proper d = true := by
  induction d using EdbusData.induct with
  | basic v => exact bne_iff_ne.mpr (sendable_basic.mp h)
  | array lst ih =>
    obtain ⟨hsize,-,hparts⟩ := sendable_array.mp h
    exact proper_array.mpr ⟨hsize,fun d hd => ih d hd (hparts d hd)⟩
  | struct lst ih =>
    obtain ⟨hsize,hparts⟩ := sendable_struct.mp h
    exact proper_struct.mpr ⟨hsize,fun d hd => ih d hd (hparts d hd)⟩
  | dict lst ih =>
    obtain ⟨hsize,hkeys,-,hparts⟩ := sendable_dict.mp h
    exact proper_dict.mpr ⟨hsize,hkeys,fun e he => ⟨(ih e he).1 (hparts e he).1,(ih e he).2 (hparts e he).2⟩⟩
  | variant value ih => exact proper_variant.mpr (ih (sendable_variant.mp h))

/-- An array does not take an element of another signature than the announced one. -/
theorem appendValues_other {values : List DBusValue} (htyped : ∀ v ∈ values, v.WellTyped) {sig : List Char}
    (hother : ∃ v ∈ values, v.signature ≠ sig) (parent : checkedCalls.AppendIter) :
    checkedCalls.appendValues (checkedCalls.openContainer parent .array (some sig)) values = none := by
  rw [appendValues_checked (fun v hv it => appendValue_checked (htyped v hv) it)]
  cases parent with
  | none => exact foldl_push_none values
  | some p => exact foldl_push_other rfl hother

theorem wellTyped_toEntry {e : EdbusDictEntry} (hkey : e.key.basicType = true) (hvalue : sendable e.value = true) :
    (toEntry e).WellTyped := by
  obtain ⟨key,value⟩ := e
  cases key with
  | basic v => exact .dictEntry _ (toValue_type_ne value) (wellTyped_toValue hvalue)
  | _ => cases hkey

/-- The first entry does not have a signature that was cut. -/
theorem signature_ne_cut {e : EdbusDictEntry} (hlong : 252 < e.value.signature.length) {keySig : List Char}
    (hkey : keySig.length = 1) : (toEntry e).signature ≠ dictSignature keySig e.value.signature := by
  obtain ⟨key,value⟩ := e
  rw [EdbusDictEntry.value_mk] at hlong ⊢
  have hcut : (dictSignature keySig value.signature).length = 255 := by
    simp only [dictSignature,List.length_take,List.length_cons,List.length_append,List.length_nil]
    omega
  intro he
  have hlen := congrArg List.length he
  have hv : (toValue value).signature.length = value.signature.length := rfl
  simp only [toEntry,EdbusDictEntry.key_mk,EdbusDictEntry.value_mk,DBusValue.signature,List.length_cons,
    List.length_append,List.length_nil,hcut] at hlen
  obtain ⟨c,str,hk,-⟩ := signature_head key
  have hpos : (toValue key).signature.length = str.length + 1 := congrArg List.length hk
  omega

/-- An array that is not taken has such an element, or elements of two signatures. -/
theorem array_conditions {lst : List EdbusData} (hsize : listSize lst ≠ 0) (hbad : ¬ Conditions (.array lst))
    (hall : ∀ d ∈ lst, Conditions d) : ∃ d ∈ lst, d.signature ≠ firstSignature (toValues lst) := by
  by_contra hone
  push Not at hone
  refine hbad ⟨sendable_array.mpr ⟨hsize,hone,fun d hd => (hall d hd).sendable⟩,?_,?_⟩
  · exact everywhere_array.mpr ⟨rfl,fun d hd => (hall d hd).noObjectPath⟩
  · exact everywhere_array.mpr ⟨rfl,fun d hd => (hall d hd).shortDicts⟩

/-- No entry has the signature that is announced for a dict that is not taken, or one of them is not taken. -/
theorem dict_conditions {first : EdbusDictEntry} {lst : List EdbusDictEntry} (hsize : dictSize (first :: lst) ≠ 0)
    (hkeys : DistinctKeys (first :: lst))
    (hbad : ¬ Conditions (.dict (first :: lst))) (hall : ∀ e ∈ first :: lst, Conditions e.key ∧ Conditions e.value) :
    ∃ e ∈ first :: lst, (toEntry e).signature ≠ dictSignature first.key.signature first.value.signature := by
  have hkey := length_signature_key (hkeys.basic first List.mem_cons_self)
  by_cases hshort : first.value.signature.length ≤ 252
  · by_contra hone
    push Not at hone
    have hfirst : firstSignature (toEntries (first :: lst)) = (toEntry first).signature := by
      rw [toEntries_eq_map]
      rfl
    refine hbad ⟨sendable_dict.mpr ⟨hsize,hkeys,fun e he => ?_,fun e he => ?_⟩,
      everywhere_dict.mpr ⟨rfl,fun e he => ?_⟩,everywhere_dict.mpr ⟨decide_eq_true hshort,fun e he => ?_⟩⟩
    · rw [hfirst,hone e he,hone first List.mem_cons_self]
    · exact ⟨(hall e he).1.sendable,(hall e he).2.sendable⟩
    · exact ⟨(hall e he).1.noObjectPath,(hall e he).2.noObjectPath⟩
    · exact ⟨(hall e he).1.shortDicts,(hall e he).2.shortDicts⟩
  · exact ⟨first,List.mem_cons_self,signature_ne_cut (Nat.lt_of_not_le hshort) hkey⟩

theorem toDBusIter_of_conditions {d : EdbusData} (h : Conditions d) (it : checkedCalls.AppendIter) :
    toDBusIter checkedCalls it d = some (checkedCalls.appendValue it (toValue d)) :=
  toDBusIter_eq checkedCalls h.sendable h.noObjectPath h.shortDicts it

/-- An element is refused, or the elements are taken one by one up to one of another signature. -/
theorem refused_array {lst : List EdbusData} (hsize : listSize lst ≠ 0) (hbad : ¬ Conditions (.array lst))
    (ih : ∀ d ∈ lst, ¬ Conditions d → ∀ it, Refused (toDBusIter checkedCalls it d)) (it : checkedCalls.AppendIter) :
    Refused (toDBusIter checkedCalls it (.array lst)) := by
  cases lst with
  | nil => exact absurd rfl hsize
  | cons first lst =>
    rw [toDBusIter,toDBusIterFromArray,if_neg hsize]
    by_cases hall : ∀ d ∈ first :: lst, Conditions d
    · have htyped : ∀ v ∈ toValues (first :: lst), v.WellTyped := by
        rw [toValues_eq_map]
        exact List.forall_mem_map.mpr (fun d hd => wellTyped_toValue (hall d hd).sendable)
      have hother : ∃ v ∈ toValues (first :: lst), v.signature ≠ first.signature := by
        obtain ⟨d,hd,hsig⟩ := array_conditions hsize hbad hall
        refine ⟨toValue d,?_,hsig⟩
        rw [toValues_eq_map]
        exact List.mem_map_of_mem hd
      rw [partSignature_eq (hall first List.mem_cons_self).sendable]
      refine refused_close it ?_
      rw [toDBusIterElements_eq checkedCalls (fun d hd => toDBusIter_of_conditions (hall d hd)),
        appendValues_other htyped hother it]
      rintro _ ⟨⟩
      rfl
    · push Not at hall
      obtain ⟨d,hd,hdbad⟩ := hall
      have hrefused := refused_elements_of_mem hd (ih d hd hdbad)
      cases partSignature first with
      | none => exact refused_none
      | some sig => exact refused_close it (hrefused _)

theorem refused_dict {lst : List EdbusDictEntry} (hsize : dictSize lst ≠ 0) (hkeys : DistinctKeys lst)
    (hbad : ¬ Conditions (.dict lst))
    (ih : ∀ e ∈ lst, (¬ Conditions e.key → ∀ it, Refused (toDBusIter checkedCalls it e.key)) ∧
      (¬ Conditions e.value → ∀ it, Refused (toDBusIter checkedCalls it e.value))) (it : checkedCalls.AppendIter) :
    Refused (toDBusIter checkedCalls it (.dict lst)) := by
  cases lst with
  | nil => exact absurd rfl hsize
  | cons first lst =>
    have hkey := fun e he => toDBusIter_basic_key checkedCalls (hkeys.basic e he)
    rw [toDBusIter,toDBusIterFromDict,if_neg hsize]
    by_cases hall : ∀ e ∈ first :: lst, Conditions e.key ∧ Conditions e.value
    · obtain ⟨hfkey,hfvalue⟩ := hall first List.mem_cons_self
      have htyped : ∀ v ∈ toEntries (first :: lst), v.WellTyped := by
        rw [toEntries_eq_map]
        exact List.forall_mem_map.mpr (fun e he => wellTyped_toEntry (hkeys.basic e he) (hall e he).2.sendable)
      have hother : ∃ v ∈ toEntries (first :: lst),
          v.signature ≠ dictSignature first.key.signature first.value.signature := by
        obtain ⟨e,he,hsig⟩ := dict_conditions hsize hkeys hbad hall
        refine ⟨toEntry e,?_,hsig⟩
        rw [toEntries_eq_map]
        exact List.mem_map_of_mem he
      have hentries := @toDBusIterEntries_eq checkedCalls (first :: lst) (fun e he =>
        ⟨fun it => (hkey e he it).trans (toDBusIter_of_conditions (hall e he).1 it),
          toDBusIter_of_conditions (hall e he).2⟩)
      rw [typeString_key (hkeys.basic first List.mem_cons_self) hfkey.sendable,partSignature_eq hfvalue.sendable]
      refine refused_close it ?_
      rw [hentries,appendValues_other htyped hother it]
      rintro _ ⟨⟩
      rfl
    · push Not at hall
      obtain ⟨e,he,hpart⟩ := hall
      have hrefused := refused_entries_of_mem he ((Classical.em (Conditions e.key)).symm.imp
        (fun hk it => hkey e he it ▸ (ih e he).1 hk it) (fun hk it => (ih e he).2 (hpart hk) it))
      cases typeString first.key.type with
      | none => exact refused_none
      | some keySig =>
        cases partSignature first.value with
        | none => exact refused_none
        | some sig => exact refused_close it (hrefused _)

/-- Data that do not meet the conditions are refused everywhere. -/
theorem toDBusIter_refused {d : EdbusData} (hd : proper d = true) (hbad : ¬ Conditions d)
    (it : checkedCalls.AppendIter) : Refused (toDBusIter checkedCalls it d) := by
  induction d using EdbusData.induct generalizing it with
  | basic v =>
    cases v with
    | objectPath v => exact refused_none
    | invalid => cases hd
    | _ => exact absurd ⟨rfl,rfl,rfl⟩ hbad
  | array lst ih =>
    obtain ⟨hsize,hparts⟩ := proper_array.mp hd
    exact refused_array hsize hbad (fun d hd => ih d hd (hparts d hd)) it
  | struct lst ih =>
    obtain ⟨hsize,hparts⟩ := proper_struct.mp hd
    have hnot : ¬ ∀ d ∈ lst, Conditions d := fun hall => hbad
      ⟨sendable_struct.mpr ⟨hsize,fun d hd => (hall d hd).sendable⟩,
        everywhere_struct.mpr ⟨rfl,fun d hd => (hall d hd).noObjectPath⟩,
        everywhere_struct.mpr ⟨rfl,fun d hd => (hall d hd).shortDicts⟩⟩
    push Not at hnot
    obtain ⟨d,hd,hdbad⟩ := hnot
    exact refused_close it (refused_elements_of_mem hd (ih d hd (hparts d hd) hdbad) _)
  | dict lst ih =>
    obtain ⟨hsize,hkeys,hparts⟩ := proper_dict.mp hd
    exact refused_dict hsize hkeys hbad (fun e he => ⟨(ih e he).1 (hparts e he).1,(ih e he).2 (hparts e he).2⟩) it
  | variant value ih =>
    have hvalue := proper_variant.mp hd
    have hvbad : ¬ Conditions value := fun h => hbad ⟨sendable_variant.mpr h.sendable,
      everywhere_variant.mpr ⟨rfl,h.noObjectPath⟩,everywhere_variant.mpr ⟨rfl,h.shortDicts⟩⟩
    rw [toDBusIter,toDBusIterFromVariant,if_neg (proper_type hvalue)]
    cases variantSignature value with
    | none => exact refused_none
    | some sig => exact refused_close it (ih hvalue hvbad _)

theorem not_roundTrips_of_refused {d : EdbusData} (hd : proper d = true) (hbad : ¬ Conditions d) :
    ¬ RoundTrips d := by
  intro h
  obtain ⟨it,hit,n,hn⟩ := h checked [] nofun
  obtain rfl := toDBusIter_refused hd hbad _ it hit
  have hnone : fromDBusIter checkedCalls (n + 1) [] = none := rfl
  exact absurd (hnone.symm.trans (hn (n + 1) (Nat.le_succ n))) nofun

/-- Data come back as they were sent if and only if there is no object path in them, and
the values of every dict have a signature of at most 252 characters. -/
theorem roundTrips_iff (d : EdbusData) (hs : sendable d = true) :
    RoundTrips d ↔ noObjectPath d = true ∧ shortDicts d = true := by
  constructor
  · intro h
    by_contra hbad
    exact not_roundTrips_of_refused (proper_of_sendable hs) (fun hd => hbad ⟨hd.noObjectPath,hd.shortDicts⟩) h
  · rintro ⟨hp,hd⟩
    exact roundTrips_of_conditions hs hp hd

def nested : EdbusData :=
  .dict [⟨.basic (.string (CString.ofBuf [97])),
      .struct [.basic (.bool true),.array [.variant (.basic (.int32 1)),.variant (.basic (.double 0))]]⟩,
    ⟨.basic (.string (CString.ofBuf [98])),.struct [.basic (.bool false),.array [.variant (.basic (.byte 2))]]⟩]

theorem roundTrips_nested :
    ∃ it, toDBusIter checkedCalls checkedCalls.initAppend nested = some it ∧
      Finds checked (checkedCalls.initRead it) nested :=
  (roundTrips_iff nested (by decide +kernel)).mpr (by decide +kernel) checked [] nofun

/-- The values' signature is a struct of 251 bytes. -/
def longDict : EdbusData := .dict [⟨.basic (.int32 1),.struct (List.replicate 251 (.basic (.byte 0)))⟩]

/-- An object path fails the assertion, and the signature of a dict of long structs is cut. -/
theorem not_roundTrips : ¬ RoundTrips (.basic (.objectPath (CString.ofBuf [47,97]))) ∧ ¬ RoundTrips longDict := by
  constructor
  · intro h
    obtain ⟨it,hit,-⟩ := h checked [] nofun
    cases hit
  · have hlong : shortDicts longDict = false := by decide +kernel
    refine not_roundTrips_of_refused (by decide +kernel) (fun h => ?_)
    exact absurd (hlong.symm.trans h.shortDicts) nofun

end Edelib.Edbus
