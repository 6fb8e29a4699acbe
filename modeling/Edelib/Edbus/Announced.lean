import Edelib.Edbus.Sendable

/-! # Announced signatures

A container is opened with the signature of its parts, which is built from the first of
them. Of the others the append operations check the type only, and the signature of a
dict's entries is kept in a buffer of 256 bytes.
-/
namespace Edelib.Edbus
open Foundation

/-- A library that keeps the signature of the container opened last and nothing else. -/
abbrev openedProbe : LibDBusCalls where
  AppendIter := Option (List Char)
  ReadIter := Unit
  initAppend := none
  appendBasic := fun it _ => it
  openContainer := fun _ _ sig => sig
  closeContainer := fun _ sub => sub
  initRead := fun _ => ()
  getArgType := fun _ => .invalid
  getElementType := fun _ => .invalid
  getBasic := fun _ => .byte 0
  recurse := id
  next := id

def announced : EdbusData → Option (List Char)
  | .array lst => (toDBusIterFromArray openedProbe none lst some).join
  | .dict lst => (toDBusIterFromDict openedProbe none lst some).join
  | .variant value => (toDBusIterFromVariant openedProbe none value some).join
  | _ => none

def signed : EdbusData → Bool
  | .basic v => v != .invalid
  | .array [] => false
  | .array (d :: _) => signed d
  | .struct lst => !lst.isEmpty && signedAll lst
  | .dict [] => false
  | .dict (⟨key,value⟩ :: _) => signed key && signed value
  | .variant _ => true
where
  signedAll : List EdbusData → Bool
    | [] => true
    | d :: lst => signed d && signedAll lst

theorem signed_struct (lst : List EdbusData) : signed (.struct lst) = (!lst.isEmpty && signed.signedAll lst) := by
  rw [signed]

def dbusSignature (d : EdbusData) : Option (List Char) := if signed d then some d.signature else none

def entrySignature (e : EdbusDictEntry) : Option (List Char) :=
  if signed e.key && signed e.value then some (toEntry e).signature else none

def nonempty : EdbusData → Bool
  | .array lst => listSize lst != 0
  | .struct lst => listSize lst != 0
  | .dict lst => dictSize lst != 0
  | _ => true

def basicKeys : EdbusData → Bool
  | .dict lst => lst.all (fun e => e.key.basicType)
  | _ => true

/-- Data whose lists and dicts are filled by their append operations. -/
inductive Appended : EdbusData → Prop
  | basic (v : EdbusBasic) : Appended (.basic v)
  | variant {value : EdbusData} : Appended value → Appended (.variant value)
  | array : Appended (.array [])
  | arrayAppend {lst : List EdbusData} {val : EdbusData} : Appended (.array lst) → Appended val →
      Appended (.array (listAppend true lst val))
  | struct : Appended (.struct [])
  | structAppend {lst : List EdbusData} {val : EdbusData} : Appended (.struct lst) → Appended val →
      Appended (.struct (listAppend false lst val))
  | dict : Appended (.dict [])
  | dictAppend {lst lst' : List EdbusDictEntry} {key value : EdbusData} : Appended (.dict lst) → Appended key →
      Appended value → dictAppend lst key value = some lst' → Appended (.dict lst')

/-! ## What the append operations guarantee -/

theorem mem_listAppend {arrayMode : Bool} {lst : List EdbusData} {val d : EdbusData}
    (h : d ∈ listAppend arrayMode lst val) : d ∈ lst ∨ d = val := by
  unfold listAppend at h
  split at h
  · split_ifs at h
    · exact Or.inl h
    · exact (List.mem_append.mp h).imp_right List.mem_singleton.mp
  · exact (List.mem_append.mp h).imp_right List.mem_singleton.mp

theorem mem_replaceOrPush {key value : EdbusData} {lst lst' : List EdbusDictEntry}
    (h : replaceOrPush key value lst = some lst') {e : EdbusDictEntry} (he : e ∈ lst') :
    (e.key = key ∨ ∃ e₀ ∈ lst, e.key = e₀.key) ∧ (e.value = value ∨ ∃ e₀ ∈ lst, e.value = e₀.value) := by
  induction lst generalizing lst' with
  | nil =>
    cases h
    rw [List.mem_singleton.mp he]
    exact ⟨Or.inl rfl,Or.inl rfl⟩
  | cons it lst ih =>
    obtain ⟨equal,-,h⟩ := Option.bind_eq_some_iff.mp h
    cases equal with
    | true =>
      cases h
      rcases List.mem_cons.mp he with rfl | he
      · exact ⟨Or.inr ⟨it,List.mem_cons_self,rfl⟩,Or.inl rfl⟩
      · exact ⟨Or.inr ⟨e,List.mem_cons_of_mem _ he,rfl⟩,Or.inr ⟨e,List.mem_cons_of_mem _ he,rfl⟩⟩
    | false =>
      obtain ⟨rest,hrest,h⟩ := Option.bind_eq_some_iff.mp h
      cases h
      rcases List.mem_cons.mp he with rfl | he
      · exact ⟨Or.inr ⟨e,List.mem_cons_self,rfl⟩,Or.inr ⟨e,List.mem_cons_self,rfl⟩⟩
      · obtain ⟨hkey,hvalue⟩ := ih hrest he
        refine ⟨hkey.imp_right ?_,hvalue.imp_right ?_⟩
        · rintro ⟨e₀,he₀,hk⟩
          exact ⟨e₀,List.mem_cons_of_mem _ he₀,hk⟩
        · rintro ⟨e₀,he₀,hv⟩
          exact ⟨e₀,List.mem_cons_of_mem _ he₀,hv⟩

/-- The dict is as it was, or the key is basic and the entries come from the two. -/
theorem mem_dictAppend {key value : EdbusData} {lst lst' : List EdbusDictEntry}
    (h : dictAppend lst key value = some lst') : lst' = lst ∨ key.basicType = true ∧ ∀ e ∈ lst',
      (e.key = key ∨ ∃ e₀ ∈ lst, e.key = e₀.key) ∧ (e.value = value ∨ ∃ e₀ ∈ lst, e.value = e₀.value) := by
  exact (dictAppend_cases h).imp_right (And.imp_right (fun hreplace _ he => mem_replaceOrPush hreplace he))

theorem Appended.basicKeys {d : EdbusData} (h : Appended d) : everywhere basicKeys d = true := by
  induction h with
  | basic v => rfl
  | variant _ ih => exact everywhere_variant.mpr ⟨rfl,ih⟩
  | array => rfl
  | arrayAppend _ _ ihlst ihval =>
    refine everywhere_array.mpr ⟨rfl,fun d hd => ?_⟩
    rcases mem_listAppend hd with hd | rfl
    · exact (everywhere_array.mp ihlst).2 d hd
    · exact ihval
  | struct => rfl
  | structAppend _ _ ihlst ihval =>
    refine everywhere_struct.mpr ⟨rfl,fun d hd => ?_⟩
    rcases mem_listAppend hd with hd | rfl
    · exact (everywhere_struct.mp ihlst).2 d hd
    · exact ihval
  | dict => rfl
  | @dictAppend lst lst' key value _ _ _ happend ihlst ihkey ihvalue =>
    obtain ⟨hbasic,hparts⟩ := everywhere_dict.mp ihlst
    rcases mem_dictAppend happend with rfl | ⟨hkey,hfrom⟩
    · exact ihlst
    refine everywhere_dict.mpr ⟨List.all_eq_true.mpr fun e he => ?_,fun e he => ⟨?_,?_⟩⟩
    · rcases (hfrom e he).1 with hk | ⟨e₀,he₀,hk⟩
      · rw [hk,hkey]
      · rw [hk,List.all_eq_true.mp hbasic e₀ he₀]
    · rcases (hfrom e he).1 with hk | ⟨e₀,he₀,hk⟩
      · rw [hk,ihkey]
      · rw [hk,(hparts e₀ he₀).1]
    · rcases (hfrom e he).2 with hv | ⟨e₀,he₀,hv⟩
      · rw [hv,ihvalue]
      · rw [hv,(hparts e₀ he₀).2]

/-! ## The signature that is built -/

/-- No container without parts, and basic keys. -/
def regular (d : EdbusData) : Bool := everywhere nonempty d && everywhere basicKeys d

theorem regular_array {lst : List EdbusData} (h : regular (.array lst) = true) :
    listSize lst ≠ 0 ∧ ∀ d ∈ lst, regular d = true := by
  obtain ⟨hne,hkeys⟩ := Bool.and_eq_true_iff.mp h
  obtain ⟨hlst,hne⟩ := everywhere_array.mp hne
  refine ⟨by simpa [nonempty] using hlst,fun d hd => ?_⟩
  exact Bool.and_eq_true_iff.mpr ⟨hne d hd,(everywhere_array.mp hkeys).2 d hd⟩

theorem regular_struct {lst : List EdbusData} (h : regular (.struct lst) = true) :
    listSize lst ≠ 0 ∧ ∀ d ∈ lst, regular d = true := by
  obtain ⟨hne,hkeys⟩ := Bool.and_eq_true_iff.mp h
  obtain ⟨hlst,hne⟩ := everywhere_struct.mp hne
  refine ⟨by simpa [nonempty] using hlst,fun d hd => ?_⟩
  exact Bool.and_eq_true_iff.mpr ⟨hne d hd,(everywhere_struct.mp hkeys).2 d hd⟩

theorem regular_dict {lst : List EdbusDictEntry} (h : regular (.dict lst) = true) :
    dictSize lst ≠ 0 ∧ (∀ e ∈ lst, e.key.basicType = true) ∧ ∀ e ∈ lst, regular e.value = true := by
  obtain ⟨hne,hkeys⟩ := Bool.and_eq_true_iff.mp h
  obtain ⟨hlst,hne⟩ := everywhere_dict.mp hne
  obtain ⟨hbasic,hkeys⟩ := everywhere_dict.mp hkeys
  refine ⟨by simpa [nonempty] using hlst,List.all_eq_true.mp hbasic,fun e he => ?_⟩
  exact Bool.and_eq_true_iff.mpr ⟨(hne e he).2,(hkeys e he).2⟩

theorem regular_variant {value : EdbusData} (h : regular (.variant value) = true) : regular value = true := by
  obtain ⟨hne,hkeys⟩ := Bool.and_eq_true_iff.mp h
  exact Bool.and_eq_true_iff.mpr ⟨(everywhere_variant.mp hne).2,(everywhere_variant.mp hkeys).2⟩

theorem regular_basic {d : EdbusData} (h : d.basicType = true) : regular d = true := by
  cases d with
  | basic v => rfl
  | _ => cases h

theorem typeString_eq {d : EdbusData} (h : d.basicType = true) : typeString d.type = dbusSignature d := by
  cases d with
  | basic v => cases v <;> rfl
  | _ => cases h

def dbusSignatures (lst : List EdbusData) : Option (List Char) :=
  if signed.signedAll lst then some (DBusValue.signatures (toValues lst)) else none

theorem dbusSignatures_cons (d : EdbusData) (lst : List EdbusData) : dbusSignatures (d :: lst) =
    (dbusSignature d).bind (fun sig => (dbusSignatures lst).map (sig ++ ·)) := by
  cases hd : signed d with
  | false => simp [dbusSignatures,dbusSignature,signed.signedAll,hd]
  | true =>
    cases hlst : signed.signedAll lst with
    | false => simp [dbusSignatures,dbusSignature,signed.signedAll,hd,hlst]
    | true =>
      simp [dbusSignatures,dbusSignature,signed.signedAll,hd,hlst,toValues,DBusValue.signatures,
        EdbusData.signature]

theorem dbusSignature_array (d : EdbusData) (lst : List EdbusData) :
    dbusSignature (.array (d :: lst)) = (dbusSignature d).map ('a' :: ·) := by
  cases hd : signed d with
  | false => simp [dbusSignature,signed,hd]
  | true =>
    simp [dbusSignature,signed,hd,EdbusData.signature,toValue,toValues,firstSignature,DBusValue.signature]

theorem dbusSignature_struct {lst : List EdbusData} (hne : lst ≠ []) : dbusSignature (.struct lst) =
    (dbusSignatures lst).map (fun sig => '(' :: (sig ++ [')'])) := by
  cases hlst : signed.signedAll lst with
  | false => simp [dbusSignature,dbusSignatures,signed_struct,hlst]
  | true =>
    simp [dbusSignature,dbusSignatures,signed_struct,hlst,hne,EdbusData.signature,toValue,DBusValue.signature]

theorem entrySignature_eq (e : EdbusDictEntry) : entrySignature e = (dbusSignature e.key).bind
    (fun sig => (dbusSignature e.value).map (fun str => '\x7b' :: (sig ++ str ++ ['\x7d']))) := by
  cases hkey : signed e.key with
  | false => simp [entrySignature,dbusSignature,hkey]
  | true =>
    cases hvalue : signed e.value with
    | false => simp [entrySignature,dbusSignature,hkey,hvalue]
    | true => simp [entrySignature,dbusSignature,hkey,hvalue,toEntry,DBusValue.signature,EdbusData.signature]

theorem dbusSignature_dict (e : EdbusDictEntry) (lst : List EdbusDictEntry) :
    dbusSignature (.dict (e :: lst)) = (entrySignature e).map ('a' :: ·) := by
  obtain ⟨key,value⟩ := e
  cases hsigned : signed key && signed value with
  | false => simp [dbusSignature,entrySignature,signed,hsigned]
  | true =>
    simp [dbusSignature,entrySignature,signed,hsigned,EdbusData.signature,toValue,toEntries,toEntry,
      firstSignature,DBusValue.signature]

theorem buildSignatures_dbusSignatures {lst : List EdbusData}
    (ih : ∀ d ∈ lst, ∀ sig, buildSignature d sig = (dbusSignature d).map (sig ++ ·)) (sig : List Char) :
    buildSignatures lst sig = (dbusSignatures lst).map (sig ++ ·) := by
  induction lst generalizing sig with
  | nil => simp [buildSignatures,dbusSignatures,signed.signedAll,toValues,DBusValue.signatures]
  | cons d lst ihl =>
    obtain ⟨hd,hlst⟩ := List.forall_mem_cons.mp ih
    rw [buildSignatures,part_buildSignature,hd,dbusSignatures_cons]
    cases dbusSignature d with
    | none => rfl
    | some str =>
      rw [Option.map_some,Option.bind_eq_bind,Option.bind_some,ihl hlst,Option.bind_some,Option.map_map]
      simp [Function.comp_def]

/-- `build_signature` appends the D-Bus signature, or fails where there is none. -/
theorem buildSignature_dbusSignature {d : EdbusData} (h : regular d = true) (sig : List Char) :
    buildSignature d sig = (dbusSignature d).map (sig ++ ·) := by
  induction d using EdbusData.induct generalizing sig with
  | basic v => exact congrArg (Option.map _) (typeString_eq (d := .basic v) rfl)
  | array lst ih =>
    obtain ⟨hsize,hparts⟩ := regular_array h
    cases lst with
    | nil => exact absurd rfl hsize
    | cons d lst =>
      rw [buildSignature,if_neg hsize,part_buildSignature,dbusSignature_array,Option.map_map,
        ih d List.mem_cons_self (hparts d List.mem_cons_self) (sig ++ ['a'])]
      simp [Function.comp_def]
  | struct lst ih =>
    obtain ⟨hsize,hparts⟩ := regular_struct h
    rw [buildSignature,if_neg hsize,dbusSignature_struct (ne_nil_of_listSize hsize),
      buildSignatures_dbusSignatures (fun d hd => ih d hd (hparts d hd)) (sig ++ ['('])]
    cases dbusSignatures lst <;> simp
  | dict lst ih =>
    obtain ⟨hsize,hbasic,hparts⟩ := regular_dict h
    cases lst with
    | nil => exact absurd rfl hsize
    | cons e lst =>
      obtain ⟨key,value⟩ := e
      have hkey := typeString_eq (hbasic ⟨key,value⟩ List.mem_cons_self)
      have hvalue := (ih ⟨key,value⟩ List.mem_cons_self).2 (hparts ⟨key,value⟩ List.mem_cons_self)
      dsimp only [EdbusDictEntry.key_mk,EdbusDictEntry.value_mk] at hkey hvalue
      rw [buildSignature,if_neg hsize,dbusSignature_dict,entrySignature_eq,appendTypeString,hkey]
      dsimp only [EdbusDictEntry.key_mk,EdbusDictEntry.value_mk]
      cases dbusSignature key with
      | none => rfl
      | some str =>
        simp only [Option.map_some,Option.bind_eq_bind,Option.bind_some,part_buildSignature]
        rw [hvalue]
        cases dbusSignature value <;> simp
  | variant value ih => rfl

theorem partSignature_dbusSignature {d : EdbusData} (h : regular d = true) : partSignature d = dbusSignature d := by
  have hbuild := buildSignature_dbusSignature h []
  cases d with
  | basic v => exact typeString_eq rfl
  | variant value => rfl
  | _ => simpa [partSignature,valueTypeIsContainer,EdbusData.basicType,EdbusData.type] using hbuild

theorem variantSignature_dbusSignature {d : EdbusData} (h : regular d = true) :
    variantSignature d = dbusSignature d := by
  have hbuild := buildSignature_dbusSignature h []
  cases d with
  | basic v => exact typeString_eq rfl
  | _ => simpa [variantSignature,EdbusData.basicType] using hbuild

/-! ## What is announced -/

theorem announced_array {d : EdbusData} {lst : List EdbusData} (hsize : listSize (d :: lst) ≠ 0)
    (h : regular d = true) : announced (.array (d :: lst)) = dbusSignature d := by
  rw [announced,toDBusIterFromArray,if_neg hsize,partSignature_dbusSignature h]
  cases dbusSignature d <;> rfl

theorem announced_dict {e : EdbusDictEntry} {lst : List EdbusDictEntry} (hsize : dictSize (e :: lst) ≠ 0)
    (hkey : e.key.basicType = true) (hvalue : regular e.value = true) :
    announced (.dict (e :: lst)) = (entrySignature e).map (List.take 255) := by
  rw [announced,toDBusIterFromDict,if_neg hsize,typeString_eq hkey,partSignature_dbusSignature hvalue,entrySignature_eq]
  cases dbusSignature e.key with
  | none => rfl
  | some keySig => cases dbusSignature e.value <;> rfl

theorem announced_variant {value : EdbusData} (h : regular value = true) (hvalid : value.type ≠ .invalid) :
    announced (.variant value) = dbusSignature value := by
  rw [announced,toDBusIterFromVariant,if_neg hvalid,variantSignature_dbusSignature h]
  cases dbusSignature value <;> rfl

section Opens
variable (lib : LibDBusCalls) (parent : lib.AppendIter)

/-- What is appended is appended between the two calls around the announced signature. -/
theorem toDBusIter_array {lst : List EdbusData} (hsize : listSize lst ≠ 0) :
    toDBusIter lib parent (.array lst) = (announced (.array lst)).bind (fun sig =>
      (toDBusIterElements lib (lib.openContainer parent .array (some sig)) lst).map (lib.closeContainer parent)) := by
  cases lst with
  | nil => exact absurd rfl hsize
  | cons d lst =>
    rw [toDBusIter,announced,toDBusIterFromArray,toDBusIterFromArray,if_neg hsize,if_neg hsize]
    cases partSignature d with
    | none => rfl
    | some sig => exact (Option.map_eq_bind).symm

theorem toDBusIter_dict {lst : List EdbusDictEntry} (hsize : dictSize lst ≠ 0) :
    toDBusIter lib parent (.dict lst) = (announced (.dict lst)).bind (fun sig =>
      (toDBusIterEntries lib (lib.openContainer parent .array (some sig)) lst).map (lib.closeContainer parent)) := by
  cases lst with
  | nil => exact absurd rfl hsize
  | cons e lst =>
    rw [toDBusIter,announced,toDBusIterFromDict,toDBusIterFromDict,if_neg hsize,if_neg hsize]
    cases typeString e.key.type with
    | none => rfl
    | some keySig =>
      cases partSignature e.value with
      | none => rfl
      | some sig => exact (Option.map_eq_bind).symm

theorem toDBusIter_variant {value : EdbusData} (hvalid : value.type ≠ .invalid) :
    toDBusIter lib parent (.variant value) = (announced (.variant value)).bind (fun sig =>
      (toDBusIter lib (lib.openContainer parent .variant (some sig)) value).map (lib.closeContainer parent)) := by
  rw [toDBusIter,announced,toDBusIterFromVariant,toDBusIterFromVariant,if_neg hvalid,if_neg hvalid]
  cases variantSignature value with
  | none => rfl
  | some sig => exact (Option.map_eq_bind).symm

end Opens

end Edelib.Edbus
