import Edelib.Edbus.Announced
import Mathlib.Data.List.TakeWhile

/-! # Announced signatures and appended parts

What is appended inside a container is recorded by a library that only does that. The
append operations let parts through that are not appended with the signature announced.
-/
namespace Edelib.Edbus
open Foundation

/-! ## What is appended -/

structure Opened where
  type : DBusType
  sig : List Char
  parts : List (List Char)

namespace Opened

def signature (it : Opened) : List Char :=
  match it.type with
  | .array => 'a' :: it.sig
  | .struct => '(' :: (it.parts.flatten ++ [')'])
  | .dictEntry => '\x7b' :: (it.parts.flatten ++ ['\x7d'])
  | _ => ['v']

def append (it : Opened) (sigs : List (List Char)) : Opened := { it with parts := it.parts ++ sigs }

@[simp] theorem append_nil (it : Opened) : it.append [] = it := by
  rw [append,List.append_nil]

@[simp] theorem append_append (it : Opened) (sigs sigs' : List (List Char)) :
    (it.append sigs).append sigs' = it.append (sigs ++ sigs') := by
  rw [append,append,append,List.append_assoc]

end Opened

abbrev signatureProbe : LibDBusCalls where
  AppendIter := Opened
  ReadIter := Unit
  initAppend := ⟨.invalid,[],[]⟩
  appendBasic := fun it v => it.append [[v.code]]
  openContainer := fun _ type sig => ⟨type,sig.getD [],[]⟩
  closeContainer := fun it sub => it.append [sub.signature]
  initRead := fun _ => ()
  getArgType := fun _ => .invalid
  getElementType := fun _ => .invalid
  getBasic := fun _ => .byte 0
  recurse := id
  next := id

/-- The signatures of what is appended for the data; a failed assertion has none. -/
def appended (d : EdbusData) : Option (List (List Char)) :=
  (toDBusIter signatureProbe signatureProbe.initAppend d).map Opened.parts

def appendedEntry (e : EdbusDictEntry) : Option (List (List Char)) :=
  (toDBusIterEntries signatureProbe signatureProbe.initAppend [e]).map Opened.parts

def untilNone {α : Type} : List (Option α) → List α
  | some a :: lst => a :: untilNone lst
  | _ => []

def partSignatures : EdbusData → List (List Char)
  | .array lst => (untilNone (lst.map appended)).flatten
  | .dict lst => (untilNone (lst.map appendedEntry)).flatten
  | .variant value => (appended value).getD []
  | _ => []

/-- The signature that the container is opened with, if it is, is that of each part. -/
def announcesParts (d : EdbusData) : Bool :=
  (announced d).all (fun sig => (partSignatures d).all (fun part => part == sig))

section Reached
variable (opens passes p : EdbusData → Bool)

mutual
/-- `p` holds of the data for which a function is called: of the parts of a container that
is opened, up to the first that fails. -/
def reached : EdbusData → Bool
  | .basic v => p (.basic v)
  | .array lst => p (.array lst) && (!opens (.array lst) || reachedIn lst)
  | .struct lst => p (.struct lst) && reachedIn lst
  | .dict lst => p (.dict lst) && (!opens (.dict lst) || reachedInEntries lst)
  | .variant value => p (.variant value) && (!opens (.variant value) || reached value)
  termination_by structural x => x
def reachedIn : List EdbusData → Bool
  | [] => true
  | d :: lst => reached d && (!passes d || reachedIn lst)
  termination_by structural x => x
def reachedInEntries : List EdbusDictEntry → Bool
  | [] => true
  | ⟨key,value⟩ :: lst => !passes key || reached value && (!passes value || reachedInEntries lst)
  termination_by structural x => x
end

end Reached

def announcesAll (d : EdbusData) : Bool :=
  reached (fun d => (announced d).isSome) (fun d => (appended d).isSome) announcesParts d

/-! ## What the data are -/

mutual
/-- No object path, and no value missing but that of a variant. -/
def passes : EdbusData → Bool
  | .basic v => v.type != .invalid && v.type != .objectPath
  | .array lst => passesAll lst
  | .struct lst => passesAll lst
  | .dict lst => passesEntries lst
  | .variant value => value.type == .invalid || passes value
  termination_by structural x => x
def passesAll : List EdbusData → Bool
  | [] => true
  | d :: lst => passes d && passesAll lst
  termination_by structural x => x
def passesEntries : List EdbusDictEntry → Bool
  | [] => true
  | ⟨key,value⟩ :: lst => passes key && passes value && passesEntries lst
  termination_by structural x => x
end

def opens : EdbusData → Bool
  | .variant value => value.type != .invalid && signed value
  | d => signed d

mutual
/-- The signature of the data without the variants that have no value; that of a dict's
entries is cut. -/
def sent : EdbusData → List (List Char)
  | .basic v => [[(toBasic v).code]]
  | .array lst => ['a' :: firstSignature (toValues lst)]
  | .struct lst => ['(' :: ((sentAll lst).flatten ++ [')'])]
  | .dict lst => ['a' :: (firstSignature (toEntries lst)).take 255]
  | .variant value => if value.type = .invalid then [] else [['v']]
  termination_by structural x => x
def sentAll : List EdbusData → List (List Char)
  | [] => []
  | d :: lst => sent d ++ sentAll lst
  termination_by structural x => x
end

def sentEntry (e : EdbusDictEntry) : List Char := '\x7b' :: ((sent e.key ++ sent e.value).flatten ++ ['\x7d'])

def passesEntry (e : EdbusDictEntry) : Bool := passes e.key && passes e.value

/-- Up to the first that does not pass, the parts have the signature of the first. -/
def oneSignature : EdbusData → Bool
  | .array lst => (lst.takeWhile passes).all (fun d => (sent d).all (fun sig => sig == firstSignature (toValues lst)))
  | .dict lst => (lst.takeWhile passesEntry).all
      (fun e => sentEntry e == (firstSignature (toEntries lst)).take 255)
  | .variant value => !passes value || (sent value).all (fun sig => sig == value.signature)
  | _ => true

/-! ## The recording library -/

theorem passesAll_iff {lst : List EdbusData} : passesAll lst = true ↔ ∀ d ∈ lst, passes d = true := by
  induction lst with
  | nil => simp [passesAll]
  | cons d lst ih => simp [passesAll,ih]

theorem passesEntries_cons (e : EdbusDictEntry) (lst : List EdbusDictEntry) :
    passesEntries (e :: lst) = (passesEntry e && passesEntries lst) := by
  obtain ⟨key,value⟩ := e
  rw [passesEntries,passesEntry,EdbusDictEntry.key_mk,EdbusDictEntry.value_mk]

theorem passesEntries_iff {lst : List EdbusDictEntry} :
    passesEntries lst = true ↔ ∀ e ∈ lst, passesEntry e = true := by
  induction lst with
  | nil => simp [passesEntries]
  | cons e lst ih => rw [passesEntries_cons,Bool.and_eq_true,ih,List.forall_mem_cons]

theorem signedAll_iff {lst : List EdbusData} : signed.signedAll lst = true ↔ ∀ d ∈ lst, signed d = true := by
  induction lst with
  | nil => simp [signed.signedAll]
  | cons d lst ih => simp [signed.signedAll,ih]

/-- What passes has a signature. -/
theorem signed_of_passes {d : EdbusData} (h : regular d = true) (hd : passes d = true) : signed d = true := by
  induction d using EdbusData.induct with
  | basic v => cases v <;> first | rfl | cases hd
  | array lst ih =>
    obtain ⟨hsize,hparts⟩ := regular_array h
    have hpass := passesAll_iff.mp hd
    cases lst with
    | nil => exact absurd rfl hsize
    | cons d lst => exact ih d List.mem_cons_self (hparts d List.mem_cons_self) (hpass d List.mem_cons_self)
  | struct lst ih =>
    obtain ⟨hsize,hparts⟩ := regular_struct h
    have hpass := passesAll_iff.mp hd
    have hall := signedAll_iff.mpr (fun d hd => ih d hd (hparts d hd) (hpass d hd))
    simp [signed_struct,hall,ne_nil_of_listSize hsize]
  | dict lst ih =>
    obtain ⟨hsize,hbasic,hparts⟩ := regular_dict h
    have hpass := passesEntries_iff.mp hd
    cases lst with
    | nil => exact absurd rfl hsize
    | cons e lst =>
      obtain ⟨hkey,hvalue⟩ := Bool.and_eq_true_iff.mp (hpass e List.mem_cons_self)
      obtain ⟨ihkey,ihvalue⟩ := ih e List.mem_cons_self
      have hk := ihkey (regular_basic (hbasic e List.mem_cons_self)) hkey
      have hv := ihvalue (hparts e List.mem_cons_self) hvalue
      obtain ⟨key,value⟩ := e
      exact Bool.and_eq_true_iff.mpr ⟨hk,hv⟩
  | variant value ih => rfl

theorem passes_eq_false {d : EdbusData} (h : regular d = true) (hsigned : signed d = false) : passes d = false :=
  Bool.eq_false_iff.mpr (fun hd => Bool.false_ne_true (hsigned.symm.trans (signed_of_passes h hd)))

theorem passesEntry_eq_false {e : EdbusDictEntry} (hkey : e.key.basicType = true) (hvalue : regular e.value = true)
    (hsigned : (signed e.key && signed e.value) = false) : passesEntry e = false := by
  rcases Bool.and_eq_false_iff.mp hsigned with hk | hv
  · rw [passesEntry,passes_eq_false (regular_basic hkey) hk,Bool.false_and]
  · rw [passesEntry,passes_eq_false hvalue hv,Bool.and_false]

theorem firstSignature_toEntries (e : EdbusDictEntry) (lst : List EdbusDictEntry) :
    firstSignature (toEntries (e :: lst)) = (toEntry e).signature := by
  rw [toEntries_eq_map]
  rfl

def Records (d : EdbusData) : Prop :=
  ∀ it, toDBusIter signatureProbe it d = if passes d then some (it.append (sent d)) else none

theorem records_basic (v : EdbusBasic) : Records (.basic v) := by
  intro it
  cases v <;> rfl

theorem records_elements {lst : List EdbusData} (h : ∀ d ∈ lst, Records d) (it : Opened) :
    toDBusIterElements signatureProbe it lst = if passesAll lst then some (it.append (sentAll lst)) else none := by
  induction lst generalizing it with
  | nil => simp [toDBusIterElements,passesAll,sentAll]
  | cons d lst ih =>
    obtain ⟨hd,hlst⟩ := List.forall_mem_cons.mp h
    rw [toDBusIterElements,hd,passesAll,sentAll]
    cases passes d with
    | false => rfl
    | true =>
      change toDBusIterElements signatureProbe (it.append (sent d)) lst = _
      rw [ih hlst,Opened.append_append,Bool.true_and]

theorem records_key {key : EdbusData} (h : key.basicType = true) (it : Opened) :
    toDBusIterFromKey signatureProbe it key = if passes key then some (it.append (sent key)) else none := by
  cases key with
  | basic v => exact records_basic v it
  | _ => cases h

/-- One entry after the other; each is closed as it is. -/
theorem records_entry {e : EdbusDictEntry} (hkey : e.key.basicType = true) (hvalue : Records e.value) (it : Opened)
    (lst : List EdbusDictEntry) : toDBusIterEntries signatureProbe it (e :: lst) =
      if passesEntry e then toDBusIterEntries signatureProbe (it.append [sentEntry e]) lst else none := by
  obtain ⟨key,value⟩ := e
  dsimp only [EdbusDictEntry.key_mk,EdbusDictEntry.value_mk] at hkey hvalue
  have hk := records_key hkey ⟨.dictEntry,[],[]⟩
  rw [toDBusIterEntries,passesEntry,EdbusDictEntry.key_mk,EdbusDictEntry.value_mk]
  change (toDBusIterFromKey signatureProbe ⟨.dictEntry,[],[]⟩ key).bind _ = _
  rw [hk]
  cases passes key with
  | false => rfl
  | true =>
    change (toDBusIter signatureProbe _ value).bind _ = _
    rw [hvalue]
    cases passes value with
    | false => rfl
    | true => simp [sentEntry,Opened.append,Opened.signature]

theorem records_entries {lst : List EdbusDictEntry} (hkeys : ∀ e ∈ lst, e.key.basicType = true)
    (h : ∀ e ∈ lst, Records e.value) (it : Opened) : toDBusIterEntries signatureProbe it lst =
      if passesEntries lst then some (it.append (lst.map sentEntry)) else none := by
  induction lst generalizing it with
  | nil => simp [toDBusIterEntries,passesEntries]
  | cons e lst ih =>
    obtain ⟨hkey,hkeys⟩ := List.forall_mem_cons.mp hkeys
    obtain ⟨he,hlst⟩ := List.forall_mem_cons.mp h
    rw [records_entry hkey he,passesEntries_cons]
    cases passesEntry e with
    | false => rfl
    | true =>
      rw [if_pos rfl,ih hkeys hlst,Bool.true_and,Opened.append_append]
      rfl

/-- Whatever is appended is recorded as it is sent. -/
theorem records {d : EdbusData} (h : regular d = true) : Records d := by
  induction d using EdbusData.induct with
  | basic v => exact records_basic v
  | array lst ih =>
    obtain ⟨hsize,hparts⟩ := regular_array h
    intro it
    have helements := records_elements (fun d hd => ih d hd (hparts d hd))
    cases lst with
    | nil => exact absurd rfl hsize
    | cons d lst =>
      rw [toDBusIter_array signatureProbe it hsize,announced_array hsize (hparts d List.mem_cons_self),dbusSignature]
      cases hsigned : signed d with
      | false =>
        rw [passes,passesAll,passes_eq_false (hparts d List.mem_cons_self) hsigned]
        rfl
      | true =>
        rw [if_pos rfl,Option.bind_some,helements,passes]
        cases passesAll (d :: lst) with
        | false => rfl
        | true => rfl
  | struct lst ih =>
    obtain ⟨hsize,hparts⟩ := regular_struct h
    intro it
    have helements := records_elements (fun d hd => ih d hd (hparts d hd))
    rw [toDBusIter_struct,toDBusIterFromStruct,helements,passes]
    cases passesAll lst with
    | false => rfl
    | true => rfl
  | dict lst ih =>
    obtain ⟨hsize,hbasic,hparts⟩ := regular_dict h
    intro it
    have hentries := records_entries hbasic (fun e he => (ih e he).2 (hparts e he))
    cases lst with
    | nil => exact absurd rfl hsize
    | cons e lst =>
      rw [toDBusIter_dict signatureProbe it hsize,
        announced_dict hsize (hbasic e List.mem_cons_self) (hparts e List.mem_cons_self),entrySignature]
      cases hsigned : signed e.key && signed e.value with
      | false =>
        have hpass := passesEntry_eq_false (hbasic e List.mem_cons_self) (hparts e List.mem_cons_self) hsigned
        rw [passes,passesEntries_cons,hpass]
        rfl
      | true =>
        rw [if_pos rfl,Option.map_some,Option.bind_some,hentries,passes]
        cases passesEntries (e :: lst) with
        | false => rfl
        | true =>
          rw [sent,firstSignature_toEntries]
          rfl
  | variant value ih =>
    intro it
    by_cases hvalid : value.type = .invalid
    · rw [toDBusIter,toDBusIterFromVariant,if_pos hvalid,passes,sent,if_pos hvalid,hvalid]
      simp
    · have hrec := ih (regular_variant h)
      rw [toDBusIter_variant signatureProbe it hvalid,announced_variant (regular_variant h) hvalid,dbusSignature,passes,
        sent,if_neg hvalid,beq_eq_false_iff_ne.mpr hvalid,Bool.false_or]
      cases hsigned : signed value with
      | false =>
        rw [passes_eq_false (regular_variant h) hsigned]
        rfl
      | true =>
        rw [if_pos rfl,Option.bind_some,hrec]
        cases passes value with
        | false => rfl
        | true => rfl

/-! ## The conditions on the data -/

theorem appended_eq {d : EdbusData} (h : regular d = true) : appended d = if passes d then some (sent d) else none := by
  rw [appended,records h]
  cases passes d with
  | false => rfl
  | true => rfl

theorem appendedEntry_eq {e : EdbusDictEntry} (hkey : e.key.basicType = true) (hvalue : regular e.value = true) :
    appendedEntry e = if passesEntry e then some [sentEntry e] else none := by
  rw [appendedEntry,records_entry hkey (records hvalue)]
  cases passesEntry e with
  | false => rfl
  | true => rfl

theorem isSome_announced {d : EdbusData} (h : regular d = true) (hc : d.type ∈ [EdbusDataType.array,.dict,.variant]) :
    (announced d).isSome = opens d := by
  cases d with
  | basic v => cases v <;> simp [EdbusData.type,EdbusBasic.type] at hc
  | array lst =>
    obtain ⟨hsize,hparts⟩ := regular_array h
    cases lst with
    | nil => exact absurd rfl hsize
    | cons d lst =>
      rw [announced_array hsize (hparts d List.mem_cons_self),dbusSignature]
      change _ = signed d
      cases signed d <;> rfl
  | struct lst => simp [EdbusData.type] at hc
  | dict lst =>
    obtain ⟨hsize,hbasic,hparts⟩ := regular_dict h
    cases lst with
    | nil => exact absurd rfl hsize
    | cons e lst =>
      rw [announced_dict hsize (hbasic e List.mem_cons_self) (hparts e List.mem_cons_self),entrySignature]
      obtain ⟨key,value⟩ := e
      change _ = (signed key && signed value)
      rw [EdbusDictEntry.key_mk,EdbusDictEntry.value_mk]
      cases signed key && signed value <;> rfl
  | variant value =>
    by_cases hvalid : value.type = .invalid
    · simp [announced,toDBusIterFromVariant,opens,hvalid]
    · rw [announced_variant (regular_variant h) hvalid,dbusSignature,opens,bne_iff_ne.mpr hvalid,Bool.true_and]
      cases signed value <;> rfl

theorem untilNone_map {α β : Type} (p : α → Bool) (f : α → β) (lst : List α) :
    untilNone (lst.map (fun a => if p a then some (f a) else none)) = (lst.takeWhile p).map f := by
  induction lst with
  | nil => rfl
  | cons a lst ih =>
    rw [List.map_cons,List.takeWhile_cons]
    cases p a with
    | false => rfl
    | true => exact congrArg (f a :: ·) ih

theorem announcesParts_array {lst : List EdbusData} (h : regular (.array lst) = true) :
    announcesParts (.array lst) = oneSignature (.array lst) := by
  obtain ⟨hsize,hparts⟩ := regular_array h
  have happended : lst.map appended = lst.map (fun d => if passes d then some (sent d) else none) :=
    List.map_congr_left (fun d hd => appended_eq (hparts d hd))
  cases lst with
  | nil => exact absurd rfl hsize
  | cons d lst =>
    have hfirst : firstSignature (toValues (d :: lst)) = d.signature := rfl
    rw [announcesParts,partSignatures,happended,untilNone_map,announced_array hsize (hparts d List.mem_cons_self),
      dbusSignature,oneSignature,hfirst]
    cases hsigned : signed d with
    | false =>
      rw [List.takeWhile_cons,passes_eq_false (hparts d List.mem_cons_self) hsigned]
      rfl
    | true =>
      rw [if_pos rfl,Option.all_some,List.all_flatten,List.all_map]
      rfl

theorem announcesParts_dict {lst : List EdbusDictEntry} (h : regular (.dict lst) = true) :
    announcesParts (.dict lst) = oneSignature (.dict lst) := by
  obtain ⟨hsize,hbasic,hparts⟩ := regular_dict h
  have happended : lst.map appendedEntry = lst.map (fun e => if passesEntry e then some [sentEntry e] else none) :=
    List.map_congr_left (fun e he => appendedEntry_eq (hbasic e he) (hparts e he))
  cases lst with
  | nil => exact absurd rfl hsize
  | cons e lst =>
    rw [announcesParts,partSignatures,happended,untilNone_map,oneSignature,firstSignature_toEntries,
      announced_dict hsize (hbasic e List.mem_cons_self) (hparts e List.mem_cons_self),entrySignature]
    cases hsigned : signed e.key && signed e.value with
    | false =>
      have hpass := passesEntry_eq_false (hbasic e List.mem_cons_self) (hparts e List.mem_cons_self) hsigned
      rw [List.takeWhile_cons,hpass]
      rfl
    | true =>
      rw [if_pos rfl,Option.map_some,Option.all_some,List.all_flatten,List.all_map]
      congr 1
      funext e'
      simp

theorem announcesParts_variant {value : EdbusData} (h : regular (.variant value) = true) :
    announcesParts (.variant value) = oneSignature (.variant value) := by
  by_cases hvalid : value.type = .invalid
  · cases value with
    | basic v => cases v <;> rfl
    | _ => cases hvalid
  · rw [announcesParts,partSignatures,appended_eq (regular_variant h),announced_variant (regular_variant h) hvalid,
      dbusSignature,oneSignature]
    cases hsigned : signed value with
    | false =>
      rw [passes_eq_false (regular_variant h) hsigned]
      rfl
    | true =>
      rw [if_pos rfl,Option.all_some]
      cases passes value with
      | false => rfl
      | true => rfl

theorem announcesParts_eq {d : EdbusData} (h : regular d = true) : announcesParts d = oneSignature d := by
  cases d with
  | basic v => rfl
  | array lst => exact announcesParts_array h
  | struct lst => rfl
  | dict lst => exact announcesParts_dict h
  | variant value => exact announcesParts_variant h

theorem isSome_appended {d : EdbusData} (h : regular d = true) : (appended d).isSome = passes d := by
  rw [appended_eq h]
  cases passes d <;> rfl

/-! ## Everything that is reached -/

section Congr
variable {opens' passes' p q : EdbusData → Bool}

theorem reachedIn_congr {lst : List EdbusData} (hpasses : ∀ d ∈ lst, passes' d = passes d)
    (ih : ∀ d ∈ lst, reached opens' passes' p d = reached opens passes q d) :
    reachedIn opens' passes' p lst = reachedIn opens passes q lst := by
  induction lst with
  | nil => rfl
  | cons d lst ihl =>
    obtain ⟨hd,hlst⟩ := List.forall_mem_cons.mp hpasses
    obtain ⟨ihd,ihlst⟩ := List.forall_mem_cons.mp ih
    rw [reachedIn,reachedIn,hd,ihd,ihl hlst ihlst]

theorem reachedInEntries_congr {lst : List EdbusDictEntry}
    (hpasses : ∀ e ∈ lst, passes' e.key = passes e.key ∧ passes' e.value = passes e.value)
    (ih : ∀ e ∈ lst, reached opens' passes' p e.value = reached opens passes q e.value) :
    reachedInEntries opens' passes' p lst = reachedInEntries opens passes q lst := by
  induction lst with
  | nil => rfl
  | cons e lst ihl =>
    obtain ⟨⟨hkey,hvalue⟩,hlst⟩ := List.forall_mem_cons.mp hpasses
    obtain ⟨ihe,ihlst⟩ := List.forall_mem_cons.mp ih
    obtain ⟨key,value⟩ := e
    dsimp only [EdbusDictEntry.key_mk,EdbusDictEntry.value_mk] at hkey hvalue ihe
    rw [reachedInEntries,reachedInEntries,hkey,hvalue,ihe,ihl hlst ihlst]

theorem reached_congr (hopens : ∀ d, regular d = true → d.type ∈ [EdbusDataType.array,.dict,.variant] →
      opens' d = opens d) (hpasses : ∀ d, regular d = true → passes' d = passes d)
    (hpq : ∀ d, regular d = true → p d = q d) {d : EdbusData} (h : regular d = true) :
    reached opens' passes' p d = reached opens passes q d := by
  induction d using EdbusData.induct with
  | basic v => rw [reached,reached,hpq _ h]
  | array lst ih =>
    obtain ⟨-,hparts⟩ := regular_array h
    rw [reached,reached,hpq _ h,hopens _ h List.mem_cons_self]
    rw [reachedIn_congr (fun d hd => hpasses d (hparts d hd)) (fun d hd => ih d hd (hparts d hd))]
  | struct lst ih =>
    obtain ⟨-,hparts⟩ := regular_struct h
    rw [reached,reached,hpq _ h]
    rw [reachedIn_congr (fun d hd => hpasses d (hparts d hd)) (fun d hd => ih d hd (hparts d hd))]
  | dict lst ih =>
    obtain ⟨-,hbasic,hparts⟩ := regular_dict h
    rw [reached,reached,hpq _ h,hopens _ h (List.mem_cons_of_mem _ List.mem_cons_self)]
    rw [reachedInEntries_congr
      (fun e he => ⟨hpasses e.key (regular_basic (hbasic e he)),hpasses e.value (hparts e he)⟩)
      (fun e he => (ih e he).2 (hparts e he))]
  | variant value ih =>
    rw [reached,reached,hpq _ h,hopens _ h (List.mem_cons_of_mem _ (List.mem_cons_of_mem _ List.mem_cons_self)),
      ih (regular_variant h)]

end Congr

/-- Every container that is opened is opened with the signature of each of its parts if and only if, wherever
appending comes to, the parts of each array and dict are sent with the signature of the first. -/
theorem announcesAll_iff (d : EdbusData) (h : Appended d) (hne : everywhere nonempty d = true) :
    announcesAll d = true ↔ reached opens passes oneSignature d = true := by
  have hregular : regular d = true := Bool.and_eq_true_iff.mpr ⟨hne,h.basicKeys⟩
  have hreached := reached_congr (fun _ hd hc => isSome_announced hd hc) (fun _ hd => isSome_appended hd)
    (fun _ hd => announcesParts_eq hd) hregular
  rw [announcesAll,hreached]

/-! ## Elements of one type and of two signatures -/

theorem Appended.array_of {lst : List EdbusData} {type : EdbusDataType} (htype : ∀ d ∈ lst, d.type = type)
    (h : ∀ d ∈ lst, Appended d) : Appended (.array lst) := by
  induction lst using List.reverseRecOn with
  | nil => exact Appended.array
  | append_singleton lst d ih =>
    obtain ⟨hlst,hd⟩ := List.forall_mem_append.mp h
    obtain ⟨hltype,hdtype⟩ := List.forall_mem_append.mp htype
    rw [List.forall_mem_singleton] at hd hdtype
    have happend := (ih hltype hlst).arrayAppend hd
    rwa [listAppend_same fun _ d' hd' => (hltype d' hd').trans hdtype.symm] at happend

theorem Appended.struct_of {lst : List EdbusData} (h : ∀ d ∈ lst, Appended d) : Appended (.struct lst) := by
  induction lst using List.reverseRecOn with
  | nil => exact Appended.struct
  | append_singleton lst d ih =>
    obtain ⟨hlst,hd⟩ := List.forall_mem_append.mp h
    exact (ih hlst).structAppend (List.forall_mem_singleton.mp hd)

/-- An array of structs, with one field each. -/
def structs (fields : List EdbusBasic) : EdbusData := .array (fields.map (fun v => .struct [.basic v]))

theorem appended_structs (fields : List EdbusBasic) : Appended (structs fields) := by
  have hstruct : ∀ v : EdbusBasic, Appended (.struct [.basic v]) := fun v =>
    Appended.struct_of (List.forall_mem_singleton.mpr (Appended.basic v))
  exact @Appended.array_of _ .struct (List.forall_mem_map.mpr fun _ _ => rfl)
    (List.forall_mem_map.mpr fun v _ => hstruct v)

theorem announcesAll_structs : announcesAll (structs [.byte 1,.byte 2]) = true :=
  (announcesAll_iff (structs [.byte 1,.byte 2]) (appended_structs _) (by decide +kernel)).mpr (by decide +kernel)

/-- The values' signature is a struct of 251 bytes. -/
def longStructDict : EdbusData := .dict [⟨.basic (.int32 1),.struct (List.replicate 251 (.basic (.byte 0)))⟩]

theorem appended_longStructDict : Appended longStructDict := by
  have hstruct : Appended (.struct (List.replicate 251 (.basic (.byte 0)))) := Appended.struct_of fun d hd => by
    rw [List.eq_of_mem_replicate hd]
    exact Appended.basic _
  exact Appended.dict.dictAppend (Appended.basic _) hstruct rfl

/-- A struct whose variant has no value, in an array. -/
def bareVariant : EdbusData := .array [.struct [.variant (.basic .invalid),.basic (.byte 1)]]

theorem appended_bareVariant : Appended bareVariant := by
  have hstruct : Appended (.struct [.variant (.basic .invalid),.basic (.byte 1)]) :=
    Appended.struct_of (List.forall_mem_cons.mpr ⟨Appended.variant (Appended.basic _),
      List.forall_mem_singleton.mpr (Appended.basic _)⟩)
  exact @Appended.array_of _ .struct (List.forall_mem_singleton.mpr rfl) (List.forall_mem_singleton.mpr hstruct)

/-- Structs pass for elements of one type whatever their fields are, the signature of a dict of long structs is cut,
and that of a variant is announced where nothing is appended for it. -/
theorem not_announcesAll :
    (Appended (structs [.byte 1,.int32 2]) ∧ everywhere nonempty (structs [.byte 1,.int32 2]) = true ∧
      announcesAll (structs [.byte 1,.int32 2]) = false) ∧
    (Appended longStructDict ∧ everywhere nonempty longStructDict = true ∧ announcesAll longStructDict = false) ∧
    (Appended bareVariant ∧ everywhere nonempty bareVariant = true ∧ announcesAll bareVariant = false) := by
  refine ⟨⟨appended_structs _,?_,?_⟩,⟨appended_longStructDict,?_,?_⟩,⟨appended_bareVariant,?_,?_⟩⟩
  · decide +kernel
  · decide +kernel
  · decide +kernel
  · decide +kernel
  · decide +kernel
  · decide +kernel

end Edelib.Edbus
