import Edelib.Foundation.Transition
import Edelib.Config.Getters

/-! # Reading a configuration

Every getter looks a section up, which moves the pointer to the section found last, and
answers from the section found. `getBool` writes the value back in lower case as well.
-/
namespace Edelib
open Foundation StrUtil Remembered

def lowered (v : CString) : CString where
  bytes := strTolower v.bytes
  nulFree := by
    intro h
    obtain ⟨c,hc,h0⟩ := List.mem_map.mp h
    exact tolower_ne_zero (fun he => v.nulFree (he ▸ hc)) h0

def HasCapitals (v : CString) : Prop := ∃ c ∈ v.bytes, isupper c = true

instance (v : CString) : Decidable (HasCapitals v) := inferInstanceAs (Decidable (∃ c ∈ v.bytes, isupper c = true))

theorem lowered_of_not_hasCapitals {v : CString} (h : ¬ HasCapitals v) : lowered v = v := by
  ext1
  refine strTolower_of_not_isupper (fun c hc => ?_)
  by_contra hup
  exact h ⟨c,hc,by simpa using hup⟩

def boolOf (v : CString) (deflt : Bool) : Bool :=
  if v.strlen = 4 ∧ v.strncmp (CString.ofBuf [116,114,117,101]) 4 = 0 then true
  else if v.strlen = 5 ∧ v.strncmp (CString.ofBuf [102,97,108,115,101]) 5 = 0 then false
  else if v.strlen = 1 ∧ v.strncmp (CString.ofBuf [49]) 1 = 0 then true
  else if v.strlen = 1 ∧ v.strncmp (CString.ofBuf [48]) 1 = 0 then false
  else deflt

def ConfigSection.writeValue (cs : ConfigSection) (key : CString) (f : CString → CString) : ConfigSection :=
  match cs.findEntry key with
  | none => cs
  | some i => { cs with entryList := cs.entryList.modify i (fun e => e.setValue (f e.value)) }

namespace ConfigSection

@[simp] theorem writeValue_sname (cs : ConfigSection) (key : CString) (f : CString → CString) :
    (cs.writeValue key f).sname = cs.sname := by
  unfold writeValue
  cases cs.findEntry key <;> rfl

theorem writeValue_fixed (cs : ConfigSection) {key : CString} {f : CString → CString}
    (h : ∀ e, cs.entryOf key = some e → f e.value = e.value) : cs.writeValue key f = cs := by
  unfold writeValue
  cases hi : cs.findEntry key with
  | none => rfl
  | some i =>
    have hkeep : cs.entryList.modify i (fun e => e.setValue (f e.value)) = cs.entryList := by
      refine KeyedList.modify_fixed (fun e he => ?_)
      rw [h e (by simp [entryOf,hi,he])]
      exact e.setValue_self
    simp only [hkeep]

end ConfigSection

namespace Config

def exist (c : Config) (sect : CString) : Bool × Config :=
  let (cs,c) := c.findSection sect
  (cs.isSome,c)

/-- The getters that convert the value found: whether there is one, and the result or the default. -/
def getValue {α : Type} (c : Config) (sect key : CString) (conv : CString → α) (deflt : α) : (Bool × α) × Config :=
  match c.getEntry sect key with
  | (.error _,c) => ((false,deflt),c)
  | (.ok e,c) => ((true,conv e.value),c)

def getIntFound (c : Config) (sect key : CString) (deflt : ℤ) : (Bool × ℤ) × Config :=
  c.getValue sect key (fun v => atoi v.bytes) deflt

def getLong (c : Config) (sect key : CString) (deflt : ℤ) : (Bool × ℤ) × Config :=
  c.getValue sect key (fun v => atol v.bytes) deflt

/-- `get` of a `char`: the first byte, which is the terminator of an empty value. -/
def getChar (c : Config) (sect key : CString) (deflt : UInt8) : (Bool × UInt8) × Config :=
  c.getValue sect key (fun v => v.bytes.headD 0) deflt

/-- `get` of a `bool`: the value found is changed to lower case where it is stored. -/
def getBool (c : Config) (sect key : CString) (deflt : Bool) : (Bool × Bool) × Config :=
  match c.findSection sect with
  | (none,c) => ((false,deflt),{ c with errcode := .section })
  | (some i,c) =>
    match c.sectionList[i]?.bind (fun cs => cs.entryOf key) with
    | none => ((false,deflt),{ c with errcode := .key })
    | some e =>
      ((true,boolOf (lowered e.value) deflt),{ c with
        sectionList := c.sectionList.modify i (fun cs => cs.writeValue key lowered) })

section Floats
variable {D F : Type} (atof : CString → D) (narrow : D → F)

/-- `get` of a `double`; the number is read in the C locale. -/
def getDouble (c : Config) (sect key : CString) (deflt : D) : (Bool × D) × Config :=
  c.getValue sect key atof deflt

def getFloat (c : Config) (sect key : CString) (deflt : F) : (Bool × F) × Config :=
  c.getValue sect key (fun v => narrow (atof v)) deflt

end Floats

/-! ## Calls that read -/

inductive ReadCall (D F : Type)
  | exist (sect : CString)
  | keyExist (sect key : CString)
  | int (sect key : CString) (deflt : ℤ)
  | bool (sect key : CString) (deflt : Bool)
  | double (sect key : CString) (deflt : D)
  | long (sect key : CString) (deflt : ℤ)
  | float (sect key : CString) (deflt : F)
  | char (sect key : CString) (deflt : UInt8)
  | get (sect key : CString) (size : ℕ)
  | getLocalized (lang : Option CString) (sect key : CString) (size : ℕ)
  | getAllocated (sect key : CString)

inductive ReadAnswer (D F : Type)
  | flag (b : Bool)
  | int (r : Bool × ℤ)
  | bool (r : Bool × Bool)
  | double (r : Bool × D)
  | float (r : Bool × F)
  | char (r : Bool × UInt8)
  | buffer (ret : Option (List UInt8))
  | allocated (ret : Option CString)
deriving DecidableEq

namespace ReadCall
variable {D F : Type}

def sect : ReadCall D F → CString
  | exist sect | keyExist sect _ | int sect _ _ | bool sect _ _ | double sect _ _ | long sect _ _ | float sect _ _
  | char sect _ _ | get sect _ _ | getLocalized _ sect _ _ | getAllocated sect _ => sect

def run (atof : CString → D) (narrow : D → F) (c : Config) : ReadCall D F → ReadAnswer D F × Config
  | exist sect => (c.exist sect).map ReadAnswer.flag id
  | keyExist sect key => (c.keyExist sect key).map ReadAnswer.flag id
  | int sect key deflt => (c.getIntFound sect key deflt).map ReadAnswer.int id
  | bool sect key deflt => (c.getBool sect key deflt).map ReadAnswer.bool id
  | double sect key deflt => (c.getDouble atof sect key deflt).map ReadAnswer.double id
  | long sect key deflt => (c.getLong sect key deflt).map ReadAnswer.int id
  | float sect key deflt => (c.getFloat atof narrow sect key deflt).map ReadAnswer.float id
  | char sect key deflt => (c.getChar sect key deflt).map ReadAnswer.char id
  | get sect key size => (c.get sect key size).map ReadAnswer.buffer id
  | getLocalized lang sect key size => (c.getLocalized lang sect key size).map ReadAnswer.buffer id
  | getAllocated sect key => (c.getAllocated sect key).map ReadAnswer.allocated id

def state (atof : CString → D) (narrow : D → F) (c : Config) (call : ReadCall D F) : Config :=
  (call.run atof narrow c).2

def convert {α : Type} (v : Option CString) (conv : CString → α) (deflt : α) : Bool × α :=
  match v with
  | none => (false,deflt)
  | some v => (true,conv v)

def pick (value : CString → Option CString) : ReadCall D F → Option CString
  | exist _ => none
  | getLocalized (some lang) _ key _ =>
    if DefaultLocale lang then value key
    else (localeCodes lang).findSome? (fun code => value (localizedName key code))
  | keyExist _ key | int _ key _ | bool _ key _ | double _ key _ | long _ key _ | float _ key _ | char _ key _
  | get _ key _ | getLocalized none _ key _ | getAllocated _ key => value key

def ofValue (atof : CString → D) (narrow : D → F) (v : Option CString) : ReadCall D F → ReadAnswer D F
  | exist _ => .flag v.isSome
  | keyExist _ _ => .flag v.isSome
  | int _ _ deflt => .int (convert v (fun v => atoi v.bytes) deflt)
  | bool _ _ deflt => .bool (convert v (fun v => boolOf (lowered v) deflt) deflt)
  | double _ _ deflt => .double (convert v atof deflt)
  | long _ _ deflt => .int (convert v (fun v => atol v.bytes) deflt)
  | float _ _ deflt => .float (convert v (fun v => narrow (atof v)) deflt)
  | char _ _ deflt => .char (convert v (fun v => v.bytes.headD 0) deflt)
  | get _ _ size => .buffer (v.map (fun v => bufferOf v size))
  | getLocalized none _ _ size => .buffer (v.map (fun v => bufferOf v size))
  | getLocalized (some lang) _ _ size =>
    .buffer (v.map (fun v => if DefaultLocale lang then bufferOf v size else cutOf v size))
  | getAllocated _ _ => .allocated (v.map allocatedOf)

def answer (atof : CString → D) (narrow : D → F) (found : Bool) (value : CString → Option CString) :
    ReadCall D F → ReadAnswer D F
  | exist _ => .flag found
  | call => call.ofValue atof narrow (call.pick value)

def leaves : ReadCall D F → ConfigSection → ConfigSection
  | bool _ key _ => fun cs => cs.writeValue key lowered
  | _ => id

end ReadCall

/-! ## What a call does -/

def foundSection (c : Config) (sect : CString) : Option ConfigSection :=
  (c.findSection sect).1.bind (fun i => c.sectionList[i]?)

theorem exist_found (c : Config) (sect : CString) : (c.findSection sect).1.isSome = (c.foundSection sect).isSome := by
  unfold foundSection
  rw [findSection_eq]
  cases hf : lookup accepted c.names c.cached sect with
  | none => rfl
  | some i =>
    obtain ⟨n,hn,-⟩ := accept_of_lookup hf
    obtain ⟨cs,hcs,-⟩ := List.getElem?_map .. |>.symm.trans hn |> Option.map_eq_some_iff.mp
    simp [hcs]

def foundValue (c : Config) (sect key : CString) : Option CString :=
  ((c.foundSection sect).bind (fun cs => cs.entryOf key)).map ConfigEntry.value

theorem getEntry_found (c : Config) (sect key : CString) :
    (c.getEntry sect key).1.toOption = (c.foundSection sect).bind (fun cs => cs.entryOf key) := by
  unfold getEntry foundSection
  rw [findSection_eq]
  cases lookup accepted c.names c.cached sect with
  | none => rfl
  | some i =>
    have hentry : c.sectionList[i]?.bind (fun cs => (cs.findEntry key).bind (fun j => cs.entryList[j]?)) =
        c.sectionList[i]?.bind (fun cs => cs.entryOf key) := rfl
    dsimp only
    rw [hentry,Option.bind_some]
    cases c.sectionList[i]?.bind (fun cs => cs.entryOf key) <;> rfl

/-- A call on entries leaves the sections, and remembers the one it found. -/
theorem getEntry_state (c : Config) (sect key : CString) :
    (c.getEntry sect key).2.sectionList = c.sectionList ∧
      (c.getEntry sect key).2.cached = remember accepted c.names c.cached sect := by
  unfold getEntry
  rw [findSection_eq]
  cases lookup accepted c.names c.cached sect with
  | none => exact ⟨rfl,rfl⟩
  | some i =>
    dsimp only
    cases c.sectionList[i]?.bind (fun cs => (cs.findEntry key).bind (fun j => cs.entryList[j]?)) <;> exact ⟨rfl,rfl⟩

theorem getEntry_value (c : Config) (sect key : CString) :
    (c.getEntry sect key).1.toOption.map ConfigEntry.value = c.foundValue sect key := by
  rw [getEntry_found,foundValue]

theorem getValue_eq {α : Type} (c : Config) (sect key : CString) (conv : CString → α) (deflt : α) :
    c.getValue sect key conv deflt =
      (ReadCall.convert (c.foundValue sect key) conv deflt,(c.getEntry sect key).2) := by
  rw [← getEntry_value]
  unfold getValue
  cases c.getEntry sect key with
  | mk r c' => cases r <;> rfl

theorem getAllocated_eq (c : Config) (sect key : CString) :
    c.getAllocated sect key = ((c.foundValue sect key).map allocatedOf,(c.getEntry sect key).2) := by
  refine Prod.ext ?_ ?_
  · rw [getAllocated_entry,getEntry_value]
  · unfold getAllocated
    cases c.getEntry sect key with
    | mk r c' => cases r <;> rfl

section Calls
variable {D F : Type} (atof : CString → D) (narrow : D → F)

/-- A call answers from the section it finds. -/
theorem ReadCall.run_answer (c : Config) (call : ReadCall D F) : (call.run atof narrow c).1 =
    call.answer atof narrow (c.foundSection call.sect).isSome (c.foundValue call.sect) := by
  have hbuffer : ∀ sect key size, (c.get sect key size).1 = (c.foundValue sect key).map (fun v => bufferOf v size) := by
    intro sect key size
    rw [get_eq_entry,← getEntry_value,Option.map_map]
    rfl
  cases call with
  | exist sect => simp [run,answer,ReadCall.sect,Config.exist,exist_found]
  | keyExist sect key =>
    simp [run,answer,ofValue,pick,ReadCall.sect,keyExist_eq_getEntry,← getEntry_value]
  | int sect key deflt => simp [run,answer,ofValue,pick,ReadCall.sect,getIntFound,getValue_eq]
  | bool sect key deflt =>
    simp only [run,answer,ofValue,pick,ReadCall.sect,getBool,foundValue,foundSection]
    rw [findSection_eq]
    cases lookup accepted c.names c.cached sect with
    | none => rfl
    | some i =>
      rw [Option.bind_some]
      dsimp only
      cases c.sectionList[i]?.bind (fun cs => cs.entryOf key) <;> rfl
  | double sect key deflt => simp [run,answer,ofValue,pick,ReadCall.sect,getDouble,getValue_eq]
  | long sect key deflt => simp [run,answer,ofValue,pick,ReadCall.sect,getLong,getValue_eq]
  | float sect key deflt => simp [run,answer,ofValue,pick,ReadCall.sect,getFloat,getValue_eq]
  | char sect key deflt => simp [run,answer,ofValue,pick,ReadCall.sect,getChar,getValue_eq]
  | get sect key size => simp [run,answer,ofValue,pick,ReadCall.sect,hbuffer]
  | getLocalized lang sect key size =>
    cases lang with
    | none => simp [run,answer,ofValue,pick,ReadCall.sect,Config.getLocalized,hbuffer]
    | some lang =>
      by_cases hd : DefaultLocale lang
      · simp [run,answer,ofValue,pick,ReadCall.sect,Config.getLocalized,hd,hbuffer]
      · have hpick : (localeCodes lang).findSome? (fun code => c.foundValue sect (localizedName key code)) =
            ((c.foundSection sect).bind (fun cs => cs.findLocalized lang key)).map ConfigEntry.value := by
          unfold foundValue ConfigSection.findLocalized
          cases c.foundSection sect with
          | none => simp
          | some cs => simp [List.map_findSome?,Function.comp_def]
        simp only [run,answer,ofValue,pick,ReadCall.sect,Config.getLocalized,hd,if_false,hpick,foundSection]
        rw [findSection_eq]
        cases lookup accepted c.names c.cached sect with
        | none => rfl
        | some i =>
          rw [Option.bind_some]
          dsimp only
          cases c.sectionList[i]?.bind (fun cs => cs.findLocalized lang key) <;> rfl
  | getAllocated sect key => simp [run,answer,ofValue,pick,ReadCall.sect,getAllocated_eq]

/-- A call remembers the section it finds, and changes no other. -/
theorem ReadCall.run_state (c : Config) (call : ReadCall D F) :
    (call.state atof narrow c).cached = remember accepted c.names c.cached call.sect ∧
      (call.state atof narrow c).sectionList =
        (lookup accepted c.names c.cached call.sect).elim c.sectionList
          (fun i => c.sectionList.modify i call.leaves) := by
  have hsame : ∀ o : Option ℕ, o.elim c.sectionList (fun _ => c.sectionList) = c.sectionList := by
    rintro (_ | i) <;> rfl
  have hentry := fun sect key => c.getEntry_state sect key
  cases call with
  | exist sect => simp [state,run,ReadCall.sect,Config.exist,findSection_eq,leaves,hsame]
  | keyExist sect key =>
    have hk : (c.keyExist sect key).2 = (c.findSection sect).2 := by
      unfold Config.keyExist
      cases c.findSection sect with
      | mk found c' => cases found <;> rfl
    simp [state,run,ReadCall.sect,hk,findSection_eq,leaves,hsame]
  | bool sect key deflt =>
    simp only [state,run,ReadCall.sect,getBool,leaves]
    rw [findSection_eq]
    cases lookup accepted c.names c.cached sect with
    | none => exact ⟨rfl,rfl⟩
    | some i =>
      dsimp only
      cases hs : c.sectionList[i]?.bind (fun cs => cs.entryOf key) with
      | none =>
        have hkeep : c.sectionList.modify i (fun cs => cs.writeValue key lowered) = c.sectionList := by
          refine KeyedList.modify_fixed (fun cs hcs => ?_)
          refine cs.writeValue_fixed (fun e he => ?_)
          simp [hcs,he] at hs
        exact ⟨rfl,hkeep.symm⟩
      | some e => exact ⟨rfl,rfl⟩
  | int sect key deflt => simp [state,run,ReadCall.sect,getIntFound,getValue_eq,leaves,hsame,hentry]
  | double sect key deflt => simp [state,run,ReadCall.sect,getDouble,getValue_eq,leaves,hsame,hentry]
  | long sect key deflt => simp [state,run,ReadCall.sect,getLong,getValue_eq,leaves,hsame,hentry]
  | float sect key deflt => simp [state,run,ReadCall.sect,getFloat,getValue_eq,leaves,hsame,hentry]
  | char sect key deflt => simp [state,run,ReadCall.sect,getChar,getValue_eq,leaves,hsame,hentry]
  | get sect key size => simp [state,run,ReadCall.sect,get_state,leaves,hsame,hentry]
  | getLocalized lang sect key size =>
    cases lang with
    | none => simp [state,run,ReadCall.sect,Config.getLocalized,get_state,leaves,hsame,hentry]
    | some lang =>
      by_cases hd : DefaultLocale lang
      · simp [state,run,ReadCall.sect,Config.getLocalized,hd,get_state,leaves,hsame,hentry]
      · simp only [state,run,ReadCall.sect,Config.getLocalized,hd,if_false,leaves,List.modify_id,hsame]
        rw [findSection_eq]
        cases lookup accepted c.names c.cached sect with
        | none => exact ⟨rfl,rfl⟩
        | some i =>
          dsimp only
          cases c.sectionList[i]?.bind (fun cs => cs.findLocalized lang key) <;> exact ⟨rfl,rfl⟩
  | getAllocated sect key => simp [state,run,ReadCall.sect,getAllocated_eq,leaves,hsame,hentry]

end Calls

end Config
end Edelib
