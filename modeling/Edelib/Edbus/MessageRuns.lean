import Edelib.Edbus.MarshalExact
import Edelib.Foundation.Transition

/-! # Messages over whole runs

A message is kept twice, as its content and as the `DBusMessage` under it. Sending appends
the whole content to the latter, after whatever it holds already.
-/
namespace Edelib.Edbus
open Foundation

section Model
variable (lib : LibDBusCalls)

/-- A `DBusMessage`: its arguments, and whether it was queued for sending and is locked
since. What was put into it is kept beside them. -/
structure LibMessage where
  args : lib.AppendIter
  locked : Bool
  put : List DBusValue

/-- `dm` is null up to the first creation, and the message in it is null once it is cleared. -/
structure EdbusMessage where
  dm : Option (Option (LibMessage lib))
  content : List EdbusData

variable {lib}

namespace EdbusMessage

def empty : EdbusMessage lib where
  dm := none
  content := []

def msg (m : EdbusMessage lib) : Option (LibMessage lib) := m.dm.join

def append (m : EdbusMessage lib) (data : EdbusData) : EdbusMessage lib :=
  { m with content := m.content ++ [data] }

def clearAll (m : EdbusMessage lib) : EdbusMessage lib :=
  match m.dm with
  | none => m
  | some _ => ⟨some none,[]⟩

/-- `CREATE_OR_CLEAR`; what was appended before the first creation stays. -/
def createOrClear (m : EdbusMessage lib) : EdbusMessage lib :=
  match m.dm with
  | none => ⟨some none,m.content⟩
  | some _ => m.clearAll

def create (m : EdbusMessage lib) (made : Option (LibMessage lib)) : EdbusMessage lib :=
  { m.createOrClear with dm := some made }

end EdbusMessage

variable (lib)

def newMessage : LibMessage lib where
  args := lib.initAppend
  locked := false
  put := []

/-- `dbus_message_new_error`: the text is the message's argument. -/
def newError : Option CString → LibMessage lib
  | none => newMessage lib
  | some errmsg => {
    args := lib.appendBasic lib.initAppend (.string errmsg)
    locked := false
    put := [.basic (.string errmsg)] }

def received (values : List DBusValue) (locked : Bool) : LibMessage lib where
  args := lib.appendValues lib.initAppend values
  locked := locked
  put := values

def fromDBusArgs : ℕ → lib.ReadIter → List EdbusData → Option (List EdbusData)
  | 0,_,_ => none
  | fuel + 1,iter,content =>
    if lib.getArgType iter = .invalid then some content
    else do
      let d ← fromDBusIter lib fuel iter
      fromDBusArgs fuel (lib.next iter) (content ++ [d])

section Locked
variable (fuel : ℕ) (complain : lib.AppendIter → EdbusData → Option lib.AppendIter)

def fromDBusMessage (m : EdbusMessage lib) (values : List DBusValue) (locked : Bool) : Option (EdbusMessage lib) :=
  let msg := received lib values locked
  let m := m.create (some msg)
  (fromDBusArgs lib fuel (lib.initRead msg.args) m.content).map (fun content => { m with content })

/-- The loop over the content. What the library does with appends to a locked message is
not known of it. -/
def appendContent (msg : LibMessage lib) (content : List EdbusData) : Option lib.AppendIter :=
  if msg.locked then content.foldlM complain msg.args
  else toDBusIterElements lib msg.args content

/-- `to_dbus_message`; without a message the assertion fails. -/
def toDBusMessage (m : EdbusMessage lib) : Option (LibMessage lib) :=
  m.msg.bind (fun msg =>
    (appendContent lib complain msg m.content).map (fun args => { msg with args, put := msg.put ++ toValues m.content }))

def send (m : EdbusMessage lib) (queued : Bool) : Option (EdbusMessage lib) :=
  (toDBusMessage lib complain m).map (fun msg =>
    { m with dm := some (some { msg with locked := msg.locked || queued }) })

end Locked
end Model

/-- The calls on a message. `create` stands for `create_signal`, `create_method_call` and
`create_reply`; the library may return null. The reply that `sendWithReplyAndBlock` has is
the one it puts into the message itself. -/
inductive MessageAction
  | create (made : Bool)
  | createErrorReply (made : Bool) (errmsg : Option CString)
  | fromDBusMessage (values : List DBusValue) (locked : Bool)
  | append (data : EdbusData)
  | change (i : ℕ) (data : EdbusData)
  | remove (i : ℕ)
  | clearAll
  | send (queued : Bool)
  | sendWithReplyAndBlock (queued : Bool) (reply : Option (List DBusValue))

namespace MessageAction

def sends : MessageAction → Bool
  | send _ => true
  | sendWithReplyAndBlock _ _ => true
  | _ => false

section Step
variable (lib : LibDBusCalls) (fuel : ℕ) (complain : lib.AppendIter → EdbusData → Option lib.AppendIter)

def step (m : EdbusMessage lib) : MessageAction → Option (EdbusMessage lib)
  | create made => some (m.create (if made then some (newMessage lib) else none))
  | createErrorReply made errmsg => some (m.create (if made then some (newError lib errmsg) else none))
  | fromDBusMessage values locked => Edbus.fromDBusMessage lib fuel m values locked
  | append data => some (m.append data)
  | change i data => if i < m.content.length then some { m with content := m.content.set i data } else none
  | remove i => if i < m.content.length then some { m with content := m.content.eraseIdx i } else none
  | clearAll => some m.clearAll
  | send queued => Edbus.send lib complain m queued
  | sendWithReplyAndBlock queued reply => do
    let m ← Edbus.send lib complain m queued
    match reply with
    | none => some m
    | some values => Edbus.fromDBusMessage lib fuel m values false

end Step

section Law
variable (lib : LibDBus) (complain : lib.AppendIter → EdbusData → Option lib.AppendIter)

/-- What is handed to the library has the content as its arguments. -/
def HandsContent (m : EdbusMessage lib.toLibDBusCalls) : Prop :=
  ∀ msg, m.msg = some msg → ∃ handed, toDBusMessage lib.toLibDBusCalls complain m = some handed ∧
    lib.Reading (lib.initRead handed.args) (toValues m.content)

/-- Nothing was put into the message before, it was not queued before if there is
something to append, and all of that can be marshalled. -/
def fits (m : EdbusMessage lib.toLibDBusCalls) : Bool :=
  match m.msg with
  | none => true
  | some msg => msg.put.isEmpty && (!msg.locked || m.content.isEmpty) &&
      m.content.all (fun d => sendable d && noObjectPath d && shortDicts d)

variable {lib}

/-! ## One send -/

theorem appendContent_unlocked {msg : LibMessage lib.toLibDBusCalls} {content : List EdbusData}
    (hunlocked : msg.locked = false)
    (hs : ∀ d ∈ content, sendable d = true ∧ noObjectPath d = true ∧ shortDicts d = true) :
    appendContent lib.toLibDBusCalls complain msg content = some (lib.appendValues msg.args (toValues content)) := by
  rw [appendContent,hunlocked,if_neg Bool.false_ne_true]
  refine toDBusIterElements_eq lib.toLibDBusCalls (fun d hd => ?_) msg.args
  obtain ⟨hsend,hpath,hshort⟩ := hs d hd
  exact toDBusIter_eq lib.toLibDBusCalls hsend hpath hshort

theorem argument_toValues {content : List EdbusData} (hs : ∀ d ∈ content, sendable d = true) :
    ∀ v ∈ toValues content, v.Argument := by
  rw [toValues_eq_map]
  exact List.forall_mem_map.mpr fun d hd => ⟨toValue_type_ne d,wellTyped_toValue (hs d hd)⟩

/-- What an iterator reads is determined as far as the number of values goes. -/
theorem reading_length {it : lib.ReadIter} {values values' : List DBusValue} (hvalid : ∀ v ∈ values, v.type ≠ .invalid)
    (hvalid' : ∀ v ∈ values', v.type ≠ .invalid) (h : lib.Reading it values) (h' : lib.Reading it values') :
    values.length = values'.length := by
  induction values generalizing it values' with
  | nil =>
    cases values' with
    | nil => rfl
    | cons v' values' =>
      have htype := (lib.reading_nil it h).symm.trans (lib.reading_type it v' values' h')
      exact absurd htype.symm (hvalid' v' List.mem_cons_self)
  | cons v values ih =>
    cases values' with
    | nil =>
      have htype := (lib.reading_nil it h').symm.trans (lib.reading_type it v values h)
      exact absurd htype.symm (hvalid v List.mem_cons_self)
    | cons v' values' =>
      obtain ⟨-,hvalid⟩ := List.forall_mem_cons.mp hvalid
      obtain ⟨-,hvalid'⟩ := List.forall_mem_cons.mp hvalid'
      have hlen := ih hvalid hvalid' (lib.reading_next it v values h) (lib.reading_next it v' values' h')
      rw [List.length_cons,List.length_cons,hlen]

theorem argument_valid {v : DBusValue} (h : v.Argument) : v.type ≠ .invalid := by
  obtain ⟨-,htyped⟩ := h
  cases htyped with
  | basic v => cases v <;> nofun
  | _ => nofun

/-- A message that was never queued is handed over with its content behind what was put
into it before, and so with its content if and only if that was nothing. -/
theorem handsContent_iff {m : EdbusMessage lib.toLibDBusCalls} {msg : LibMessage lib.toLibDBusCalls}
    (hmsg : m.msg = some msg) (hput : msg.args = lib.appendValues lib.initAppend msg.put)
    (hargs : ∀ v ∈ msg.put, v.Argument) (hunlocked : msg.locked = false)
    (hs : ∀ d ∈ m.content, sendable d = true ∧ noObjectPath d = true ∧ shortDicts d = true) :
    HandsContent lib complain m ↔ msg.put = [] := by
  have hcontent := argument_toValues (fun d hd => (hs d hd).1)
  have hhanded : toDBusMessage lib.toLibDBusCalls complain m = some { msg with
      args := lib.appendValues msg.args (toValues m.content), put := msg.put ++ toValues m.content } := by
    rw [toDBusMessage,hmsg,Option.bind_some,appendContent_unlocked complain hunlocked hs,Option.map_some]
  have hall : ∀ v ∈ msg.put ++ toValues m.content, v.Argument :=
    List.forall_mem_append.mpr ⟨hargs,hcontent⟩
  have hreading : lib.Reading (lib.initRead (lib.appendValues msg.args (toValues m.content)))
      (msg.put ++ toValues m.content) := by
    rw [hput,← appendValues_append]
    exact lib.stores _ hall
  constructor
  · intro h
    obtain ⟨handed,hsome,hread⟩ := h msg hmsg
    obtain rfl := Option.some.inj (hhanded.symm.trans hsome)
    have hlen := reading_length (fun v hv => argument_valid (hall v hv))
      (fun v hv => argument_valid (hcontent v hv)) hreading hread
    rw [List.length_append] at hlen
    exact List.eq_nil_of_length_eq_zero (by omega)
  · intro hnil msg' hmsg'
    rw [hnil,List.nil_append] at hreading
    exact ⟨_,hhanded,hreading⟩

/-! ## What is received -/

theorem fromDBusArgs_eq (fuel : ℕ) (iter : lib.ReadIter) (content : List EdbusData) :
    fromDBusArgs lib.toLibDBusCalls fuel iter content =
      fromDBusIterElements lib.toLibDBusCalls fuel false iter content := by
  induction fuel generalizing iter content with
  | zero => rfl
  | succ fuel ih =>
    rw [fromDBusArgs,fromDBusIterElements]
    split_ifs with hend
    · rfl
    · exact Option.bind_congr fun d _ => ih (lib.next iter) (content ++ [d])

/-- The arguments of a received message become its content, behind what was appended
before the first creation. -/
theorem fromDBusMessage_toValues (m : EdbusMessage lib.toLibDBusCalls) {lst : List EdbusData} (locked : Bool)
    (hs : ∀ d ∈ lst, sendable d = true ∧ noObjectPath d = true) :
    ∃ n, ∀ fuel, n ≤ fuel → Edbus.fromDBusMessage lib.toLibDBusCalls fuel m (toValues lst) locked =
      some ⟨some (some (received lib.toLibDBusCalls (toValues lst) locked)),m.createOrClear.content ++ lst⟩ := by
  have hreading := lib.stores _ (argument_toValues (fun d hd => (hs d hd).1))
  have hfinds : ∀ d ∈ lst, ∀ it values, lib.Reading it (toValue d :: values) → Finds lib it d :=
    fun d hd it values h => finds_toValue (hs d hd).1 (hs d hd).2 h
  obtain ⟨n,hn⟩ := @reads_elements lib lst false hfinds m.createOrClear.content nofun _ hreading
  refine ⟨n,fun fuel hfuel => ?_⟩
  rw [Edbus.fromDBusMessage,fromDBusArgs_eq]
  exact congrArg (Option.map _) (hn fuel hfuel)

/-! ## Whole runs -/

def Fresh (m : EdbusMessage lib.toLibDBusCalls) : Prop :=
  ∀ msg, m.msg = some msg → msg.put = [] → msg.args = lib.initAppend

theorem fresh_create (m : EdbusMessage lib.toLibDBusCalls) {made : Option (LibMessage lib.toLibDBusCalls)}
    (h : ∀ msg, made = some msg → msg.put = [] → msg.args = lib.initAppend) : Fresh (m.create made) :=
  h

theorem fresh_fromDBusMessage {fuel : ℕ} {m m' : EdbusMessage lib.toLibDBusCalls} {values : List DBusValue}
    {locked : Bool} (h : Edbus.fromDBusMessage lib.toLibDBusCalls fuel m values locked = some m') : Fresh m' := by
  obtain ⟨content,-,rfl⟩ := Option.map_eq_some_iff.mp h
  rintro msg ⟨⟩ hput
  change lib.appendValues lib.initAppend values = lib.initAppend
  rw [show values = [] from hput]
  rfl

/-- What the condition says of a message that is to be sent. -/
theorem fits_iff {m : EdbusMessage lib.toLibDBusCalls} : fits lib m = true ↔ ∀ msg, m.msg = some msg →
    msg.put = [] ∧ (msg.locked = true → m.content = []) ∧
      ∀ d ∈ m.content, sendable d = true ∧ noObjectPath d = true ∧ shortDicts d = true := by
  cases hmsg : m.msg with
  | none => simp [fits,hmsg]
  | some msg =>
    have hlocked : (msg.locked = false ∨ m.content = []) ↔ (msg.locked = true → m.content = []) := by
      cases msg.locked <;> simp
    simp [fits,hmsg,and_assoc,hlocked]

/-- The content is appended, whether there is something to append or not. -/
theorem toDBusMessage_fits {m : EdbusMessage lib.toLibDBusCalls} (hfits : fits lib m = true)
    {msg : LibMessage lib.toLibDBusCalls} (hmsg : m.msg = some msg) :
    toDBusMessage lib.toLibDBusCalls complain m = some { msg with
      args := lib.appendValues msg.args (toValues m.content), put := toValues m.content } := by
  obtain ⟨hput,hlocked,hs⟩ := fits_iff.mp hfits msg hmsg
  rw [toDBusMessage,hmsg,Option.bind_some,hput,List.nil_append]
  cases hl : msg.locked with
  | false => rw [appendContent_unlocked complain hl hs,Option.map_some]
  | true =>
    rw [hlocked hl,appendContent,hl,if_pos rfl]
    rfl

theorem handsContent_of_fits {m : EdbusMessage lib.toLibDBusCalls} (hm : Fresh m) (hfits : fits lib m = true) :
    HandsContent lib complain m := by
  intro msg hmsg
  obtain ⟨hput,-,hs⟩ := fits_iff.mp hfits msg hmsg
  refine ⟨_,toDBusMessage_fits complain hfits hmsg,?_⟩
  rw [hm msg hmsg hput]
  exact lib.stores _ (argument_toValues (fun d hd => (hs d hd).1))

theorem fresh_send {m m' : EdbusMessage lib.toLibDBusCalls} (hm : Fresh m) (hfits : fits lib m = true) {queued : Bool}
    (h : Edbus.send lib.toLibDBusCalls complain m queued = some m') : Fresh m' := by
  obtain ⟨handed,hhanded,rfl⟩ := Option.map_eq_some_iff.mp h
  obtain ⟨msg,hmsg,-⟩ := Option.bind_eq_some_iff.mp hhanded
  rw [toDBusMessage_fits complain hfits hmsg] at hhanded
  obtain rfl := Option.some.inj hhanded
  rintro msg' ⟨⟩ hput
  -- nothing was appended, so the message is still as it was made
  have hnil : toValues m.content = [] := hput
  change lib.appendValues msg.args (toValues m.content) = lib.initAppend
  rw [hnil]
  exact hm msg hmsg (fits_iff.mp hfits msg hmsg).1

theorem fresh_step {fuel : ℕ} {m m' : EdbusMessage lib.toLibDBusCalls} {a : MessageAction} (hm : Fresh m)
    (hfits : a.sends = true → fits lib m = true)
    (h : step lib.toLibDBusCalls fuel complain m a = some m') : Fresh m' := by
  cases a with
  | create made =>
    cases h
    refine fresh_create m (fun msg hmsg _ => ?_)
    obtain ⟨-,⟨⟩⟩ := Option.ite_none_right_eq_some.mp hmsg
    rfl
  | createErrorReply made errmsg =>
    cases h
    refine fresh_create m (fun msg hmsg hput => ?_)
    obtain ⟨-,⟨⟩⟩ := Option.ite_none_right_eq_some.mp hmsg
    cases errmsg with
    | none => rfl
    | some errmsg => cases hput
  | fromDBusMessage values locked => exact fresh_fromDBusMessage h
  | append data =>
    cases h
    exact hm
  | change i data =>
    obtain ⟨-,⟨⟩⟩ := Option.ite_none_right_eq_some.mp h
    exact hm
  | remove i =>
    obtain ⟨-,⟨⟩⟩ := Option.ite_none_right_eq_some.mp h
    exact hm
  | clearAll =>
    cases h
    obtain ⟨dm,content⟩ := m
    cases dm with
    | none => exact hm
    | some msg => nofun
  | send queued => exact fresh_send complain hm (hfits rfl) h
  | sendWithReplyAndBlock queued reply =>
    obtain ⟨sent,hsent,h⟩ := Option.bind_eq_some_iff.mp h
    cases reply with
    | none =>
      cases h
      exact fresh_send complain hm (hfits rfl) hsent
    | some values => exact fresh_fromDBusMessage h

/-- In a run whose sends are each of a message that fits, every send hands over the
content. -/
theorem run_handsContent (fuel : ℕ) (acts : List MessageAction)
    (h : Transition.Along (step lib.toLibDBusCalls fuel complain) (fun m a => a.sends = true → fits lib m = true)
      .empty acts) :
    Transition.Along (step lib.toLibDBusCalls fuel complain) (fun m a => a.sends = true → HandsContent lib complain m)
      .empty acts := by
  have hempty : Fresh (.empty : EdbusMessage lib.toLibDBusCalls) := nofun
  refine Transition.Along.imp ?_ ?_ hempty h
  · intro m a hm hfits hsends
    exact handsContent_of_fits complain hm (hfits hsends)
  · intro m a m' hm hfits hstep
    exact fresh_step complain hm hfits hstep

end Law

/-- What the appends to a locked message do in a library that does not check for it. -/
abbrev appendAnyway : checked.AppendIter → EdbusData → Option checked.AppendIter :=
  toDBusIter checkedCalls

/-- A message is changed and sent, and made anew before it is sent again. -/
theorem run_handsContent_anew :
    Transition.Along (step checkedCalls 0 appendAnyway)
      (fun m a => a.sends = true → HandsContent checked appendAnyway m) .empty
      [create true,append (.basic (.int32 1)),append (.basic (.bool true)),change 0 (.basic (.int32 2)),remove 1,
        send true,create true,append (.basic (.byte 3)),sendWithReplyAndBlock true none] :=
  run_handsContent appendAnyway 0 _ (by decide +kernel)

/-- A message is sent as it was received, an error reply as it was created, and a message
twice. -/
theorem not_run_handsContent :
    ¬ Transition.Along (step checkedCalls 3 appendAnyway)
      (fun m a => a.sends = true → HandsContent checked appendAnyway m) .empty
      [fromDBusMessage [.basic (.int32 1)] false,send true] ∧
    ¬ Transition.Along (step checkedCalls 3 appendAnyway)
      (fun m a => a.sends = true → HandsContent checked appendAnyway m) .empty
      [createErrorReply true (some (CString.ofBuf [97])),send true] ∧
    ¬ Transition.Along (step checkedCalls 3 appendAnyway)
      (fun m a => a.sends = true → HandsContent checked appendAnyway m) .empty
      [create true,append (.basic (.int32 1)),send true,send true] := by
  refine ⟨fun h => ?_,fun h => ?_,fun h => ?_⟩
  · obtain ⟨handed,hsome,hread⟩ := h [_] _ [] rfl _ rfl rfl _ rfl
    cases hsome
    cases hread
  · obtain ⟨handed,hsome,hread⟩ := h [_] _ [] rfl _ rfl rfl _ rfl
    cases hsome
    cases hread
  · obtain ⟨handed,hsome,hread⟩ := h [_,_,_] _ [] rfl _ rfl rfl _ rfl
    cases hsome
    cases hread

end MessageAction
end Edelib.Edbus
