import Edelib.Edbus.ObjectPath
import Edelib.Foundation.Transition
import Mathlib.Data.Set.Insert

/-! # Registered objects of a connection

A connection keeps the paths its user registered, and hands an incoming message to the
callback for its kind after a look at these paths. The connection is open, so the guards
on it pass. `none` is a failed assertion, or a null text compared with another.
-/
namespace Edelib.Edbus
open Foundation

inductive MessageType
  | methodCall | methodReturn | error | signal
deriving DecidableEq, Repr

/-- What the filter reads of a message; replies have no path. -/
structure DBusMessage where
  mtype : MessageType
  path : Option CString

inductive DBusHandlerResult
  | handled | notYetHandled
deriving DecidableEq, Repr

abbrev EdbusCallback := DBusMessage → ℤ

structure EdbusConnImpl where
  signalCb : Option EdbusCallback
  methodCallCb : Option EdbusCallback
  objectList : List CString

/-- An empty list counts as one with every path in it. -/
def haveRegisteredObject (dc : EdbusConnImpl) (path : Option CString) : Option Bool :=
  if dc.objectList.isEmpty then some true
  else path.map (fun path => dc.objectList.any (fun it => it.strcmp path == 0))

def EdbusConnImpl.callbackFor (dc : EdbusConnImpl) : MessageType → Option EdbusCallback
  | .signal => dc.signalCb
  | .methodCall => dc.methodCallCb
  | _ => none

structure Filtered where
  result : DBusHandlerResult
  handed : Option DBusMessage

def edbusSignalFilter (dc : EdbusConnImpl) (msg : DBusMessage) : Option Filtered :=
  match haveRegisteredObject dc msg.path with
  | none => none
  | some false => some ⟨.notYetHandled,none⟩
  | some true =>
    match dc.callbackFor msg.mtype with
    | none => some ⟨.notYetHandled,none⟩
    | some cb => some ⟨if cb msg > 0 then .handled else .notYetHandled,some msg⟩

/-- The path is stored unless it is there already. -/
def registerObject (dc : EdbusConnImpl) (path : CString) : Option EdbusConnImpl :=
  if validPath path then
    (haveRegisteredObject dc (some path)).map (fun found =>
      if !found then { dc with objectList := dc.objectList ++ [path] } else dc)
  else none

/-- The first equal path is erased. -/
def unregisterObject (dc : EdbusConnImpl) (path : CString) : Option EdbusConnImpl :=
  if validPath path then
    if dc.objectList.isEmpty then some dc
    else some { dc with objectList := dc.objectList.eraseP (fun it => it.strcmp path == 0) }
  else none

inductive ConnAction
  | registerObject (path : CString)
  | unregisterObject (path : CString)
  | signalCallback (cb : Option EdbusCallback)
  | methodCallback (cb : Option EdbusCallback)
  | incoming (msg : DBusMessage)

namespace ConnAction

def step (dc : EdbusConnImpl) : ConnAction → Option EdbusConnImpl
  | registerObject path => Edbus.registerObject dc path
  | unregisterObject path => Edbus.unregisterObject dc path
  | signalCallback cb => some { dc with signalCb := cb }
  | methodCallback cb => some { dc with methodCallCb := cb }
  | incoming msg => (edbusSignalFilter dc msg).map (fun _ => dc)

def opened : EdbusConnImpl where
  signalCb := none
  methodCallCb := none
  objectList := []

/-! ## What the registrations mean -/

/-- The paths registered after the calls: each call changes its own path only. -/
def registeredBy (registered : Set CString) : ConnAction → Set CString
  | registerObject path => insert path registered
  | unregisterObject path => registered \ {path}
  | _ => registered

def registered (acts : List ConnAction) : Set CString := acts.foldl registeredBy ∅

/-- The connection knows each registered path, once, and no other. -/
structure Stores (dc : EdbusConnImpl) (paths : Set CString) : Prop where
  mem_iff : ∀ path, path ∈ dc.objectList ↔ path ∈ paths
  nodup : dc.objectList.Nodup

/-- A message for which a callback is set is handed to it if and only if no path is
registered, or its own path is. -/
def Delivers (dc : EdbusConnImpl) (paths : Set CString) : Prop :=
  ∀ msg cb, dc.callbackFor msg.mtype = some cb →
    ((edbusSignalFilter dc msg).bind Filtered.handed = some msg ↔
      paths = ∅ ∨ ∃ path ∈ paths, msg.path = some path)

/-- In every state of the run the registrations made so far are stored and obeyed. -/
def ObeysRegistrations (acts : List ConnAction) : Prop :=
  ∀ before, before <+: acts → ∀ dc, Transition.exec step opened before = some dc →
    Stores dc (registered before) ∧ Delivers dc (registered before)

/-! ## No path is ever stored -/

theorem registered_snoc (acts : List ConnAction) (a : ConnAction) :
    registered (acts ++ [a]) = registeredBy (registered acts) a := by
  simp only [registered,List.foldl_append,List.foldl_cons,List.foldl_nil]

/-- The lookup before a registration finds the path in the empty list. -/
theorem step_objectList {dc dc' : EdbusConnImpl} {a : ConnAction} (h : dc.objectList = [])
    (hstep : step dc a = some dc') : dc'.objectList = [] := by
  cases a with
  | registerObject path =>
    simp only [step,Edbus.registerObject,haveRegisteredObject,h,List.isEmpty_nil,↓reduceIte,Option.map_some,
      Bool.not_true,Bool.false_eq_true,Option.ite_none_right_eq_some,Option.some.injEq] at hstep
    rw [← hstep.2]
    exact h
  | unregisterObject path =>
    simp only [step,Edbus.unregisterObject,h,List.isEmpty_nil,↓reduceIte,Option.ite_none_right_eq_some,
      Option.some.injEq] at hstep
    rw [← hstep.2]
    exact h
  | signalCallback cb =>
    cases hstep
    exact h
  | methodCallback cb =>
    cases hstep
    exact h
  | incoming msg =>
    obtain ⟨filtered,-,rfl⟩ := Option.map_eq_some_iff.mp hstep
    exact h

theorem exec_objectList {acts : List ConnAction} {dc : EdbusConnImpl}
    (hrun : Transition.exec step opened acts = some dc) : dc.objectList = [] := by
  induction acts using List.reverseRecOn generalizing dc with
  | nil =>
    cases hrun
    rfl
  | append_singleton acts a ih =>
    rw [Transition.exec_snoc] at hrun
    obtain ⟨dc',hrun',hstep⟩ := Option.bind_eq_some_iff.mp hrun
    exact step_objectList (ih hrun') hstep

/-- With nothing stored every message with a callback is handed over. -/
theorem filter_of_empty {dc : EdbusConnImpl} (h : dc.objectList = []) {msg : DBusMessage} {cb : EdbusCallback}
    (hcb : dc.callbackFor msg.mtype = some cb) :
    (edbusSignalFilter dc msg).bind Filtered.handed = some msg := by
  simp [edbusSignalFilter,haveRegisteredObject,h,hcb]

theorem registered_eq_empty {acts : List ConnAction} (h : ∀ path, registerObject path ∉ acts) :
    registered acts = ∅ := by
  induction acts using List.reverseRecOn with
  | nil => rfl
  | append_singleton acts a ih =>
    have hacts := ih (fun path hmem => h path (List.mem_append_left _ hmem))
    rw [registered_snoc,hacts]
    cases a with
    | registerObject path => exact absurd (List.mem_append_right acts (List.mem_singleton_self _)) (h path)
    | unregisterObject path => exact Set.empty_sdiff _
    | signalCallback cb => rfl
    | methodCallback cb => rfl
    | incoming msg => rfl

/-- Up to the first registration a run obeys what is registered, and at it no more. -/
theorem obeysRegistrations_iff (acts : List ConnAction) {dc : EdbusConnImpl}
    (hrun : Transition.exec step opened acts = some dc) :
    ObeysRegistrations acts ↔ ∀ path, registerObject path ∉ acts := by
  constructor
  · intro h path hmem
    obtain ⟨before,after,rfl⟩ := List.append_of_mem hmem
    have hsplit : before ++ registerObject path :: after = (before ++ [registerObject path]) ++ after := by simp
    rw [hsplit,Transition.exec,List.foldlM_append] at hrun
    obtain ⟨dc',hrun',-⟩ := Option.bind_eq_some_iff.mp hrun
    obtain ⟨hstores,-⟩ := h (before ++ [registerObject path]) (hsplit ▸ List.prefix_append _ after) dc' hrun'
    have hpath : path ∈ dc'.objectList := by
      rw [hstores.mem_iff,registered_snoc]
      exact Set.mem_insert _ _
    rw [exec_objectList hrun'] at hpath
    cases hpath
  · intro h before hbefore dc hrun
    have hempty : dc.objectList = [] := exec_objectList hrun
    rw [registered_eq_empty (fun path hmem => h path (hbefore.subset hmem))]
    refine ⟨⟨fun path => by simp [hempty],hempty ▸ List.nodup_nil⟩,fun msg cb hcb => ?_⟩
    exact iff_of_true (filter_of_empty hempty hcb) (Or.inl rfl)

/-- A path is taken back that was never registered, and a signal comes for another. -/
theorem obeysRegistrations_unregister : ObeysRegistrations
    [signalCallback (some (fun _ => 1)),unregisterObject (CString.ofBuf [47,97]),
      incoming ⟨.signal,some (CString.ofBuf [47,98])⟩] :=
  (obeysRegistrations_iff _ rfl).mpr (by simp)

/-- After `/a` is registered it is not stored. -/
theorem not_obeysRegistrations_register : ¬ ObeysRegistrations [registerObject (CString.ofBuf [47,97])] := by
  intro h
  obtain ⟨hstores,-⟩ := h _ (List.prefix_refl _) opened rfl
  have hpath : CString.ofBuf [47,97] ∈ opened.objectList := by
    rw [hstores.mem_iff]
    exact Set.mem_insert _ _
  cases hpath

end ConnAction
end Edelib.Edbus
