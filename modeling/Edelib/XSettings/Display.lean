import Edelib.XSettings.Manager
import Mathlib.Logic.Function.Basic

/-! # The manager and the clients of one display

The manager and every client keep data of their own and publish them in one property
of the display. A client reads the property when it finds the manager's window, and
whenever it processes the event that each publication sends to every client.
-/
namespace Edelib.XSettings
open Foundation Transition

/-- A value the `set` methods can store. -/
abbrev KnownValue := {v : XSettingsValue // v.Known}

inductive Party (ι : Type)
  | manager
  | client (i : ι)
deriving DecidableEq

structure Platform (ι : Type) where
  order : Party ι → ByteOrder
  fresh : (n : ℕ) → Vector UInt8 n

def contents (list : XSettingsList) : List (CString × XSettingsValue) :=
  list.map (fun s => (s.name,s.value))

structure Published (ι : Type) where
  publisher : Party ι
  contents : List (CString × XSettingsValue)
  serial : BitVec 32
deriving DecidableEq

/-- The display's state. The last two fields record history: the publications, the
latest first, and who made the latest, unless that client has read it since. -/
structure Display (ι : Type) where
  data : Party ι → XSettingsData
  property : Option (List UInt8)
  pending : ι → ℕ
  published : List (Published ι)
  holder : Option (Party ι)

/-- Without a manager's window a client's `set` and `notify` return at once and change nothing: the calls here are
those that find one. -/
inductive Action (ι : Type)
  | set (p : Party ι) (name : CString) (value : KnownValue)
  | notify (p : Party ι)
  | checkManagerWindow (i : ι)
  | processEvent (i : ι)

/-- The list is replaced by what the property decodes to, or by none; the serial is
stored as soon as it is decoded. A read outside the property has no result. -/
def readSettings (localOrder : ByteOrder) (property : Option (List UInt8)) (client : XSettingsData) :
    Option XSettingsData :=
  match property with
  | none => some { client with settings := [] }
  | some bytes =>
    let decoded := decode localOrder bytes
    let serial := (decoded.serial.map (fun serial => serial.setWidth 64)).getD client.serial
    match decoded.result with
    | .ok settings => some ⟨settings,serial⟩
    | .fail => some ⟨[],serial⟩
    | .fault => none

namespace Display
variable {ι : Type} [DecidableEq ι]

def init : Display ι where
  data := fun _ => ⟨[],0⟩
  property := none
  pending := fun _ => 0
  published := []
  holder := none

def setData (st : Display ι) (p : Party ι) (data : XSettingsData) : Display ι :=
  { st with data := Function.update st.data p data }

/-- Replace the property; every client is sent an event. -/
def changeProperty (st : Display ι) (p : Party ι) (bytes : List UInt8) : Display ι :=
  { st with
    property := some bytes
    pending := fun i => st.pending i + 1
    published := ⟨p,contents (st.data p).settings,(st.data p).serial.setWidth 32⟩ :: st.published
    holder := some p }

def read (pf : Platform ι) (st : Display ι) (i : ι) : Option (Display ι) :=
  (readSettings (pf.order (.client i)) st.property (st.data (.client i))).map (fun client =>
    { st.setData (.client i) client with
      holder := if st.holder = some (.client i) then none else st.holder })

def step (pf : Platform ι) (st : Display ι) : Action ι → Option (Display ι)
  | .set p name value => some (st.setData p (setValue (st.data p) name value))
  | .notify p =>
    (managerNotify (pf.order p) pf.fresh (st.data p)).map (fun (b,data) =>
      (st.changeProperty p b.data).setData p data)
  | .checkManagerWindow i => st.read pf i
  | .processEvent i =>
    if st.pending i = 0 then none
    else { st with pending := Function.update st.pending i (st.pending i - 1) }.read pf i

@[simp] theorem setData_data_self (st : Display ι) (p : Party ι) (data : XSettingsData) :
    (st.setData p data).data p = data := by
  simp only [setData,Function.update_self]

@[simp] theorem setData_data_of_ne (st : Display ι) {p q : Party ι} (h : q ≠ p) (data : XSettingsData) :
    (st.setData p data).data q = st.data q := by
  simp only [setData,Function.update_of_ne h]

/-- Everything a read can do: the client's data change as `readSettings` says, and it no
longer holds the latest publication. -/
theorem read_cases {pf : Platform ι} {st st' : Display ι} {i : ι} (h : st.read pf i = some st') :
    ∃ client, readSettings (pf.order (.client i)) st.property (st.data (.client i)) = some client ∧
      st' = { st.setData (.client i) client with
        holder := if st.holder = some (.client i) then none else st.holder } := by
  obtain ⟨client,hclient,rfl⟩ := Option.map_eq_some_iff.mp h
  exact ⟨client,hclient,rfl⟩

theorem notify_cases {pf : Platform ι} {st st' : Display ι} {p : Party ι} (h : step pf st (.notify p) = some st') :
    ∃ b, managerNotify (pf.order p) pf.fresh (st.data p) =
        some (b,{ st.data p with serial := (st.data p).serial + 1 }) ∧
      st' = (st.changeProperty p b.data).setData p { st.data p with serial := (st.data p).serial + 1 } := by
  obtain ⟨⟨b,data⟩,hnotify,rfl⟩ := Option.map_eq_some_iff.mp h
  obtain ⟨rfl,-⟩ := headed_managerNotify hnotify
  exact ⟨b,hnotify,rfl⟩

theorem processEvent_cases {pf : Platform ι} {st st' : Display ι} {i : ι}
    (h : step pf st (.processEvent i) = some st') :
    st.pending i ≠ 0 ∧
      { st with pending := Function.update st.pending i (st.pending i - 1) }.read pf i = some st' := by
  simp only [step] at h
  split_ifs at h with hpending
  exact ⟨hpending,h⟩

end Display
end Edelib.XSettings
