import Edelib.XSettings.Manager

/-! # Runs of the manager

What the manager publishes is bytes. Within the limits of the format they decode to its
list, and the serial grows whenever the list is published. So in every publication the
settings changed since the one before carry its serial, and no setting a later one.
-/
namespace Edelib.XSettings
open Foundation Decoder Transition KeyedList SortedList

inductive ManagerCall
  | setInt (name : CString) (val : BitVec 32)
  | setString (name : CString) (val : CString)
  | setColor (name : CString) (val : XSettingsColor)
  | deleteSetting (name : CString)
  | notify
deriving DecidableEq

def ManagerCall.assigns : ManagerCall → Option (CString × XSettingsValue)
  | setInt name val => some (name,.int val)
  | setString name val => some (name,.string val)
  | setColor name val => some (name,.color val)
  | deleteSetting _ => none
  | notify => none

def lastSet (calls : List ManagerCall) (name : CString) : Option XSettingsValue :=
  calls.foldl (fun last call =>
    match call with
    | .setInt n val => if name = n then some (.int val) else last
    | .setString n val => if name = n then some (.string val) else last
    | .setColor n val => if name = n then some (.color val) else last
    | .deleteSetting n => if name = n then none else last
    | .notify => last) none

theorem lastSet_snoc (calls : List ManagerCall) (call : ManagerCall) (name : CString) :
    lastSet (calls ++ [call]) name =
      match call with
      | .setInt n val => if name = n then some (.int val) else lastSet calls name
      | .setString n val => if name = n then some (.string val) else lastSet calls name
      | .setColor n val => if name = n then some (.color val) else lastSet calls name
      | .deleteSetting n => if name = n then none else lastSet calls name
      | .notify => lastSet calls name := by
  simp only [lastSet,List.foldl_append,List.foldl_cons,List.foldl_nil]

structure Publication where
  serial : BitVec 32
  settings : XSettingsList

def readPublication (localOrder : ByteOrder) (bytes : List UInt8) : Option Publication :=
  match (decode localOrder bytes).result,(decode localOrder bytes).serial with
  | .ok settings,some serial => some ⟨serial,settings⟩
  | _,_ => none

def lastSettings (published : List Publication) : XSettingsList :=
  (published.getLast?.map Publication.settings).getD []

/-- A publication whose stamps are at most its serial, and equal to it for the settings
that are not in the previous publication with the same value. -/
structure WellStamped (previous : XSettingsList) (p : Publication) : Prop where
  le : ∀ s ∈ p.settings, s.lastChangeSerial.toNat ≤ p.serial.toNat
  fresh : ∀ s ∈ p.settings, (∀ s' ∈ previous, s'.name = s.name → s'.value ≠ s.value) →
    s.lastChangeSerial.toNat = p.serial.toNat

def AllWellStamped (published : List Publication) : Prop :=
  ∀ before p after, published = before ++ p :: after → WellStamped (lastSettings before) p

/-- Each `notify` publishes what was set before it. -/
structure Publishes (calls : List ManagerCall) (published : List Publication) : Prop where
  length : published.length = calls.count .notify
  values : ∀ before after, calls = before ++ .notify :: after →
    ∀ p ∈ published[before.count .notify]?, ∀ name, valueOf p.settings name = lastSet before name

structure ManagerState where
  data : XSettingsData
  written : List (List UInt8)

namespace ManagerState

def init : ManagerState := ⟨⟨[],0⟩,[]⟩

section Model
variable (o : ByteOrder) (fresh : (n : ℕ) → Vector UInt8 n)

/-- A write outside the buffer has no result. -/
def step (st : ManagerState) (call : ManagerCall) : Option ManagerState :=
  match call with
  | .setInt name val => some { st with data := setValue st.data name (.int val) }
  | .setString name val => some { st with data := setValue st.data name (.string val) }
  | .setColor name val => some { st with data := setValue st.data name (.color val) }
  | .deleteSetting name => some { st with data := XSettings.deleteSetting st.data name }
  | .notify => (managerNotify o fresh st.data).map (fun (b,data) => ⟨data,st.written ++ [b.data]⟩)

/-- The list is published only where its lengths fit the format. -/
def Limited (st : ManagerState) (call : ManagerCall) : Prop := call = .notify → WithinLimits st.data.settings

instance (st : ManagerState) (call : ManagerCall) : Decidable (st.Limited call) :=
  inferInstanceAs (Decidable (call = .notify → WithinLimits st.data.settings))

/-- The run has a result, in which the list is sorted without duplicates and holds what was set, setting a stored
value again changes nothing, and the properties decode to well-stamped publications of what was set. -/
def Lawful (calls : List ManagerCall) : Prop :=
  ∃ st, exec (step o fresh) init calls = some st ∧ Sorted st.data.settings ∧
    (∀ name, valueOf st.data.settings name = lastSet calls name) ∧
    (∀ call name value, call.assigns = some (name,value) → valueOf st.data.settings name = some value →
      step o fresh st call = some st) ∧
    ∀ localOrder, ∃ published, st.written.map (readPublication localOrder) = published.map some ∧
      AllWellStamped published ∧ Publishes calls published

end Model
end ManagerState

/-! ## The lists in place of the bytes -/

def publication (data : XSettingsData) : Publication := ⟨data.serial.setWidth 32,data.settings.map onWire⟩

structure ManagerRecord where
  data : XSettingsData
  published : List Publication

namespace ManagerRecord

def init : ManagerRecord := ⟨⟨[],0⟩,[]⟩

def step (r : ManagerRecord) (call : ManagerCall) : ManagerRecord :=
  match call with
  | .setInt name val => { r with data := setValue r.data name (.int val) }
  | .setString name val => { r with data := setValue r.data name (.string val) }
  | .setColor name val => { r with data := setValue r.data name (.color val) }
  | .deleteSetting name => { r with data := deleteSetting r.data name }
  | .notify =>
    { data := { r.data with serial := r.data.serial + 1 }, published := r.published ++ [publication r.data] }

def run (calls : List ManagerCall) : ManagerRecord := calls.foldl step init

theorem run_snoc (calls : List ManagerCall) (call : ManagerCall) :
    run (calls ++ [call]) = (run calls).step call := by
  simp only [run,List.foldl_append,List.foldl_cons,List.foldl_nil]

/-- A call sets a value, deletes a setting or publishes. -/
theorem step_cases (r : ManagerRecord) (call : ManagerCall) :
    (∃ name value, call.assigns = some (name,value) ∧ value.Known ∧
      r.step call = { r with data := setValue r.data name value }) ∨
    (∃ name, call = .deleteSetting name ∧ r.step call = { r with data := deleteSetting r.data name }) ∨
    call = .notify := by
  cases call with
  | setInt name val => exact Or.inl ⟨name,_,rfl,trivial,rfl⟩
  | setString name val => exact Or.inl ⟨name,_,rfl,trivial,rfl⟩
  | setColor name val => exact Or.inl ⟨name,_,rfl,trivial,rfl⟩
  | deleteSetting name => exact Or.inr (Or.inl ⟨name,rfl,rfl⟩)
  | notify => exact Or.inr (Or.inr rfl)

/-- The lists of a run can be written, up to the limits of the format. -/
structure Listed (r : ManagerRecord) : Prop where
  sorted : Sorted r.data.settings
  known : ∀ s ∈ r.data.settings, s.value.Known

theorem Listed.step {r : ManagerRecord} (h : r.Listed) (call : ManagerCall) : (r.step call).Listed := by
  rcases step_cases r call with ⟨name,value,-,hknown,hstep⟩ | ⟨name,-,hstep⟩ | rfl
  · rw [hstep]
    refine ⟨sorted_setValue h.sorted name value,fun s hs => ?_⟩
    rcases mem_setValue hs with hs | rfl
    · exact h.known s hs
    · exact hknown
  · rw [hstep]
    exact ⟨sorted_deleteSetting h.sorted name,fun s hs => h.known s (mem_deleteSetting hs)⟩
  · exact ⟨h.sorted,h.known⟩

theorem listed_run (calls : List ManagerCall) : (run calls).Listed := by
  induction calls using List.reverseRecOn with
  | nil => exact ⟨strictSorted_nil _,nofun⟩
  | append_singleton calls call ih =>
    rw [run_snoc]
    exact ih.step call

theorem valueOf_run (calls : List ManagerCall) (name : CString) :
    valueOf (run calls).data.settings name = lastSet calls name := by
  induction calls using List.reverseRecOn with
  | nil => rfl
  | append_singleton calls call ih =>
    have hsorted := (listed_run calls).sorted
    rw [run_snoc,lastSet_snoc,← ih]
    cases call with
    | setInt n val => exact valueOf_setValue hsorted n (.int val) name
    | setString n val => exact valueOf_setValue hsorted n (.string val) name
    | setColor n val => exact valueOf_setValue hsorted n (.color val) name
    | deleteSetting n => exact valueOf_deleteSetting hsorted n name
    | notify => rfl

theorem length_published (calls : List ManagerCall) : (run calls).published.length = calls.count .notify := by
  induction calls using List.reverseRecOn with
  | nil => rfl
  | append_singleton calls call ih =>
    rw [run_snoc,List.count_append]
    cases call <;> simp [step,ih]

/-- What a publication says is what was set before it. -/
theorem publishes_run (calls : List ManagerCall) : Publishes calls (run calls).published := by
  refine ⟨length_published calls,?_⟩
  induction calls using List.reverseRecOn with
  | nil => simp
  | append_singleton calls call ih =>
    intro before after heq p hp name
    have hlength := length_published calls
    rw [run_snoc] at hp
    rcases List.eq_nil_or_concat after with rfl | ⟨after,last,rfl⟩
    · obtain ⟨rfl,hcall⟩ := List.append_inj' heq rfl
      obtain rfl : call = .notify := by simpa using hcall
      change p ∈ ((run calls).published ++ [publication (run calls).data])[calls.count .notify]? at hp
      rw [← hlength,List.getElem?_concat_length,Option.mem_some_iff] at hp
      subst hp
      rw [publication,valueOf_onWire,valueOf_run]
    · have hsplit : calls ++ [call] = (before ++ .notify :: after) ++ [last] := by
        rw [heq,List.append_assoc,List.cons_append,List.concat_eq_append]
      obtain ⟨rfl,hcall⟩ := List.append_inj' hsplit rfl
      have hcount : before.count .notify < (run (before ++ .notify :: after)).published.length := by
        rw [hlength,List.count_append,List.count_cons_self]
        omega
      refine ih before after rfl p ?_ name
      cases call with
      | notify =>
        change p ∈ ((run (before ++ .notify :: after)).published ++ [_])[before.count .notify]? at hp
        rwa [List.getElem?_append_left hcount] at hp
      | _ => exact hp

/-! ## Stamps -/

/-- The invariant: the serial counts the publications, no stamp is above it, and a stamp
below it belongs to a setting already published with its value. -/
structure Stamped (r : ManagerRecord) : Prop where
  serial_eq : r.data.serial.toNat = r.published.length
  le : ∀ s ∈ r.data.settings, s.lastChangeSerial.toNat ≤ r.data.serial.toNat
  fresh : ∀ s ∈ r.data.settings, s.lastChangeSerial = r.data.serial ∨
    ∃ s' ∈ lastSettings r.published, s'.name = s.name ∧ s'.value = s.value

theorem stamped_init : init.Stamped := by
  refine ⟨rfl,?_,?_⟩ <;> intro s hs <;> cases hs

theorem Stamped.setValue {r : ManagerRecord} (h : r.Stamped) (name : CString) (value : XSettingsValue) :
    Stamped { r with data := setValue r.data name value } := by
  refine ⟨?_,fun s hs => ?_,fun s hs => ?_⟩
  · simpa using h.serial_eq
  · simp only [setValue_serial]
    rcases mem_setValue hs with hs | rfl
    · exact h.le s hs
    · exact Nat.le_refl _
  · simp only [setValue_serial]
    rcases mem_setValue hs with hs | rfl
    · exact h.fresh s hs
    · exact Or.inl rfl

theorem Stamped.deleteSetting {r : ManagerRecord} (h : r.Stamped) (name : CString) :
    Stamped { r with data := deleteSetting r.data name } :=
  ⟨h.serial_eq,fun s hs => h.le s (mem_deleteSetting hs),fun s hs => h.fresh s (mem_deleteSetting hs)⟩

theorem Stamped.notify {r : ManagerRecord} (h : r.Stamped) (hfew : r.published.length < 2 ^ 32) :
    (r.step .notify).Stamped := by
  have hserial := h.serial_eq
  have hnext : (r.data.serial + 1).toNat = r.data.serial.toNat + 1 := by
    rw [BitVec.toNat_add]
    exact Nat.mod_eq_of_lt (by change r.data.serial.toNat + 1 < 2 ^ 64; omega)
  refine ⟨?_,fun s hs => ?_,fun s hs => Or.inr ⟨onWire s,?_,rfl,rfl⟩⟩
  · simp only [step,hnext,List.length_append,List.length_singleton,hserial]
  · simp only [step,hnext]
    exact Nat.le_succ_of_le (h.le s hs)
  · simp only [step,lastSettings,List.getLast?_concat,Option.map_some,Option.getD_some,publication]
    exact List.mem_map_of_mem hs

theorem Stamped.publication {r : ManagerRecord} (h : r.Stamped) (hfew : r.published.length < 2 ^ 32) :
    WellStamped (lastSettings r.published) (publication r.data) := by
  have hserial := h.serial_eq
  have hcut : ∀ x : BitVec 64, x.toNat ≤ r.data.serial.toNat → ((x.setWidth 32).setWidth 64).toNat = x.toNat := by
    intro x hx
    rw [BitVec.toNat_setWidth,BitVec.toNat_setWidth]
    omega
  have hpub : (r.data.serial.setWidth 32).toNat = r.data.serial.toNat := by
    rw [BitVec.toNat_setWidth,Nat.mod_eq_of_lt (by omega)]
  constructor
  · intro s hs
    obtain ⟨t,ht,rfl⟩ := List.mem_map.mp hs
    change ((t.lastChangeSerial.setWidth 32).setWidth 64).toNat ≤ (r.data.serial.setWidth 32).toNat
    rw [hcut _ (h.le t ht),hpub]
    exact h.le t ht
  · intro s hs hchanged
    obtain ⟨t,ht,rfl⟩ := List.mem_map.mp hs
    change ((t.lastChangeSerial.setWidth 32).setWidth 64).toNat = (r.data.serial.setWidth 32).toNat
    rw [hcut _ (h.le t ht),hpub]
    rcases h.fresh t ht with hstamp | ⟨s',hs',hname,hvalue⟩
    · rw [hstamp]
    · exact absurd hvalue (hchanged s' hs' hname)

theorem allWellStamped_snoc {published : List Publication} (h : AllWellStamped published) {p : Publication}
    (hp : WellStamped (lastSettings published) p) : AllWellStamped (published ++ [p]) := by
  intro before q after heq
  rcases List.eq_nil_or_concat after with rfl | ⟨after,r,rfl⟩
  · obtain ⟨rfl,hq⟩ := List.append_inj' heq rfl
    obtain rfl : p = q := by simpa using hq
    exact hp
  · have hsplit : published ++ [p] = (before ++ q :: after) ++ [r] := by
      rw [heq,List.append_assoc,List.cons_append,List.concat_eq_append]
    exact h before q after (List.append_inj' hsplit rfl).1

theorem stamped_run (calls : List ManagerCall) (hfew : calls.count .notify < 2 ^ 32) :
    (run calls).Stamped ∧ AllWellStamped (run calls).published := by
  induction calls using List.reverseRecOn with
  | nil => exact ⟨stamped_init,fun before p after heq => by simp [run,init] at heq⟩
  | append_singleton calls call ih =>
    rw [List.count_append] at hfew
    obtain ⟨hst,hall⟩ := ih (by omega)
    have hlen : (run calls).published.length < 2 ^ 32 := by
      rw [length_published]
      omega
    rw [run_snoc]
    rcases step_cases (run calls) call with ⟨name,value,-,-,hstep⟩ | ⟨name,-,hstep⟩ | rfl
    · rw [hstep]
      exact ⟨hst.setValue name value,hall⟩
    · rw [hstep]
      exact ⟨hst.deleteSetting name,hall⟩
    · exact ⟨hst.notify hlen,allWellStamped_snoc hall (hst.publication hlen)⟩

end ManagerRecord

/-! ## The bytes decode to the lists -/

namespace ManagerState
variable {o : ByteOrder} {fresh : (n : ℕ) → Vector UInt8 n}

structure Represents (st : ManagerState) (r : ManagerRecord) : Prop where
  data : st.data = r.data
  published : ∀ localOrder, st.written.map (readPublication localOrder) = r.published.map some

theorem Represents.step {st : ManagerState} {r : ManagerRecord} (h : st.Represents r) (hlisted : r.Listed)
    {call : ManagerCall} (hlimited : st.Limited call) :
    ∃ st', step o fresh st call = some st' ∧ st'.Represents (r.step call) := by
  obtain ⟨data,written⟩ := st
  obtain ⟨rfl,hpublished⟩ := h
  cases call with
  | notify =>
    obtain ⟨hnames,hshort⟩ := hlimited rfl
    have hencodable : Encodable r.data.settings := ⟨hlisted.sorted,hnames,hlisted.known,hshort⟩
    have hnotify := fun localOrder => managerNotify_decode o localOrder fresh r.data hencodable
    obtain ⟨b,hb,-⟩ := hnotify .lsbFirst
    refine ⟨⟨{ r.data with serial := r.data.serial + 1 },written ++ [b.data]⟩,?_,rfl,fun localOrder => ?_⟩
    · rw [ManagerState.step,hb,Option.map_some]
    · obtain ⟨b',hb',-,-,hresult,hserial⟩ := hnotify localOrder
      obtain ⟨rfl,-⟩ := Prod.mk.inj (Option.some.inj (hb.symm.trans hb'))
      have hread : readPublication localOrder b.data = some (publication r.data) := by
        rw [readPublication,hresult,hserial]
        rfl
      change (written ++ [b.data]).map (readPublication localOrder) = (r.published ++ [publication r.data]).map some
      rw [List.map_append,List.map_append,List.map_singleton,List.map_singleton,hread,hpublished localOrder]
  | _ => exact ⟨_,rfl,rfl,hpublished⟩

theorem represents_exec {calls : List ManagerCall} (hlimited : Along (step o fresh) Limited init calls) :
    ∃ st, exec (step o fresh) init calls = some st ∧ st.Represents (.run calls) := by
  induction calls using List.reverseRecOn with
  | nil => exact ⟨init,rfl,rfl,fun _ => rfl⟩
  | append_singleton calls call ih =>
    obtain ⟨st,hrun,hst⟩ := ih hlimited.init
    obtain ⟨st',hstep,hst'⟩ : ∃ st', step o fresh st call = some st' ∧ st'.Represents _ :=
      hst.step (ManagerRecord.listed_run calls) (hlimited.last hrun)
    refine ⟨st',?_,?_⟩
    · rw [exec_snoc,hrun,Option.bind_some,hstep]
    · rw [ManagerRecord.run_snoc]
      exact hst'

theorem step_assigns (st : ManagerState) {call : ManagerCall} {name : CString} {value : XSettingsValue}
    (h : call.assigns = some (name,value)) :
    value.Known ∧ step o fresh st call = some { st with data := XSettings.setValue st.data name value } := by
  cases call <;> cases h <;> exact ⟨trivial,rfl⟩

theorem setValue_init (name : CString) (value : XSettingsValue) :
    setValue init.data name value = ⟨[⟨name,value,0⟩],0⟩ := rfl

/-- A single setting is set and published. -/
theorem exec_set_notify {call : ManagerCall} {name : CString} {value : XSettingsValue}
    (hcall : call.assigns = some (name,value)) : exec (step o fresh) init [call,.notify] =
      (managerNotify o fresh ⟨[⟨name,value,0⟩],0⟩).map (fun (b,data) => ⟨data,[b.data]⟩) := by
  obtain ⟨-,hstep⟩ : value.Known ∧ step o fresh init call = _ := step_assigns init hcall
  rw [exec,List.foldlM_cons,hstep,setValue_init,Option.bind_eq_bind,Option.bind_some,List.foldlM_cons,step]
  cases managerNotify o fresh ⟨[⟨name,value,0⟩],0⟩ with
  | none => rfl
  | some r => rfl

section LongName
variable {name : CString} {tail : List UInt8}

/-- The length of 65536 is written as 0. -/
theorem settingBytes_longName (hlen : name.strlen = 65536)
    (hname : name.bytes = ByteOrder.lsbFirst.bytes32 0x41414141 ++ (ByteOrder.lsbFirst.bytes32 0x41414141 ++ tail)) :
    ∃ rest, settingBytes .lsbFirst ⟨name,.int 1,0⟩ = [0] ++ ([0] ++
    (ByteOrder.lsbFirst.bytes16 0 ++ (ByteOrder.lsbFirst.bytes32 0x41414141 ++
      (ByteOrder.lsbFirst.bytes32 0x41414141 ++ rest)))) := by
  have hcut : (BitVec.ofNat 32 name.strlen).setWidth 16 = 0#16 := by
    rw [hlen]
    exact BitVec.eq_of_toNat_eq (by simp)
  have hpadded : paddedBytes name = ByteOrder.lsbFirst.bytes32 0x41414141 ++
      (ByteOrder.lsbFirst.bytes32 0x41414141 ++ (tail ++ List.replicate (padded name.strlen - name.strlen) 0)) := by
    rw [paddedBytes,hname,List.append_assoc,List.append_assoc]
  rw [settingBytes,hcut,hpadded,List.append_assoc,List.append_assoc]
  exact ⟨_,rfl⟩

/-- Its first letters stand for the stamp and the value. -/
theorem readPublication_longName (hlen : name.strlen = 65536)
    (hname : name.bytes = ByteOrder.lsbFirst.bytes32 0x41414141 ++ (ByteOrder.lsbFirst.bytes32 0x41414141 ++ tail))
    {unwritten : List UInt8} (hu : unwritten.length = 3) :
    readPublication .lsbFirst (propertyBytes .lsbFirst unwritten ⟨[⟨name,.int 1,0⟩],0⟩) =
      some ⟨0,[⟨CString.empty,.int 0x41414141,0x41414141⟩]⟩ := by
  have hheaded := headed_append .lsbFirst 0 hu
    (ByteOrder.lsbFirst.bytes32 1 ++ settingBytes .lsbFirst ⟨name,.int 1,0⟩)
  have hbytes := length_propertyBytes .lsbFirst hu ⟨[⟨name,.int 1,0⟩],0⟩
  have hproperty : propertyBytes .lsbFirst unwritten ⟨[⟨name,.int 1,0⟩],0⟩ = [orderMark .lsbFirst] ++ unwritten ++
      (ByteOrder.lsbFirst.bytes32 0 ++ (ByteOrder.lsbFirst.bytes32 1 ++
        settingBytes .lsbFirst ⟨name,.int 1,0⟩)) := by
    rw [propertyBytes,List.flatMap_singleton]
    rfl
  rw [← hproperty] at hheaded
  generalize propertyBytes .lsbFirst unwritten ⟨[⟨name,.int 1,0⟩],0⟩ = bytes at hbytes hheaded
  rw [List.map_singleton,List.sum_singleton,settingSize,hlen] at hbytes
  have hlength : 4 + 20 < bytes.length := by
    have h := le_padded 65536
    omega
  obtain ⟨rest,hrest⟩ := settingBytes_longName hlen hname
  have hcount := hheaded.rest_eq
  have hsetting := drop_of_drop hcount
  rw [ByteOrder.length_bytes32,hrest] at hsetting
  have hname' := drop_of_drop (drop_of_drop hsetting)
  change bytes.drop 14 = _ at hname'
  have hserial := drop_of_drop hname'
  rw [ByteOrder.length_bytes16] at hserial
  change bytes.drop (12 + 4 + padded 0) = _ at hserial
  have hvalue := drop_of_drop hserial
  rw [ByteOrder.length_bytes32] at hvalue
  change bytes.drop 20 = _ at hvalue
  have htype : card8At bytes 12 = 0 := by
    rw [card8At,hsetting]
    rfl
  have hk : (card16At .lsbFirst bytes 14).toNat = 0 := by
    rw [card16At_of_drop hname']
    rfl
  have hint : Completes (decodeValue .lsbFirst .lsbFirst 0) bytes 20 24 _ :=
    completes_decodeValue_int (by omega)
  have hend : 12 + 4 + padded 0 + 4 ≤ bytes.length := Nat.le_of_lt (Nat.lt_of_le_of_lt (by decide) hlength)
  have hdecoded := completes_decodeSetting htype hk hend hint
  rw [card32At_of_drop hvalue,card32At_of_drop hserial,List.take_zero] at hdecoded
  have hn : (card32At .lsbFirst bytes 8).toNat = 1 := by
    rw [card32At_of_drop hcount]
    rfl
  have hlist : Completes (decodeList .lsbFirst .lsbFirst) bytes 8 24
      [⟨CString.empty,.int 0x41414141,0x41414141⟩] := by
    apply (completes_fetchCard32 (by omega)).bind
    rw [hn]
    exact hdecoded.bind completes_pure
  obtain ⟨r,hr,hd⟩ := decode_of_header .lsbFirst hheaded.mark (by omega)
  obtain ⟨r',hread,-⟩ := hlist r hr
  rw [readPublication,hheaded.decode_serial,hd,hread]

theorem published_longName (hlen : name.strlen = 65536)
    (hname : name.bytes = ByteOrder.lsbFirst.bytes32 0x41414141 ++ (ByteOrder.lsbFirst.bytes32 0x41414141 ++ tail)) :
    ∃ st p, exec (step .lsbFirst (fun n => Vector.replicate n 0)) init [.setInt name 1,.notify] = some st ∧
      st.written.map (readPublication .lsbFirst) = [some p] ∧
      ∃ s ∈ p.settings, p.serial.toNat < s.lastChangeSerial.toNat := by
  have hsize : 12 + ([(⟨name,.int 1,0⟩ : XSettingsSetting)].map settingSize).sum < 2 ^ 31 := by
    rw [List.map_singleton,List.sum_singleton,settingSize,hlen]
    exact (by decide : 12 + (8 + padded 65536 + 4) < 2 ^ 31)
  obtain ⟨b,unwritten,hnotify,hu,hdata,-⟩ :=
    @managerNotify_writes .lsbFirst (fun n => Vector.replicate n 0) ⟨[⟨name,.int 1,0⟩],0⟩ hsize
  refine ⟨⟨⟨[⟨name,.int 1,0⟩],0 + 1⟩,[b.data]⟩,⟨0,[⟨CString.empty,.int 0x41414141,0x41414141⟩]⟩,?_,?_,
    ⟨CString.empty,.int 0x41414141,0x41414141⟩,List.mem_cons_self,by decide⟩
  · rw [exec_set_notify rfl,hnotify,Option.map_some]
  · rw [List.map_singleton,hdata,readPublication_longName hlen hname hu]

end LongName

/-- A text of 2 GB needs a buffer of a size that no `int` holds. -/
theorem bufferLen_hugeText {text : CString} (hlen : text.strlen = 2147483648) :
    (bufferLen [⟨CString.ofBuf [65],.string text,0⟩]).toInt < 0 := by
  have hbuffer : bufferLen [⟨CString.ofBuf [65],.string text,0⟩] =
      12 + (8 + (pad 1#64).setWidth 32 + (4 + pad 2147483648#64).setWidth 32) := by
    rw [bufferLen,List.foldl_cons,List.foldl_nil,settingLen]
    dsimp only
    rw [hlen]
    rfl
  rw [hbuffer]
  decide

def letters (n : ℕ) : CString := ⟨List.replicate n 65,fun h => absurd (List.eq_of_mem_replicate h) (by decide)⟩

theorem strlen_letters (n : ℕ) : (letters n).strlen = n := List.length_replicate

theorem bytes_letters {m n : ℕ} (h : m = 4 + (4 + n)) : (letters m).bytes = ByteOrder.lsbFirst.bytes32 0x41414141 ++
    (ByteOrder.lsbFirst.bytes32 0x41414141 ++ List.replicate n 65) := by
  have hfour : ByteOrder.lsbFirst.bytes32 0x41414141 = List.replicate 4 65 := by decide
  subst h
  change List.replicate (4 + (4 + n)) 65 = _
  rw [hfour,List.replicate_add,List.replicate_add]

end ManagerState
end Edelib.XSettings
