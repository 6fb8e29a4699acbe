import Edelib.XSettings.Display

/-! # The serials of the publications

The manager and the clients share the property, and each has a serial of its own. A
client that reads takes over the published serial and not the one after it, so its next
publication repeats it. The serials grow as long as a changed list is published by the
party that made the latest publication and has not read it since.
-/
namespace Edelib.XSettings.Display
open Foundation Transition
variable {ι : Type} [DecidableEq ι] {pf : Platform ι} {st st' : Display ι}

/-- A changed list is published by the holder of the latest publication only. -/
def ByHolder (st : Display ι) : Action ι → Prop
  | .notify p => ∀ q ∈ st.published.head?, contents (st.data p).settings ≠ q.contents → st.holder = some p
  | _ => True

instance (st : Display ι) : (a : Action ι) → Decidable (ByHolder st a)
  | .set _ _ _ => isTrue trivial
  | .notify p => inferInstanceAs (Decidable (∀ q ∈ st.published.head?,
      contents (st.data p).settings ≠ q.contents → st.holder = some p))
  | .checkManagerWindow _ => isTrue trivial
  | .processEvent _ => isTrue trivial

/-- Of two publications in turn, the later one has the greater serial if it differs. -/
def Increases (later earlier : Published ι) : Prop :=
  later.contents ≠ earlier.contents → earlier.serial.toNat < later.serial.toNat

def SerialsIncrease (published : List (Published ι)) : Prop := published.IsChain Increases

instance (published : List (Published ι)) : Decidable (SerialsIncrease published) := by
  unfold SerialsIncrease Increases
  infer_instance

def AlwaysChanged (published : List (Published ι)) : Prop :=
  published.IsChain (fun later earlier => later.contents ≠ earlier.contents)

def next (st : Display ι) (p : Party ι) : Published ι :=
  ⟨p,contents (st.data p).settings,(st.data p).serial.setWidth 32⟩

/-- The property holds the latest serial, no serial is ahead of the number of
publications, and the holder's own is one ahead of the published one. -/
structure SerialInvariant (st : Display ι) : Prop where
  bounded : ∀ p, (st.data p).serial.toNat ≤ st.published.length
  unpublished : st.published = [] → st.property = none ∧ st.holder = none
  latest : ∀ q ∈ st.published.head?, q.serial.toNat < st.published.length ∧
    ∃ o bytes rest, st.property = some bytes ∧ Headed o q.serial bytes rest
  ahead : ∀ p, st.holder = some p → ∀ q ∈ st.published.head?, (st.data p).serial.toNat = q.serial.toNat + 1

omit [DecidableEq ι] in
theorem serialInvariant_init : (init : Display ι).SerialInvariant :=
  ⟨fun _ => Nat.le_refl 0,fun _ => ⟨rfl,rfl⟩,nofun,nofun⟩

theorem readSettings_serial {localOrder o : ByteOrder} {serial : BitVec 32} {bytes rest : List UInt8}
    {client client' : XSettingsData} (hb : Headed o serial bytes rest)
    (h : readSettings localOrder (some bytes) client = some client') : client'.serial = serial.setWidth 64 := by
  simp only [readSettings,hb.decode_serial localOrder,Option.map_some,Option.getD_some] at h
  cases hr : (decode localOrder bytes).result <;> rw [hr] at h <;> cases h <;> rfl

theorem readSettings_none {localOrder : ByteOrder} {client client' : XSettingsData}
    (h : readSettings localOrder none client = some client') : client'.serial = client.serial := by
  cases h
  rfl

omit [DecidableEq ι] in
theorem SerialInvariant.read_serial (h : st.SerialInvariant) {localOrder : ByteOrder}
    {client client' : XSettingsData} (hread : readSettings localOrder st.property client = some client') :
    (st.published = [] ∧ client'.serial = client.serial) ∨
      ∃ q ∈ st.published.head?, client'.serial.toNat = q.serial.toNat := by
  cases hp : st.published with
  | nil =>
    rw [(h.unpublished hp).1] at hread
    exact Or.inl ⟨rfl,readSettings_none hread⟩
  | cons q older =>
    obtain ⟨hlt,o,bytes,rest,hbytes,hheaded⟩ := h.latest q (by simp [hp])
    rw [hbytes] at hread
    refine Or.inr ⟨q,rfl,?_⟩
    rw [readSettings_serial hheaded hread,BitVec.toNat_setWidth_of_le (by omega)]

theorem serial_setValue (p q : Party ι) (name : CString) (value : XSettingsValue) :
    ((st.setData p (setValue (st.data p) name value)).data q).serial = (st.data q).serial := by
  by_cases hq : q = p
  · rw [hq,setData_data_self,setValue_serial]
  · rw [setData_data_of_ne st hq]

theorem SerialInvariant.setValue (h : st.SerialInvariant) (p : Party ι) (name : CString) (value : XSettingsValue) :
    (st.setData p (setValue (st.data p) name value)).SerialInvariant := by
  refine ⟨fun q => ?_,h.unpublished,h.latest,fun q hq => ?_⟩
  · rw [serial_setValue]
    exact h.bounded q
  · rw [serial_setValue]
    exact h.ahead q hq

theorem SerialInvariant.read (h : st.SerialInvariant) {i : ι} (hread : st.read pf i = some st') :
    st'.SerialInvariant := by
  obtain ⟨client,hclient,rfl⟩ := read_cases hread
  refine ⟨fun p => ?_,fun hp => ?_,h.latest,fun p hp => ?_⟩
  · change ((st.setData (.client i) client).data p).serial.toNat ≤ st.published.length
    by_cases hpi : p = .client i
    · rw [hpi,setData_data_self]
      rcases h.read_serial hclient with ⟨-,hs⟩ | ⟨q,hq,hs⟩
      · rw [hs]
        exact h.bounded _
      · rw [hs]
        exact Nat.le_of_lt (h.latest q hq).1
    · rw [setData_data_of_ne st hpi]
      exact h.bounded p
  · obtain ⟨hproperty,hholder⟩ := h.unpublished hp
    exact ⟨hproperty,by simp [hholder]⟩
  · dsimp only at hp
    split_ifs at hp with hholder
    have hpi : p ≠ .client i := fun hpi => hholder (hpi ▸ hp)
    change ∀ q ∈ st.published.head?, ((st.setData (.client i) client).data p).serial.toNat = _
    rw [setData_data_of_ne st hpi]
    exact h.ahead p hp

theorem SerialInvariant.notify (h : st.SerialInvariant) {p : Party ι}
    (hnotify : step pf st (.notify p) = some st') (hfew : st'.published.length < 2 ^ 32) :
    st'.SerialInvariant := by
  obtain ⟨b,hb,rfl⟩ := notify_cases hnotify
  obtain ⟨-,rest,hheaded⟩ := headed_managerNotify hb
  have hlen : st.published.length + 1 < 2 ^ 32 := hfew
  have hbound := h.bounded p
  have hserial : ((st.data p).serial.setWidth 32).toNat = (st.data p).serial.toNat := by
    rw [BitVec.toNat_setWidth,Nat.mod_eq_of_lt (by omega)]
  have hnext : ((st.data p).serial + 1).toNat = (st.data p).serial.toNat + 1 := by
    rw [BitVec.toNat_add]
    exact Nat.mod_eq_of_lt (by change (st.data p).serial.toNat + 1 < 2 ^ 64; omega)
  refine ⟨fun q => ?_,nofun,?_,?_⟩
  · change _ ≤ st.published.length + 1
    by_cases hq : q = p
    · rw [hq,setData_data_self,hnext]
      exact Nat.succ_le_succ hbound
    · rw [setData_data_of_ne _ hq]
      exact Nat.le_succ_of_le (h.bounded q)
  · rintro q ⟨⟩
    refine ⟨?_,pf.order p,b.data,rest,rfl,hheaded⟩
    change ((st.data p).serial.setWidth 32).toNat < st.published.length + 1
    rw [hserial]
    exact Nat.lt_succ_of_le hbound
  · rintro q ⟨⟩ r ⟨⟩
    rw [setData_data_self,hnext]
    exact congrArg (fun n => n + 1) hserial.symm

theorem SerialInvariant.step (h : st.SerialInvariant) {a : Action ι} (hstep : step pf st a = some st')
    (hfew : st'.published.length < 2 ^ 32) : st'.SerialInvariant := by
  cases a with
  | set p name value =>
    cases hstep
    exact h.setValue p name value
  | notify p => exact h.notify hstep hfew
  | checkManagerWindow i => exact h.read hstep
  | processEvent i =>
    obtain ⟨-,hread⟩ := processEvent_cases hstep
    have hpending : SerialInvariant { st with pending := Function.update st.pending i (st.pending i - 1) } :=
      ⟨h.bounded,h.unpublished,h.latest,h.ahead⟩
    exact hpending.read hread

theorem published_step {a : Action ι} (h : Display.step pf st a = some st') :
    (∃ p, a = .notify p ∧ st'.published = st.next p :: st.published) ∨
      ((∀ p, a ≠ .notify p) ∧ st'.published = st.published) := by
  cases a with
  | set p name value =>
    cases h
    exact Or.inr ⟨nofun,rfl⟩
  | notify p =>
    obtain ⟨b,-,rfl⟩ := notify_cases h
    exact Or.inl ⟨p,rfl,rfl⟩
  | checkManagerWindow i =>
    obtain ⟨client,-,rfl⟩ := read_cases h
    exact Or.inr ⟨nofun,rfl⟩
  | processEvent i =>
    obtain ⟨client,-,rfl⟩ := read_cases (processEvent_cases h).2
    exact Or.inr ⟨nofun,rfl⟩

theorem length_published_le {a : Action ι} (h : Display.step pf st a = some st') :
    st.published.length ≤ st'.published.length := by
  rcases published_step h with ⟨p,-,hp⟩ | ⟨-,hp⟩ <;> rw [hp]
  exact Nat.le_succ _

theorem serialInvariant_exec {acts : List (Action ι)} (hrun : exec (Display.step pf) init acts = some st)
    (hfew : st.published.length < 2 ^ 32) : st.SerialInvariant := by
  refine exec_invariant (C := fun _ _ => True) (I := fun _ st => st.published.length < 2 ^ 32 → st.SerialInvariant)
    (fun _ => serialInvariant_init) (fun acts a s₁ s₂ _ ih _ hstep hfew => ?_)
    (fun _ _ _ _ _ _ => trivial) hrun hfew
  exact (ih (Nat.lt_of_le_of_lt (length_published_le hstep) hfew)).step hstep hfew

/-! ## Runs whose changed lists are published by the holder -/

omit [DecidableEq ι] in
theorem isChain_cons_head {R : Published ι → Published ι → Prop} {q : Published ι} {older : List (Published ι)} :
    (q :: older).IsChain R ↔ (∀ r ∈ older.head?, R q r) ∧ older.IsChain R := by
  cases older with
  | nil => simp
  | cons r older => simp [List.isChain_cons_cons]

omit [DecidableEq ι] in
/-- The holder's publication has a greater serial than the latest one. -/
theorem SerialInvariant.increases_next (h : st.SerialInvariant) {p : Party ι} (hfew : st.published.length + 1 < 2 ^ 32)
    {q : Published ι} (hq : q ∈ st.published.head?) (hholder : st.holder = some p) :
    q.serial.toNat < (st.next p).serial.toNat := by
  have hahead := h.ahead p hholder q hq
  have hbound := h.bounded p
  change _ < ((st.data p).serial.setWidth 32).toNat
  rw [BitVec.toNat_setWidth,Nat.mod_eq_of_lt (by omega)]
  omega

theorem serialsIncrease_of_byHolder {acts : List (Action ι)} (hrun : exec (Display.step pf) init acts = some st)
    (hfew : st.published.length < 2 ^ 32) (hC : Along (Display.step pf) ByHolder init acts) :
    SerialsIncrease st.published := by
  have hinit : SerialsIncrease (init : Display ι).published := List.IsChain.nil
  refine exec_invariant (C := ByHolder) (I := fun _ st => st.published.length < 2 ^ 32 → SerialsIncrease st.published)
    (fun _ => hinit) (fun acts a s₁ s₂ hrun ih hC hstep hfew => ?_) hC hrun hfew
  have hfew₁ := Nat.lt_of_le_of_lt (length_published_le hstep) hfew
  have hinv := serialInvariant_exec hrun hfew₁
  rcases published_step hstep with ⟨p,rfl,hp⟩ | ⟨-,hp⟩
  · rw [hp] at hfew ⊢
    refine isChain_cons_head.mpr ⟨fun q hq hchanged => ?_,ih hfew₁⟩
    exact hinv.increases_next hfew hq (hC q hq hchanged)
  · rw [hp]
    exact ih hfew₁

/-! ## Runs in which every publication is a change -/

/-- Whoever does not hold the latest publication has no serial beyond it. -/
def Behind (st : Display ι) : Prop :=
  ∀ p, st.holder ≠ some p → ∀ q ∈ st.published.head?, (st.data p).serial.toNat ≤ q.serial.toNat

theorem Behind.read (h : st.Behind) (hinv : st.SerialInvariant) {i : ι} (hread : st.read pf i = some st') :
    st'.Behind := by
  obtain ⟨client,hclient,rfl⟩ := read_cases hread
  intro p hp q hq
  change ((st.setData (.client i) client).data p).serial.toNat ≤ q.serial.toNat
  change q ∈ st.published.head? at hq
  by_cases hpi : p = .client i
  · rw [hpi,setData_data_self]
    rcases hinv.read_serial hclient with ⟨hnil,-⟩ | ⟨r,hr,hserial⟩
    · rw [hnil] at hq
      cases hq
    · rw [hserial,Option.some.inj (hr.symm.trans hq)]
  · rw [setData_data_of_ne st hpi]
    refine h p (fun hholder => hp ?_) q hq
    have hne : ¬ st.holder = some (.client i) := by
      rw [hholder]
      exact fun he => hpi (Option.some.inj he)
    exact (if_neg hne).trans hholder

/-- A publication with a greater serial is the holder's, and leaves the others behind. -/
theorem Behind.notify (h : st.Behind) (hinv : st.SerialInvariant) {p : Party ι}
    (hnotify : Display.step pf st (.notify p) = some st') (hfew : st.published.length + 1 < 2 ^ 32)
    (hless : ∀ q ∈ st.published.head?, q.serial.toNat < (st.next p).serial.toNat) :
    st'.Behind ∧ ∀ q ∈ st.published.head?, st.holder = some p := by
  have hserial : (st.next p).serial.toNat = (st.data p).serial.toNat := by
    have hbound := hinv.bounded p
    exact (BitVec.toNat_setWidth _ _).trans (Nat.mod_eq_of_lt (by omega))
  obtain ⟨b,-,rfl⟩ := notify_cases hnotify
  constructor
  · rintro r hr q ⟨⟩
    have hrp : r ≠ p := fun he => hr (congrArg some he.symm)
    rw [setData_data_of_ne _ hrp]
    change (st.data r).serial.toNat ≤ (st.next p).serial.toNat
    cases hp : st.published with
    | nil =>
      have hbound := hinv.bounded r
      rw [hp] at hbound
      exact Nat.le_trans hbound (Nat.zero_le _)
    | cons q older =>
      have hq : q ∈ st.published.head? := by simp [hp]
      have hlt := hless q hq
      by_cases hholder : st.holder = some r
      · rw [hinv.ahead r hholder q hq]
        exact hlt
      · exact Nat.le_trans (h r hholder q hq) (Nat.le_of_lt hlt)
  · intro q hq
    by_contra hholder
    have hle := h p hholder q hq
    have hlt := hless q hq
    omega

theorem byHolder_of_serialsIncrease {acts : List (Action ι)} (hrun : exec (Display.step pf) init acts = some st)
    (hfew : st.published.length < 2 ^ 32) (hchanged : AlwaysChanged st.published)
    (hincrease : SerialsIncrease st.published) :
    Along (Display.step pf) ByHolder init acts ∧ st.Behind := by
  induction acts using List.reverseRecOn generalizing st with
  | nil =>
    cases hrun
    refine ⟨fun before a after heq => by simp at heq,fun p _ q hq => by cases hq⟩
  | append_singleton acts a ih =>
    rw [exec_snoc] at hrun
    obtain ⟨s,hrun₁,hstep⟩ := Option.bind_eq_some_iff.mp hrun
    have hfew₁ := Nat.lt_of_le_of_lt (length_published_le hstep) hfew
    have hinv := serialInvariant_exec hrun₁ hfew₁
    rcases published_step hstep with ⟨p,rfl,hp⟩ | ⟨hne,hp⟩ <;> rw [hp] at hchanged hincrease
    · obtain ⟨hch,hchanged⟩ := isChain_cons_head.mp hchanged
      obtain ⟨hinc,hincrease⟩ := isChain_cons_head.mp hincrease
      obtain ⟨halong,hbehind⟩ := ih hrun₁ hfew₁ hchanged hincrease
      rw [hp] at hfew
      obtain ⟨hbehind',hholder⟩ := hbehind.notify hinv hstep hfew (fun q hq => hinc q hq (hch q hq))
      exact ⟨halong.snoc hrun₁ (fun q hq _ => hholder q hq),hbehind'⟩
    · obtain ⟨halong,hbehind⟩ := ih hrun₁ hfew₁ hchanged hincrease
      cases a with
      | set p name value =>
        cases hstep
        refine ⟨halong.snoc hrun₁ trivial,fun q hq r hr => ?_⟩
        rw [serial_setValue]
        exact hbehind q hq r hr
      | notify p => exact absurd rfl (hne p)
      | checkManagerWindow i => exact ⟨halong.snoc hrun₁ trivial,hbehind.read hinv hstep⟩
      | processEvent i =>
        have hinv' : SerialInvariant { s with pending := Function.update s.pending i (s.pending i - 1) } :=
          ⟨hinv.bounded,hinv.unpublished,hinv.latest,hinv.ahead⟩
        have hbehind' : Behind { s with pending := Function.update s.pending i (s.pending i - 1) } := hbehind
        exact ⟨halong.snoc hrun₁ trivial,hbehind'.read hinv' (processEvent_cases hstep).2⟩

/-- In a run of the manager and any number of clients, with fewer than `2 ^ 32`
publications, changed lists get growing serials if the holder publishes them; and only
then, when every publication is a change. -/
theorem exec_serialsIncrease (pf : Platform ι) (acts : List (Action ι)) (st : Display ι)
    (hrun : exec (Display.step pf) init acts = some st) (hfew : st.published.length < 2 ^ 32) :
    (Along (Display.step pf) ByHolder init acts → SerialsIncrease st.published) ∧
      (AlwaysChanged st.published → SerialsIncrease st.published →
        Along (Display.step pf) ByHolder init acts) :=
  ⟨serialsIncrease_of_byHolder hrun hfew,fun hchanged hincrease =>
    (byHolder_of_serialsIncrease hrun hfew hchanged hincrease).1⟩

def plainPlatform : Platform Unit := ⟨fun _ => .lsbFirst,fun n => Vector.replicate n 0⟩

def intValue (v : BitVec 32) : KnownValue := ⟨.int v,trivial⟩

def managerRun : List (Action Unit) :=
  [.set .manager (CString.ofBuf [65]) (intValue 1),.notify .manager,.checkManagerWindow (),
    .set .manager (CString.ofBuf [65]) (intValue 2),.notify .manager,.processEvent ()]

theorem exec_serialsIncrease_managerRun :
    ∃ st, exec (Display.step plainPlatform) init managerRun = some st ∧ SerialsIncrease st.published := by
  have hlen : (exec (Display.step plainPlatform) init managerRun).map (fun st => st.published.length) = some 2 := by
    decide +kernel
  obtain ⟨st,hrun,hst⟩ := Option.map_eq_some_iff.mp hlen
  exact ⟨st,hrun,(exec_serialsIncrease plainPlatform managerRun st hrun (by omega)).1 (by decide +kernel)⟩

/-- The manager publishes with serial 0; a client reads, changes the setting and publishes. -/
def clientRun : List (Action Unit) :=
  [.set .manager (CString.ofBuf [65]) (intValue 1),.notify .manager,.checkManagerWindow (),
    .set (.client ()) (CString.ofBuf [65]) (intValue 2),.notify (.client ())]

/-- The client's publication has the serial 0 again. -/
theorem not_serialsIncrease_clientRun :
    ∃ st, exec (Display.step plainPlatform) init clientRun = some st ∧ st.published.length < 2 ^ 32 ∧
      ¬ SerialsIncrease st.published := by
  have hpublished : (exec (Display.step plainPlatform) init clientRun).map (fun st => st.published) =
      some [⟨.client (),[(CString.ofBuf [65],.int 2)],0⟩,⟨.manager,[(CString.ofBuf [65],.int 1)],0⟩] := by
    decide +kernel
  obtain ⟨st,hrun,hst⟩ := Option.map_eq_some_iff.mp hpublished
  refine ⟨st,hrun,?_⟩
  rw [hst]
  decide +kernel

end Edelib.XSettings.Display
