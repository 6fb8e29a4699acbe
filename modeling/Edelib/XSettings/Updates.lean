import Edelib.XSettings.Serial

/-! # Updates through the shared property

Every publication replaces the whole property by the publisher's list, and every read
replaces the reader's whole list. No party's update is lost as long as what is replaced
holds nothing newer: a publisher has the published values of the settings others write,
and a reader has published the values of its own.
-/
namespace Edelib.XSettings.Display
open Foundation KeyedList SortedList Transition
variable {ι : Type} [DecidableEq ι] {pf : Platform ι} {st st' : Display ι}

def publishedList (st : Display ι) : XSettingsList :=
  match st.property with
  | none => []
  | some bytes =>
    match (decode .lsbFirst bytes).result with
    | .ok list => list
    | _ => []

/-- The lists hold the same values for the names that satisfy `R`. -/
def AgreeOn (R : CString → Prop) (l₁ l₂ : XSettingsList) : Prop :=
  ∀ name ∈ (l₁ ++ l₂).map XSettingsSetting.name, R name → valueOf l₁ name = valueOf l₂ name

instance (R : CString → Prop) [DecidablePred R] (l₁ l₂ : XSettingsList) : Decidable (AgreeOn R l₁ l₂) :=
  inferInstanceAs (Decidable (∀ name ∈ (l₁ ++ l₂).map XSettingsSetting.name,
    R name → valueOf l₁ name = valueOf l₂ name))

variable (writer : CString → Party ι)

/-- A party sets only settings of its own. -/
def OwnSet : Action ι → Prop
  | .set p name _ => writer name = p
  | _ => True

instance : (a : Action ι) → Decidable (OwnSet writer a)
  | .set p name _ => inferInstanceAs (Decidable (writer name = p))
  | .notify _ => isTrue trivial
  | .checkManagerWindow _ => isTrue trivial
  | .processEvent _ => isTrue trivial

/-- A publisher's list is within the limits and holds the published values of what others
write; a reader's own values are the published ones. -/
def UpToDate (st : Display ι) : Action ι → Prop
  | .set _ _ _ => True
  | .notify p => WithinLimits (st.data p).settings ∧
      AgreeOn (fun name => writer name ≠ p) (st.data p).settings st.publishedList
  | .checkManagerWindow i =>
    AgreeOn (fun name => writer name = .client i) (st.data (.client i)).settings st.publishedList
  | .processEvent i =>
    AgreeOn (fun name => writer name = .client i) (st.data (.client i)).settings st.publishedList

instance (st : Display ι) : (a : Action ι) → Decidable (UpToDate writer st a)
  | .set _ _ _ => isTrue trivial
  | .notify p => inferInstanceAs (Decidable (WithinLimits (st.data p).settings ∧
      AgreeOn (fun name => writer name ≠ p) (st.data p).settings st.publishedList))
  | .checkManagerWindow i => inferInstanceAs (Decidable
      (AgreeOn (fun name => writer name = .client i) (st.data (.client i)).settings st.publishedList))
  | .processEvent i => inferInstanceAs (Decidable
      (AgreeOn (fun name => writer name = .client i) (st.data (.client i)).settings st.publishedList))

/-- The value the last `set` of a name gave it. -/
def lastSet (acts : List (Action ι)) (name : CString) : Option XSettingsValue :=
  acts.foldl (fun last a =>
    match a with
    | .set _ n value => if n = name then some value.1 else last
    | _ => last) none

def unpublished (acts : List (Action ι)) (p : Party ι) : Bool :=
  acts.foldl (fun dirty a =>
    match a with
    | .set q _ _ => if q = p then true else dirty
    | .notify q => if q = p then false else dirty
    | _ => dirty) false

/-! ## Values of lists -/

theorem valueOf_eq_none {list : XSettingsList} {name : CString}
    (h : name ∉ list.map XSettingsSetting.name) : valueOf list name = none := by
  have hnone : record XSettingsSetting.name name list = none :=
    (record_eq_none _).mpr (fun s hs hname => h (hname ▸ List.mem_map_of_mem hs))
  rw [valueOf,hnone,Option.map_none]

theorem AgreeOn.value {R : CString → Prop} {l₁ l₂ : XSettingsList} (h : AgreeOn R l₁ l₂) {name : CString}
    (hname : R name) : valueOf l₁ name = valueOf l₂ name := by
  by_cases hmem : name ∈ (l₁ ++ l₂).map XSettingsSetting.name
  · exact h name hmem hname
  · rw [List.map_append,List.mem_append,not_or] at hmem
    rw [valueOf_eq_none hmem.1,valueOf_eq_none hmem.2]

/-! ## What the writers' own steps keep -/

section History
variable {writer} {acts : List (Action ι)}

omit [DecidableEq ι] in
theorem lastSet_snoc (acts : List (Action ι)) (a : Action ι) (name : CString) :
    lastSet (acts ++ [a]) name =
      match a with
      | .set _ n value => if n = name then some value.1 else lastSet acts name
      | _ => lastSet acts name := by
  simp only [lastSet,List.foldl_append,List.foldl_cons,List.foldl_nil]

theorem unpublished_snoc (acts : List (Action ι)) (a : Action ι) (p : Party ι) :
    unpublished (acts ++ [a]) p =
      match a with
      | .set q _ _ => if q = p then true else unpublished acts p
      | .notify q => if q = p then false else unpublished acts p
      | _ => unpublished acts p := by
  simp only [unpublished,List.foldl_append,List.foldl_cons,List.foldl_nil]

end History

structure Readable (st : Display ι) : Prop where
  read : ∀ localOrder client, ∃ serial,
    readSettings localOrder st.property client = some ⟨st.publishedList,serial⟩
  sorted : Sorted st.publishedList
  known : ∀ s ∈ st.publishedList, s.value.Known

/-- The invariant: a writer holds what it set last, the property does too once the writer
has published, and a client without pending events holds what the others published. -/
structure Kept (acts : List (Action ι)) (st : Display ι) : Prop where
  sorted : ∀ p, Sorted (st.data p).settings
  known : ∀ p, ∀ s ∈ (st.data p).settings, s.value.Known
  readable : st.Readable
  own : ∀ name, valueOf (st.data (writer name)).settings name = lastSet acts name
  clean : ∀ name, unpublished acts (writer name) = false → valueOf st.publishedList name = lastSet acts name
  seen : ∀ i, st.pending i = 0 → ∀ name, writer name ≠ .client i →
    valueOf (st.data (.client i)).settings name = valueOf st.publishedList name

variable {writer} {acts : List (Action ι)}

omit [DecidableEq ι] in
theorem readable_init : (init : Display ι).Readable :=
  ⟨fun _ client => ⟨client.serial,rfl⟩,strictSorted_nil _,nofun⟩

theorem kept_init : Kept writer [] (init : Display ι) :=
  ⟨fun _ => strictSorted_nil _,fun _ => nofun,readable_init,fun _ => rfl,fun _ _ => rfl,fun _ _ _ _ => rfl⟩

theorem known_setValue {data : XSettingsData} (h : ∀ s ∈ data.settings, s.value.Known) (name : CString)
    (value : KnownValue) : ∀ s ∈ (setValue data name value).settings, s.value.Known := by
  intro s hs
  rcases mem_setValue hs with hs | rfl
  · exact h s hs
  · exact value.2

theorem Kept.set (h : Kept writer acts st) {p : Party ι} {name : CString} (hown : writer name = p)
    (value : KnownValue) :
    Kept writer (acts ++ [.set p name value]) (st.setData p (setValue (st.data p) name value)) := by
  refine ⟨fun q => ?_,fun q => ?_,⟨h.readable.read,h.readable.sorted,h.readable.known⟩,fun n => ?_,
    fun n hn => ?_,fun i hi n hn => ?_⟩
  · by_cases hq : q = p
    · rw [hq,setData_data_self]
      exact sorted_setValue (h.sorted p) name value
    · rw [setData_data_of_ne st hq]
      exact h.sorted q
  · by_cases hq : q = p
    · rw [hq,setData_data_self]
      exact known_setValue (h.known p) name value
    · rw [setData_data_of_ne st hq]
      exact h.known q
  · have hn := h.own n
    rw [lastSet_snoc]
    dsimp only
    by_cases hq : writer n = p
    · rw [hq] at hn ⊢
      rw [setData_data_self,valueOf_setValue (h.sorted p),hn]
      by_cases hname : n = name
      · rw [if_pos hname,if_pos hname.symm]
      · rw [if_neg hname,if_neg (Ne.symm hname)]
    · have hname : ¬ name = n := fun he => hq (he ▸ hown)
      rw [setData_data_of_ne st hq,if_neg hname,hn]
  · rw [unpublished_snoc] at hn
    dsimp only at hn
    split_ifs at hn with hp
    have hname : ¬ name = n := fun he => hp (by rw [← he,hown])
    rw [lastSet_snoc]
    dsimp only
    rw [if_neg hname]
    exact h.clean n hn
  · have hseen := h.seen i hi n hn
    by_cases hq : Party.client i = p
    · have hname : ¬ n = name := fun he => hn (by rw [he,hown,hq])
      rw [hq] at hseen ⊢
      rw [setData_data_self,valueOf_setValue (h.sorted p),if_neg hname]
      exact hseen
    · rw [setData_data_of_ne st hq]
      exact hseen

/-- What is published within the limits is what every reader finds. -/
theorem publishedList_notify {p : Party ι} (hsorted : Sorted (st.data p).settings)
    (hknown : ∀ s ∈ (st.data p).settings, s.value.Known) (hlimits : WithinLimits (st.data p).settings)
    (hnotify : step pf st (.notify p) = some st') :
    st'.Readable ∧ st'.publishedList = (st.data p).settings.map onWire := by
  have hencodable : Encodable (st.data p).settings := ⟨hsorted,hlimits.1,hknown,hlimits.2⟩
  obtain ⟨b,hb,rfl⟩ := notify_cases hnotify
  obtain ⟨b',unwritten,hb',hu,hdata,-⟩ := managerNotify_writes (pf.order p) pf.fresh hencodable.short
  obtain rfl : b = b' := by simpa using hb.symm.trans hb'
  have hdecode := fun localOrder => decode_propertyBytes (pf.order p) localOrder hu hencodable
  rw [← hdata] at hdecode
  obtain ⟨s,hs⟩ : ∃ s, s = (st.changeProperty p b.data).setData p
      { st.data p with serial := (st.data p).serial + 1 } := ⟨_,rfl⟩
  rw [← hs]
  have hproperty : s.property = some b.data := by
    rw [hs]
    rfl
  have hlist : s.publishedList = (st.data p).settings.map onWire := by
    simp only [publishedList,hproperty,(hdecode .lsbFirst).1]
  refine ⟨⟨fun localOrder client => ⟨((st.data p).serial.setWidth 32).setWidth 64,?_⟩,?_,?_⟩,hlist⟩
  · simp only [readSettings,hproperty,hlist,(hdecode localOrder).1,(hdecode localOrder).2,Option.map_some,
      Option.getD_some]
  · rw [hlist]
    exact sorted_onWire hsorted
  · rw [hlist]
    intro s hs
    obtain ⟨t,ht,rfl⟩ := List.mem_map.mp hs
    exact hknown t ht

theorem Kept.notify (h : Kept writer acts st) {p : Party ι} (hC : UpToDate writer st (.notify p))
    (hnotify : step pf st (.notify p) = some st') : Kept writer (acts ++ [.notify p]) st' := by
  obtain ⟨hlimits,hagree⟩ := hC
  obtain ⟨hreadable,hlist⟩ := publishedList_notify (h.sorted p) (h.known p) hlimits hnotify
  obtain ⟨b,-,hst⟩ := notify_cases hnotify
  have hsettings : ∀ q, (st'.data q).settings = (st.data q).settings := by
    intro q
    rw [hst]
    by_cases hq : q = p
    · rw [hq,setData_data_self]
    · rw [setData_data_of_ne _ hq]
      rfl
  refine ⟨fun q => ?_,fun q => ?_,hreadable,fun n => ?_,fun n hn => ?_,fun i hi => ?_⟩
  · rw [hsettings]
    exact h.sorted q
  · rw [hsettings]
    exact h.known q
  · rw [hsettings,lastSet_snoc]
    exact h.own n
  · rw [hlist,valueOf_onWire,lastSet_snoc]
    dsimp only
    by_cases hq : p = writer n
    · rw [hq]
      exact h.own n
    · rw [unpublished_snoc] at hn
      dsimp only at hn
      rw [if_neg hq] at hn
      rw [hagree.value (Ne.symm hq)]
      exact h.clean n hn
  · rw [hst] at hi
    exact absurd hi (Nat.succ_ne_zero _)

/-- A read leaves the client the published list, in which its own values are unchanged. -/
theorem Kept.read (h : Kept writer acts st) {i : ι} {pending : ι → ℕ} {a : Action ι}
    (hpending : ∀ j, pending j = 0 → j ≠ i → st.pending j = 0) (hlast : lastSet (acts ++ [a]) = lastSet acts)
    (hunpublished : unpublished (acts ++ [a]) = unpublished acts)
    (hagree : AgreeOn (fun name => writer name = .client i) (st.data (.client i)).settings st.publishedList)
    (hread : Display.read pf { st with pending := pending } i = some st') : Kept writer (acts ++ [a]) st' := by
  obtain ⟨client,hclient,rfl⟩ := read_cases hread
  obtain ⟨serial,hserial⟩ := h.readable.read (pf.order (.client i)) (st.data (.client i))
  obtain rfl := Option.some.inj (hclient.symm.trans hserial)
  have hself : ∀ q, ((st.setData (.client i) ⟨st.publishedList,serial⟩).data q).settings =
      if q = .client i then st.publishedList else (st.data q).settings := by
    intro q
    by_cases hq : q = .client i
    · rw [if_pos hq,hq,setData_data_self]
    · rw [if_neg hq,setData_data_of_ne st hq]
  refine ⟨fun q => ?_,fun q => ?_,⟨h.readable.read,h.readable.sorted,h.readable.known⟩,
    fun n => ?_,fun n hn => ?_,fun j hj n hn => ?_⟩
  · change Sorted ((st.setData (.client i) ⟨st.publishedList,serial⟩).data q).settings
    rw [hself]
    split_ifs
    · exact h.readable.sorted
    · exact h.sorted q
  · change ∀ s ∈ ((st.setData (.client i) ⟨st.publishedList,serial⟩).data q).settings, s.value.Known
    rw [hself]
    split_ifs
    · exact h.readable.known
    · exact h.known q
  · change valueOf ((st.setData (.client i) ⟨st.publishedList,serial⟩).data (writer n)).settings n = _
    rw [hself,hlast,← h.own n]
    split_ifs with hq
    · rw [hq]
      exact (hagree.value hq).symm
    · rfl
  · rw [hlast]
    rw [hunpublished] at hn
    exact h.clean n hn
  · change valueOf ((st.setData (.client i) ⟨st.publishedList,serial⟩).data (.client j)).settings n =
      valueOf st.publishedList n
    rw [hself]
    split_ifs with hq
    · rfl
    · exact h.seen j (hpending j hj (fun he => hq (congrArg Party.client he))) n hn

theorem Kept.step (h : Kept writer acts st) {a : Action ι} (hown : OwnSet writer a) (hC : UpToDate writer st a)
    (hstep : step pf st a = some st') : Kept writer (acts ++ [a]) st' := by
  cases a with
  | set p name value =>
    cases hstep
    exact h.set hown value
  | notify p => exact h.notify hC hstep
  | checkManagerWindow i =>
    exact h.read (fun j hj _ => hj) (funext (lastSet_snoc acts _)) (funext (unpublished_snoc acts _)) hC hstep
  | processEvent i =>
    obtain ⟨-,hread⟩ := processEvent_cases hstep
    refine h.read (fun j hj hji => ?_) (funext (lastSet_snoc acts _)) (funext (unpublished_snoc acts _)) hC hread
    rwa [Function.update_of_ne hji] at hj

/-- In a run whose publications and reads are up to date no setting is lost: once every
writer has published after its last `set` and every event is processed, the property and
every client hold what was set last. -/
theorem exec_keepsUpdates (pf : Platform ι) (writer : CString → Party ι) (acts : List (Action ι))
    (st : Display ι) (hrun : exec (Display.step pf) init acts = some st) (hown : ∀ a ∈ acts, OwnSet writer a)
    (hC : Along (Display.step pf) (UpToDate writer) init acts)
    (hpublished : ∀ p, unpublished acts p = false) (hprocessed : ∀ i, st.pending i = 0) :
    ∀ name, valueOf st.publishedList name = lastSet acts name ∧
      ∀ i, valueOf (st.data (.client i)).settings name = lastSet acts name := by
  have hkept : (∀ a ∈ acts, OwnSet writer a) → Kept writer acts st := by
    refine exec_invariant (C := UpToDate writer)
      (I := fun acts st => (∀ a ∈ acts, OwnSet writer a) → Kept writer acts st)
      (fun _ => kept_init) (fun acts a s₁ s₂ _ ih hC hstep hown => ?_) hC hrun
    exact (ih (fun b hb => hown b (List.mem_append_left [a] hb))).step
      (hown a (List.mem_append_right acts List.mem_cons_self)) hC hstep
  have h := hkept hown
  intro name
  have hclean := h.clean name (hpublished (writer name))
  refine ⟨hclean,fun i => ?_⟩
  by_cases hi : writer name = .client i
  · rw [← hi]
    exact h.own name
  · rw [h.seen i (hprocessed i) name hi]
    exact hclean

def twoClients : Platform Bool := ⟨fun p => if p = .client true then .msbFirst else .lsbFirst,
  fun n => Vector.replicate n 0⟩

/-- The first client writes `A`, the second `B`, the manager the rest. -/
def writerAB (name : CString) : Party Bool :=
  if name = CString.ofBuf [65] then .client false
  else if name = CString.ofBuf [66] then .client true
  else .manager

def takingTurns : List (Action Bool) :=
  [.set (.client false) (CString.ofBuf [65]) (intValue 1),.notify (.client false),
    .processEvent false,.processEvent true,
    .set (.client true) (CString.ofBuf [66]) (intValue 2),.notify (.client true),
    .processEvent false,.processEvent true]

theorem exec_keepsUpdates_takingTurns :
    ∃ st, exec (Display.step twoClients) init takingTurns = some st ∧
      ∀ name, valueOf st.publishedList name = lastSet takingTurns name ∧
        ∀ i, valueOf (st.data (.client i)).settings name = lastSet takingTurns name := by
  have hend : (exec (Display.step twoClients) init takingTurns).map
      (fun st => (st.pending false,st.pending true)) = some (0,0) := by
    decide +kernel
  obtain ⟨st,hrun,hpending⟩ := Option.map_eq_some_iff.mp hend
  have hpublished : ∀ p, unpublished takingTurns p = false := by
    rintro (_ | _ | _) <;> decide +kernel
  have hprocessed : ∀ i, st.pending i = 0 := by
    rintro (_ | _)
    · exact congrArg Prod.fst hpending
    · exact congrArg Prod.snd hpending
  exact ⟨st,hrun,exec_keepsUpdates twoClients writerAB takingTurns st hrun (by decide +kernel)
    (by decide +kernel) hpublished hprocessed⟩

def crossing : List (Action Bool) :=
  [.set (.client false) (CString.ofBuf [65]) (intValue 1),.set (.client true) (CString.ofBuf [66]) (intValue 2),
    .notify (.client false),.notify (.client true),
    .processEvent false,.processEvent true,.processEvent false,.processEvent true]

/-- Each has published after its last `set` and processed all events, and `A` is gone. -/
theorem not_keepsUpdates_crossing :
    ∃ st, exec (Display.step twoClients) init crossing = some st ∧ (∀ a ∈ crossing, OwnSet writerAB a) ∧
      (∀ p, unpublished crossing p = false) ∧ (∀ i, st.pending i = 0) ∧
      ¬ ∀ name, valueOf st.publishedList name = lastSet crossing name ∧
        ∀ i, valueOf (st.data (.client i)).settings name = lastSet crossing name := by
  have hend : (exec (Display.step twoClients) init crossing).map
      (fun st => ((st.pending false,st.pending true),valueOf st.publishedList (CString.ofBuf [65]))) =
        some ((0,0),none) := by
    decide +kernel
  obtain ⟨st,hrun,hst⟩ := Option.map_eq_some_iff.mp hend
  obtain ⟨hpending,hlost⟩ := Prod.mk.inj hst
  refine ⟨st,hrun,by decide +kernel,?_,?_,fun h => ?_⟩
  · rintro (_ | _ | _) <;> decide +kernel
  · rintro (_ | _)
    · exact congrArg Prod.fst hpending
    · exact congrArg Prod.snd hpending
  · have hkept := (h (CString.ofBuf [65])).1
    rw [hlost] at hkept
    exact absurd hkept (by decide +kernel)

end Edelib.XSettings.Display
