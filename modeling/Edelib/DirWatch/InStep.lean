import Edelib.DirWatch.DirWatchInotify
import Edelib.Foundation.Paired
import Edelib.Foundation.Transition

/-! # Entries and watches in step

An entry is looked up by its name and a watch by its directory, so two names of one directory
have one watch, with the flags of the name that was added last, and removing one removes it.
-/
namespace Edelib.DirWatch
open Foundation

/-! ## What the flags ask for -/

namespace FileEvent

/-- The flags that ask for the event. What is moved into a directory counts as created, and what
is moved out of it as deleted; a file that is renamed is both. -/
def flags : FileEvent → BitVec 32
  | create => dwCreate
  | movedTo => dwCreate ||| dwRename
  | delete => dwDelete
  | movedFrom => dwDelete ||| dwRename
  | modify => dwModify
  | attrib => dwAttrib
  | access => dwAccess

def report : FileEvent → DirWatchReportFlags
  | create => .create
  | movedTo => .create
  | delete => .delete
  | movedFrom => .delete
  | modify => .modify
  | attrib => .modify
  | access => .none

def Moves (e : FileEvent) : Prop := e = movedTo ∨ e = movedFrom

instance : DecidablePred Moves := fun e => inferInstanceAs (Decidable (e = movedTo ∨ e = movedFrom))

end FileEvent

def Asks (flags : BitVec 32) (e : FileEvent) : Prop := flags &&& e.flags ≠ 0

/-- What the flags have an event reported as: as a rename, if they ask for renames. -/
def reportFor (flags : BitVec 32) (e : FileEvent) : DirWatchReportFlags :=
  if flags &&& dwRename ≠ 0 ∧ e.Moves then .rename else e.report

/-- The flags do not ask for accesses or renames. -/
def Supported (flags : BitVec 32) : Prop := flags &&& (dwAccess ||| dwRename) = 0

instance (flags : BitVec 32) : Decidable (Supported flags) :=
  inferInstanceAs (Decidable (flags &&& (dwAccess ||| dwRename) = 0))

instance (flags : BitVec 32) (e : FileEvent) : Decidable (Asks flags e) :=
  inferInstanceAs (Decidable (flags &&& e.flags ≠ 0))

/-! ## Runs -/

structure Note where
  name : CString
  inode : ℕ
  flags : BitVec 32
  id : ℕ

/-- A file event that was not read yet, and the numbers of the entries that it is for. -/
structure Owed where
  happened : FileEvent
  name : CString
  due : List ℕ

/-- The state with what is listed, what is owed for each event that waits, and the last calls. -/
structure Tracked where
  impl : DirWatchImpl
  notes : List Note
  nextId : ℕ
  owed : List (Option Owed)
  calls : List Call

def Tracked.initial : Tracked := ⟨.initial,[],0,[],[]⟩

def asking (notes : List Note) (inode : ℕ) (e : FileEvent) : List Note :=
  notes.filter (fun n => decide (n.inode = inode ∧ Asks n.flags e))

def Note.call (n : Note) (e : FileEvent) (name : CString) : Call := ⟨n.name,name,reportFor n.flags e⟩

def dueCalls (notes : List Note) (o : Option Owed) : List Call :=
  o.elim [] (fun x => (notes.filter (fun n => decide (n.id ∈ x.due))).map (fun n => n.call x.happened x.name))

inductive DirWatchAction
  | addEntry (dir : CString) (flags : BitVec 32) (inode : Option ℕ)
  | removeEntry (dir : CString)
  | happens (inode : ℕ) (e : FileEvent) (isdir : Bool) (name : CString)
  | read

namespace DirWatchAction

def effect (t : Tracked) : DirWatchAction → Tracked
  | addEntry dir flags inode =>
    let r := t.impl.addEntry dir flags inode
    let listed := if r.1 = true ∧ ∀ n ∈ t.notes, n.name ≠ dir then inode.toList else []
    { t with
      impl := r.2
      notes := t.notes ++ listed.map (fun i => ⟨dir,i,flags,t.nextId⟩)
      nextId := t.nextId + 1
      calls := [] }
  | removeEntry dir =>
    let r := t.impl.removeEntry dir
    { t with
      impl := r.2
      notes := t.notes.eraseP (fun n => decide (n.name = dir))
      owed := t.owed ++ if r.1 then [none] else []
      calls := [] }
  | happens inode e isdir name =>
    let queued := (t.impl.kernel.notify inode e isdir name).isSome
    { t with
      impl := t.impl.happens inode e isdir name
      owed := t.owed ++ if queued then [some ⟨e,name,(asking t.notes inode e).map Note.id⟩] else []
      calls := [] }
  | read => { t with impl := t.impl.read.2, owed := t.owed.tail, calls := t.impl.read.1 }

def step (t : Tracked) (a : DirWatchAction) : Option Tracked := some (a.effect t)

end DirWatchAction

/-- The entries are those listed, and watched for what they ask for; what happens next in a
directory would be reported to those that ask for it, and what waits will be to those that did. -/
structure InStep (t : Tracked) : Prop where
  listed : t.impl.entries.map DirWatchEntry.name = t.notes.map Note.name
  watched : ∀ n ∈ t.notes, ∃ w ∈ t.impl.kernel.watches, w.inode = n.inode ∧
    ∀ e, Asks n.flags e → w.mask &&& e.bit ≠ 0
  reported : ∀ inode e isdir name,
    (t.impl.kernel.notify inode e isdir name).elim [] (watchCallback t.impl.entries) =
      (asking t.notes inode e).map (fun n => n.call e name)
  waiting : List.Forall₂ (fun event o => watchCallback t.impl.entries event = dueCalls t.notes o) t.impl.queue t.owed

namespace DirWatchAction

/-- Entries and watches are in step after the action, and an event that is read is reported to
the entries that it is for. -/
def Lawful (t : Tracked) (a : DirWatchAction) : Prop :=
  InStep (a.effect t) ∧ (a = read → (a.effect t).calls = t.owed.head?.elim [] (dueCalls t.notes))

/-- An entry that is added asks for no accesses or renames, and no other name of the directory is
listed, unless it asks for the same and nothing waits for it. -/
def Meets (t : Tracked) : DirWatchAction → Prop
  | addEntry dir flags inode => (∀ n ∈ t.notes, n.name ≠ dir) → inotifyFlags flags ≠ 0 →
      ∀ i ∈ inode, Supported flags ∧ ∀ n ∈ t.notes, n.inode = i →
        (∀ e, Asks n.flags e ↔ Asks flags e) ∧ ∀ x, some x ∈ t.owed → n.id ∉ x.due
  | removeEntry dir => ∀ n ∈ t.notes, n.name = dir → ∀ n' ∈ t.notes, n'.inode = n.inode → n'.name = dir
  | _ => True

end DirWatchAction

/-! ## Bits -/

section Bits
variable {flags : BitVec 32}

/-- The mask that is built of four answers has the bit of an event if the answer for it is yes. -/
theorem mask_bit (create delete modify attrib : Bool) (e : FileEvent) :
    ((if create then inCreate ||| inMovedTo else 0) ||| (if delete then inDelete ||| inMovedFrom else 0) |||
      (if modify then inModify else 0) ||| (if attrib then inAttrib else 0)) &&& e.bit ≠ 0 ↔
    (match e with
      | .create => create
      | .movedTo => create
      | .delete => delete
      | .movedFrom => delete
      | .modify => modify
      | .attrib => attrib
      | .access => false) = true := by
  revert create delete modify attrib
  cases e <;> decide

theorem Supported.access (h : Supported flags) : flags &&& dwAccess = 0 := by
  have hboth : (flags &&& (dwAccess ||| dwRename)) &&& dwAccess = 0 := by rw [h]; rfl
  rwa [BitVec.and_assoc,show (dwAccess ||| dwRename) &&& dwAccess = dwAccess by decide] at hboth

theorem Supported.rename (h : Supported flags) : flags &&& dwRename = 0 := by
  have hboth : (flags &&& (dwAccess ||| dwRename)) &&& dwRename = 0 := by rw [h]; rfl
  rwa [BitVec.and_assoc,show (dwAccess ||| dwRename) &&& dwRename = dwRename by decide] at hboth

theorem supported_of (haccess : flags &&& dwAccess = 0) (hrename : flags &&& dwRename = 0) : Supported flags := by
  rw [Supported,BitVec.and_or_distrib_left,haccess,hrename]
  rfl

theorem Supported.asks_moved (h : Supported flags) (flag : BitVec 32) :
    flags &&& (flag ||| dwRename) ≠ 0 ↔ flags &&& flag ≠ 0 := by
  rw [BitVec.and_or_distrib_left,h.rename]
  exact not_congr (by rw [show (0 : BitVec 32) = 0#32 from rfl,BitVec.or_zero])

theorem Supported.reportFor_eq (h : Supported flags) (e : FileEvent) : reportFor flags e = e.report :=
  if_neg (fun hmoves => hmoves.1 h.rename)

/-- The kernel is asked for what the flags ask for, if they do not ask for accesses or renames. -/
theorem inotifyFlags_bit (h : Supported flags) (e : FileEvent) : inotifyFlags flags &&& e.bit ≠ 0 ↔ Asks flags e := by
  have hmask := mask_bit (flags &&& dwCreate ≠ 0) (flags &&& dwDelete ≠ 0) (flags &&& dwModify ≠ 0)
    (flags &&& dwAttrib ≠ 0) e
  simp only [decide_eq_true_eq] at hmask
  rw [inotifyFlags,Asks,hmask]
  cases e with
  | movedTo => exact decide_eq_true_iff.trans (h.asks_moved dwCreate).symm
  | movedFrom => exact decide_eq_true_iff.trans (h.asks_moved dwDelete).symm
  | access => exact iff_of_false Bool.false_ne_true (not_not.mpr h.access)
  | create | delete | modify | attrib => exact decide_eq_true_iff

/-- The kernel is never asked for accesses. -/
theorem ne_access_of_bit {e : FileEvent} (h : inotifyFlags flags &&& e.bit ≠ 0) : e ≠ .access := by
  rintro rfl
  exact Bool.false_ne_true ((mask_bit (flags &&& dwCreate ≠ 0) (flags &&& dwDelete ≠ 0) (flags &&& dwModify ≠ 0)
    (flags &&& dwAttrib ≠ 0) .access).mp (by simpa [inotifyFlags] using h))

theorem Supported.ne_access (h : Supported flags) {e : FileEvent} (hask : Asks flags e) : e ≠ .access := by
  rintro rfl
  exact hask h.access

theorem report_bit {e : FileEvent} (h : e ≠ .access) (isdir : Bool) :
    report (e.bit ||| (if isdir then inIsdir else 0)) = some e.report := by
  cases e with
  | access => exact absurd rfl h
  | _ => cases isdir <;> decide

theorem watchCallback_bit (entries : List DirWatchEntry) {e : FileEvent} (h : e ≠ .access) (isdir : Bool) (wd : ℕ)
    (name : CString) : watchCallback entries ⟨wd,e.bit ||| (if isdir then inIsdir else 0),name⟩ =
      (entries.filter (fun x => decide (x.dirFd = wd))).map (fun x => ⟨x.name,name,e.report⟩) := by
  rw [watchCallback,report_bit h]

theorem report_ignored : report inIgnored = none := by decide

end Bits

/-! ## The invariant -/

structure Linked (k : Inotify) (e : DirWatchEntry) (n : Note) : Prop where
  name : e.name = n.name
  supported : Supported n.flags
  watch : ∃ w ∈ k.watches, w.wd = e.dirFd ∧ w.inode = n.inode ∧ ∀ a, w.mask &&& a.bit ≠ 0 ↔ Asks n.flags a

/-- An event that waits has the descriptor of the entries that it is for, and of no other. -/
structure WaitsFor (t : Tracked) (event : InotifyEvent) (o : Option Owed) : Prop where
  wd : event.wd < t.impl.kernel.nextWd
  ids : ∀ x ∈ o, ∀ i ∈ x.due, i < t.nextId
  report : report event.mask = o.map (fun x => x.happened.report)
  name : ∀ x ∈ o, event.name = x.name
  due : ∀ x ∈ o, List.Forall₂ (fun e n => e.dirFd = event.wd ↔ n.id ∈ x.due) t.impl.entries t.notes

structure Inv (t : Tracked) : Prop where
  kernel : t.impl.kernel.Ok
  used : ∀ w ∈ t.impl.kernel.watches, ∃ n ∈ t.notes, n.inode = w.inode
  names : (t.notes.map Note.name).Nodup
  ids : (t.notes.map Note.id).Nodup
  nextId : ∀ n ∈ t.notes, n.id < t.nextId
  linked : List.Forall₂ (Linked t.impl.kernel) t.impl.entries t.notes
  waiting : List.Forall₂ (WaitsFor t) t.impl.queue t.owed

theorem inv_initial : Inv Tracked.initial where
  kernel := Inotify.ok_initial
  used := by simp [Tracked.initial,DirWatchImpl.initial,Inotify.initial]
  names := by simp [Tracked.initial]
  ids := by simp [Tracked.initial]
  nextId := by simp [Tracked.initial]
  linked := .nil
  waiting := .nil

/-- What `watch_callback` calls for an event, if the entries with its descriptor are known. -/
theorem watchCallback_eq {entries : List DirWatchEntry} {notes : List Note} {event : InotifyEvent} {e : FileEvent}
    {p : Note → Bool} (hreport : report event.mask = some e.report)
    (h : List.Forall₂ (fun e n => e.name = n.name ∧ Supported n.flags ∧ (decide (e.dirFd = event.wd) = p n))
      entries notes) :
    watchCallback entries event = (notes.filter p).map (fun n => n.call e event.name) := by
  unfold watchCallback
  rw [hreport]
  refine Paired.map_filter_eq h (fun _ _ hab => hab.2.2) (fun a b hab => ?_)
  rw [Note.call,hab.1,hab.2.1.reportFor_eq]

/-- A watch asks for no accesses, as the entry that it was added for. -/
theorem Inv.ne_access {t : Tracked} (h : Inv t) {w : Watch} (hw : w ∈ t.impl.kernel.watches) {e : FileEvent}
    (hmask : w.mask &&& e.bit ≠ 0) : e ≠ .access := by
  obtain ⟨n,hn,hinode⟩ := h.used w hw
  obtain ⟨entry,-,hlinked⟩ := Paired.mem_right h.linked hn
  obtain ⟨w',hw',-,hinode',hbits⟩ := hlinked.watch
  obtain rfl := h.kernel.inode_injective hw' hw (hinode'.trans hinode)
  exact hlinked.supported.ne_access ((hbits e).mp hmask)

theorem Inv.inStep {t : Tracked} (h : Inv t) : InStep t where
  listed := Paired.map_eq h.linked (fun _ _ hab => hab.name)
  watched := by
    intro n hn
    obtain ⟨e,-,hlinked⟩ := Paired.mem_right h.linked hn
    obtain ⟨w,hw,-,hinode,hbits⟩ := hlinked.watch
    exact ⟨w,hw,hinode,fun a ha => (hbits a).mpr ha⟩
  reported := by
    intro inode e isdir name
    cases hnotify : t.impl.kernel.notify inode e isdir name with
    | none =>
      -- no entry asks, since its watch would be notified
      have hno : asking t.notes inode e = [] := by
        refine List.filter_eq_nil_iff.mpr (fun n hn hask => ?_)
        simp only [decide_eq_true_eq] at hask
        obtain ⟨entry,-,hlinked⟩ := Paired.mem_right h.linked hn
        obtain ⟨w,hw,-,hinode,hbits⟩ := hlinked.watch
        have hsome : t.impl.kernel.notify inode e isdir name = some _ :=
          (Inotify.notify_eq_some h.kernel).mpr ⟨w,hw,hinode.trans hask.1,(hbits e).mpr hask.2,rfl⟩
        rw [hnotify] at hsome
        cases hsome
      rw [hno]
      rfl
    | some event =>
      obtain ⟨w,hw,hinode,hmask,rfl⟩ := (Inotify.notify_eq_some h.kernel).mp hnotify
      refine watchCallback_eq (report_bit (h.ne_access hw hmask) isdir)
        (h.linked.imp (fun entry n hlinked => ⟨hlinked.name,hlinked.supported,?_⟩))
      obtain ⟨w',hw',hwd,hinode',hbits⟩ := hlinked.watch
      rw [decide_eq_decide]
      constructor
      · intro heq
        obtain rfl := h.kernel.wd_injective hw' hw (hwd.trans heq)
        exact ⟨hinode'.symm.trans hinode,(hbits e).mp hmask⟩
      · rintro ⟨hn,-⟩
        obtain rfl := h.kernel.inode_injective hw' hw (hinode'.trans (hn.trans hinode.symm))
        exact hwd.symm
  waiting := by
    refine h.waiting.imp (fun event o hwait => ?_)
    cases o with
    | none =>
      unfold watchCallback
      rw [hwait.report]
      rfl
    | some x =>
      have hdue := hwait.due x rfl
      rw [dueCalls,Option.elim_some,← hwait.name x rfl]
      exact watchCallback_eq hwait.report
        (List.Forall₂.mp (fun _ _ hlinked hd => ⟨hlinked.name,hlinked.supported,decide_eq_decide.mpr hd⟩) h.linked hdue)

/-! ## What the actions keep -/

section Steps
variable {t : Tracked} {dir : CString} {flags : BitVec 32}

theorem Inv.listed_iff (h : Inv t) (dir : CString) :
    t.impl.entries.any (fun e => decide (e.name = dir)) = true ↔ ∃ n ∈ t.notes, n.name = dir := by
  simp only [List.any_eq_true,decide_eq_true_eq]
  constructor
  · rintro ⟨e,he,rfl⟩
    obtain ⟨n,hn,hlinked⟩ := Paired.mem_left h.linked he
    exact ⟨n,hn,hlinked.name.symm⟩
  · rintro ⟨n,hn,rfl⟩
    obtain ⟨e,he,hlinked⟩ := Paired.mem_right h.linked hn
    exact ⟨e,he,hlinked.name⟩

/-- A number may be left out. -/
theorem Inv.skip (h : Inv t) : Inv { t with nextId := t.nextId + 1, calls := [] } where
  kernel := h.kernel
  used := h.used
  names := h.names
  ids := h.ids
  nextId := fun n hn => Nat.lt_succ_of_lt (h.nextId n hn)
  linked := h.linked
  waiting := h.waiting.imp (fun _ _ hw => ⟨hw.wd,fun x hx i hi => Nat.lt_succ_of_lt (hw.ids x hx i hi),
    hw.report,hw.name,hw.due⟩)

/-- An add that is skipped or fails changes nothing, any other adds an entry and a watch. -/
theorem Inv.addEntry_cases (h : Inv t) (dir : CString) (flags : BitVec 32) (inode : Option ℕ) :
    (DirWatchAction.addEntry dir flags inode).effect t = { t with nextId := t.nextId + 1, calls := [] } ∧
        ((∃ n ∈ t.notes, n.name = dir) ∨ inode = none ∨ inotifyFlags flags = 0) ∨
      ∃ i fd k, inode = some i ∧ (∀ n ∈ t.notes, n.name ≠ dir) ∧
        t.impl.kernel.addWatch (some i) (inotifyFlags flags) = some (fd,k) ∧
        (DirWatchAction.addEntry dir flags inode).effect t = { t with
          impl := { t.impl with entries := t.impl.entries ++ [⟨dir,fd⟩], kernel := k }
          notes := t.notes ++ [⟨dir,i,flags,t.nextId⟩]
          nextId := t.nextId + 1
          calls := [] } := by
  have hlisted := h.listed_iff dir
  by_cases hin : ∃ n ∈ t.notes, n.name = dir
  · have hany := hlisted.mpr hin
    have hno : ¬ ∀ n ∈ t.notes, n.name ≠ dir := by
      obtain ⟨n,hn,hname⟩ := hin
      exact fun hall => hall n hn hname
    refine Or.inl ⟨?_,Or.inl hin⟩
    simp [DirWatchAction.effect,DirWatchImpl.addEntry,hany,hno]
  · have hany : t.impl.entries.any (fun e => decide (e.name = dir)) = false := by
      rw [← Bool.not_eq_true,hlisted]
      exact hin
    have hall : ∀ n ∈ t.notes, n.name ≠ dir := fun n hn hname => hin ⟨n,hn,hname⟩
    cases hadd : t.impl.kernel.addWatch inode (inotifyFlags flags) with
    | none =>
      refine Or.inl ⟨?_,Or.inr ?_⟩
      · simp [DirWatchAction.effect,DirWatchImpl.addEntry,hany,hadd]
      · cases inode with
        | none => exact Or.inl rfl
        | some i =>
          refine Or.inr ?_
          by_contra hmask
          simp only [Inotify.addWatch,Option.bind_some,if_neg hmask] at hadd
          cases hw : t.impl.kernel.watchOf i <;> simp [hw] at hadd
    | some r =>
      cases inode with
      | none => simp [Inotify.addWatch] at hadd
      | some i =>
        refine Or.inr ⟨i,r.1,r.2,rfl,hall,hadd,?_⟩
        simp only [DirWatchAction.effect,DirWatchImpl.addEntry,hany,hadd]
        simpa using hall

/-- An entry can be added for a directory that no other is listed for, or only some that ask for
the same and that nothing waits for. -/
theorem Inv.added (h : Inv t) {i fd : ℕ} {k : Inotify} (hname : ∀ n ∈ t.notes, n.name ≠ dir)
    (hadd : t.impl.kernel.addWatch (some i) (inotifyFlags flags) = some (fd,k)) (hsupported : Supported flags)
    (hsame : ∀ n ∈ t.notes, n.inode = i →
      (∀ e, Asks n.flags e ↔ Asks flags e) ∧ ∀ x, some x ∈ t.owed → n.id ∉ x.due) :
    Inv { t with
      impl := { t.impl with entries := t.impl.entries ++ [⟨dir,fd⟩], kernel := k }
      notes := t.notes ++ [⟨dir,i,flags,t.nextId⟩]
      nextId := t.nextId + 1
      calls := [] } := by
  obtain ⟨-,hk,hwatches,hfd⟩ := Inotify.addWatch_spec h.kernel hadd
  have hnextWd : t.impl.kernel.nextWd ≤ k.nextWd := by
    rcases hfd with ⟨-,hnext⟩ | ⟨-,-,hnext⟩ <;> omega
  -- the descriptor is new, or that of entries which nothing waits for
  have hnew : ∀ event x, WaitsFor t event (some x) → some x ∈ t.owed → fd ≠ event.wd := by
    rintro event x hwait hx rfl
    rcases hfd with ⟨⟨w,hw,rfl,hwd⟩,-⟩ | ⟨-,hfresh,-⟩
    · obtain ⟨n,hn,hinode⟩ := h.used w hw
      obtain ⟨e,-,hlinked,hdue⟩ := Paired.mem_right (h.linked.mp (fun _ _ => And.intro) (hwait.due x rfl)) hn
      obtain ⟨w',hw',hwd',hinode',-⟩ := hlinked.watch
      obtain rfl := h.kernel.inode_injective hw' hw (hinode'.trans hinode)
      exact (hsame n hn hinode).2 x hx (hdue.mp (hwd'.symm.trans hwd))
    · exact absurd hwait.wd (by omega)
  have hlink : ∀ e n, Linked t.impl.kernel e n → n ∈ t.notes → Linked k e n := by
    rintro e n ⟨hn,hflags,w,hw,hwd,hinode,hbits⟩ hmem
    refine ⟨hn,hflags,?_⟩
    by_cases hi : n.inode = i
    · refine ⟨⟨fd,i,inotifyFlags flags⟩,(hwatches _).mpr (Or.inr rfl),?_,hi.symm,fun a => ?_⟩
      · rcases hfd with ⟨⟨w',hw',hinode',hwd'⟩,-⟩ | ⟨hno,-,-⟩
        · rw [← hwd,← hwd',h.kernel.inode_injective hw hw' (hinode.trans (hi.trans hinode'.symm))]
        · exact absurd (hinode.trans hi) (hno w hw)
      · rw [(hsame n hmem hi).1 a]
        exact inotifyFlags_bit hsupported a
    · exact ⟨w,(hwatches w).mpr (Or.inl ⟨hw,fun heq => hi (hinode.symm.trans heq)⟩),hwd,hinode,hbits⟩
  constructor
  · exact hk
  · intro w hw
    rcases (hwatches w).mp hw with ⟨hw,-⟩ | rfl
    · obtain ⟨n,hn,hinode⟩ := h.used w hw
      exact ⟨n,List.mem_append_left _ hn,hinode⟩
    · exact ⟨_,List.mem_append_right _ List.mem_cons_self,rfl⟩
  · exact KeyedList.nodup_append Note.name h.names rfl hname
  · exact KeyedList.nodup_append Note.id h.ids rfl (fun n hn => Nat.ne_of_lt (h.nextId n hn))
  · intro n hn
    rcases List.mem_append.mp hn with hn | hn
    · exact Nat.lt_succ_of_lt (h.nextId n hn)
    · rw [List.mem_singleton.mp hn]
      exact Nat.lt_succ_self _
  · refine Paired.snoc (Paired.imp_mem h.linked (fun e _ n hn hl => hlink e n hl hn))
      ⟨rfl,hsupported,_,(hwatches _).mpr (Or.inr rfl),rfl,rfl,?_⟩
    exact inotifyFlags_bit hsupported
  · refine Paired.imp_mem h.waiting (fun event _ o ho hwait => ⟨?_,?_,hwait.report,hwait.name,fun x hx => ?_⟩)
    · exact lt_of_lt_of_le hwait.wd hnextWd
    · exact fun x hx j hj => Nat.lt_succ_of_lt (hwait.ids x hx j hj)
    · obtain rfl := hx
      refine Paired.snoc (hwait.due x rfl) (iff_of_false (hnew event x hwait ho) (fun hid => ?_))
      exact absurd (hwait.ids x rfl _ hid) (Nat.lt_irrefl _)

/-- A remove of a name that is not listed changes nothing, any other drops entry and watch. -/
theorem Inv.removeEntry_cases (h : Inv t) (dir : CString) :
    (DirWatchAction.removeEntry dir).effect t = { t with calls := [] } ∧ (∀ n ∈ t.notes, n.name ≠ dir) ∨
      ∃ e n, n ∈ t.notes ∧ n.name = dir ∧ Linked t.impl.kernel e n ∧
        (DirWatchAction.removeEntry dir).effect t = { t with
          impl := ⟨t.impl.entries.eraseP (fun e => decide (e.name = dir)),(t.impl.kernel.rmWatch e.dirFd).1,
            t.impl.queue ++ [(t.impl.kernel.rmWatch e.dirFd).2]⟩
          notes := t.notes.eraseP (fun n => decide (n.name = dir))
          owed := t.owed ++ [none]
          calls := [] } := by
  cases hfind : t.impl.entries.find? (fun e => decide (e.name = dir)) with
  | none =>
    have hno : ∀ n ∈ t.notes, n.name ≠ dir := by
      intro n hn hname
      obtain ⟨e,he,hlinked⟩ := Paired.mem_right h.linked hn
      have hne := List.find?_eq_none.mp hfind e he
      simp only [decide_eq_true_eq] at hne
      exact hne (hlinked.name.trans hname)
    have hkeep : t.notes.eraseP (fun n => decide (n.name = dir)) = t.notes :=
      List.eraseP_of_forall_not (fun n hn => by simpa using hno n hn)
    refine Or.inl ⟨?_,hno⟩
    simp [DirWatchAction.effect,DirWatchImpl.removeEntry,hfind,hkeep]
  | some e =>
    have hname : e.name = dir := by simpa using List.find?_some hfind
    obtain ⟨n,hn,hlinked⟩ := Paired.mem_left h.linked (List.mem_of_find?_eq_some hfind)
    refine Or.inr ⟨e,n,hn,hlinked.name.symm.trans hname,hlinked,?_⟩
    simp [DirWatchAction.effect,DirWatchImpl.removeEntry,hfind]

theorem Inv.mem_erase (h : Inv t) (dir : CString) {n : Note} :
    n ∈ t.notes.eraseP (fun n => decide (n.name = dir)) ↔ n ∈ t.notes ∧ n.name ≠ dir :=
  KeyedList.mem_eraseP Note.name h.names

theorem Inv.removed (h : Inv t) {e : DirWatchEntry} {n : Note} (hn : n ∈ t.notes) (hname : n.name = dir)
    (hlinked : Linked t.impl.kernel e n) (honly : ∀ n' ∈ t.notes, n'.inode = n.inode → n'.name = dir) :
    Inv { t with
      impl := ⟨t.impl.entries.eraseP (fun e => decide (e.name = dir)),(t.impl.kernel.rmWatch e.dirFd).1,
        t.impl.queue ++ [(t.impl.kernel.rmWatch e.dirFd).2]⟩
      notes := t.notes.eraseP (fun n => decide (n.name = dir))
      owed := t.owed ++ [none]
      calls := [] } := by
  obtain ⟨hk,hwatches⟩ := Inotify.rmWatch_spec h.kernel e.dirFd
  obtain ⟨w,hw,hwd,hinode,-⟩ := hlinked.watch
  have hsub : (t.notes.eraseP (fun n => decide (n.name = dir))).Sublist t.notes := List.eraseP_sublist
  constructor
  · exact hk
  · intro w' hw'
    obtain ⟨hw',hne⟩ := (hwatches w').mp hw'
    obtain ⟨n',hn',hinode'⟩ := h.used w' hw'
    refine ⟨n',(h.mem_erase dir).mpr ⟨hn',fun heq => hne ?_⟩,hinode'⟩
    -- the entry that is removed has the watch that is dropped
    obtain rfl := List.inj_on_of_nodup_map h.names hn' hn (heq.trans hname.symm)
    rw [h.kernel.inode_injective hw' hw (hinode'.symm.trans hinode.symm),hwd]
  · exact h.names.sublist (hsub.map _)
  · exact h.ids.sublist (hsub.map _)
  · exact fun n' hn' => h.nextId n' (hsub.subset hn')
  · have herase := Paired.eraseP h.linked (p := fun e => decide (e.name = dir)) (q := fun n => decide (n.name = dir))
      (fun _ _ hl => by rw [hl.name])
    refine Paired.imp_mem herase (fun e' _ n' hn' hl => ⟨hl.name,hl.supported,?_⟩)
    obtain ⟨hn',hne⟩ := (h.mem_erase dir).mp hn'
    obtain ⟨w',hw',hwd',hinode',hbits⟩ := hl.watch
    refine ⟨w',(hwatches w').mpr ⟨hw',fun heq => hne ?_⟩,hwd',hinode',hbits⟩
    obtain rfl := h.kernel.wd_injective hw' hw (heq.trans hwd.symm)
    exact honly n' hn' (hinode'.symm.trans hinode)
  · refine Paired.snoc (h.waiting.imp (fun event o hwait => ?_)) ?_
    · refine ⟨hwait.wd,hwait.ids,hwait.report,hwait.name,fun x hx => ?_⟩
      have hboth := h.linked.mp (fun _ _ => And.intro) (hwait.due x hx)
      exact (Paired.eraseP hboth (fun _ _ hl => by rw [hl.1.name])).imp (fun _ _ hl => hl.2)
    · refine ⟨?_,by simp,report_ignored,by simp,by simp⟩
      exact hwd ▸ h.kernel.fresh w hw

/-- An event is put in the queue for the entries that ask for it. -/
theorem Inv.happened (h : Inv t) (inode : ℕ) (e : FileEvent) (isdir : Bool) (name : CString) :
    Inv ((DirWatchAction.happens inode e isdir name).effect t) where
  kernel := h.kernel
  used := h.used
  names := h.names
  ids := h.ids
  nextId := h.nextId
  linked := h.linked
  waiting := by
    have hold : List.Forall₂ (WaitsFor ((DirWatchAction.happens inode e isdir name).effect t)) t.impl.queue t.owed :=
      h.waiting.imp (fun _ _ hwait => ⟨hwait.wd,hwait.ids,hwait.report,hwait.name,hwait.due⟩)
    simp only [DirWatchAction.effect,DirWatchImpl.happens]
    cases hnotify : t.impl.kernel.notify inode e isdir name with
    | none => simpa [DirWatchAction.effect,DirWatchImpl.happens,hnotify] using hold
    | some event =>
      simp only [DirWatchAction.effect,DirWatchImpl.happens,hnotify] at hold
      obtain ⟨w,hw,rfl,hmask,rfl⟩ := (Inotify.notify_eq_some h.kernel).mp hnotify
      refine Paired.snoc hold ⟨h.kernel.fresh w hw,?_,report_bit (h.ne_access hw hmask) isdir,by simp,?_⟩
      · rintro x ⟨⟩ j hj
        obtain ⟨n,hn,rfl⟩ := List.mem_map.mp hj
        exact h.nextId n (List.mem_of_mem_filter hn)
      · rintro x ⟨⟩
        refine Paired.imp_mem h.linked (fun entry _ n hn hlinked => ?_)
        obtain ⟨w',hw',hwd,hinode,hbits⟩ := hlinked.watch
        have hasked : n.id ∈ (asking t.notes w.inode e).map Note.id ↔ n.inode = w.inode ∧ Asks n.flags e := by
          constructor
          · intro hid
            obtain ⟨n',hn',heq⟩ := List.mem_map.mp hid
            obtain ⟨hn',hask⟩ := List.mem_filter.mp hn'
            rw [← List.inj_on_of_nodup_map h.ids hn' hn heq]
            simpa using hask
          · intro hask
            exact List.mem_map_of_mem (List.mem_filter.mpr ⟨hn,by simpa using hask⟩)
        refine Iff.trans ?_ hasked.symm
        constructor
        · intro heq
          obtain rfl := h.kernel.wd_injective hw' hw (hwd.trans heq)
          exact ⟨hinode.symm,(hbits e).mp hmask⟩
        · rintro ⟨hn,-⟩
          rw [← hwd,h.kernel.inode_injective hw' hw (hinode.trans hn)]

/-- Reading an event leaves the others. -/
theorem Inv.read (h : Inv t) : Inv (DirWatchAction.read.effect t) ∧
    (DirWatchAction.read.effect t).calls = t.owed.head?.elim [] (dueCalls t.notes) := by
  have hcalls := h.inStep.waiting
  have hwaiting := h.waiting
  unfold DirWatchAction.effect DirWatchImpl.read
  cases hq : t.impl.queue with
  | nil =>
    rw [hq] at hcalls hwaiting
    cases ho : t.owed with
    | nil => exact ⟨⟨h.kernel,h.used,h.names,h.ids,h.nextId,h.linked,by rw [hq]; exact .nil⟩,rfl⟩
    | cons o owed => rw [ho] at hcalls; cases hcalls
  | cons event queue =>
    rw [hq] at hcalls hwaiting
    cases ho : t.owed with
    | nil => rw [ho] at hcalls; cases hcalls
    | cons o owed =>
      rw [ho] at hcalls hwaiting
      obtain ⟨hcall,-⟩ := List.forall₂_cons.mp hcalls
      obtain ⟨-,hrest⟩ := List.forall₂_cons.mp hwaiting
      refine ⟨⟨h.kernel,h.used,h.names,h.ids,h.nextId,h.linked,?_⟩,hcall⟩
      exact hrest.imp (fun _ _ hwait => ⟨hwait.wd,hwait.ids,hwait.report,hwait.name,hwait.due⟩)

/-- Entries and watches are in step after an add only if it asks for no accesses or renames. -/
theorem Inv.supported_of_added (h : Inv t) {i fd : ℕ} {k : Inotify}
    (hadd : t.impl.kernel.addWatch (some i) (inotifyFlags flags) = some (fd,k))
    (hstep : InStep { t with
      impl := { t.impl with entries := t.impl.entries ++ [⟨dir,fd⟩], kernel := k }
      notes := t.notes ++ [⟨dir,i,flags,t.nextId⟩]
      nextId := t.nextId + 1
      calls := [] }) : Supported flags := by
  obtain ⟨-,hk,hwatches,-⟩ := Inotify.addWatch_spec h.kernel hadd
  have hnote : (⟨dir,i,flags,t.nextId⟩ : Note) ∈ t.notes ++ [⟨dir,i,flags,t.nextId⟩] :=
    List.mem_append_right _ List.mem_cons_self
  refine supported_of ?_ ?_
  · by_contra haccess
    obtain ⟨w,hw,hinode,hbits⟩ := hstep.watched _ hnote
    obtain rfl := hk.inode_injective hw ((hwatches ⟨fd,i,inotifyFlags flags⟩).mpr (Or.inr rfl)) hinode
    exact ne_access_of_bit (hbits .access haccess) rfl
  · by_contra hrename
    have hasks : Asks flags .movedTo := by
      intro hzero
      have hboth : (flags &&& (dwCreate ||| dwRename)) &&& dwRename = 0 := by
        rw [show flags &&& (dwCreate ||| dwRename) = 0 from hzero]
        rfl
      rw [BitVec.and_assoc,show (dwCreate ||| dwRename) &&& dwRename = dwRename by decide] at hboth
      exact hrename hboth
    -- a file that is moved into the directory is reported as created
    have hcall : (⟨dir,CString.ofBuf [],.rename⟩ : Call) ∈
        (asking (t.notes ++ [⟨dir,i,flags,t.nextId⟩]) i .movedTo).map (fun n => n.call .movedTo (CString.ofBuf [])) := by
      refine List.mem_map.mpr ⟨_,List.mem_filter.mpr ⟨hnote,decide_eq_true ⟨rfl,hasks⟩⟩,?_⟩
      rw [Note.call,reportFor,if_pos ⟨hrename,Or.inl rfl⟩]
    have hreported := hstep.reported i .movedTo false (CString.ofBuf [])
    dsimp only at hreported
    rw [← hreported] at hcall
    cases hnotify : k.notify i .movedTo false (CString.ofBuf []) with
    | none =>
      rw [hnotify] at hcall
      cases hcall
    | some event =>
      obtain ⟨w,-,-,-,rfl⟩ := (Inotify.notify_eq_some hk).mp hnotify
      rw [hnotify,Option.elim_some,watchCallback_bit _ (by decide)] at hcall
      obtain ⟨e,-,heq⟩ := List.mem_map.mp hcall
      cases heq

/-- Entries and watches are in step after an add only if it shares no watch that differs. -/
theorem Inv.meets_of_added (h : Inv t) {i fd : ℕ} {k : Inotify} (hname : ∀ n ∈ t.notes, n.name ≠ dir)
    (hadd : t.impl.kernel.addWatch (some i) (inotifyFlags flags) = some (fd,k))
    (hstep : InStep { t with
      impl := { t.impl with entries := t.impl.entries ++ [⟨dir,fd⟩], kernel := k }
      notes := t.notes ++ [⟨dir,i,flags,t.nextId⟩]
      nextId := t.nextId + 1
      calls := [] }) {n : Note} (hn : n ∈ t.notes) (hi : n.inode = i) :
    (∀ e, Asks n.flags e ↔ Asks flags e) ∧ ∀ x, some x ∈ t.owed → n.id ∉ x.due := by
  have hsupported := h.supported_of_added hadd hstep
  obtain ⟨-,hk,hwatches,hfd⟩ := Inotify.addWatch_spec h.kernel hadd
  obtain ⟨e,he,hlinked⟩ := Paired.mem_right h.linked hn
  obtain ⟨w,hw,hwd,hinode,hbits⟩ := hlinked.watch
  have hsame : e.dirFd = fd := by
    rcases hfd with ⟨⟨w',hw',hinode',rfl⟩,-⟩ | ⟨hno,-⟩
    · rw [← hwd,h.kernel.inode_injective hw hw' (hinode.trans (hi.trans hinode'.symm))]
    · exact absurd (hinode.trans hi) (hno w hw)
  constructor
  · intro a
    have hreported := hstep.reported i a false (CString.ofBuf [])
    dsimp only at hreported
    -- the call for the old entry tells
    have hright : n.call a (CString.ofBuf []) ∈
        (asking (t.notes ++ [⟨dir,i,flags,t.nextId⟩]) i a).map (fun n => n.call a (CString.ofBuf [])) ↔
          Asks n.flags a := by
      constructor
      · intro hmem
        obtain ⟨n',hn',heq⟩ := List.mem_map.mp hmem
        obtain ⟨hn',hask⟩ := List.mem_filter.mp hn'
        have hsameName : n'.name = n.name := congrArg Call.dir heq
        rcases List.mem_append.mp hn' with hn' | hn'
        · obtain rfl := List.inj_on_of_nodup_map h.names hn' hn hsameName
          exact (of_decide_eq_true hask).2
        · rw [List.mem_singleton.mp hn'] at hsameName
          exact absurd hsameName.symm (hname n hn)
      · intro hask
        exact List.mem_map_of_mem (List.mem_filter.mpr ⟨List.mem_append_left _ hn,decide_eq_true ⟨hi,hask⟩⟩)
    rw [← hright,← hreported,← inotifyFlags_bit hsupported a]
    cases hnotify : k.notify i a false (CString.ofBuf []) with
    | none =>
      refine iff_of_false (by simp) (fun hbit => ?_)
      have hsome : k.notify i a false (CString.ofBuf []) = some _ :=
        (Inotify.notify_eq_some hk).mpr ⟨_,(hwatches _).mpr (Or.inr rfl),rfl,hbit,rfl⟩
      rw [hnotify] at hsome
      cases hsome
    | some event =>
      obtain ⟨w',hw',hinode',hbit,rfl⟩ := (Inotify.notify_eq_some hk).mp hnotify
      obtain rfl := hk.inode_injective hw' ((hwatches ⟨fd,i,inotifyFlags flags⟩).mpr (Or.inr rfl)) hinode'
      refine iff_of_true ?_ hbit
      rw [Option.elim_some,watchCallback_bit _ (ne_access_of_bit hbit)]
      refine List.mem_map.mpr ⟨e,List.mem_filter.mpr ⟨List.mem_append_left _ he,decide_eq_true hsame⟩,?_⟩
      rw [Note.call,hlinked.name,hlinked.supported.reportFor_eq]
  · intro x hx hid
    obtain ⟨event,-,hwait,hcalls⟩ := Paired.mem_right (h.waiting.mp (fun _ _ => And.intro) hstep.waiting) hx
    obtain ⟨e',he',hlinked',hdue⟩ := Paired.mem_right (h.linked.mp (fun _ _ => And.intro) (hwait.due x rfl)) hn
    obtain ⟨w',hw',hwd',hinode',-⟩ := hlinked'.watch
    obtain rfl := h.kernel.inode_injective hw' hw (hinode'.trans hinode.symm)
    have hevent : fd = event.wd := by rw [← hsame,← hwd,hwd',hdue.mpr hid]
    -- the event that waits would be reported to the new entry, which it is not for
    have hmem : (⟨dir,event.name,x.happened.report⟩ : Call) ∈ watchCallback (t.impl.entries ++ [⟨dir,fd⟩]) event := by
      rw [watchCallback,hwait.report]
      refine List.mem_map.mpr ⟨⟨dir,fd⟩,List.mem_filter.mpr ⟨?_,decide_eq_true hevent⟩,rfl⟩
      exact List.mem_append_right _ List.mem_cons_self
    rw [hcalls] at hmem
    obtain ⟨n',hn',heq⟩ := List.mem_map.mp hmem
    obtain ⟨hn',hid'⟩ := List.mem_filter.mp hn'
    rcases List.mem_append.mp hn' with hn' | hn'
    · exact hname n' hn' (congrArg Call.dir heq)
    · rw [List.mem_singleton.mp hn'] at hid'
      exact absurd (hwait.ids x rfl _ (of_decide_eq_true hid')) (Nat.lt_irrefl _)

end Steps

/-! ## Every run -/

theorem lawful_iff {t : Tracked} (h : Inv t) (a : DirWatchAction) : a.Lawful t ↔ a.Meets t := by
  cases a with
  | addEntry dir flags inode =>
    unfold DirWatchAction.Lawful
    rcases h.addEntry_cases dir flags inode with ⟨heq,hskip⟩ | ⟨i,fd,k,rfl,hname,hadd,heq⟩
    · rw [heq]
      refine iff_of_true ⟨h.skip.inStep,by simp⟩ (fun hname hmask i hi => ?_)
      rcases hskip with ⟨n,hn,hdir⟩ | rfl | hzero
      · exact absurd hdir (hname n hn)
      · cases hi
      · exact absurd hzero hmask
    · rw [heq]
      constructor
      · rintro ⟨hstep,-⟩ - - j hj
        obtain rfl := Option.some.inj hj
        exact ⟨h.supported_of_added hadd hstep,fun n hn hi => h.meets_of_added hname hadd hstep hn hi⟩
      · intro hmeets
        obtain ⟨hsupported,hsame⟩ := hmeets hname (Inotify.addWatch_spec h.kernel hadd).1 i rfl
        exact ⟨(h.added hname hadd hsupported hsame).inStep,by simp⟩
  | removeEntry dir =>
    unfold DirWatchAction.Lawful
    rcases h.removeEntry_cases dir with ⟨heq,hno⟩ | ⟨e,n,hn,hname,hlinked,heq⟩
    · rw [heq]
      refine iff_of_true ⟨?_,by simp⟩ (fun n hn hname => absurd hname (hno n hn))
      exact ⟨h.inStep.listed,h.inStep.watched,h.inStep.reported,h.inStep.waiting⟩
    · rw [heq]
      constructor
      · rintro ⟨hstep,-⟩ n₁ hn₁ hname₁ n₂ hn₂ hinode₂
        obtain rfl := List.inj_on_of_nodup_map h.names hn₁ hn (hname₁.trans hname.symm)
        by_contra hother
        -- the other entry of the directory has no watch any more
        obtain ⟨w,hw,hwinode,-⟩ := hstep.watched n₂ ((h.mem_erase dir).mpr ⟨hn₂,hother⟩)
        obtain ⟨w₁,hw₁,hwd₁,hinode₁,-⟩ := hlinked.watch
        obtain ⟨hw,hne⟩ := ((Inotify.rmWatch_spec h.kernel e.dirFd).2 w).mp hw
        rw [h.kernel.inode_injective hw hw₁ (hwinode.trans (hinode₂.trans hinode₁.symm))] at hne
        exact hne hwd₁
      · intro hmeets
        exact ⟨(h.removed hn hname hlinked (hmeets n hn hname)).inStep,by simp⟩
  | happens inode e isdir name => exact iff_of_true ⟨(h.happened inode e isdir name).inStep,by simp⟩ trivial
  | read => exact iff_of_true ⟨h.read.1.inStep,fun _ => h.read.2⟩ trivial

theorem Inv.step {t : Tracked} (h : Inv t) {a : DirWatchAction} (hmeets : a.Meets t) : Inv (a.effect t) := by
  cases a with
  | addEntry dir flags inode =>
    rcases h.addEntry_cases dir flags inode with ⟨heq,-⟩ | ⟨i,fd,k,rfl,hname,hadd,heq⟩
    · rw [heq]
      exact h.skip
    · rw [heq]
      obtain ⟨hsupported,hsame⟩ := hmeets hname (Inotify.addWatch_spec h.kernel hadd).1 i rfl
      exact h.added hname hadd hsupported hsame
  | removeEntry dir =>
    rcases h.removeEntry_cases dir with ⟨heq,-⟩ | ⟨e,n,hn,hname,hlinked,heq⟩
    · rw [heq]
      refine ⟨h.kernel,h.used,h.names,h.ids,h.nextId,h.linked,?_⟩
      exact h.waiting.imp (fun _ _ hwait => ⟨hwait.wd,hwait.ids,hwait.report,hwait.name,hwait.due⟩)
    · rw [heq]
      exact h.removed hn hname hlinked (hmeets n hn hname)
  | happens inode e isdir name => exact h.happened inode e isdir name
  | read => exact h.read.1

/-- In a run entries and watches stay in step, and each file event is reported to the entries
that ask for it, if and only if no name is added for accesses or renames, or for a directory that another name with other
flags or with an event that waits is listed for, and none removed while another name of its
directory is listed. -/
theorem stays_inStep_iff (acts : List DirWatchAction) :
    Transition.Along DirWatchAction.step DirWatchAction.Lawful Tracked.initial acts ↔
      Transition.Along DirWatchAction.step DirWatchAction.Meets Tracked.initial acts := by
  refine Transition.along_iff (I := Inv) (fun t a h => lawful_iff h a) ?_ inv_initial
  intro t a t' h hlawful hstep
  cases hstep
  exact h.step ((lawful_iff h a).mp hlawful)

/-- A second name of a directory takes its watch from the first. -/
theorem not_stays_inStep :
    ¬ Transition.Along DirWatchAction.step DirWatchAction.Lawful Tracked.initial
      [.addEntry (CString.ofBuf [47,97]) dwCreate (some 1),.addEntry (CString.ofBuf [47,97,47]) dwDelete (some 1)] := by
  intro h
  obtain ⟨hstep,-⟩ := h [.addEntry (CString.ofBuf [47,97]) dwCreate (some 1)] _ [] rfl _ rfl
  have hnote : (⟨CString.ofBuf [47,97],1,dwCreate,0⟩ : Note) ∈
      ((DirWatchAction.addEntry (CString.ofBuf [47,97,47]) dwDelete (some 1)).effect
        ((DirWatchAction.addEntry (CString.ofBuf [47,97]) dwCreate (some 1)).effect Tracked.initial)).notes :=
    List.mem_cons_self
  obtain ⟨w,hw,-,hbits⟩ := hstep.watched _ hnote
  obtain rfl : w = ⟨1,1,inDelete ||| inMovedFrom⟩ := by
    rw [← List.mem_singleton]
    exact hw
  exact hbits .create (by decide) (by decide)

end Edelib.DirWatch
