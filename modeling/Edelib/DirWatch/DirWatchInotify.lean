import Edelib.Foundation.CString
import Edelib.Foundation.KeyedList

/-! # Directories that are watched

An entry is a name and the descriptor that the kernel gave for it. The kernel has one watch for
a directory, whatever name it was added by, and puts the events that the watch asks for in a
queue. Allocation succeeds, a callback is set and does not call back, and no event is dropped.
-/
namespace Edelib.DirWatch
open Foundation

/-! ## Flags -/

def dwCreate : BitVec 32 := 1#32 <<< 1
def dwModify : BitVec 32 := 1#32 <<< 2
def dwAccess : BitVec 32 := 1#32 <<< 3
def dwRename : BitVec 32 := 1#32 <<< 4
def dwAttrib : BitVec 32 := 1#32 <<< 5
def dwDelete : BitVec 32 := 1#32 <<< 6

inductive DirWatchReportFlags
  | none | create | modify | rename | delete
deriving DecidableEq, Repr

def inAccess : BitVec 32 := 0x1#32
def inModify : BitVec 32 := 0x2#32
def inAttrib : BitVec 32 := 0x4#32
def inMovedFrom : BitVec 32 := 0x40#32
def inMovedTo : BitVec 32 := 0x80#32
def inCreate : BitVec 32 := 0x100#32
def inDelete : BitVec 32 := 0x200#32
def inIgnored : BitVec 32 := 0x8000#32
def inIsdir : BitVec 32 := 0x40000000#32

inductive FileEvent
  | create | movedTo | delete | movedFrom | modify | attrib | access
deriving DecidableEq, Repr

namespace FileEvent

def bit : FileEvent → BitVec 32
  | create => inCreate
  | movedTo => inMovedTo
  | delete => inDelete
  | movedFrom => inMovedFrom
  | modify => inModify
  | attrib => inAttrib
  | access => inAccess

end FileEvent

/-! ## The kernel -/

structure Watch where
  wd : ℕ
  inode : ℕ
  mask : BitVec 32
deriving DecidableEq, Repr

structure InotifyEvent where
  wd : ℕ
  mask : BitVec 32
  name : CString
deriving DecidableEq

structure Inotify where
  watches : List Watch
  nextWd : ℕ
deriving DecidableEq

namespace Inotify

def initial : Inotify := ⟨[],1⟩

def watchOf (k : Inotify) (inode : ℕ) : Option Watch := k.watches.find? (fun w => decide (w.inode = inode))

/-- `inotify_add_watch` of a path that leads to the inode, if to any. -/
def addWatch (k : Inotify) (inode : Option ℕ) (mask : BitVec 32) : Option (ℕ × Inotify) :=
  inode.bind (fun i =>
    if mask = 0 then none
    else
      match k.watchOf i with
      | some w => some (w.wd,{ k with watches := k.watches.map (fun w => if w.inode = i then { w with mask } else w) })
      | none => some (k.nextWd,⟨k.watches ++ [⟨k.nextWd,i,mask⟩],k.nextWd + 1⟩))

def rmWatch (k : Inotify) (wd : ℕ) : Inotify × InotifyEvent :=
  ({ k with watches := k.watches.filter (fun w => decide (w.wd ≠ wd)) },⟨wd,inIgnored,CString.ofBuf []⟩)

def notify (k : Inotify) (inode : ℕ) (e : FileEvent) (isdir : Bool) (name : CString) : Option InotifyEvent :=
  ((k.watchOf inode).filter (fun w => decide (w.mask &&& e.bit ≠ 0))).map
    (fun w => ⟨w.wd,e.bit ||| (if isdir then inIsdir else 0),name⟩)

end Inotify

/-! ## The entries -/

structure DirWatchEntry where
  name : CString
  dirFd : ℕ
deriving DecidableEq

structure Call where
  dir : CString
  w : CString
  flags : DirWatchReportFlags
deriving DecidableEq

/-- What the callback is told of an event; nothing of one that is unknown. -/
def report (mask : BitVec 32) : Option DirWatchReportFlags :=
  if mask &&& (inDelete ||| inMovedFrom) ≠ 0 then some .delete
  else if mask &&& (inCreate ||| inMovedTo) ≠ 0 then some .create
  else if mask &&& inModify ≠ 0 then some .modify
  else if mask &&& inAttrib ≠ 0 then some .modify
  else none

def watchCallback (entries : List DirWatchEntry) (event : InotifyEvent) : List Call :=
  match report event.mask with
  | none => []
  | some flags => (entries.filter (fun e => decide (e.dirFd = event.wd))).map (fun e => ⟨e.name,event.name,flags⟩)

def inotifyFlags (flags : BitVec 32) : BitVec 32 :=
  (if flags &&& dwCreate ≠ 0 then inCreate ||| inMovedTo else 0) |||
  (if flags &&& dwDelete ≠ 0 then inDelete ||| inMovedFrom else 0) |||
  (if flags &&& dwModify ≠ 0 then inModify else 0) |||
  (if flags &&& dwAttrib ≠ 0 then inAttrib else 0)

structure DirWatchImpl where
  entries : List DirWatchEntry
  kernel : Inotify
  queue : List InotifyEvent

namespace DirWatchImpl

def initial : DirWatchImpl := ⟨[],.initial,[]⟩

def addEntry (s : DirWatchImpl) (dir : CString) (flags : BitVec 32) (inode : Option ℕ) : Bool × DirWatchImpl :=
  if s.entries.any (fun e => decide (e.name = dir)) then (true,s)
  else
    match s.kernel.addWatch inode (inotifyFlags flags) with
    | none => (false,s)
    | some (fd,kernel) => (true,{ s with entries := s.entries ++ [⟨dir,fd⟩], kernel })

def removeEntry (s : DirWatchImpl) (dir : CString) : Bool × DirWatchImpl :=
  match s.entries.find? (fun e => decide (e.name = dir)) with
  | none => (false,s)
  | some e =>
    let (kernel,event) := s.kernel.rmWatch e.dirFd
    (true,⟨s.entries.eraseP (fun e => decide (e.name = dir)),kernel,s.queue ++ [event]⟩)

def happens (s : DirWatchImpl) (inode : ℕ) (e : FileEvent) (isdir : Bool) (name : CString) : DirWatchImpl :=
  { s with queue := s.queue ++ (s.kernel.notify inode e isdir name).toList }

def read (s : DirWatchImpl) : List Call × DirWatchImpl :=
  match s.queue with
  | [] => ([],s)
  | event :: queue => (watchCallback s.entries event,{ s with queue })

end DirWatchImpl

/-! ## What the kernel's calls do -/

/-- Each directory has one watch, and each watch its own descriptor. -/
structure Inotify.Ok (k : Inotify) : Prop where
  wds : (k.watches.map Watch.wd).Nodup
  inodes : (k.watches.map Watch.inode).Nodup
  fresh : ∀ w ∈ k.watches, w.wd < k.nextWd

namespace Inotify
variable {k k' : Inotify} {inode fd : ℕ} {mask : BitVec 32}

theorem ok_initial : initial.Ok := ⟨by simp [initial],by simp [initial],by simp [initial]⟩

theorem Ok.wd_injective (h : k.Ok) {w w' : Watch} (hw : w ∈ k.watches) (hw' : w' ∈ k.watches) (heq : w.wd = w'.wd) :
    w = w' := List.inj_on_of_nodup_map h.wds hw hw' heq

theorem Ok.inode_injective (h : k.Ok) {w w' : Watch} (hw : w ∈ k.watches) (hw' : w' ∈ k.watches)
    (heq : w.inode = w'.inode) : w = w' := List.inj_on_of_nodup_map h.inodes hw hw' heq

theorem watchOf_eq_some (h : k.Ok) {w : Watch} : k.watchOf inode = some w ↔ w ∈ k.watches ∧ w.inode = inode := by
  unfold watchOf
  constructor
  · intro hw
    exact ⟨List.mem_of_find?_eq_some hw,by simpa using List.find?_some hw⟩
  · rintro ⟨hw,rfl⟩
    cases hf : k.watches.find? (fun w' => decide (w'.inode = w.inode)) with
    | none => simpa using List.find?_eq_none.mp hf w hw
    | some w' =>
      have hinode : w'.inode = w.inode := by simpa using List.find?_some hf
      rw [h.inode_injective (List.mem_of_find?_eq_some hf) hw hinode]

theorem notify_eq_some (h : k.Ok) {e : FileEvent} {isdir : Bool} {name : CString} {event : InotifyEvent} :
    k.notify inode e isdir name = some event ↔ ∃ w ∈ k.watches, w.inode = inode ∧ w.mask &&& e.bit ≠ 0 ∧
      event = ⟨w.wd,e.bit ||| (if isdir then inIsdir else 0),name⟩ := by
  unfold notify
  simp only [Option.map_eq_some_iff,Option.filter_eq_some_iff,watchOf_eq_some h,decide_eq_true_eq]
  constructor
  · rintro ⟨w,⟨⟨hw,hi⟩,hm⟩,rfl⟩
    exact ⟨w,hw,hi,hm,rfl⟩
  · rintro ⟨w,hw,hi,hm,rfl⟩
    exact ⟨w,⟨⟨hw,hi⟩,hm⟩,rfl⟩

theorem map_setMask {watches : List Watch} {f : Watch → ℕ} (hf : ∀ w : Watch, f { w with mask } = f w) :
    (watches.map (fun w => if w.inode = inode then { w with mask } else w)).map f = watches.map f := by
  rw [List.map_map]
  refine List.map_congr_left (fun w _ => ?_)
  rw [Function.comp_apply]
  split_ifs
  · exact hf w
  · rfl

/-- After an add the directory has the watch that is returned, with the mask of the add. -/
theorem addWatch_spec (h : k.Ok) (hadd : k.addWatch (some inode) mask = some (fd,k')) :
    mask ≠ 0 ∧ k'.Ok ∧ (∀ w, w ∈ k'.watches ↔ w ∈ k.watches ∧ w.inode ≠ inode ∨ w = ⟨fd,inode,mask⟩) ∧
      ((∃ w ∈ k.watches, w.inode = inode ∧ w.wd = fd) ∧ k'.nextWd = k.nextWd ∨
        (∀ w ∈ k.watches, w.inode ≠ inode) ∧ fd = k.nextWd ∧ k'.nextWd = k.nextWd + 1) := by
  unfold addWatch at hadd
  rw [Option.bind_some] at hadd
  split_ifs at hadd with hmask
  refine ⟨hmask,?_⟩
  cases hw : k.watchOf inode with
  | some w =>
    simp only [hw,Option.some.injEq,Prod.mk.injEq] at hadd
    obtain ⟨rfl,rfl⟩ := hadd
    obtain ⟨hmem,rfl⟩ := (watchOf_eq_some h).mp hw
    have hwds := @map_setMask w.inode mask k.watches Watch.wd (fun _ => rfl)
    have hinodes := @map_setMask w.inode mask k.watches Watch.inode (fun _ => rfl)
    refine ⟨⟨hwds ▸ h.wds,hinodes ▸ h.inodes,?_⟩,fun w' => ?_,Or.inl ⟨⟨w,hmem,rfl,rfl⟩,rfl⟩⟩
    · intro w' hw'
      obtain ⟨w₀,hw₀,rfl⟩ := List.mem_map.mp hw'
      have hlt := h.fresh w₀ hw₀
      split_ifs <;> exact hlt
    · simp only [List.mem_map]
      constructor
      · rintro ⟨w₀,hw₀,rfl⟩
        split_ifs with hi
        · rw [h.inode_injective hw₀ hmem hi]
          exact Or.inr rfl
        · exact Or.inl ⟨hw₀,hi⟩
      · rintro (⟨hw',hi⟩ | rfl)
        · exact ⟨w',hw',if_neg hi⟩
        · exact ⟨w,hmem,if_pos rfl⟩
  | none =>
    simp only [hw,Option.some.injEq,Prod.mk.injEq] at hadd
    obtain ⟨rfl,rfl⟩ := hadd
    have hno : ∀ w ∈ k.watches, w.inode ≠ inode := by
      intro w hmem
      simpa using List.find?_eq_none.mp hw w hmem
    refine ⟨⟨?_,?_,?_⟩,fun w' => ?_,Or.inr ⟨hno,rfl,rfl⟩⟩
    · exact KeyedList.nodup_append Watch.wd h.wds rfl (fun w hw => Nat.ne_of_lt (h.fresh w hw))
    · exact KeyedList.nodup_append Watch.inode h.inodes rfl hno
    · intro w hw
      rcases List.mem_append.mp hw with hw | hw
      · exact Nat.lt_succ_of_lt (h.fresh w hw)
      · rw [List.mem_singleton.mp hw]
        exact Nat.lt_succ_self _
    · rw [List.mem_append,List.mem_singleton]
      refine or_congr_left ⟨fun hw => ⟨hw,hno w' hw⟩,And.left⟩

theorem rmWatch_spec (h : k.Ok) (wd : ℕ) :
    (k.rmWatch wd).1.Ok ∧ ∀ w, w ∈ (k.rmWatch wd).1.watches ↔ w ∈ k.watches ∧ w.wd ≠ wd := by
  have hsub : (k.rmWatch wd).1.watches.Sublist k.watches := List.filter_sublist
  refine ⟨⟨h.wds.sublist (hsub.map _),h.inodes.sublist (hsub.map _),fun w hw => h.fresh w (hsub.subset hw)⟩,?_⟩
  intro w
  simp [rmWatch]

end Inotify

end Edelib.DirWatch
