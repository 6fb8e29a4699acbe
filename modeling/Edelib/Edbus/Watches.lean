import Edelib.Foundation.Transition
import Mathlib.Data.List.Nodup

/-! # Watches of a connection

libdbus has its watches of one descriptor handled by whoever waits for the descriptor, which is
FLTK here. A watch that is enabled is put in a list and its descriptor is registered; an event
goes to the first watch of the list with that descriptor.
-/
namespace Edelib.Edbus
open Foundation

inductive Condition
  | readable | writable
deriving DecidableEq, Repr

def Condition.flag : Condition → BitVec 32
  | readable => 1#32 <<< 0
  | writable => 1#32 <<< 1

structure DBusWatch where
  id : ℕ
  fd : ℤ
  flags : BitVec 32
deriving DecidableEq, Repr

def DBusWatch.Has (w : DBusWatch) (c : Condition) : Prop := w.flags &&& c.flag ≠ 0

instance (w : DBusWatch) (c : Condition) : Decidable (w.Has c) := inferInstanceAs (Decidable (w.flags &&& c.flag ≠ 0))

/-- The descriptors of FLTK: each has at most one callback for each condition, and one that is
removed is called no more. -/
structure FlFds where
  State : Type
  initial : State
  registered : State → ℤ → Condition → Bool
  addFd : State → ℤ → Condition → State
  removeFd : State → ℤ → Condition → State
  registered_initial : ∀ fd c, registered initial fd c = false
  registered_addFd : ∀ s fd c fd' c',
    registered (addFd s fd c) fd' c' = (registered s fd' c' || decide (fd = fd' ∧ c = c'))
  registered_removeFd : ∀ s fd c fd' c',
    registered (removeFd s fd c) fd' c' = (registered s fd' c' && !decide (fd = fd' ∧ c = c'))

/-! ## The callbacks -/

section Callbacks
variable (fl : FlFds)

structure WatchState where
  watchList : List DBusWatch
  fds : fl.State

def WatchState.initial : WatchState fl := ⟨[],fl.initial⟩

variable {fl}

def forConditions (w : DBusWatch) (f : fl.State → ℤ → Condition → fl.State) (fds : fl.State) : fl.State :=
  let fds := if w.Has .readable then f fds w.fd .readable else fds
  if w.Has .writable then f fds w.fd .writable else fds

def edbusAddWatch (s : WatchState fl) (w : DBusWatch) (enabled : Bool) : WatchState fl :=
  if enabled = false then s
  else { watchList := s.watchList ++ [w], fds := forConditions w fl.addFd s.fds }

def edbusRemoveWatch (s : WatchState fl) (w : DBusWatch) : WatchState fl where
  fds := forConditions w fl.removeFd s.fds
  watchList := s.watchList.erase w

def edbusToggleWatch (s : WatchState fl) (w : DBusWatch) (enabled : Bool) : WatchState fl :=
  if enabled then edbusAddWatch s w enabled else edbusRemoveWatch s w

def watchCb (s : WatchState fl) (enabled : List DBusWatch) (fd : ℤ) : Option DBusWatch :=
  s.watchList.find? (fun w => decide (w.fd = fd ∧ w ∈ enabled))

end Callbacks

/-! ## Runs -/

/-- The state of the connection with the watches of libdbus and those of them that are enabled,
and what was handled last. -/
structure WatchTracked (fl : FlFds) where
  state : WatchState fl
  known : List DBusWatch
  enabled : List DBusWatch
  handled : Option DBusWatch

def WatchTracked.initial (fl : FlFds) : WatchTracked fl := ⟨.initial fl,[],[],none⟩

inductive WatchAction
  | add (w : DBusWatch) (enabled : Bool)
  | toggle (w : DBusWatch)
  | remove (w : DBusWatch)
  | ready (fd : ℤ) (c : Condition)

namespace WatchAction
variable {fl : FlFds}

def Applies (t : WatchTracked fl) : WatchAction → Bool
  | add w _ => decide (w ∉ t.known)
  | toggle w => decide (w ∈ t.known)
  | remove w => decide (w ∈ t.known)
  | ready fd c => fl.registered t.state.fds fd c

def effect (t : WatchTracked fl) : WatchAction → WatchTracked fl
  | add w enabled => { t with
      known := w :: t.known
      enabled := if enabled then w :: t.enabled else t.enabled
      state := edbusAddWatch t.state w enabled }
  | toggle w => { t with
      enabled := if w ∈ t.enabled then t.enabled.erase w else w :: t.enabled
      state := edbusToggleWatch t.state w (decide (w ∉ t.enabled)) }
  | remove w => { t with
      known := t.known.erase w
      enabled := t.enabled.erase w
      state := edbusRemoveWatch t.state w }
  | ready fd _ => { t with handled := watchCb t.state t.enabled fd }

def step (t : WatchTracked fl) (a : WatchAction) : Option (WatchTracked fl) :=
  if a.Applies t then some (a.effect t) else none

end WatchAction

/-- The list holds the enabled watches once each, and a descriptor is registered for what they
ask for. -/
structure WatchesKept {fl : FlFds} (t : WatchTracked fl) : Prop where
  once : t.state.watchList.Nodup
  listed : ∀ w, w ∈ t.state.watchList ↔ w ∈ t.enabled
  registered : ∀ fd c, fl.registered t.state.fds fd c = true ↔ ∃ w ∈ t.enabled, w.fd = fd ∧ w.Has c

/-- No other watch of the descriptor asks for something that the watch asks for. -/
def NoneShares (enabled : List DBusWatch) (w : DBusWatch) : Prop :=
  ∀ w' ∈ enabled, w' ≠ w → w'.fd = w.fd → ∀ c, w.Has c → ¬ w'.Has c

/-- The watch of the descriptor that is enabled for the longest time asks for the condition. -/
def FirstHas (fd : ℤ) (c : Condition) : List DBusWatch → Prop
  | [] => True
  | w :: ws => if w.fd = fd then w.Has c else FirstHas fd c ws

namespace WatchAction
variable {fl : FlFds}

/-- The watches are kept, and an event that an enabled watch asks for is handled by such a one. -/
def Lawful (t : WatchTracked fl) (a : WatchAction) : Prop :=
  a.Applies t = true → WatchesKept (a.effect t) ∧ match a with
    | ready fd c => (∃ w ∈ t.enabled, w.fd = fd ∧ w.Has c) →
      ∃ w ∈ (a.effect t).handled, w ∈ t.enabled ∧ w.fd = fd ∧ w.Has c
    | _ => True

/-- What is disabled or removed shares nothing with an enabled watch of its descriptor, and an
event is one that the first of the enabled watches asks for. -/
def Meets (t : WatchTracked fl) (a : WatchAction) : Prop :=
  a.Applies t = true → match a with
    | add _ _ => True
    | toggle w => w ∈ t.enabled → NoneShares t.enabled w
    | remove w => NoneShares t.enabled w
    | ready fd c => FirstHas fd c t.state.watchList

end WatchAction

/-! ## Registrations -/

section Registrations
variable {fl : FlFds}

theorem registered_addConditions (w : DBusWatch) (fds : fl.State) (fd : ℤ) (c : Condition) :
    fl.registered (forConditions w fl.addFd fds) fd c = true ↔
      fl.registered fds fd c = true ∨ w.fd = fd ∧ w.Has c := by
  unfold forConditions
  cases c <;> by_cases hr : w.Has .readable <;> by_cases hw : w.Has .writable <;>
    simp [hr,hw,fl.registered_addFd]

theorem registered_removeConditions (w : DBusWatch) (fds : fl.State) (fd : ℤ) (c : Condition) :
    fl.registered (forConditions w fl.removeFd fds) fd c = true ↔
      fl.registered fds fd c = true ∧ ¬ (w.fd = fd ∧ w.Has c) := by
  unfold forConditions
  cases c <;> by_cases hr : w.Has .readable <;> by_cases hw : w.Has .writable <;>
    simp [hr,hw,fl.registered_removeFd]

theorem registered_enable {t : WatchTracked fl} (h : WatchesKept t) (w : DBusWatch) (fd : ℤ) (c : Condition) :
    fl.registered (forConditions w fl.addFd t.state.fds) fd c = true ↔
      ∃ w' ∈ w :: t.enabled, w'.fd = fd ∧ w'.Has c := by
  rw [registered_addConditions,h.registered]
  simp [or_comm]

/-- The registrations that are left are those of the other watches if nothing was shared. -/
theorem registered_disable_iff {t : WatchTracked fl} (h : WatchesKept t) (hnodup : t.enabled.Nodup) (w : DBusWatch) :
    (∀ fd c, fl.registered (forConditions w fl.removeFd t.state.fds) fd c = true ↔
      ∃ w' ∈ t.enabled.erase w, w'.fd = fd ∧ w'.Has c) ↔ NoneShares t.enabled w := by
  simp only [registered_removeConditions,h.registered,hnodup.mem_erase_iff]
  constructor
  · intro hall w' hw' hne hfd c hc hc'
    exact ((hall w.fd c).mpr ⟨w',⟨hne,hw'⟩,hfd,hc'⟩).2 ⟨rfl,hc⟩
  · intro hnone fd c
    constructor
    · rintro ⟨⟨w',hw',hfd,hc⟩,hno⟩
      exact ⟨w',⟨fun heq => hno (heq ▸ ⟨hfd,hc⟩),hw'⟩,hfd,hc⟩
    · rintro ⟨w',⟨hne,hw'⟩,rfl,hc⟩
      exact ⟨⟨w',hw',rfl,hc⟩,fun ⟨hfd,hcw⟩ => hnone w' hw' hne hfd.symm c hcw hc⟩

end Registrations

/-! ## Events -/

/-- The callback handles a watch that asks for the event if the first one does. -/
theorem watchCb_has_iff {enabled : List DBusWatch} {fd : ℤ} {c : Condition} {l : List DBusWatch}
    (hl : ∀ w ∈ l, w ∈ enabled) (hsome : ∃ w ∈ l, w.fd = fd ∧ w.Has c) :
    (∃ w ∈ l.find? (fun w => decide (w.fd = fd ∧ w ∈ enabled)), w ∈ enabled ∧ w.fd = fd ∧ w.Has c) ↔
      FirstHas fd c l := by
  induction l with
  | nil => simp at hsome
  | cons w l ih =>
    rw [List.forall_mem_cons] at hl
    by_cases hw : w.fd = fd
    · simp [FirstHas,hw,hl.1]
    · rw [FirstHas,if_neg hw,List.find?_cons_of_neg (by simp [hw])]
      refine ih hl.2 ?_
      obtain ⟨w',hw',hfd,hc⟩ := hsome
      rcases List.mem_cons.mp hw' with rfl | hw'
      · exact absurd hfd hw
      · exact ⟨w',hw',hfd,hc⟩

/-! ## Every run -/

section Runs
variable {fl : FlFds} {t : WatchTracked fl}

structure WatchInv (t : WatchTracked fl) : Prop where
  kept : WatchesKept t
  once : t.enabled.Nodup
  known : t.enabled ⊆ t.known
  knownOnce : t.known.Nodup

theorem watchInv_initial (fl : FlFds) : WatchInv (WatchTracked.initial fl) where
  kept := ⟨List.nodup_nil,fun w => Iff.rfl,fun fd c => by
    simp [WatchTracked.initial,WatchState.initial,fl.registered_initial]⟩
  once := List.nodup_nil
  known := List.Subset.refl _
  knownOnce := List.nodup_nil

theorem WatchInv.enable (h : WatchInv t) {w : DBusWatch} (hw : w ∉ t.enabled) (known : List DBusWatch) :
    WatchesKept { t with known, enabled := w :: t.enabled, state := edbusAddWatch t.state w true } where
  once := by
    have hlist : w ∉ t.state.watchList := fun hmem => hw ((h.kept.listed w).mp hmem)
    simpa [edbusAddWatch,List.nodup_append] using ⟨h.kept.once,fun a ha heq => hlist (heq ▸ ha)⟩
  listed := by
    intro w'
    simp [edbusAddWatch,h.kept.listed w',or_comm]
  registered := registered_enable h.kept w

/-- A watch is taken out of the list, and leaves the others registered if it shares nothing. -/
theorem WatchInv.disable_iff (h : WatchInv t) (w : DBusWatch) (known : List DBusWatch) :
    WatchesKept { t with known, enabled := t.enabled.erase w, state := edbusRemoveWatch t.state w } ↔
      NoneShares t.enabled w := by
  rw [← registered_disable_iff h.kept h.once w]
  refine ⟨fun hkept => hkept.registered,fun hreg => ⟨h.kept.once.erase w,fun w' => ?_,hreg⟩⟩
  simp only [edbusRemoveWatch,h.kept.once.mem_erase_iff,h.once.mem_erase_iff,h.kept.listed w']

theorem WatchInv.lawful_iff (h : WatchInv t) (a : WatchAction) : a.Lawful t ↔ a.Meets t := by
  unfold WatchAction.Lawful WatchAction.Meets
  refine imp_congr_right (fun happlies => ?_)
  cases a with
  | add w enabled =>
    simp only [WatchAction.Applies,decide_eq_true_eq] at happlies
    refine iff_of_true ⟨?_,trivial⟩ trivial
    cases enabled with
    | true => exact h.enable (fun hw => happlies (h.known hw)) _
    | false => exact ⟨h.kept.once,h.kept.listed,h.kept.registered⟩
  | toggle w =>
    by_cases hw : w ∈ t.enabled
    · have heffect : (WatchAction.toggle w).effect t =
          { t with enabled := t.enabled.erase w, state := edbusRemoveWatch t.state w } := by
        simp [WatchAction.effect,hw,edbusToggleWatch]
      rw [heffect,h.disable_iff w t.known]
      simp [hw]
    · have heffect : (WatchAction.toggle w).effect t =
          { t with enabled := w :: t.enabled, state := edbusAddWatch t.state w true } := by
        simp [WatchAction.effect,hw,edbusToggleWatch]
      rw [heffect]
      exact iff_of_true ⟨h.enable hw t.known,trivial⟩ (fun hin => absurd hin hw)
  | remove w =>
    have hkept := h.disable_iff w (t.known.erase w)
    simpa [WatchAction.effect] using hkept
  | ready fd c =>
    simp only [WatchAction.Applies] at happlies
    obtain ⟨w,hw,hwatch⟩ := (h.kept.registered fd c).mp happlies
    have hkept : WatchesKept ((WatchAction.ready fd c).effect t) := ⟨h.kept.once,h.kept.listed,h.kept.registered⟩
    have hfirst := @watchCb_has_iff t.enabled fd c t.state.watchList (fun w' hw' => (h.kept.listed w').mp hw')
      ⟨w,(h.kept.listed w).mpr hw,hwatch⟩
    refine Iff.trans ?_ hfirst
    exact ⟨fun hlaw => hlaw.2 ⟨w,hw,hwatch⟩,fun hhandled => ⟨hkept,fun _ => hhandled⟩⟩

theorem WatchInv.step (h : WatchInv t) {a : WatchAction} (happlies : a.Applies t = true) (hlawful : a.Lawful t) :
    WatchInv (a.effect t) := by
  have hkept := (hlawful happlies).1
  cases a with
  | add w enabled =>
    simp only [WatchAction.Applies,decide_eq_true_eq] at happlies
    have hknown : (w :: t.known).Nodup := List.nodup_cons.mpr ⟨happlies,h.knownOnce⟩
    cases enabled with
    | true =>
      refine ⟨hkept,List.nodup_cons.mpr ⟨fun hw => happlies (h.known hw),h.once⟩,?_,hknown⟩
      exact List.cons_subset_cons w h.known
    | false => exact ⟨hkept,h.once,List.subset_cons_of_subset w h.known,hknown⟩
  | toggle w =>
    simp only [WatchAction.Applies,decide_eq_true_eq] at happlies
    refine ⟨hkept,?_,?_,h.knownOnce⟩ <;> simp only [WatchAction.effect] <;> split_ifs with hw
    · exact h.once.erase w
    · exact List.nodup_cons.mpr ⟨hw,h.once⟩
    · exact List.Subset.trans List.erase_subset h.known
    · exact List.cons_subset.mpr ⟨happlies,h.known⟩
  | remove w =>
    refine ⟨hkept,h.once.erase w,fun w' hw' => ?_,h.knownOnce.erase w⟩
    obtain ⟨hne,hw'⟩ := h.once.mem_erase_iff.mp hw'
    exact h.knownOnce.mem_erase_iff.mpr ⟨hne,h.known hw'⟩
  | ready fd c => exact ⟨hkept,h.once,h.known,h.knownOnce⟩

/-- In a run the list and the registrations are those of the enabled watches, and every event is
handled by a watch that asks for it, if and only if no watch that is disabled or removed asks for
something that an enabled one of its descriptor asks for, and each event is one that the watch of
the descriptor which is enabled for the longest time asks for. -/
theorem watches_kept_iff (fl : FlFds) (acts : List WatchAction) :
    Transition.Along WatchAction.step WatchAction.Lawful (WatchTracked.initial fl) acts ↔
      Transition.Along WatchAction.step WatchAction.Meets (WatchTracked.initial fl) acts := by
  refine Transition.along_iff (I := WatchInv) (fun t a h => h.lawful_iff a) ?_ (watchInv_initial fl)
  intro t a t' h hlawful hstep
  unfold WatchAction.step at hstep
  split_ifs at hstep with happlies
  cases hstep
  exact h.step happlies hlawful

def FlFds.table : FlFds where
  State := ℤ → Condition → Bool
  initial := fun _ _ => false
  registered := fun s fd c => s fd c
  addFd := fun s fd c fd' c' => s fd' c' || decide (fd = fd' ∧ c = c')
  removeFd := fun s fd c fd' c' => s fd' c' && !decide (fd = fd' ∧ c = c')
  registered_initial := fun _ _ => rfl
  registered_addFd := fun _ _ _ _ _ => rfl
  registered_removeFd := fun _ _ _ _ _ => rfl

/-- With the watch for reads enabled first, what can be written is reported to it. -/
theorem not_watches_kept_second_watch :
    ¬ Transition.Along WatchAction.step WatchAction.Lawful (WatchTracked.initial FlFds.table)
      [.add ⟨0,5,1#32⟩ true,.add ⟨1,5,2#32⟩ true,.ready 5 .writable] := by
  intro h
  obtain ⟨-,hhandled⟩ := h [.add ⟨0,5,1#32⟩ true,.add ⟨1,5,2#32⟩ true] _ [] rfl _ rfl (by decide)
  obtain ⟨w,hw,-,-,hwrite⟩ := hhandled ⟨⟨1,5,2#32⟩,by decide,by decide,by decide⟩
  obtain rfl : w = ⟨0,5,1#32⟩ := (Option.some.inj hw).symm
  revert hwrite
  decide

end Runs

end Edelib.Edbus
