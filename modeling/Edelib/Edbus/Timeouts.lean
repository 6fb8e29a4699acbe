import Edelib.Foundation.Transition
import Mathlib.Data.Multiset.Filter

/-! # Timeouts of a connection

libdbus has its timeouts armed as timers of FLTK, with one callback for all of them, which is
given the connection. A connection has one field for a timeout, which nothing sets after
`connect`. `none` is a failed assertion.
-/
namespace Edelib.Edbus
open Foundation

/-- A timeout of libdbus, with the connection that its callbacks are called for and the interval
in milliseconds; whether it is enabled changes. -/
structure DBusTimeout where
  id : ℕ
  conn : ℕ
  interval : ℤ
deriving DecidableEq, Repr

/-- A timer of `timeout_cb`: the seconds it was armed with, its argument, and the timeout it was
armed for. -/
structure FlTimer where
  seconds : ℤ
  conn : ℕ
  armedFor : DBusTimeout
deriving DecidableEq, Repr

/-- The timers of FLTK for one callback: a timer fires once, and those for an argument are
removed, or all of them. -/
structure FlTimers where
  State : Type
  initial : State
  armed : State → Multiset FlTimer
  addTimeout : State → FlTimer → State
  removeTimeout : State → Option ℕ → State
  fired : State → FlTimer → State
  armed_initial : armed initial = 0
  armed_addTimeout : ∀ s x, armed (addTimeout s x) = x ::ₘ armed s
  armed_removeTimeout : ∀ s arg,
    armed (removeTimeout s arg) = (armed s).filter (fun x => ∃ conn, arg = some conn ∧ x.conn ≠ conn)
  armed_fired : ∀ s x, armed (fired s x) = (armed s).erase x

/-! ## The callbacks -/

section Callbacks
variable (fl : FlTimers)

/-- The timers, and the field `timeout` of each connection. -/
structure TimeoutState where
  timers : fl.State
  timeout : ℕ → Option DBusTimeout

def TimeoutState.initial : TimeoutState fl := ⟨fl.initial,fun _ => none⟩

variable {fl}

def timeoutCb (s : TimeoutState fl) (conn : ℕ) : Option DBusTimeout := s.timeout conn

def edbusAddTimeout (s : TimeoutState fl) (timeout : DBusTimeout) : TimeoutState fl :=
  { s with timers := fl.addTimeout s.timers ⟨timeout.interval.tdiv 1000,timeout.conn,timeout⟩ }

/-- Without an argument every timer of `timeout_cb` is removed. -/
def edbusRemoveTimeout (s : TimeoutState fl) (_timeout : DBusTimeout) : TimeoutState fl :=
  { s with timers := fl.removeTimeout s.timers none }

def edbusToggleTimeout (s : TimeoutState fl) (timeout : DBusTimeout) (enabled : Bool) : TimeoutState fl :=
  if enabled then edbusAddTimeout s timeout else edbusRemoveTimeout s timeout

end Callbacks

/-! ## Runs -/

structure TimeoutTracked (fl : FlTimers) where
  state : TimeoutState fl
  known : List DBusTimeout
  enabled : List DBusTimeout

def TimeoutTracked.initial (fl : FlTimers) : TimeoutTracked fl := ⟨.initial fl,[],[]⟩

def TimeoutTracked.armed {fl : FlTimers} (t : TimeoutTracked fl) : Multiset FlTimer := fl.armed t.state.timers

inductive TimeoutAction
  | add (timeout : DBusTimeout) (enabled : Bool)
  | toggle (timeout : DBusTimeout)
  | remove (timeout : DBusTimeout)
  | fire (timer : FlTimer)

namespace TimeoutAction
variable {fl : FlTimers}

/-- A timeout is added once, and toggled and removed while it is known. -/
def Applies (t : TimeoutTracked fl) : TimeoutAction → Bool
  | add timeout _ => decide (timeout ∉ t.known)
  | toggle timeout => decide (timeout ∈ t.known)
  | remove timeout => decide (timeout ∈ t.known)
  | fire timer => decide (timer ∈ t.armed)

def effect (t : TimeoutTracked fl) : TimeoutAction → TimeoutTracked fl
  | add timeout enabled =>
    { state := edbusAddTimeout t.state timeout
      known := timeout :: t.known
      enabled := if enabled then timeout :: t.enabled else t.enabled }
  | toggle timeout => { t with
      state := edbusToggleTimeout t.state timeout (decide (timeout ∉ t.enabled))
      enabled := if timeout ∈ t.enabled then t.enabled.erase timeout else timeout :: t.enabled }
  | remove timeout =>
    { state := edbusRemoveTimeout t.state timeout
      known := t.known.erase timeout
      enabled := t.enabled.erase timeout }
  | fire timer => { t with state := { t.state with timers := fl.fired t.state.timers timer } }

def step (t : TimeoutTracked fl) (a : TimeoutAction) : Option (TimeoutTracked fl) :=
  if a.Applies t then some (a.effect t) else none

end TimeoutAction

def WithIntervals {fl : FlTimers} (t : TimeoutTracked fl) : Prop :=
  ∀ x ∈ t.armed, x.seconds * 1000 = x.armedFor.interval

def others (timers : Multiset FlTimer) (timeout : DBusTimeout) : Multiset FlTimer :=
  timers.filter (fun x => x.armedFor ≠ timeout)

namespace TimeoutAction
variable {fl : FlTimers}

/-- The timers are armed with the intervals, what is removed or disabled leaves the others armed,
and a timer that fires has its timeout handled. -/
def Lawful (t : TimeoutTracked fl) (a : TimeoutAction) : Prop :=
  a.Applies t = true → WithIntervals (a.effect t) ∧ match a with
    | add _ _ => True
    | toggle timeout => others (a.effect t).armed timeout = others t.armed timeout
    | remove timeout => others (a.effect t).armed timeout = others t.armed timeout
    | fire timer => timeoutCb t.state timer.conn = some timer.armedFor

/-- Intervals are whole seconds, no other timer is armed when one is removed, and none fires. -/
def Meets (t : TimeoutTracked fl) (a : TimeoutAction) : Prop :=
  a.Applies t = true → match a with
    | add timeout _ => 1000 ∣ timeout.interval
    | toggle timeout => if timeout ∈ t.enabled then others t.armed timeout = 0 else 1000 ∣ timeout.interval
    | remove timeout => others t.armed timeout = 0
    | fire _ => False

end TimeoutAction

/-! ## Every run -/

section Runs
variable {fl : FlTimers} {t : TimeoutTracked fl}

structure TimeoutInv (t : TimeoutTracked fl) : Prop where
  intervals : WithIntervals t
  timeout : ∀ conn, t.state.timeout conn = none

theorem timeoutInv_initial (fl : FlTimers) : TimeoutInv (TimeoutTracked.initial fl) where
  intervals := by
    intro x hx
    simp [TimeoutTracked.armed,TimeoutTracked.initial,TimeoutState.initial,fl.armed_initial] at hx
  timeout := fun _ => rfl

/-- A timer that is added has its interval if that is in whole seconds. -/
theorem withIntervals_add_iff (h : WithIntervals t) (timeout : DBusTimeout) (known enabled : List DBusTimeout) :
    WithIntervals { state := edbusAddTimeout t.state timeout, known, enabled } ↔ 1000 ∣ timeout.interval := by
  unfold WithIntervals TimeoutTracked.armed edbusAddTimeout
  dsimp only
  rw [fl.armed_addTimeout]
  simp only [Multiset.mem_cons,forall_eq_or_imp]
  constructor
  · rintro ⟨heq,-⟩
    exact ⟨_,by rw [mul_comm]; exact heq.symm⟩
  · intro hdvd
    exact ⟨Int.tdiv_mul_cancel hdvd,h⟩

theorem armed_edbusRemoveTimeout (s : TimeoutState fl) (timeout : DBusTimeout) :
    fl.armed (edbusRemoveTimeout s timeout).timers = 0 := by
  unfold edbusRemoveTimeout
  simp [fl.armed_removeTimeout]

/-- After a removal the other timers are as before if there were none. -/
theorem removed_iff (timeout timeout' : DBusTimeout) (known enabled : List DBusTimeout) :
    (WithIntervals { state := edbusRemoveTimeout t.state timeout', known, enabled } ∧
      others (TimeoutTracked.armed ⟨edbusRemoveTimeout t.state timeout',known,enabled⟩) timeout =
        others t.armed timeout) ↔ others t.armed timeout = 0 := by
  have hnone : TimeoutTracked.armed ⟨edbusRemoveTimeout t.state timeout',known,enabled⟩ = 0 :=
    armed_edbusRemoveTimeout t.state timeout'
  constructor
  · rintro ⟨-,heq⟩
    rw [← heq,hnone]
    rfl
  · intro hzero
    refine ⟨fun x hx => ?_,?_⟩
    · rw [hnone] at hx
      simp at hx
    · rw [hnone,hzero]
      rfl

theorem TimeoutInv.lawful_iff (h : TimeoutInv t) (a : TimeoutAction) : a.Lawful t ↔ a.Meets t := by
  unfold TimeoutAction.Lawful TimeoutAction.Meets
  refine imp_congr_right (fun happlies => ?_)
  cases a with
  | add timeout enabled =>
    refine Iff.trans ?_ (withIntervals_add_iff h.intervals timeout (timeout :: t.known)
      (if enabled then timeout :: t.enabled else t.enabled))
    exact ⟨And.left,fun hadd => ⟨hadd,trivial⟩⟩
  | toggle timeout =>
    by_cases hen : timeout ∈ t.enabled
    · have heffect : (TimeoutAction.toggle timeout).effect t =
          { t with state := edbusRemoveTimeout t.state timeout, enabled := t.enabled.erase timeout } := by
        simp [TimeoutAction.effect,edbusToggleTimeout,hen]
      simp only [heffect,hen,↓reduceIte]
      exact removed_iff timeout timeout t.known (t.enabled.erase timeout)
    · have heffect : (TimeoutAction.toggle timeout).effect t =
          { t with state := edbusAddTimeout t.state timeout, enabled := timeout :: t.enabled } := by
        simp [TimeoutAction.effect,edbusToggleTimeout,hen]
      simp only [heffect,hen,↓reduceIte]
      refine Iff.trans ?_ (withIntervals_add_iff h.intervals timeout t.known (timeout :: t.enabled))
      refine ⟨And.left,fun hadd => ⟨hadd,?_⟩⟩
      simp [others,TimeoutTracked.armed,edbusAddTimeout,fl.armed_addTimeout]
  | remove timeout => exact removed_iff timeout timeout (t.known.erase timeout) (t.enabled.erase timeout)
  | fire timer =>
    refine iff_of_false ?_ (fun hno => hno)
    rintro ⟨-,hhandled⟩
    exact Option.some_ne_none timer.armedFor (hhandled.symm.trans (h.timeout timer.conn))

theorem TimeoutInv.step (h : TimeoutInv t) {a : TimeoutAction} (happlies : a.Applies t = true)
    (hlawful : a.Lawful t) : TimeoutInv (a.effect t) := by
  refine ⟨(hlawful happlies).1,fun conn => ?_⟩
  cases a with
  | toggle timeout =>
    simp only [TimeoutAction.effect,edbusToggleTimeout]
    split_ifs <;> exact h.timeout conn
  | _ => exact h.timeout conn

end Runs

/-- In a run every timer has the interval of its timeout, a removal leaves the others armed, and
a timer that fires has its timeout handled, if and only if the intervals that are armed are whole
seconds, timeouts are removed and disabled only while no other is armed, and no timer fires. -/
theorem timeouts_kept_iff (fl : FlTimers) (acts : List TimeoutAction) :
    Transition.Along TimeoutAction.step TimeoutAction.Lawful (TimeoutTracked.initial fl) acts ↔
      Transition.Along TimeoutAction.step TimeoutAction.Meets (TimeoutTracked.initial fl) acts := by
  refine Transition.along_iff (I := TimeoutInv) (fun t a h => h.lawful_iff a) ?_ (timeoutInv_initial fl)
  intro t a t' h hlawful hstep
  unfold TimeoutAction.step at hstep
  split_ifs at hstep with happlies
  cases hstep
  exact h.step happlies hlawful

def FlTimers.table : FlTimers where
  State := Multiset FlTimer
  initial := 0
  armed := id
  addTimeout := fun s x => x ::ₘ s
  removeTimeout := fun s arg => s.filter (fun x => ∃ conn, arg = some conn ∧ x.conn ≠ conn)
  fired := fun s x => s.erase x
  armed_initial := rfl
  armed_addTimeout := fun _ _ => rfl
  armed_removeTimeout := fun _ _ => rfl
  armed_fired := fun _ _ => rfl

/-- A timeout of two seconds whose timer fires is not handled. -/
theorem not_timeouts_kept_fired :
    ¬ Transition.Along TimeoutAction.step TimeoutAction.Lawful (TimeoutTracked.initial FlTimers.table)
      [.add ⟨0,0,2000⟩ true,.fire ⟨2,0,⟨0,0,2000⟩⟩] := by
  intro h
  obtain ⟨-,hhandled⟩ := h [.add ⟨0,0,2000⟩ true] _ [] rfl _ rfl (by decide)
  cases hhandled

end Edelib.Edbus
