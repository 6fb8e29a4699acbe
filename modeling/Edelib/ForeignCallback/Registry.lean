import Edelib.Foundation.CString

/-! # Delivering a message to registered callbacks

A callback is registered for an id, once. A message is delivered to one window after the other: to each
every callback that is registered for its id is called once, and a callback may register and remove others.
-/
namespace Edelib.ForeignCallback
open Foundation

/-- Which callback is meant, and what it is called with; no callback is 0. -/
structure Registration where
  serial : ℕ
  id : CString
  cb : ℕ
  data : ℕ
deriving DecidableEq

structure Registry where
  regs : List Registration
  next : ℕ

inductive Op
  | add (id : CString) (cb data : ℕ)
  | remove (cb : ℕ)

def Op.cb : Op → ℕ
  | add _ cb _ => cb
  | remove cb => cb

def Registry.apply (R : Registry) : Op → Registry
  | .add id cb data => ⟨R.regs.filter (fun r => r.cb ≠ cb) ++ [⟨R.next,id,cb,data⟩],R.next + 1⟩
  | .remove cb => ⟨R.regs.filter (fun r => r.cb ≠ cb),R.next⟩

structure Window where
  name : ℕ
  type : ℕ
deriving DecidableEq

def FL_WINDOW : ℕ := 0xF0

/-- Delivery to one window: the windows that come later, and who was called for this one. -/
structure Round where
  id : CString
  win : Window
  windows : List Window
  served : List Registration

structure Invocation where
  win : Window
  cb : ℕ
  data : ℕ
deriving DecidableEq

structure Delivery where
  registry : Registry
  round : Option Round
  calls : List Invocation

def nextRound (id : CString) : List Window → Option Round
  | [] => none
  | win :: windows => if win.type < FL_WINDOW then nextRound id windows else some ⟨id,win,windows,[]⟩

/-- What happens: a call of the application, a message, or a turn of its delivery with what a callback calls if it is called. -/
inductive Action
  | call (op : Op)
  | deliver (id : CString) (windows : List Window)
  | visit (ops : List Op)

def Registration.WantedBy (r : Registration) (id : CString) : Prop := r.id = id ∧ r.cb ≠ 0

/-- What may happen. A turn may be without an effect, as often as the delivery to the list takes turns, and the last
one is only when all were called. -/
inductive Allowed : Delivery → Action → Delivery → Prop
  | call {R calls} (op : Op) : Allowed ⟨R,none,calls⟩ (.call op) ⟨R.apply op,none,calls⟩
  | deliver {R calls} (id : CString) (windows : List Window) :
      Allowed ⟨R,none,calls⟩ (.deliver id windows) ⟨R,nextRound id windows,calls⟩
  | nothing {R round calls} (ops : List Op) : Allowed ⟨R,some round,calls⟩ (.visit ops) ⟨R,some round,calls⟩
  | invoke {R round calls} (ops : List Op) {r : Registration} (hr : r ∈ R.regs) (hwanted : r.WantedBy round.id)
      (hnew : r ∉ round.served) : Allowed ⟨R,some round,calls⟩ (.visit ops)
        ⟨ops.foldl Registry.apply R,some { round with served := round.served ++ [r] },calls ++ [⟨round.win,r.cb,r.data⟩]⟩
  | finish {R round calls} (ops : List Op) (hall : ∀ r ∈ R.regs, r.WantedBy round.id → r ∈ round.served) :
      Allowed ⟨R,some round,calls⟩ (.visit ops) ⟨R,nextRound round.id round.windows,calls⟩
  | busy {R round calls} (op : Op) : Allowed ⟨R,some round,calls⟩ (.call op) ⟨R,some round,calls⟩
  | later {R round calls} (id : CString) (windows : List Window) :
      Allowed ⟨R,some round,calls⟩ (.deliver id windows) ⟨R,some round,calls⟩
  | idle {R calls} (ops : List Op) : Allowed ⟨R,none,calls⟩ (.visit ops) ⟨R,none,calls⟩

theorem nextRound_served {id : CString} {windows : List Window} {round : Round} (h : nextRound id windows = some round) :
    round.served = [] ∧ round.id = id := by
  induction windows with
  | nil => cases h
  | cons win windows ih =>
    rw [nextRound] at h
    split_ifs at h with htype
    · exact ih h
    · cases h
      exact ⟨rfl,rfl⟩

/-- A turn in which somebody was called is one in which somebody was to be called. -/
theorem Allowed.wanted {R : Registry} {round : Round} {calls : List Invocation} {ops : List Op} {D : Delivery}
    {r : Registration} (h : Allowed ⟨R,some round,calls⟩ (.visit ops) D)
    (hD : D.round = some { round with served := round.served ++ [r] }) : r.WantedBy round.id := by
  cases h with
  | nothing =>
    have hserved := congrArg (fun o => o.map (fun r : Round => r.served.length)) hD
    simp at hserved
  | invoke _ _ hwanted =>
    have hserved := congrArg Round.served (Option.some.inj hD)
    rw [List.append_cancel_left_eq,List.singleton_inj] at hserved
    rwa [← hserved]
  | finish =>
    have hserved := (nextRound_served hD).1
    simp at hserved

end Edelib.ForeignCallback
