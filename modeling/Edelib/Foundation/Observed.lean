import Mathlib.Algebra.Order.Ring.Int
import Mathlib.Data.List.Basic

/-! # What is asked of an object

A question gives an answer and may change the object. An object whose answers are fixed, whatever
was asked before, is known by them.
-/
namespace Edelib.Foundation.Observed
variable {σ κ ο : Type*} (ask : κ → σ → Option (ο × σ))

/-- The answers to questions in their order; a fault at one of them leaves none. -/
def observe (s : σ) : List κ → Option (List ο)
  | [] => some []
  | q :: qs =>
    match ask q s with
    | none => none
    | some (a,s') => (observe s' qs).map (fun as => a :: as)

/-- The answers of an object that are its own, as long as an invariant holds. -/
structure Answered (I : σ → Prop) (answer : κ → Option ο) : Prop where
  faults : ∀ s q, I s → answer q = none → ask q s = none
  gives : ∀ s q a, I s → answer q = some a → ∃ s', ask q s = some (a,s') ∧ I s'

variable {ask} {I J : σ → Prop} {answer answer' : κ → Option ο}

theorem Answered.observe_eq (h : Answered ask I answer) {s : σ} (hs : I s) (qs : List κ) :
    observe ask s qs = qs.mapM answer := by
  induction qs generalizing s with
  | nil => rfl
  | cons q qs ih =>
    rw [observe,List.mapM_cons]
    cases ha : answer q with
    | none =>
      rw [h.faults s q hs ha]
      rfl
    | some a =>
      obtain ⟨s',hs',hI⟩ := h.gives s q a hs ha
      rw [hs']
      dsimp only
      rw [ih hI]
      cases qs.mapM answer <;> rfl

theorem Answered.observe_singleton (h : Answered ask I answer) {s : σ} (hs : I s) (q : κ) :
    observe ask s [q] = (answer q).map (fun a => [a]) := by
  rw [h.observe_eq hs,List.mapM_cons]
  cases answer q <;> rfl

/-- Two objects cannot be told apart iff their answers are the same. -/
theorem Answered.observe_iff (h : Answered ask I answer) (h' : Answered ask J answer') {s t : σ} (hs : I s) (ht : J t) :
    (∀ qs, observe ask s qs = observe ask t qs) ↔ ∀ q, answer q = answer' q := by
  constructor
  · intro hobserve q
    have hq := hobserve [q]
    rw [h.observe_singleton hs,h'.observe_singleton ht] at hq
    exact Option.map_injective (fun a b hab => (List.cons.inj hab).1) hq
  · intro hanswers qs
    rw [h.observe_eq hs,h'.observe_eq ht,funext hanswers]

end Edelib.Foundation.Observed
