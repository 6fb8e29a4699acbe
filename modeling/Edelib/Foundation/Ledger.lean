import Edelib.Foundation.Transition
import Mathlib.Data.Finset.Basic

/-! # Ledgers

A program obtains resources and releases them, and may have some of them watched in
between. What is not held cannot be released, nor what is still watched.
-/
namespace Edelib.Foundation
variable {α : Type*}

inductive Effect (α : Type*)
  | obtain (r : α)
  | release (r : α)
  | watch (r : α)
  | unwatch (r : α)

@[ext] structure Ledger (α : Type*) where
  held : Finset α
  watched : Finset α

namespace Ledger
variable [DecidableEq α]

def empty : Ledger α := ⟨∅,∅⟩

def apply (l : Ledger α) : Effect α → Option (Ledger α)
  | .obtain r => if r ∈ l.held then none else some { l with held := insert r l.held }
  | .release r => if r ∈ l.held ∧ r ∉ l.watched then some { l with held := l.held.erase r } else none
  | .watch r => some { l with watched := insert r l.watched }
  | .unwatch r => some { l with watched := l.watched.erase r }

def exec (l : Ledger α) (effects : List (Effect α)) : Option (Ledger α) := Transition.exec apply l effects

@[simp] theorem exec_nil (l : Ledger α) : l.exec [] = some l := rfl

@[simp] theorem exec_cons (l : Ledger α) (e : Effect α) (effects : List (Effect α)) :
    l.exec (e :: effects) = (l.apply e).bind (fun l' => l'.exec effects) := rfl

theorem exec_append (l : Ledger α) (effects effects' : List (Effect α)) :
    l.exec (effects ++ effects') = (l.exec effects).bind (fun l' => l'.exec effects') := by
  induction effects generalizing l with
  | nil => rfl
  | cons e effects ih =>
    rw [List.cons_append,exec_cons,exec_cons]
    cases l.apply e with
    | none => rfl
    | some l' => exact ih l'

theorem apply_obtain {l : Ledger α} {r : α} (h : r ∉ l.held) :
    l.apply (.obtain r) = some { l with held := insert r l.held } := if_neg h

theorem apply_release {l : Ledger α} {r : α} (h : r ∈ l.held) (hfree : r ∉ l.watched) :
    l.apply (.release r) = some { l with held := l.held.erase r } := if_pos ⟨h,hfree⟩

theorem apply_release_eq_some {l l' : Ledger α} {r : α} (h : l.apply (.release r) = some l') :
    r ∈ l.held ∧ r ∉ l.watched ∧ l' = { l with held := l.held.erase r } := by
  simp only [apply] at h
  split_ifs at h with hr
  exact ⟨hr.1,hr.2,(Option.some.inj h).symm⟩

theorem exec_release_twice (l : Ledger α) (r : α) (effects : List (Effect α)) :
    l.exec (.release r :: .release r :: effects) = none := by
  rw [exec_cons]
  cases h : l.apply (.release r) with
  | none => rfl
  | some l' =>
    obtain ⟨-,-,rfl⟩ := apply_release_eq_some h
    rw [Option.bind_some,exec_cons]
    cases h' : apply { l with held := l.held.erase r } (.release r) with
    | none => rfl
    | some l'' => exact absurd (apply_release_eq_some h').1 (Finset.notMem_erase r l.held)

theorem watched_apply {l l' : Ledger α} {e : Effect α} {r : α} (h : l.apply e = some l') (hr : r ∈ l.watched)
    (he : e ≠ .unwatch r) : r ∈ l'.watched := by
  cases e with
  | obtain r' =>
    simp only [apply] at h
    split_ifs at h
    exact Option.some.inj h ▸ hr
  | release r' => exact (apply_release_eq_some h).2.2 ▸ hr
  | watch r' => exact Option.some.inj h ▸ Finset.mem_insert_of_mem hr
  | unwatch r' => exact Option.some.inj h ▸ Finset.mem_erase.mpr ⟨fun heq => he (heq ▸ rfl),hr⟩

theorem exec_release_watched {l : Ledger α} {r : α} {effects : List (Effect α)} (h : r ∈ l.watched)
    (hwatched : Effect.unwatch r ∉ effects) (hrelease : Effect.release r ∈ effects) : l.exec effects = none := by
  induction effects generalizing l with
  | nil => cases hrelease
  | cons e effects ih =>
    obtain ⟨hhead,htail⟩ := not_or.mp (fun hor => hwatched (List.mem_cons.mpr hor))
    rw [exec_cons]
    cases hl : l.apply e with
    | none => rfl
    | some l' =>
      have hlater : Effect.release r ∈ effects := by
        rcases List.mem_cons.mp hrelease with rfl | hlater
        · exact absurd h (apply_release_eq_some hl).2.1
        · exact hlater
      exact ih (watched_apply hl h (Ne.symm hhead)) htail hlater

end Ledger
end Edelib.Foundation
