import Mathlib.Algebra.Order.Ring.Int
import Mathlib.Data.List.Basic

/-! # Operations with answers

A machine answers the operations of a list in their order, or faults at one of them. What it is for says which answers
an operation may have and how it changes an abstract state; a machine that does so step by step does so in every run.
-/
namespace Edelib.Foundation.Answers
variable {σ τ α ο : Type*}

def answers (step : σ → α → Option (ο × σ)) : σ → List α → Option (List ο × σ)
  | s,[] => some ([],s)
  | s,a :: acts => do
    let (x,s) ← step s a
    let (xs,s) ← answers step s acts
    some (x :: xs,s)

inductive Allowed (spec : τ → α → ο → τ → Prop) : τ → List α → List ο → τ → Prop
  | nil (t : τ) : Allowed spec t [] [] t
  | cons {t t' t'' : τ} {a : α} {x : ο} {acts : List α} {xs : List ο} :
    spec t a x t' → Allowed spec t' acts xs t'' → Allowed spec t (a :: acts) (x :: xs) t''

def Meets (spec : τ → α → ο → τ → Prop) (ok : τ → α → Prop) (t : τ) (acts : List α) : Prop :=
  ∀ before a after, acts = before ++ a :: after → ∀ xs t', Allowed spec t before xs t' → ok t' a

def Refines (R : σ → τ → Prop) (step : σ → α → Option (ο × σ)) (spec : τ → α → ο → τ → Prop) (ok : τ → α → Prop) : Prop :=
  ∀ s t a, R s t → ok t a → ∃ x s' t', step s a = some (x,s') ∧ spec t a x t' ∧ R s' t'

variable {R : σ → τ → Prop} {step : σ → α → Option (ο × σ)} {spec : τ → α → ο → τ → Prop} {ok : τ → α → Prop} {s : σ}
  {t t' : τ} {a : α} {x : ο} {acts : List α}

theorem Meets.head (h : Meets spec ok t (a :: acts)) : ok t a := h [] a acts rfl [] t (.nil t)

theorem Meets.tail (h : Meets spec ok t (a :: acts)) (ha : spec t a x t') : Meets spec ok t' acts := by
  rintro before b after rfl xs t'' hrun
  exact h (a :: before) b after rfl (x :: xs) t'' (.cons ha hrun)

theorem meets_nil : Meets spec ok t [] := fun before _ _ heq => absurd heq (by simp)

theorem meets_cons (ha : ok t a) (htail : ∀ x t', spec t a x t' → Meets spec ok t' acts) : Meets spec ok t (a :: acts) := by
  intro before b after heq xs t'' hrun
  cases hrun with
  | nil =>
    obtain ⟨rfl,-⟩ := List.cons.inj heq
    exact ha
  | cons hstep hrest =>
    obtain ⟨rfl,rfl⟩ := List.cons.inj heq
    exact htail _ _ hstep _ b after rfl _ _ hrest

theorem Refines.answers (h : Refines R step spec ok) (hR : R s t) (hok : Meets spec ok t acts) :
    ∃ xs s' t', Answers.answers step s acts = some (xs,s') ∧ Allowed spec t acts xs t' ∧ R s' t' := by
  induction acts generalizing s t with
  | nil => exact ⟨[],s,t,rfl,.nil t,hR⟩
  | cons a acts ih =>
    obtain ⟨x,s₁,t₁,hstep,hspec,hR₁⟩ := h s t a hR hok.head
    obtain ⟨xs,s',t',hrun,hallowed,hR'⟩ := ih hR₁ (hok.tail hspec)
    refine ⟨x :: xs,s',t',?_,.cons hspec hallowed,hR'⟩
    rw [Answers.answers,hstep,Option.bind_eq_bind,Option.bind_some]
    dsimp only
    rw [hrun]
    rfl

end Edelib.Foundation.Answers
