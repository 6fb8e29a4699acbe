import Mathlib.Data.List.Forall2

/-! # Lists paired entry by entry

Two lists of one length whose entries are related place by place. What picks the same places of
both keeps them paired.
-/
namespace Edelib.Foundation.Paired
open List
variable {α β γ : Type*} {R : α → β → Prop} {l : List α} {l' : List β}

theorem mem_left (h : Forall₂ R l l') {a : α} (ha : a ∈ l) : ∃ b ∈ l', R a b := by
  induction h with
  | nil => simp at ha
  | cons hab hrest ih =>
    rcases mem_cons.mp ha with rfl | ha
    · exact ⟨_,mem_cons_self,hab⟩
    · obtain ⟨b,hb,hr⟩ := ih ha
      exact ⟨b,mem_cons_of_mem _ hb,hr⟩

theorem mem_right (h : Forall₂ R l l') {b : β} (hb : b ∈ l') : ∃ a ∈ l, R a b := mem_left h.flip hb

/-- Entries that are picked alike and mapped alike give one list. -/
theorem map_filter_eq (h : Forall₂ R l l') {p : α → Bool} {q : β → Bool} {f : α → γ} {g : β → γ}
    (hpq : ∀ a b, R a b → p a = q b) (hfg : ∀ a b, R a b → f a = g b) : (l.filter p).map f = (l'.filter q).map g := by
  induction h with
  | nil => rfl
  | cons hab hrest ih =>
    rw [filter_cons,filter_cons,hpq _ _ hab]
    split_ifs
    · rw [map_cons,map_cons,hfg _ _ hab,ih]
    · exact ih

theorem map_eq (h : Forall₂ R l l') {f : α → γ} {g : β → γ} (hfg : ∀ a b, R a b → f a = g b) : l.map f = l'.map g := by
  induction h with
  | nil => rfl
  | cons hab hrest ih => rw [map_cons,map_cons,hfg _ _ hab,ih]

theorem eraseP (h : Forall₂ R l l') {p : α → Bool} {q : β → Bool} (hpq : ∀ a b, R a b → p a = q b) :
    Forall₂ R (l.eraseP p) (l'.eraseP q) := by
  induction h with
  | nil => exact .nil
  | cons hab hrest ih =>
    rw [eraseP_cons,eraseP_cons,hpq _ _ hab]
    cases q _ with
    | true => exact hrest
    | false => exact .cons hab ih

theorem snoc (h : Forall₂ R l l') {a : α} {b : β} (hab : R a b) : Forall₂ R (l ++ [a]) (l' ++ [b]) :=
  rel_append h (.cons hab .nil)

theorem imp_mem (h : Forall₂ R l l') {S : α → β → Prop} (hS : ∀ a ∈ l, ∀ b ∈ l', R a b → S a b) : Forall₂ S l l' := by
  induction h with
  | nil => exact .nil
  | cons hab hrest ih =>
    refine .cons (hS _ mem_cons_self _ mem_cons_self hab) (ih (fun a ha b hb => ?_))
    exact hS a (mem_cons_of_mem _ ha) b (mem_cons_of_mem _ hb)

end Edelib.Foundation.Paired
