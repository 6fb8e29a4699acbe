import Mathlib.Data.Set.Card
import Mathlib.Data.Set.Finite.Basic

/-! # Uses of a thing

A table has an entry at finitely many places. Counted are the places whose entry has a property,
such as to refer to one thing.
-/
namespace Edelib.Foundation
variable {β : Type*}

def places (f : ℕ → Option β) (P : β → Prop) : Set ℕ := {x | ∃ b, f x = some b ∧ P b}

noncomputable def uses (f : ℕ → Option β) (P : β → Prop) : ℕ := (places f P).ncard

def Finitely (f : ℕ → Option β) : Prop := {x | f x ≠ none}.Finite

variable {f : ℕ → Option β} {P : β → Prop} {x y : ℕ} {b : β} {o : Option β}

theorem finitely_empty : Finitely (fun _ => none : ℕ → Option β) := by
  have hempty : {x : ℕ | (none : Option β) ≠ none} = ∅ := Set.eq_empty_of_forall_notMem (fun _ h => h rfl)
  rw [Finitely,hempty]
  exact Set.finite_empty

theorem Finitely.update (hf : Finitely f) (x : ℕ) (o : Option β) : Finitely (Function.update f x o) := by
  refine (hf.insert x).subset (fun y hy => ?_)
  by_cases hyx : y = x
  · exact Or.inl hyx
  · refine Or.inr ?_
    rwa [Set.mem_ofPred_eq,Function.update_of_ne hyx] at hy

theorem Finitely.places (hf : Finitely f) (P : β → Prop) : (places f P).Finite := by
  refine hf.subset ?_
  rintro x ⟨b,hb,-⟩ hnone
  rw [hb] at hnone
  cases hnone

theorem uses_eq_zero (h : ∀ x b, f x = some b → ¬ P b) : uses f P = 0 := by
  have hempty : places f P = ∅ := Set.eq_empty_of_forall_notMem (fun x ⟨b,hb,hP⟩ => h x b hb hP)
  rw [uses,hempty]
  exact Set.ncard_empty ℕ

theorem uses_pos (hf : Finitely f) (hx : f x = some b) (hb : P b) : 0 < uses f P :=
  (Set.ncard_pos (hf.places P)).mpr ⟨x,b,hx,hb⟩

/-- What is used once has one user. -/
theorem eq_of_uses_eq_one (h : uses f P = 1) {b' : β} (hx : f x = some b) (hb : P b) (hy : f y = some b') (hb' : P b') :
    x = y := by
  obtain ⟨z,hz⟩ := Set.ncard_eq_one.mp h
  have hxz : x ∈ places f P := ⟨b,hx,hb⟩
  have hyz : y ∈ places f P := ⟨b',hy,hb'⟩
  rw [hz] at hxz hyz
  exact hxz.trans hyz.symm

/-- A new entry brings its use. -/
theorem uses_put [DecidablePred P] (hf : Finitely f) (hx : f x = none) (b : β) :
    uses (Function.update f x (some b)) P = uses f P + (if P b then 1 else 0) := by
  have hnot : x ∉ places f P := by
    rintro ⟨b',hb',-⟩
    rw [hx] at hb'
    cases hb'
  have hother : ∀ z, z ≠ x → (z ∈ places (Function.update f x (some b)) P ↔ z ∈ places f P) := by
    intro z hz
    rw [places,Set.mem_ofPred_eq,Function.update_of_ne hz]
    exact Iff.rfl
  have hself : x ∈ places (Function.update f x (some b)) P ↔ P b := by
    rw [places,Set.mem_ofPred_eq,Function.update_self]
    exact ⟨fun ⟨b',hb',hP⟩ => Option.some.inj hb' ▸ hP,fun hP => ⟨b,rfl,hP⟩⟩
  by_cases hb : P b
  · have hset : places (Function.update f x (some b)) P = insert x (places f P) := by
      ext z
      rw [Set.mem_insert_iff]
      by_cases hz : z = x
      · exact iff_of_true (hz ▸ hself.mpr hb) (Or.inl hz)
      · rw [hother z hz]
        exact (or_iff_right hz).symm
    rw [if_pos hb,uses,hset]
    exact Set.ncard_insert_of_notMem hnot (hf.places P)
  · have hset : places (Function.update f x (some b)) P = places f P := by
      ext z
      by_cases hz : z = x
      · rw [hz]
        exact iff_of_false (fun h => hb (hself.mp h)) hnot
      · exact hother z hz
    rw [if_neg hb,uses,hset]
    rfl

/-- An entry takes its use with it. -/
theorem uses_remove [DecidablePred P] (hf : Finitely f) (hx : f x = some b) :
    uses (Function.update f x none) P + (if P b then 1 else 0) = uses f P := by
  rw [← uses_put (hf.update x none) (Function.update_self x none f) b,Function.update_idem,← hx,Function.update_eq_self]

end Edelib.Foundation
