import Mathlib.Data.List.Basic

/-! # Consumers

A consumer takes elements from the front of a list, or fails. One that goes forward leaves no more than there was.
-/
namespace Edelib.Foundation

abbrev Consumer (ε τ : Type) := StateT (List τ) (Except ε)

namespace Consumer
variable {ε τ α β : Type}

def Forward (p : Consumer ε τ α) : Prop := ∀ s a r, p s = .ok (a,r) → r.length ≤ s.length

theorem bind_eq {p : Consumer ε τ α} {f : α → Consumer ε τ β} {s r : List τ} {a : α} (h : p s = .ok (a,r)) :
    (p >>= f) s = f a r := by
  change (p s >>= fun q => f q.1 q.2) = f a r
  rw [h]
  rfl

theorem bind_eq_ok {p : Consumer ε τ α} {f : α → Consumer ε τ β} {s r : List τ} {b : β} :
    (p >>= f) s = .ok (b,r) ↔ ∃ a r', p s = .ok (a,r') ∧ f a r' = .ok (b,r) := by
  constructor
  · intro h
    change (p s >>= fun q => f q.1 q.2) = .ok (b,r) at h
    cases hp : p s with
    | error e =>
      rw [hp] at h
      cases h
    | ok q =>
      rw [hp] at h
      exact ⟨q.1,q.2,rfl,h⟩
  · rintro ⟨a,r',hp,hf⟩
    rw [bind_eq hp,hf]

theorem forward_pure (a : α) : Forward (pure a : Consumer ε τ α) := by
  rintro s b r ⟨⟩
  exact Nat.le_refl _

theorem forward_throw (e : ε) : Forward (throw e : Consumer ε τ α) := by
  rintro s b r ⟨⟩

theorem Forward.bind {p : Consumer ε τ α} {f : α → Consumer ε τ β} (hp : Forward p) (hf : ∀ a, Forward (f a)) :
    Forward (p >>= f) := by
  intro s b r h
  obtain ⟨a,r',ha,hb⟩ := bind_eq_ok.mp h
  exact Nat.le_trans (hf a r' b r hb) (hp s a r' ha)

theorem Forward.ite {c : Prop} [Decidable c] {p q : Consumer ε τ α} (hp : Forward p) (hq : Forward q) :
    Forward (if c then p else q) := by
  split_ifs
  · exact hp
  · exact hq

end Consumer
end Edelib.Foundation
