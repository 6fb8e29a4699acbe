import Mathlib.Data.List.Basic
import Mathlib.Logic.Function.Basic

/-! # Paths along links

Nodes that are linked one way, from one end to what is behind the last of them.
-/
namespace Edelib.Foundation

def Path {α : Type*} (next : α → α) : α → List α → α → Prop
  | p,[],q => p = q
  | p,x :: l,q => p = x ∧ Path next (next x) l q

namespace Path
variable {α : Type*} {next next' : α → α} {p q r x : α} {l l₁ l₂ : List α}

theorem congr (hsame : ∀ x ∈ l, next' x = next x) (h : Path next p l q) : Path next' p l q := by
  induction l generalizing p with
  | nil => exact h
  | cons x l ih =>
    obtain ⟨rfl,hrest⟩ := h
    obtain ⟨hx,hothers⟩ := List.forall_mem_cons.mp hsame
    exact ⟨rfl,by rw [hx]; exact ih hothers hrest⟩

theorem append_iff : Path next p (l₁ ++ l₂) q ↔ ∃ r, Path next p l₁ r ∧ Path next r l₂ q := by
  induction l₁ generalizing p with
  | nil => exact ⟨fun h => ⟨p,rfl,h⟩,fun ⟨r,hr,h⟩ => hr ▸ h⟩
  | cons x l₁ ih =>
    constructor
    · rintro ⟨rfl,hrest⟩
      obtain ⟨r,h₁,h₂⟩ := ih.mp hrest
      exact ⟨r,⟨rfl,h₁⟩,h₂⟩
    · rintro ⟨r,⟨rfl,h₁⟩,h₂⟩
      exact ⟨rfl,ih.mpr ⟨r,h₁,h₂⟩⟩

theorem snoc_iff : Path next p (l ++ [x]) q ↔ Path next p l x ∧ next x = q := by
  rw [append_iff]
  constructor
  · rintro ⟨r,h,rfl,hlast⟩
    exact ⟨h,hlast⟩
  · rintro ⟨h,hlast⟩
    exact ⟨x,h,rfl,hlast⟩

theorem unique (h : Path next p l q) (h' : Path next p l r) : q = r := by
  induction l generalizing p with
  | nil => exact h.symm.trans h'
  | cons x l ih => exact ih h.2 h'.2

theorem head (h : Path next p (x :: l) q) : p = x := h.1

theorem tail (h : Path next p (x :: l) q) : Path next (next x) l q := h.2

/-- The last link may lead elsewhere. -/
theorem redirect [DecidableEq α] (h : Path next p (l ++ [x]) q) (hx : x ∉ l) (r : α) :
    Path (Function.update next x r) p (l ++ [x]) r := by
  obtain ⟨hpath,-⟩ := snoc_iff.mp h
  refine snoc_iff.mpr ⟨hpath.congr (fun y hy => ?_),Function.update_self ..⟩
  have hne : y ≠ x := by
    rintro rfl
    exact hx hy
  exact Function.update_of_ne hne ..

end Path

/-- Over numbers in a row, the last of which leads elsewhere. -/
theorem path_range' {next : ℕ → ℕ} {s n r : ℕ} (h : ∀ i, s ≤ i → i < s + n → next i = i + 1) (hlast : next (s + n) = r) :
    Path next s (List.range' s (n + 1)) r := by
  induction n generalizing s with
  | zero => exact ⟨rfl,hlast⟩
  | succ n ih =>
    have hsum : s + (n + 1) = s + 1 + n := by omega
    refine ⟨rfl,?_⟩
    rw [h s (Nat.le_refl s) (by omega)]
    exact ih (fun i hi hlt => h i (by omega) (by omega)) (hsum ▸ hlast)

end Edelib.Foundation
