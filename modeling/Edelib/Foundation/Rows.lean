import Mathlib.Algebra.Order.Ring.Int
import Mathlib.Data.List.Basic

/-! # Boxes in rows

Boxes are put one after another from the left. One that does not fit opens a row, which is under the row before
by its own height.
-/
namespace Edelib.Foundation.Rows

structure Box where
  left : ℤ
  top : ℤ
  width : ℤ
  height : ℤ

namespace Box
variable (b c : Box)

def right : ℤ := b.left + b.width

def bottom : ℤ := b.top + b.height

def Before : Prop := b.top < c.top ∨ b.top = c.top ∧ b.right ≤ c.left

def Apart : Prop := b.right ≤ c.left ∨ c.right ≤ b.left ∨ b.bottom ≤ c.top ∨ c.bottom ≤ b.top

instance : Decidable (b.Apart c) := inferInstanceAs (Decidable (_ ∨ _ ∨ _ ∨ _))

end Box

/-- The boxes of some widths and heights from a place in a row that begins at `first`; none but the first box of a
row goes beyond `limit`. -/
def arrange (first limit gap : ℤ) : ℤ → ℤ → List (ℤ × ℤ) → List Box
  | _, _, [] => []
  | left, top, (w,h) :: sizes =>
    if left + w ≤ limit then ⟨left,top,w,h⟩ :: arrange first limit gap (left + (w + gap)) top sizes
    else ⟨first,top + (h + gap),w,h⟩ :: arrange first limit gap (first + (w + gap)) (top + (h + gap)) sizes

def reached (first limit gap : ℤ) : ℤ → ℤ → List (ℤ × ℤ) → ℤ
  | _, top, [] => top
  | left, top, (w,h) :: sizes =>
    if left + w ≤ limit then reached first limit gap (left + (w + gap)) top sizes
    else reached first limit gap (first + (w + gap)) (top + (h + gap)) sizes

variable {first limit gap left top : ℤ} {sizes : List (ℤ × ℤ)}

theorem arrange_fits {w h : ℤ} (hfits : left + w ≤ limit) : arrange first limit gap left top ((w,h) :: sizes) =
    ⟨left,top,w,h⟩ :: arrange first limit gap (left + (w + gap)) top sizes := if_pos hfits

theorem arrange_opens {w h : ℤ} (hfits : ¬ left + w ≤ limit) : arrange first limit gap left top ((w,h) :: sizes) =
    ⟨first,top + (h + gap),w,h⟩ :: arrange first limit gap (first + (w + gap)) (top + (h + gap)) sizes := if_neg hfits

theorem reached_fits {w h : ℤ} (hfits : left + w ≤ limit) : reached first limit gap left top ((w,h) :: sizes) =
    reached first limit gap (left + (w + gap)) top sizes := if_pos hfits

theorem reached_opens {w h : ℤ} (hfits : ¬ left + w ≤ limit) : reached first limit gap left top ((w,h) :: sizes) =
    reached first limit gap (first + (w + gap)) (top + (h + gap)) sizes := if_neg hfits

def Sizes (sizes : List (ℤ × ℤ)) : Prop := ∀ s ∈ sizes, 0 ≤ s.1 ∧ 0 ≤ s.2

theorem sizes_cons {w h : ℤ} : Sizes ((w,h) :: sizes) ↔ (0 ≤ w ∧ 0 ≤ h) ∧ Sizes sizes := List.forall_mem_cons

theorem arrange_sizes : (arrange first limit gap left top sizes).map (fun b => (b.width,b.height)) = sizes := by
  induction sizes generalizing left top with
  | nil => rfl
  | cons s sizes ih =>
    obtain ⟨w,h⟩ := s
    by_cases hfits : left + w ≤ limit
    · rw [arrange_fits hfits,List.map_cons,ih]
    · rw [arrange_opens hfits,List.map_cons,ih]

/-- What is still to be put is in the row at its left, or under it. -/
theorem arrange_after (hgap : 0 < gap) (hs : Sizes sizes) :
    ∀ b ∈ arrange first limit gap left top sizes, top < b.top ∨ top = b.top ∧ left ≤ b.left := by
  induction sizes generalizing left top with
  | nil => exact fun b hb => absurd hb List.not_mem_nil
  | cons s sizes ih =>
    obtain ⟨w,h⟩ := s
    obtain ⟨⟨hw,hh⟩,hs⟩ := sizes_cons.mp hs
    intro b hb
    by_cases hfits : left + w ≤ limit
    · rw [arrange_fits hfits,List.mem_cons] at hb
      obtain rfl | hb := hb
      · exact .inr ⟨rfl,le_rfl⟩
      · obtain hbelow | ⟨hrow,hleft⟩ := ih hs b hb
        · exact .inl hbelow
        · exact .inr ⟨hrow,by omega⟩
    · rw [arrange_opens hfits,List.mem_cons] at hb
      obtain rfl | hb := hb
      · left
        dsimp only
        omega
      · have hbelow := ih hs b hb
        left
        omega

theorem arrange_before (hgap : 0 < gap) (hs : Sizes sizes) :
    (arrange first limit gap left top sizes).Pairwise Box.Before := by
  induction sizes generalizing left top with
  | nil => exact .nil
  | cons s sizes ih =>
    obtain ⟨w,h⟩ := s
    have hrest := (sizes_cons.mp hs).2
    by_cases hfits : left + w ≤ limit
    · rw [arrange_fits hfits]
      refine .cons (fun b hb => ?_) (ih hrest)
      obtain hbelow | ⟨hrow,hleft⟩ := arrange_after hgap hrest b hb
      · exact .inl hbelow
      · exact .inr ⟨hrow,by rw [Box.right]; dsimp only; omega⟩
    · rw [arrange_opens hfits]
      refine .cons (fun b hb => ?_) (ih hrest)
      obtain hbelow | ⟨hrow,hleft⟩ := arrange_after hgap hrest b hb
      · exact .inl hbelow
      · exact .inr ⟨hrow,by rw [Box.right]; dsimp only; omega⟩

/-- A box fits into its row, or it is the first of it. -/
theorem arrange_fits_or (hgap : 0 < gap) (hs : Sizes sizes) {before after : List Box} {b : Box}
    (h : arrange first limit gap left top sizes = before ++ b :: after) :
    b.right ≤ limit ∨ b.left = first ∧ top < b.top ∧ ∀ c ∈ before, c.top < b.top := by
  induction sizes generalizing left top before with
  | nil =>
    rw [arrange] at h
    cases before <;> cases h
  | cons s sizes ih =>
    obtain ⟨w,height⟩ := s
    obtain ⟨⟨hw,hh⟩,hrest⟩ := sizes_cons.mp hs
    by_cases hfits : left + w ≤ limit
    · rw [arrange_fits hfits] at h
      cases before with
      | nil =>
        cases h
        exact .inl hfits
      | cons c before =>
        obtain ⟨rfl,hbox⟩ := List.cons.inj h
        obtain hin | ⟨hleft,htop,hall⟩ := ih hrest hbox
        · exact .inl hin
        · exact .inr ⟨hleft,htop,List.forall_mem_cons.mpr ⟨htop,hall⟩⟩
    · rw [arrange_opens hfits] at h
      cases before with
      | nil =>
        cases h
        exact .inr ⟨rfl,by dsimp only; omega,fun c hc => absurd hc List.not_mem_nil⟩
      | cons c before =>
        obtain ⟨rfl,hbox⟩ := List.cons.inj h
        obtain hin | ⟨hleft,htop,hall⟩ := ih hrest hbox
        · exact .inl hin
        · exact .inr ⟨hleft,lt_trans (by omega) htop,List.forall_mem_cons.mpr ⟨htop,hall⟩⟩

/-! ## Boxes of one height -/

variable {height : ℤ}

/-- A row of boxes of one height is over the next by the gap. -/
theorem arrange_under (hgap : 0 < gap) (hs : Sizes sizes) (heven : ∀ s ∈ sizes, s.2 = height) :
    ∀ b ∈ arrange first limit gap left top sizes, top = b.top ∨ top + (height + gap) ≤ b.top := by
  induction sizes generalizing left top with
  | nil => exact fun b hb => absurd hb List.not_mem_nil
  | cons s sizes ih =>
    obtain ⟨w,h⟩ := s
    obtain ⟨⟨-,hh⟩,hs⟩ := sizes_cons.mp hs
    obtain ⟨rfl,heven⟩ := List.forall_mem_cons.mp heven
    dsimp only at *
    intro b hb
    by_cases hfits : left + w ≤ limit
    · rw [arrange_fits hfits,List.mem_cons] at hb
      obtain rfl | hb := hb
      · exact .inl rfl
      · exact ih hs heven b hb
    · rw [arrange_opens hfits,List.mem_cons] at hb
      obtain rfl | hb := hb
      · exact .inr le_rfl
      · right
        have hbelow := ih hs heven b hb
        omega

theorem arrange_apart (hgap : 0 < gap) (hs : Sizes sizes) (heven : ∀ s ∈ sizes, s.2 = height) :
    (arrange first limit gap left top sizes).Pairwise Box.Apart := by
  induction sizes generalizing left top with
  | nil => exact .nil
  | cons s sizes ih =>
    obtain ⟨w,h⟩ := s
    have hrest := (sizes_cons.mp hs).2
    have heven' := (List.forall_mem_cons.mp heven).2
    have hh : h = height := heven (w,h) List.mem_cons_self
    by_cases hfits : left + w ≤ limit
    · rw [arrange_fits hfits]
      refine .cons (fun b hb => ?_) (ih hrest heven')
      have hafter := arrange_after hgap hrest b hb
      have hunder := arrange_under hgap hrest heven' b hb
      rw [Box.Apart,Box.right,Box.bottom]
      dsimp only
      omega
    · rw [arrange_opens hfits]
      refine .cons (fun b hb => ?_) (ih hrest heven')
      have hafter := arrange_after hgap hrest b hb
      have hunder := arrange_under hgap hrest heven' b hb
      rw [Box.Apart,Box.right,Box.bottom]
      dsimp only
      omega

theorem le_reached (hgap : 0 < gap) (hs : Sizes sizes) : top ≤ reached first limit gap left top sizes := by
  induction sizes generalizing left top with
  | nil => exact le_rfl
  | cons s sizes ih =>
    obtain ⟨w,h⟩ := s
    obtain ⟨⟨-,hh⟩,hs⟩ := sizes_cons.mp hs
    by_cases hfits : left + w ≤ limit
    · rw [reached_fits hfits]
      exact ih hs
    · rw [reached_opens hfits]
      exact le_trans (by omega) (ih hs)

/-- No box is under the row that is reached. -/
theorem top_le_reached (hgap : 0 < gap) (hs : Sizes sizes) :
    ∀ b ∈ arrange first limit gap left top sizes, b.top ≤ reached first limit gap left top sizes := by
  induction sizes generalizing left top with
  | nil => exact fun b hb => absurd hb List.not_mem_nil
  | cons s sizes ih =>
    obtain ⟨w,h⟩ := s
    have hrest := (sizes_cons.mp hs).2
    intro b hb
    by_cases hfits : left + w ≤ limit
    · rw [arrange_fits hfits,List.mem_cons] at hb
      rw [reached_fits hfits]
      obtain rfl | hb := hb
      · exact le_reached hgap hrest
      · exact ih hrest b hb
    · rw [arrange_opens hfits,List.mem_cons] at hb
      rw [reached_opens hfits]
      obtain rfl | hb := hb
      · exact le_reached hgap hrest
      · exact ih hrest b hb

end Edelib.Foundation.Rows
