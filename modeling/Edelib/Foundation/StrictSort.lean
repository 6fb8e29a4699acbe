import Mathlib.Algebra.Order.Ring.Int
import Mathlib.Order.Defs.Unbundled
import Mathlib.Data.List.Basic
import Mathlib.Tactic.Common

/-! # Sorting by a strict comparison

A merge sort takes the element of the left half where the comparison says so. With a strict
comparison a tie goes to the right half, and ties come out in reverse: the result is the
stable sort of the reversed list.
-/
namespace Edelib.Foundation.StrictSort
variable {α : Type*} (cmp : α → α → Bool)

def notAfter (a b : α) : Bool := !cmp b a

def tied (a b : α) : Bool := !cmp a b && !cmp b a

def stableSort (xs : List α) : List α := xs.mergeSort (notAfter cmp)

variable {cmp} {xs ys : List α}

theorem tied_iff {a b : α} : tied cmp a b = true ↔ notAfter cmp a b = true ∧ notAfter cmp b a = true := by
  simp only [tied,notAfter,Bool.and_eq_true]
  exact and_comm

theorem tied_symm {a b : α} (h : tied cmp a b = true) : tied cmp b a = true := tied_iff.mpr (tied_iff.mp h).symm

theorem stableSort_perm (xs : List α) : (stableSort cmp xs).Perm xs := List.mergeSort_perm xs _

/-- A list of two or more elements is sorted by halves. -/
theorem mergeSort_halves (hxs : 2 ≤ xs.length) : xs.mergeSort cmp =
    ((xs.take ((xs.length + 1) / 2)).mergeSort cmp).merge ((xs.drop ((xs.length + 1) / 2)).mergeSort cmp) cmp := by
  match xs with
  | a :: b :: xs =>
    rw [List.mergeSort]
    simp

section Order
variable [ho : IsStrictWeakOrder α (fun a b => cmp a b = true)]

theorem notAfter_trans (a b c : α) (hab : notAfter cmp a b = true) (hbc : notAfter cmp b c = true) :
    notAfter cmp a c = true := by
  simp only [notAfter,Bool.not_eq_true'] at *
  by_contra hca
  have hca : cmp c a = true := by simpa using hca
  have hnab : ¬ cmp a b = true := fun h => by simpa [hbc] using ho.trans c a b hca h
  have hnbc : ¬ cmp b c = true := fun h => by simpa [hab] using ho.trans b c a h hca
  exact (ho.incomp_trans a b c ⟨hnab,by simp [hab]⟩ ⟨hnbc,by simp [hbc]⟩).2 hca

theorem notAfter_total (a b : α) : (notAfter cmp a b || notAfter cmp b a) = true := by
  by_contra h
  simp only [notAfter,Bool.or_eq_true,Bool.not_eq_true',not_or,Bool.not_eq_false] at h
  exact ho.irrefl a (ho.trans a b a h.2 h.1)

theorem tied_self (a : α) : tied cmp a a = true := by
  have h : cmp a a = false := by simpa using ho.irrefl a
  simp [tied,h]

theorem tied_trans {a b c : α} (hab : tied cmp a b = true) (hbc : tied cmp b c = true) : tied cmp a c = true := by
  obtain ⟨h₁,h₂⟩ := tied_iff.mp hab
  obtain ⟨h₃,h₄⟩ := tied_iff.mp hbc
  exact tied_iff.mpr ⟨notAfter_trans a b c h₁ h₃,notAfter_trans c b a h₄ h₂⟩

theorem pairwise_stableSort (xs : List α) : (stableSort cmp xs).Pairwise (fun a b => notAfter cmp a b = true) :=
  List.pairwise_mergeSort notAfter_trans notAfter_total xs

/-- Tied elements keep their order. -/
theorem filter_stableSort (xs : List α) (a : α) :
    (stableSort cmp xs).filter (tied cmp a) = xs.filter (tied cmp a) := by
  have hties : (xs.filter (tied cmp a)).Pairwise (fun b c => notAfter cmp b c = true) := by
    refine List.pairwise_of_forall_mem_list fun b hb c hc => ?_
    have hba := tied_symm (List.mem_filter.mp hb).2
    exact (tied_iff.mp (tied_trans hba (List.mem_filter.mp hc).2)).1
  have hsub := (List.sublist_mergeSort notAfter_trans notAfter_total hties List.filter_sublist).filter (tied cmp a)
  rw [List.filter_filter] at hsub
  simp only [Bool.and_self] at hsub
  exact (hsub.eq_of_length_le ((stableSort_perm xs).filter _).length_eq.le).symm

/-- Two sorted lists with the same ties are the same. -/
theorem eq_of_filter_eq (hxs : xs.Pairwise (fun a b => notAfter cmp a b = true))
    (hys : ys.Pairwise (fun a b => notAfter cmp a b = true))
    (h : ∀ a, xs.filter (tied cmp a) = ys.filter (tied cmp a)) : xs = ys := by
  have hmem : ∀ {xs ys : List α}, (∀ a, xs.filter (tied cmp a) = ys.filter (tied cmp a)) → xs ⊆ ys := by
    intro xs ys h a ha
    have hmem := List.mem_filter.mpr ⟨ha,@tied_self α cmp _ a⟩
    rw [h a] at hmem
    exact (List.mem_filter.mp hmem).1
  induction xs generalizing ys with
  | nil => exact (List.eq_nil_iff_forall_not_mem.mpr fun a ha => List.not_mem_nil (hmem (fun a => (h a).symm) ha)).symm
  | cons x xs ih =>
    obtain ⟨hx,hxs'⟩ := List.pairwise_cons.mp hxs
    cases ys with
    | nil => exact absurd (hmem h List.mem_cons_self) List.not_mem_nil
    | cons y ys =>
      obtain ⟨hy,hys'⟩ := List.pairwise_cons.mp hys
      have hfirst : ∀ {z w : α} {zs : List α}, (∀ b ∈ zs, notAfter cmp z b = true) → w ∈ z :: zs →
          notAfter cmp z w = true := by
        intro z w zs hz hw
        rcases List.mem_cons.mp hw with rfl | hw
        · exact (tied_iff.mp (tied_self w)).1
        · exact hz w hw
      have hxy : tied cmp x y = true := tied_iff.mpr
        ⟨hfirst hx (hmem (fun a => (h a).symm) List.mem_cons_self),hfirst hy (hmem h List.mem_cons_self)⟩
      have hhead := h x
      rw [List.filter_cons_of_pos (tied_self x),List.filter_cons_of_pos hxy] at hhead
      obtain ⟨rfl,-⟩ := List.cons.inj hhead
      refine congrArg (x :: ·) (ih hxs' hys' fun a => ?_)
      have hrest := h a
      by_cases hax : tied cmp a x = true
      · rw [List.filter_cons_of_pos hax,List.filter_cons_of_pos hax] at hrest
        exact (List.cons.inj hrest).2
      · rwa [List.filter_cons_of_neg hax,List.filter_cons_of_neg hax] at hrest

/-! ## Merging with a strict comparison -/

theorem filter_merge (hxs : xs.Pairwise (fun a b => notAfter cmp a b = true))
    (hys : ys.Pairwise (fun a b => notAfter cmp a b = true)) (a : α) :
    (xs.merge ys cmp).filter (tied cmp a) = ys.filter (tied cmp a) ++ xs.filter (tied cmp a) := by
  induction xs generalizing ys with
  | nil => simp
  | cons x xs ihx =>
    obtain ⟨hx,hxs'⟩ := List.pairwise_cons.mp hxs
    induction ys with
    | nil => simp
    | cons y ys ihy =>
      obtain ⟨hy,hys'⟩ := List.pairwise_cons.mp hys
      by_cases hxy : cmp x y = true
      · -- nothing from `y` on is tied with what `x` is tied with
        have hnone : tied cmp a x = true → (y :: ys).filter (tied cmp a) = [] := by
          intro hax
          refine List.filter_eq_nil_iff.mpr fun z hz haz => ?_
          have hyz : notAfter cmp y z = true := by
            rcases List.mem_cons.mp hz with rfl | hz
            · exact (tied_iff.mp (tied_self _)).1
            · exact hy z hz
          have hzx := (tied_iff.mp (tied_trans (tied_symm haz) hax)).1
          have hyx := notAfter_trans y z x hyz hzx
          simp [notAfter,hxy] at hyx
        rw [List.cons_merge_cons_pos cmp _ _ hxy]
        by_cases hax : tied cmp a x = true
        · rw [List.filter_cons_of_pos hax,ihx hxs' hys,hnone hax,List.nil_append,List.nil_append,
            List.filter_cons_of_pos hax]
        · rw [List.filter_cons_of_neg hax,ihx hxs' hys,List.filter_cons_of_neg hax (l := xs)]
      · rw [List.cons_merge_cons_neg cmp _ _ hxy]
        by_cases hay : tied cmp a y = true
        · rw [List.filter_cons_of_pos hay,ihy hys',List.filter_cons_of_pos hay,List.cons_append]
        · rw [List.filter_cons_of_neg hay,ihy hys',List.filter_cons_of_neg hay]

omit ho in
/-- Taking the left element where it is less is taking the right one where it is not after. -/
theorem merge_swap (xs ys : List α) : xs.merge ys cmp = ys.merge xs (notAfter cmp) := by
  induction xs generalizing ys with
  | nil => simp
  | cons x xs ihx =>
    induction ys with
    | nil => simp
    | cons y ys ihy =>
      rw [List.cons_merge_cons,List.cons_merge_cons,ihx,ihy]
      cases hxy : cmp x y <;> simp [notAfter,hxy]

theorem pairwise_merge (hxs : xs.Pairwise (fun a b => notAfter cmp a b = true))
    (hys : ys.Pairwise (fun a b => notAfter cmp a b = true)) :
    (xs.merge ys cmp).Pairwise (fun a b => notAfter cmp a b = true) := by
  rw [merge_swap]
  exact List.pairwise_merge notAfter_trans notAfter_total ys xs hys hxs

/-- Ties come out in reverse. -/
theorem mergeSort_spec (xs : List α) : (xs.mergeSort cmp).Pairwise (fun a b => notAfter cmp a b = true) ∧
    ∀ a, (xs.mergeSort cmp).filter (tied cmp a) = (xs.filter (tied cmp a)).reverse := by
  induction hn : xs.length using Nat.strong_induction_on generalizing xs with
  | h n ih =>
    rcases Nat.lt_or_ge xs.length 2 with hlt | hge
    · match xs with
      | [] => simp
      | [x] =>
        refine ⟨by simp,fun a => ?_⟩
        by_cases hax : tied cmp a x = true <;> simp [hax]
    · have htake : (xs.take ((xs.length + 1) / 2)).length < n := by
        rw [List.length_take]
        omega
      have hdrop : (xs.drop ((xs.length + 1) / 2)).length < n := by
        rw [List.length_drop]
        omega
      obtain ⟨hl,hlties⟩ := ih _ htake _ rfl
      obtain ⟨hr,hrties⟩ := ih _ hdrop _ rfl
      rw [mergeSort_halves hge]
      refine ⟨pairwise_merge hl hr,fun a => ?_⟩
      rw [filter_merge hl hr,hlties,hrties,← List.reverse_append,← List.filter_append,List.take_append_drop]

/-- The two sorts agree exactly where ties read the same backwards. -/
theorem mergeSort_eq_stableSort_iff (xs : List α) :
    xs.mergeSort cmp = stableSort cmp xs ↔ ∀ a, (xs.filter (tied cmp a)).reverse = xs.filter (tied cmp a) := by
  obtain ⟨hsorted,hties⟩ := @mergeSort_spec α cmp _ xs
  constructor
  · intro h a
    rw [← hties,h,filter_stableSort]
  · intro h
    refine eq_of_filter_eq hsorted (pairwise_stableSort xs) fun a => ?_
    rw [hties,h,filter_stableSort]

/-- A list is its own stable sort exactly if it is sorted. -/
theorem eq_stableSort_iff (xs : List α) :
    xs = stableSort cmp xs ↔ xs.Pairwise (fun a b => notAfter cmp a b = true) := by
  constructor
  · intro h
    rw [h]
    exact pairwise_stableSort xs
  · intro h
    exact (List.mergeSort_of_pairwise h).symm

end Order
end Edelib.Foundation.StrictSort
