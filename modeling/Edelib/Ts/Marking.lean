import Edelib.Ts.Cells
import Mathlib.Data.Finset.Card
import Mathlib.Logic.Relation

/-! # What is marked

From an unmarked cell the algorithm marks what can be reached from it over cells that are not marked, and puts every link
back. On the way the links of the cells it came over are turned round, but those are marked, and nothing is read of a
marked cell until the way back. Each cell takes four steps at most.
-/
namespace Edelib.Ts
open Relation

def Within (cells : Cells) (v y : ℕ) : Prop := (cells v).type = .vector ∧ v < y ∧ y ≤ v + (cells v).elems

def Edge (cells : Cells) (x y : ℕ) : Prop :=
  Within cells x y ∨ (cells x).atom = false ∧ y ≠ 0 ∧ (y = (cells x).car ∨ y = (cells x).cdr)

/-- The links stay among these cells, and the cells inside a vector are linked from its first one only. -/
structure Shape (dom : Finset ℕ) (cells : Cells) : Prop where
  nonnull : 0 ∉ dom
  link : ∀ x ∈ dom, ∀ y, Edge cells x y → y ∈ dom
  atom : ∀ v ∈ dom, (cells v).type = .vector → (cells v).atom = true
  inside : ∀ v ∈ dom, ∀ y, Within cells v y → ∀ x ∈ dom, Edge cells x y → x = v
  plain : ∀ v ∈ dom, ∀ y, Within cells v y → (cells y).type ≠ .vector

def marked (cells : Cells) (m : Finset ℕ) : Cells := fun x => if x ∈ m then { cells x with mark := true } else cells x

variable {dom m m₁ m₂ : Finset ℕ} {g cells : Cells} {p q t v x y a : ℕ} {c : Cell} {n steps : ℕ}
  {starts starts₁ starts₂ : ℕ → Prop} {f : ℕ → Bool}

/-! ## Sets of marks -/

theorem marked_of_notMem (h : x ∉ m) : marked cells m x = cells x := if_neg h

theorem marked_of_mem (h : x ∈ m) : marked cells m x = { cells x with mark := true } := if_pos h

theorem marked_empty : marked cells ∅ = cells := funext (fun _ => if_neg (Finset.notMem_empty _))

theorem isMark_marked : isMark (marked cells m) x = (decide (x ∈ m) || isMark cells x) := by
  by_cases h : x ∈ m
  · rw [isMark,marked_of_mem h,decide_eq_true h,Bool.true_or]
  · rw [isMark,marked_of_notMem h,decide_eq_false h,Bool.false_or,isMark]

theorem isMark_marked_eq_false : isMark (marked cells m) x = false ↔ x ∉ m ∧ isMark cells x = false := by
  rw [isMark_marked,Bool.or_eq_false_iff,decide_eq_false_iff_not]

theorem marked_marked : marked (marked cells m₁) m₂ = marked cells (m₁ ∪ m₂) := by
  funext x
  by_cases h₁ : x ∈ m₁ <;> by_cases h₂ : x ∈ m₂ <;> simp [marked,h₁,h₂]

theorem setMark_eq : setMark cells p = marked cells {p} := by
  funext x
  by_cases h : x = p
  · rw [h,setMark,put,Function.update_self,marked_of_mem (Finset.mem_singleton_self p)]
  · rw [setMark,put,Function.update_of_ne h,marked_of_notMem (by rwa [Finset.mem_singleton])]

theorem put_self (cells : Cells) (p : ℕ) : put cells p (cells p) = cells := Function.update_eq_self p cells

theorem put_put (cells : Cells) (p : ℕ) (c c' : Cell) : put (put cells p c) p c' = put cells p c' :=
  Function.update_idem ..

theorem put_apply_self (cells : Cells) (p : ℕ) (c : Cell) : put cells p c p = c := Function.update_self ..

theorem put_of_ne (h : x ≠ p) : put cells p c x = cells x := Function.update_of_ne h ..

theorem marked_put (h : p ∉ m) : marked (put cells p c) m = put (marked cells m) p c := by
  funext x
  by_cases hx : x = p
  · rw [hx,marked_of_notMem h,put_apply_self,put_apply_self]
  · rw [put_of_ne hx,marked,marked,put_of_ne hx]

theorem isMark_put (hp : isMark cells p = true) (hc : c.mark = true) : isMark (put cells p c) x = isMark cells x := by
  by_cases hx : x = p
  · rw [hx,hp,isMark,put_apply_self,hc]
  · rw [isMark,put_of_ne hx,isMark]

/-! ## What a visit does -/

structure Visited (dom : Finset ℕ) (g : Cells) (f : ℕ → Bool) (starts : ℕ → Prop) (m : Finset ℕ) :
    Prop where
  sub : m ⊆ dom
  fresh : ∀ x ∈ m, f x = false
  all : ∀ a, starts a → a ∈ m ∨ f a = true
  reach : ∀ x ∈ m, ∃ a, starts a ∧ ReflTransGen (Edge g) a x
  closed : ∀ x ∈ m, ∀ y, Edge g x y → y ∈ m ∨ f y = true
  back : ∀ x ∈ m, starts x ∨ ∃ y ∈ m, Edge g y x

namespace Visited

theorem none (hstarts : ∀ a, starts a → f a = true) : Visited dom g f starts ∅ where
  sub := Finset.empty_subset _
  fresh _ hx := absurd hx (Finset.notMem_empty _)
  all a ha := .inr (hstarts a ha)
  reach _ hx := absurd hx (Finset.notMem_empty _)
  closed _ hx := absurd hx (Finset.notMem_empty _)
  back _ hx := absurd hx (Finset.notMem_empty _)

/-- One visit after another. -/
theorem union (h₁ : Visited dom g f starts₁ m₁) (h₂ : Visited dom g (fun x => decide (x ∈ m₁) || f x) starts₂ m₂) :
    Visited dom g f (fun a => starts₁ a ∨ starts₂ a) (m₁ ∪ m₂) ∧ (m₁ ∪ m₂).card = m₁.card + m₂.card := by
  have hfresh : ∀ x ∈ m₂, x ∉ m₁ ∧ f x = false := fun x hx => by
    have := h₂.fresh x hx
    rwa [Bool.or_eq_false_iff,decide_eq_false_iff_not] at this
  have hmarked : ∀ y, y ∈ m₂ ∨ (decide (y ∈ m₁) || f y) = true → y ∈ m₁ ∪ m₂ ∨ f y = true := by
    intro y hy
    rw [Bool.or_eq_true,decide_eq_true_iff] at hy
    rw [Finset.mem_union]
    tauto
  refine ⟨⟨Finset.union_subset h₁.sub h₂.sub,?_,?_,?_,?_,?_⟩,Finset.card_union_of_disjoint ?_⟩
  · intro x hx
    exact (Finset.mem_union.mp hx).elim (h₁.fresh x) (fun hx => (hfresh x hx).2)
  · rintro a (ha | ha)
    · exact (h₁.all a ha).imp_left (Finset.mem_union_left _)
    · exact hmarked a (h₂.all a ha)
  · intro x hx
    rcases Finset.mem_union.mp hx with hx | hx
    · obtain ⟨a,ha,hr⟩ := h₁.reach x hx
      exact ⟨a,.inl ha,hr⟩
    · obtain ⟨a,ha,hr⟩ := h₂.reach x hx
      exact ⟨a,.inr ha,hr⟩
  · intro x hx y hy
    rcases Finset.mem_union.mp hx with hx | hx
    · exact (h₁.closed x hx y hy).imp_left (Finset.mem_union_left _)
    · exact hmarked y (h₂.closed x hx y hy)
  · intro x hx
    rcases Finset.mem_union.mp hx with hx | hx
    · exact (h₁.back x hx).imp .inl (fun ⟨y,hy,hedge⟩ => ⟨y,Finset.mem_union_left _ hy,hedge⟩)
    · exact (h₂.back x hx).imp .inr (fun ⟨y,hy,hedge⟩ => ⟨y,Finset.mem_union_right _ hy,hedge⟩)
  · exact Finset.disjoint_left.mpr (fun x hx₁ hx₂ => (hfresh x hx₂).1 hx₁)

/-- A cell is marked, and what is linked from it is visited. -/
theorem cell (hp : p ∈ dom) (hfresh : f p = false) (h : Visited dom g (fun x => decide (x ∈ ({p} : Finset ℕ)) || f x)
    (Edge g p) m) : Visited dom g f (fun a => a = p) ({p} ∪ m) ∧ ({p} ∪ m).card = 1 + m.card := by
  have hnew : ∀ x ∈ m, x ≠ p ∧ f x = false := fun x hx => by
    have := h.fresh x hx
    rwa [Bool.or_eq_false_iff,decide_eq_false_iff_not,Finset.mem_singleton] at this
  have hmarked : ∀ y, y ∈ m ∨ (decide (y ∈ ({p} : Finset ℕ)) || f y) = true → y ∈ {p} ∪ m ∨ f y = true := by
    intro y hy
    rw [Bool.or_eq_true,decide_eq_true_iff] at hy
    rw [Finset.mem_union]
    tauto
  refine ⟨⟨?_,?_,?_,?_,?_,?_⟩,?_⟩
  · exact Finset.union_subset (Finset.singleton_subset_iff.mpr hp) h.sub
  · intro x hx
    rcases Finset.mem_union.mp hx with hx | hx
    · rwa [Finset.mem_singleton.mp hx]
    · exact (hnew x hx).2
  · rintro a rfl
    exact .inl (Finset.mem_union_left _ (Finset.mem_singleton_self a))
  · intro x hx
    refine ⟨p,rfl,?_⟩
    rcases Finset.mem_union.mp hx with hx | hx
    · rw [Finset.mem_singleton.mp hx]
    · obtain ⟨a,ha,hr⟩ := h.reach x hx
      exact .head ha hr
  · intro x hx y hy
    rcases Finset.mem_union.mp hx with hx | hx
    · rw [Finset.mem_singleton.mp hx] at hy
      exact hmarked y (h.all y hy)
    · exact hmarked y (h.closed x hx y hy)
  · intro x hx
    rcases Finset.mem_union.mp hx with hx | hx
    · exact .inl (Finset.mem_singleton.mp hx)
    · rcases h.back x hx with hstart | ⟨y,hy,hedge⟩
      · exact .inr ⟨p,Finset.mem_union_left _ (Finset.mem_singleton_self p),hstart⟩
      · exact .inr ⟨y,Finset.mem_union_right _ hy,hedge⟩
  · rw [Finset.card_union_of_disjoint,Finset.card_singleton]
    exact Finset.disjoint_singleton_left.mpr (fun hmem => (hnew p hmem).1 rfl)

theorem congr (h : Visited dom g f starts₁ m) (hiff : ∀ a, starts₂ a ↔ starts₁ a) : Visited dom g f starts₂ m := by
  have heq : starts₂ = starts₁ := funext (fun a => propext (hiff a))
  rwa [heq]

end Visited

/-! ## The algorithm visits -/

/-- In the middle of the algorithm: what is not marked is as it was, and the cells inside a vector are not marked before
its first one. -/
structure Partial (dom : Finset ℕ) (g cells : Cells) : Prop where
  same : ∀ x, isMark cells x = false → cells x = g x
  whole : ∀ v ∈ dom, ∀ y, Within g v y → isMark cells v = false → isMark cells y = false

namespace Partial

/-- A link of a marked cell may be turned. -/
theorem put (h : Partial dom g cells) (hp : isMark cells p = true) (hc : c.mark = true) : Partial dom g (put cells p c) := by
  constructor
  · intro x hx
    rw [isMark_put hp hc] at hx
    have hne : x ≠ p := by
      rintro rfl
      rw [hp] at hx
      cases hx
    rw [put_of_ne hne,h.same x hx]
  · intro v hv y hy hmark
    rw [isMark_put hp hc] at hmark ⊢
    exact h.whole v hv y hy hmark

theorem marked (hshape : Shape dom g) (h : Partial dom g cells) (hm : Visited dom g (isMark cells) starts m)
    (hstarts : ∀ a, starts a → ∀ v ∈ dom, Within g v a → isMark cells v = true ∨ v ∈ m) :
    Partial dom g (marked cells m) := by
  constructor
  · intro x hx
    obtain ⟨hnot,hx⟩ := isMark_marked_eq_false.mp hx
    rw [marked_of_notMem hnot,h.same x hx]
  · intro v hv y hy hmark
    obtain ⟨hnot,hmark⟩ := isMark_marked_eq_false.mp hmark
    refine isMark_marked_eq_false.mpr ⟨fun hmem => ?_,h.whole v hv y hy hmark⟩
    rcases hm.back y hmem with hstart | ⟨x,hx,hedge⟩
    · rcases hstarts y hstart v hv hy with hv' | hv'
      · rw [hmark] at hv'
        cases hv'
      · exact hnot hv'
    · rw [hshape.inside v hv y hy x (hm.sub hx) hedge] at hx
      exact hnot hx

end Partial

def unmarked (dom : Finset ℕ) (cells : Cells) : ℕ := (dom.filter (fun x => isMark cells x = false)).card

theorem unmarked_marked_lt (hsub : m ⊆ dom) (hfresh : ∀ x ∈ m, isMark cells x = false) (hp : p ∈ m) :
    unmarked dom (marked cells m) < unmarked dom cells := by
  refine Finset.card_lt_card ⟨?_,fun hsub' => ?_⟩
  · intro x hx
    obtain ⟨hdom,hx⟩ := Finset.mem_filter.mp hx
    exact Finset.mem_filter.mpr ⟨hdom,(isMark_marked_eq_false.mp hx).2⟩
  · have hmem := hsub' (Finset.mem_filter.mpr ⟨hsub hp,hfresh p hp⟩)
    exact (isMark_marked_eq_false.mp (Finset.mem_filter.mp hmem).2).1 hp

theorem unmarked_marked_le (cells : Cells) (m : Finset ℕ) : unmarked dom (marked cells m) ≤ unmarked dom cells :=
  Finset.card_le_card (fun x hx => by
    obtain ⟨hdom,hx⟩ := Finset.mem_filter.mp hx
    exact Finset.mem_filter.mpr ⟨hdom,(isMark_marked_eq_false.mp hx).2⟩)

theorem unmarked_put (hp : isMark cells p = true) (hc : c.mark = true) :
    unmarked dom (put cells p c) = unmarked dom cells := by
  rw [unmarked,unmarked]
  congr 1
  exact Finset.filter_congr (fun x _ => by rw [isMark_put hp hc])

/-- From every cell that is not marked the algorithm visits, as long as no more cells than these are left. -/
def VisitsBelow (dom : Finset ℕ) (g : Cells) (n : ℕ) : Prop :=
  ∀ cells t p, Partial dom g cells → p ∈ dom → isMark cells p = false → (∀ v ∈ dom, Within g v p → isMark cells v = true) →
    unmarked dom cells < n → ∃ m k, Visited dom g (isMark cells) (fun a => a = p) m ∧ k ≤ 4 * m.card ∧
      ∀ s, 4 * m.card + 1 ≤ s + k → markLoop (s + k) .e2 cells t p = markLoop s .e6 (marked cells m) t p

/-- The cells inside a vector, one after another. -/
theorem VisitsBelow.elems (hshape : Shape dom g) (hvisits : VisitsBelow dom g n) {es : List ℕ} (hv : v ∈ dom)
    (hmark : isMark cells v = true) (hpart : Partial dom g cells) (hes : ∀ e ∈ es, Within g v e) (hnodup : es.Nodup)
    (hfresh : ∀ e ∈ es, isMark cells e = false) (hn : unmarked dom cells < n) :
    ∃ m, Visited dom g (isMark cells) (fun a => a ∈ es) m ∧ ∀ steps, 4 * m.card + 1 ≤ steps →
      es.foldlM (fun cells e => markLoop steps .e2 cells 0 e) cells = some (marked cells m) := by
  induction es generalizing cells with
  | nil => exact ⟨∅,.none (fun a ha => absurd ha List.not_mem_nil),fun steps _ => by rw [marked_empty]; rfl⟩
  | cons e es ih =>
    obtain ⟨he,hes'⟩ := List.forall_mem_cons.mp hes
    obtain ⟨hfresh_e,hfresh'⟩ := List.forall_mem_cons.mp hfresh
    obtain ⟨hnot,hnodup'⟩ := List.nodup_cons.mp hnodup
    have hdom : e ∈ dom := hshape.link v hv e (.inl he)
    have honly : ∀ w ∈ dom, Within g w e → w = v := fun w hw hwe => (hshape.inside w hw e hwe v hv (.inl he)).symm
    obtain ⟨m₁,k₁,hvisited₁,hk₁,hrun₁⟩ := hvisits cells 0 e hpart hdom hfresh_e
      (fun w hw hwe => by rw [honly w hw hwe]; exact hmark) hn
    have hpart₁ := hpart.marked hshape hvisited₁ (fun a ha w hw hwa => by
      rw [ha] at hwa
      rw [honly w hw hwa]
      exact .inl hmark)
    -- the others are linked from the first cell only, which was marked before
    have hleft : ∀ e' ∈ es, isMark (marked cells m₁) e' = false := by
      intro e' he'
      refine isMark_marked_eq_false.mpr ⟨fun hmem => ?_,hfresh' e' he'⟩
      rcases hvisited₁.back e' hmem with rfl | ⟨x,hx,hedge⟩
      · exact hnot he'
      · have hx' := hshape.inside v hv e' (hes' e' he') x (hvisited₁.sub hx) hedge
        have hxfresh := hvisited₁.fresh x hx
        rw [hx',hmark] at hxfresh
        cases hxfresh
    have hmark₁ : isMark (marked cells m₁) v = true := by
      rw [isMark_marked,hmark,Bool.or_true]
    obtain ⟨m₂,hvisited₂,hrun₂⟩ := ih hmark₁ hpart₁ hes' hnodup' hleft ((unmarked_marked_le cells m₁).trans_lt hn)
    have hvisited₂' : Visited dom g (fun x => decide (x ∈ m₁) || isMark cells x) (fun a => a ∈ es) m₂ := by
      have hfun : isMark (marked cells m₁) = fun x => decide (x ∈ m₁) || isMark cells x := funext (fun x => isMark_marked)
      rwa [← hfun]
    obtain ⟨hunion,hcard⟩ := hvisited₁.union hvisited₂'
    refine ⟨m₁ ∪ m₂,hunion.congr (fun a => List.mem_cons),fun steps hsteps => ?_⟩
    obtain ⟨s,hs⟩ : ∃ s, steps = (s + 1) + k₁ := ⟨steps - 1 - k₁,by omega⟩
    have hfirst : markLoop steps .e2 cells 0 e = some (marked cells m₁) := by
      rw [hs,hrun₁ (s + 1) (by omega),markLoop_done]
    rw [List.foldlM_cons,hfirst,Option.bind_eq_bind,Option.bind_some,hrun₂ steps (by omega),marked_marked]

/-- A link is followed, if there is something that is not marked. What is turned meanwhile is a marked cell. -/
theorem VisitsBelow.follow (hshape : Shape dom g) (hvisits : VisitsBelow dom g n) (hp : p ∈ dom)
    (hmark : isMark cells p = true) (hpart : Partial dom g cells) (hlink : Edge g p q) (hq : isMark cells q = false)
    (hn : unmarked dom cells < n) (hc : c.mark = true) (t : ℕ) :
    ∃ m k, Visited dom g (isMark cells) (fun a => a = q) m ∧ k ≤ 4 * m.card ∧ p ∉ m ∧ ∀ s, 4 * m.card + 1 ≤ s + k →
      markLoop (s + k) .e2 (put cells p c) t q = markLoop s .e6 (put (marked cells m) p c) t q := by
  have hsame : isMark (put cells p c) = isMark cells := funext (fun x => isMark_put hmark hc)
  obtain ⟨m,k,hvisited,hk,hrun⟩ := hvisits (put cells p c) t q (hpart.put hmark hc) (hshape.link p hp q hlink)
    (by rw [hsame]; exact hq) (fun v hv hvq => by
      rw [hsame,← hshape.inside v hv q hvq p hp hlink]
      exact hmark) (by rw [unmarked_put hmark hc]; exact hn)
  rw [hsame] at hvisited
  have hnot : p ∉ m := fun hmem => by
    have hfresh := hvisited.fresh p hmem
    rw [hmark] at hfresh
    cases hfresh
  refine ⟨m,k,hvisited,hk,hnot,fun s hs => ?_⟩
  rw [hrun s hs,marked_put hnot]

/-- Down the `car` of a marked cell and back: the link and the note are as they were. -/
theorem VisitsBelow.car (hshape : Shape dom g) (hvisits : VisitsBelow dom g n) (hp : p ∈ dom) (hp' : p ≠ 0)
    (hmark : isMark cells p = true) (hpart : Partial dom g cells) (hatom : (cells p).atom = false)
    (hlink : (cells p).car ≠ 0 → Edge g p (cells p).car) (hn : unmarked dom cells < n) (t : ℕ) :
    ∃ m k, Visited dom g (isMark cells) (fun a => a = (cells p).car ∧ a ≠ 0) m ∧ k ≤ 4 * m.card + 1 ∧ p ∉ m ∧
      ∀ s, 4 * m.card + 2 ≤ s + k →
        (if (cells p).car ≠ 0 ∧ isMark cells (cells p).car = false then
          markLoop (s + k) .e2 (put cells p { cells p with atom := true, car := t }) p (cells p).car
          else markLoop (s + k) .e5 cells t p) = markLoop s .e5 (marked cells m) t p := by
  by_cases hq : (cells p).car ≠ 0 ∧ isMark cells (cells p).car = false
  · obtain ⟨m,k,hvisited,hk,hnot,hrun⟩ := hvisits.follow (c := { cells p with atom := true, car := t }) hshape hp hmark hpart
      (hlink hq.1) hq.2 hn hmark p
    refine ⟨m,k + 1,hvisited.congr (fun a => and_iff_left_of_imp (fun ha => ha ▸ hq.1)),by omega,hnot,fun s hs => ?_⟩
    have hstep : s + (k + 1) = (s + 1) + k := by omega
    rw [if_pos hq,hstep,hrun (s + 1) (by omega),markLoop,if_neg hp',put_apply_self,put_put]
    have hback : { cells p with atom := false, car := (cells p).car } = marked cells m p := by
      rw [marked_of_notMem hnot,← hatom]
    dsimp only
    rw [if_pos rfl,hback,put_self]
  · refine ⟨∅,0,.none ?_,Nat.zero_le _,Finset.notMem_empty _,fun s _ => by rw [if_neg hq,marked_empty]; rfl⟩
    rintro a ⟨rfl,hne⟩
    by_contra hfalse
    exact hq ⟨hne,Bool.eq_false_of_not_eq_true hfalse⟩

/-- Down the `cdr` of a marked cell and back. -/
theorem VisitsBelow.cdr (hshape : Shape dom g) (hvisits : VisitsBelow dom g n) (hp : p ∈ dom) (hp' : p ≠ 0)
    (hmark : isMark cells p = true) (hpart : Partial dom g cells) (hatom : (cells p).atom = false)
    (hlink : (cells p).cdr ≠ 0 → Edge g p (cells p).cdr) (hn : unmarked dom cells < n) (t : ℕ) :
    ∃ m k, Visited dom g (isMark cells) (fun a => a = (cells p).cdr ∧ a ≠ 0) m ∧ k ≤ 4 * m.card + 2 ∧
      ∀ s, 4 * m.card + 3 ≤ s + k → markLoop (s + k) .e5 cells t p = markLoop s .e6 (marked cells m) t p := by
  by_cases hq : (cells p).cdr ≠ 0 ∧ isMark cells (cells p).cdr = false
  · obtain ⟨m,k,hvisited,hk,hnot,hrun⟩ := hvisits.follow (c := { cells p with cdr := t }) hshape hp hmark hpart
      (hlink hq.1) hq.2 hn hmark p
    refine ⟨m,k + 2,hvisited.congr (fun a => and_iff_left_of_imp (fun ha => ha ▸ hq.1)),by omega,fun s hs => ?_⟩
    have hstep : s + (k + 2) = ((s + 1) + k) + 1 := by omega
    have hback : { cells p with cdr := (cells p).cdr } = marked cells m p := by
      rw [marked_of_notMem hnot]
    rw [hstep,markLoop]
    dsimp only
    rw [if_pos hq,hrun (s + 1) (by omega),markLoop,if_neg hp',put_apply_self]
    dsimp only
    rw [if_neg (by rw [hatom]; exact Bool.false_ne_true),put_put,hback,put_self]
  · refine ⟨∅,1,.none ?_,Nat.le_add_left _ _,fun s _ => ?_⟩
    · rintro a ⟨rfl,hne⟩
      by_contra hfalse
      exact hq ⟨hne,Bool.eq_false_of_not_eq_true hfalse⟩
    · rw [markLoop]
      dsimp only
      rw [if_neg hq,marked_empty]

/-- One cell more. -/
theorem VisitsBelow.succ (hshape : Shape dom g) (hvisits : VisitsBelow dom g n) : VisitsBelow dom g (n + 1) := by
  intro cells t p hpart hp hfresh hinside hn
  have hp' : p ≠ 0 := fun hzero => hshape.nonnull (hzero ▸ hp)
  have hcell : cells p = g p := hpart.same p hfresh
  -- the cell is marked
  have hmark : isMark (marked cells {p}) p = true := by
    rw [isMark_marked,decide_eq_true (Finset.mem_singleton_self p),Bool.true_or]
  have hatp : marked cells {p} p = { g p with mark := true } := by
    rw [marked_of_mem (Finset.mem_singleton_self p),hcell]
  have hleft : unmarked dom (marked cells {p}) < n := by
    have hlt : unmarked dom (marked cells {p}) < unmarked dom cells := unmarked_marked_lt
      (Finset.singleton_subset_iff.mpr hp) (fun x hx => by rwa [Finset.mem_singleton.mp hx]) (Finset.mem_singleton_self p)
    omega
  have hfun : ∀ m : Finset ℕ, isMark (marked cells m) = fun x => decide (x ∈ m) || isMark cells x :=
    fun m => funext (fun x => isMark_marked)
  have hpart₁ : Partial dom g (marked cells {p}) := by
    constructor
    · intro x hx
      obtain ⟨hnot,hx⟩ := isMark_marked_eq_false.mp hx
      rw [marked_of_notMem hnot,hpart.same x hx]
    · intro v hv y hy hv'
      obtain ⟨hnot,hv'⟩ := isMark_marked_eq_false.mp hv'
      refine isMark_marked_eq_false.mpr ⟨fun hmem => ?_,hpart.whole v hv y hy hv'⟩
      rw [Finset.mem_singleton.mp hmem] at hy
      rw [hinside v hv hy] at hv'
      cases hv'
  by_cases hvector : (g p).type = .vector
  · -- the cells inside it are visited in turn
    have hatom : (g p).atom = true := hshape.atom p hp hvector
    have hedge : ∀ a, Edge g p a ↔ a ∈ List.range' (p + 1) (g p).elems := by
      intro a
      rw [Edge,hatom,Within,List.mem_range'_1]
      simp only [hvector,true_and,Bool.true_eq_false,false_and,or_false]
      omega
    obtain ⟨m,hvisited,hrun⟩ := hvisits.elems hshape hp hmark hpart₁
      (fun e he => ((hedge e).mpr he).elim id (fun h => absurd h.1 (by rw [hatom]; exact Bool.noConfusion)))
      (List.nodup_range' ..) (fun e he => by
        have hwithin : Within g p e := ((hedge e).mpr he).elim id (fun h => absurd h.1 (by rw [hatom]; exact Bool.noConfusion))
        refine isMark_marked_eq_false.mpr ⟨fun hmem => ?_,hpart.whole p hp e hwithin hfresh⟩
        have := hwithin.2.1
        rw [Finset.mem_singleton.mp hmem] at this
        exact absurd this (Nat.lt_irrefl p)) hleft
    rw [hfun] at hvisited
    obtain ⟨hcell',hcard⟩ := (hvisited.congr hedge).cell hp hfresh
    refine ⟨{p} ∪ m,1,hcell',by omega,fun s hs => ?_⟩
    rw [markLoop,setMark_eq]
    dsimp only
    rw [hatp]
    dsimp only [Cell.elems]
    rw [if_pos hvector]
    rw [Cell.elems] at hrun
    rw [hrun s (by omega),Option.bind_eq_bind,Option.bind_some,marked_marked]
    have hatom' : (marked cells ({p} ∪ m) p).atom = true := by
      rw [marked_of_mem (Finset.mem_union_left _ (Finset.mem_singleton_self p)),hcell]
      exact hatom
    rw [if_pos hatom']
  · have hstep : ∀ s, markLoop (s + 1) .e2 cells t p = if (g p).atom then markLoop s .e6 (marked cells {p}) t p
        else if (g p).car ≠ 0 ∧ isMark (marked cells {p}) (g p).car = false then
          markLoop s .e2 (put (marked cells {p}) p { g p with mark := true, atom := true, car := t }) p (g p).car
        else markLoop s .e5 (marked cells {p}) t p := by
      intro s
      rw [markLoop,setMark_eq]
      dsimp only
      rw [hatp]
      dsimp only
      rw [if_neg hvector,Option.bind_eq_bind,Option.bind_some,hatp]
    by_cases hatom : (g p).atom = true
    · have hedge : ∀ a, ¬ Edge g p a := by
        intro a
        rw [Edge,Within,hatom]
        simp only [hvector,false_and,Bool.true_eq_false,or_self,not_false_eq_true]
      have hnone : Visited dom g (fun x => decide (x ∈ ({p} : Finset ℕ)) || isMark cells x) (Edge g p) ∅ :=
        .none (fun a ha => absurd ha (hedge a))
      obtain ⟨hcell',hcard⟩ := hnone.cell hp hfresh
      refine ⟨{p} ∪ ∅,1,hcell',by omega,fun s _ => ?_⟩
      rw [hstep,if_pos hatom,Finset.union_empty]
    · have hatom : (g p).atom = false := Bool.eq_false_of_not_eq_true hatom
      have hedge : ∀ a, Edge g p a ↔ (a = (g p).car ∧ a ≠ 0) ∨ (a = (g p).cdr ∧ a ≠ 0) := by
        intro a
        rw [Edge,Within,hatom]
        simp only [hvector,false_and,false_or,true_and]
        tauto
      have hinside' : ∀ q, Edge g p q → ∀ v ∈ dom, Within g v q → v = p :=
        fun q hq v hv hvq => (hshape.inside v hv q hvq p hp hq).symm
      -- down the first link
      have hcar : (marked cells {p} p).car = (g p).car := by rw [hatp]
      obtain ⟨m₁,k₁,hvisited₁,hk₁,hnot₁,hrun₁⟩ := hvisits.car hshape hp hp' hmark hpart₁ (by rw [hatp]; exact hatom)
        (fun hne => (hedge _).mpr (.inl ⟨hcar,hne⟩)) hleft t
      rw [hcar] at hvisited₁
      have hpart₂ := hpart₁.marked hshape hvisited₁ (fun a ha v hv hva => by
        rw [hinside' a ((hedge a).mpr (.inl ha)) v hv hva]
        exact .inl hmark)
      -- and down the second
      have hatp₂ : marked (marked cells {p}) m₁ p = { g p with mark := true } := by
        rw [marked_of_notMem hnot₁,hatp]
      have hcdr : (marked (marked cells {p}) m₁ p).cdr = (g p).cdr := by rw [hatp₂]
      have hmark₂ : isMark (marked (marked cells {p}) m₁) p = true := by
        rw [isMark,hatp₂]
      obtain ⟨m₂,k₂,hvisited₂,hk₂,hrun₂⟩ := hvisits.cdr hshape hp hp' hmark₂ hpart₂ (by rw [hatp₂]; exact hatom)
        (fun hne => (hedge _).mpr (.inr ⟨hcdr,hne⟩)) ((unmarked_marked_le _ m₁).trans_lt hleft) t
      rw [hcdr] at hvisited₂
      have hboth : Visited dom g (fun x => decide (x ∈ ({p} : Finset ℕ)) || isMark cells x) (Edge g p) (m₁ ∪ m₂) ∧
          (m₁ ∪ m₂).card = m₁.card + m₂.card := by
        rw [hfun] at hvisited₁
        have hfun₂ : isMark (marked (marked cells {p}) m₁) =
            fun x => decide (x ∈ m₁) || (decide (x ∈ ({p} : Finset ℕ)) || isMark cells x) := by
          funext x
          rw [isMark_marked,isMark_marked]
        rw [hfun₂] at hvisited₂
        obtain ⟨hunion,hcard⟩ := hvisited₁.union hvisited₂
        exact ⟨hunion.congr hedge,hcard⟩
      obtain ⟨hcell',hcard⟩ := hboth.1.cell hp hfresh
      have hcard₂ := hboth.2
      refine ⟨{p} ∪ (m₁ ∪ m₂),1 + k₁ + k₂,hcell',by omega,fun s hs => ?_⟩
      have hsum : s + (1 + k₁ + k₂) = ((s + k₂) + k₁) + 1 := by omega
      have hcars := hrun₁ (s + k₂) (by omega)
      rw [hatp] at hcars
      rw [hsum,hstep,if_neg (by rw [hatom]; exact Bool.false_ne_true)]
      refine hcars.trans ?_
      rw [hrun₂ s (by omega),marked_marked,marked_marked]

theorem visitsBelow (hshape : Shape dom g) (n : ℕ) : VisitsBelow dom g n := by
  induction n with
  | zero => exact fun cells t p _ _ _ _ hn => absurd hn (Nat.not_lt_zero _)
  | succ n ih => exact ih.succ hshape

/-! ## From the roots -/

def Closed (dom : Finset ℕ) (g : Cells) (f : ℕ → Bool) : Prop := ∀ x ∈ dom, f x = true → ∀ y, Edge g x y → f y = true

def Live (cells : Cells) (roots : List ℕ) (x : ℕ) : Prop := ∃ a ∈ roots, ReflTransGen (Edge cells) a x

theorem within_marked : Within (marked cells m) x y ↔ Within cells x y := by
  by_cases hx : x ∈ m
  · rw [Within,marked_of_mem hx]
    rfl
  · rw [Within,marked_of_notMem hx]
    rfl

theorem edge_marked : Edge (marked cells m) x y ↔ Edge cells x y := by
  rw [Edge,within_marked]
  by_cases hx : x ∈ m
  · rw [marked_of_mem hx]
    rfl
  · rw [marked_of_notMem hx]
    rfl

theorem setMark_of_isMark (hmark : isMark cells p = true) : setMark cells p = cells := by
  have hcell : { cells p with mark := true } = cells p := by
    rw [← hmark,isMark]
  rw [setMark,hcell,put_self]

theorem Closed.union (hclosed : Closed dom g f) (hm : Visited dom g f starts m) :
    Closed dom g (fun x => decide (x ∈ m) || f x) := by
  intro x hx hmark y hedge
  rw [Bool.or_eq_true,decide_eq_true_iff] at hmark ⊢
  rcases hmark with hmark | hmark
  · exact hm.closed x hmark y hedge
  · exact .inr (hclosed x hx hmark y hedge)

/-- Nothing is done from a marked cell where what is linked from it is marked. -/
theorem markLoop_of_links (hmark : isMark cells p = true) (hplain : (cells p).type ≠ .vector)
    (hlinks : ∀ y, Edge cells p y → isMark cells y = true) (s : ℕ) : markLoop (s + 3) .e2 cells 0 p = some cells := by
  rw [markLoop,setMark_of_isMark hmark]
  dsimp only
  rw [if_neg hplain,Option.bind_eq_bind,Option.bind_some]
  by_cases hatom : (cells p).atom = true
  · rw [if_pos hatom,markLoop_done]
  · have hlink : ∀ q, q = (cells p).car ∨ q = (cells p).cdr → ¬ (q ≠ 0 ∧ isMark cells q = false) := by
      rintro q hq ⟨hne,hfalse⟩
      rw [hlinks q (.inr ⟨Bool.eq_false_of_not_eq_true hatom,hne,hq⟩)] at hfalse
      cases hfalse
    rw [if_neg hatom,if_neg (hlink _ (.inl rfl)),markLoop]
    dsimp only
    rw [if_neg (hlink _ (.inr rfl)),markLoop_done]

theorem mark_of_isMark (hshape : Shape dom g) (hp : p ∈ dom) (hclosed : Closed dom g (isMark (marked g m)))
    (hmark : isMark (marked g m) p = true) (s : ℕ) : mark (s + 4) (marked g m) p = some (marked g m) := by
  by_cases hvector : (marked g m p).type = .vector
  · have hatom : (marked g m p).atom = true := by
      by_cases hmem : p ∈ m
      · rw [marked_of_mem hmem] at hvector ⊢
        exact hshape.atom p hp hvector
      · rw [marked_of_notMem hmem] at hvector ⊢
        exact hshape.atom p hp hvector
    -- the cells inside are marked, and so is what is linked from them
    have helems : ∀ es : List ℕ, (∀ e ∈ es, Within g p e) →
        es.foldlM (fun cells e => markLoop (s + 3) .e2 cells 0 e) (marked g m) = some (marked g m) := by
      intro es hes
      induction es with
      | nil => rfl
      | cons e es ih =>
        obtain ⟨he,hes⟩ := List.forall_mem_cons.mp hes
        have hplain : (marked g m e).type ≠ .vector := by
          have := hshape.plain p hp e he
          by_cases hmem : e ∈ m
          · rwa [marked_of_mem hmem]
          · rwa [marked_of_notMem hmem]
        have hdom := hshape.link p hp e (.inl he)
        rw [List.foldlM_cons,markLoop_of_links (hclosed p hp hmark e (.inl he)) hplain
          (fun y hy => hclosed e hdom (hclosed p hp hmark e (.inl he)) y (edge_marked.mp hy)),Option.bind_eq_bind,
          Option.bind_some,ih hes]
    rw [mark,markLoop,setMark_of_isMark hmark]
    dsimp only
    rw [if_pos hvector,helems _ (fun e he => ?_),Option.bind_eq_bind,Option.bind_some,if_pos hatom,markLoop_done]
    rw [← within_marked (m := m)]
    refine ⟨hvector,?_⟩
    rw [List.mem_range'_1] at he
    omega
  · exact markLoop_of_links hmark hvector (fun y hy => hclosed p hp hmark y (edge_marked.mp hy)) (s + 1)

structure Between (dom : Finset ℕ) (g : Cells) (m : Finset ℕ) : Prop where
  part : Partial dom g (marked g m)
  closed : Closed dom g (isMark (marked g m))

theorem markAll_visits {roots : List ℕ} (hshape : Shape dom g) (hroots : ∀ a ∈ roots, a ∈ dom ∧ ∀ v ∈ dom, ¬ Within g v a)
    (hbetween : Between dom g m) (hsteps : 4 * dom.card + 4 ≤ steps) :
    ∃ m', Scheme.markAll steps (marked g m) roots = some (marked g (m ∪ m')) ∧
      Visited dom g (isMark (marked g m)) (fun a => a ∈ roots) m' := by
  induction roots generalizing m with
  | nil => exact ⟨∅,by rw [Finset.union_empty]; rfl,.none (fun a ha => absurd ha List.not_mem_nil)⟩
  | cons a roots ih =>
    obtain ⟨⟨ha,hinside⟩,hroots'⟩ := List.forall_mem_cons.mp hroots
    -- the first root is marked, or a visit begins at it
    obtain ⟨m₁,hvisited₁,hrun₁⟩ : ∃ m₁, Visited dom g (isMark (marked g m)) (fun x => x = a) m₁ ∧
        mark steps (marked g m) a = some (marked g (m ∪ m₁)) := by
      by_cases hmark : isMark (marked g m) a = true
      · refine ⟨∅,.none (fun x hx => hx ▸ hmark),?_⟩
        obtain ⟨s,rfl⟩ : ∃ s, steps = s + 4 := ⟨steps - 4,by omega⟩
        rw [Finset.union_empty,mark_of_isMark hshape ha hbetween.closed hmark]
      · obtain ⟨m₁,k,hvisited,hk,hrun⟩ := visitsBelow hshape _ _ 0 a hbetween.part ha (Bool.eq_false_of_not_eq_true hmark)
          (fun v hv hva => absurd hva (hinside v hv)) (Nat.lt_succ_self _)
        have hcard := Finset.card_le_card hvisited.sub
        obtain ⟨s,hs⟩ : ∃ s, steps = (s + 1) + k := ⟨steps - 1 - k,by omega⟩
        refine ⟨m₁,hvisited,?_⟩
        rw [mark,hs,hrun (s + 1) (by omega),markLoop_done,marked_marked]
    have hfun : isMark (marked g (m ∪ m₁)) = fun x => decide (x ∈ m₁) || isMark (marked g m) x := by
      funext x
      rw [← marked_marked,isMark_marked]
    have hbetween₁ : Between dom g (m ∪ m₁) := by
      constructor
      · rw [← marked_marked]
        exact hbetween.part.marked hshape hvisited₁ (fun x hx v hv hvx => absurd (hx ▸ hvx) (hinside v hv))
      · rw [hfun]
        exact hbetween.closed.union hvisited₁
    obtain ⟨m₂,hrun₂,hvisited₂⟩ := ih hroots' hbetween₁
    rw [hfun] at hvisited₂
    refine ⟨m₁ ∪ m₂,?_,(hvisited₁.union hvisited₂).1.congr (fun x => List.mem_cons)⟩
    rw [Scheme.markAll,List.foldlM_cons,hrun₁,Option.bind_eq_bind,Option.bind_some,← Finset.union_assoc]
    exact hrun₂

/-- What is marked from the roots is what can be reached from them, and every cell is as it was but for its mark. -/
theorem markAll_eq {roots : List ℕ} (hshape : Shape dom cells) (hclosed : Closed dom cells (isMark cells))
    (hwhole : ∀ v ∈ dom, ∀ y, Within cells v y → isMark cells v = false → isMark cells y = false)
    (hroots : ∀ a ∈ roots, a ∈ dom ∧ ∀ v ∈ dom, ¬ Within cells v a) (hsteps : 4 * dom.card + 4 ≤ steps) :
    ∃ m ⊆ dom, Scheme.markAll steps cells roots = some (marked cells m) ∧
      ∀ x, isMark (marked cells m) x = true ↔ isMark cells x = true ∨ Live cells roots x := by
  have hbetween : Between dom cells ∅ := by
    constructor
    · rw [marked_empty]
      exact ⟨fun _ _ => rfl,hwhole⟩
    · rw [marked_empty]
      exact hclosed
  obtain ⟨m,hrun,hvisited⟩ := markAll_visits hshape hroots hbetween hsteps
  rw [marked_empty,Finset.empty_union] at hrun
  rw [marked_empty] at hvisited
  have hclosed' := hclosed.union hvisited
  refine ⟨m,hvisited.sub,hrun,fun x => ?_⟩
  rw [isMark_marked,Bool.or_eq_true,decide_eq_true_iff]
  constructor
  · rintro (hx | hx)
    · exact .inr (hvisited.reach x hx)
    · exact .inl hx
  · rintro (hx | ⟨a,ha,hpath⟩)
    · exact .inr hx
    · -- along the path
      have hall : x ∈ dom ∧ (decide (x ∈ m) || isMark cells x) = true := by
        induction hpath with
        | refl =>
          refine ⟨(hroots a ha).1,?_⟩
          rw [Bool.or_eq_true,decide_eq_true_iff]
          exact hvisited.all a ha
        | tail _ hedge ih => exact ⟨hshape.link _ ih.1 _ hedge,hclosed' _ ih.1 ih.2 _ hedge⟩
      have hmark := hall.2
      rwa [Bool.or_eq_true,decide_eq_true_iff] at hmark

/-- What is marked from one cell. -/
theorem mark_eq (hshape : Shape dom cells) (hclosed : Closed dom cells (isMark cells))
    (hwhole : ∀ v ∈ dom, ∀ y, Within cells v y → isMark cells v = false → isMark cells y = false)
    (ha : a ∈ dom) (hout : ∀ v ∈ dom, ¬ Within cells v a) (hsteps : 4 * dom.card + 4 ≤ steps) :
    ∃ m ⊆ dom, mark steps cells a = some (marked cells m) ∧
      ∀ x, isMark (marked cells m) x = true ↔ isMark cells x = true ∨ ReflTransGen (Edge cells) a x := by
  have hroots : ∀ r ∈ [a], r ∈ dom ∧ ∀ v ∈ dom, ¬ Within cells v r := List.forall_mem_singleton.mpr ⟨ha,hout⟩
  obtain ⟨m,hsub,hrun,hmark⟩ := markAll_eq hshape hclosed hwhole hroots hsteps
  refine ⟨m,hsub,?_,fun x => ?_⟩
  · rw [Scheme.markAll,List.foldlM_cons] at hrun
    cases hone : mark steps cells a with
    | none =>
      rw [hone] at hrun
      cases hrun
    | some cells' =>
      rw [hone] at hrun
      exact hrun
  · rw [hmark,Live]
    simp only [List.mem_singleton,exists_eq_left]

/-- A pair that is linked to itself and to a vector of one cell, and a pair that nothing is linked to. -/
def cycle : Cells := fun x =>
  { type := if x = 7 then .vector else .pair, isSyntax := false, immutable := false, atom := x = 7, mark := false
    ivalue := if x = 7 then 2 else 0, svalue := 0, car := if x = 6 then 7 else 6, cdr := 6 }

theorem cycle_edge {x y : ℕ} (h : Edge cycle x y) : y = 6 ∨ x = 6 ∧ y = 7 ∨ x = 7 ∧ y = 8 := by
  rcases h with ⟨htype,hlt,hle⟩ | ⟨-,-,hy⟩
  · by_cases hx : x = 7
    · subst hx
      have helems : (cycle 7).elems = 1 := rfl
      omega
    · simp [cycle,hx] at htype
  · by_cases hx : x = 6
    · simp [cycle,hx] at hy
      omega
    · simp [cycle,hx] at hy
      omega

theorem cycle_within {x y : ℕ} (h : Within cycle x y) : x = 7 ∧ y = 8 := by
  obtain ⟨htype,hlt,hle⟩ := h
  by_cases hx : x = 7
  · subst hx
    have helems : (cycle 7).elems = 1 := rfl
    omega
  · simp [cycle,hx] at htype

theorem mark_eq_cycle : ∃ m ⊆ ({6,7,8,9} : Finset ℕ), mark 20 cycle 6 = some (marked cycle m) ∧
    ∀ x, isMark (marked cycle m) x = true ↔ isMark cycle x = true ∨ ReflTransGen (Edge cycle) 6 x := by
  refine mark_eq ⟨by decide,fun x hx y hy => ?_,fun v _ htype => ?_,fun v _ y hy x _ hxy => ?_,fun v _ y hy => ?_⟩
    (fun x _ hmark => by cases hmark) (fun v _ y _ _ => rfl) (by decide) (fun v _ hv => ?_) (by decide)
  · rcases cycle_edge hy with rfl | ⟨-,rfl⟩ | ⟨-,rfl⟩ <;> decide
  · by_contra hne
    have hv : v ≠ 7 := by
      rintro rfl
      exact hne rfl
    simp [cycle,hv] at htype
  · obtain ⟨rfl,rfl⟩ := cycle_within hy
    rcases cycle_edge hxy with h | ⟨-,h⟩ | ⟨rfl,-⟩
    · cases h
    · cases h
    · rfl
  · obtain ⟨rfl,rfl⟩ := cycle_within hy
    decide
  · have := (cycle_within hv).2
    omega

end Edelib.Ts
