import Edelib.Foundation.CInt
import Edelib.Foundation.Rows

/-! # The layout of a group

The children of a group are put in rows. A row is under the one before by the height of the child that opens it,
so what is put is apart where all children have one height, as the class asks for.
-/
namespace Edelib.Widgets
open Foundation Foundation.CInt Rows

structure Widget where
  x : ℤ
  y : ℤ
  w : ℤ
  h : ℤ
  visible : Bool

/-- The scrollbar, with the arguments of its last `value`. -/
structure Scrollbar extends Widget where
  value : Option (ℤ × ℤ × ℤ × ℤ)

/-- The scrollbar is one of the children: `before` are those in front of it and `behind` those after it. -/
structure ExpandableGroup where
  x : ℤ
  y : ℤ
  w : ℤ
  h : ℤ
  scrollW : ℤ
  px : ℤ
  py : ℤ
  sval : ℤ
  svalCurr : ℤ
  svalOld : ℤ
  areaX : ℤ
  areaY : ℤ
  areaW : ℤ
  areaH : ℤ
  vscrollbar : Scrollbar
  before : List Widget
  behind : List Widget

def CHILD_OFFSET : ℤ := 10

def BORDER_OFFSET : ℤ := 10

structure Cursor where
  px : ℤ
  py : ℤ
  areaH : ℤ

namespace ExpandableGroup

/-! ## The function -/

def fixScrollbarOrder (g : ExpandableGroup) : ExpandableGroup :=
  { g with before := g.before ++ g.behind, behind := [] }

/-- The number of the children without the scrollbar, which is then the last one. -/
def children (g : ExpandableGroup) : ℕ × ExpandableGroup :=
  let g := if g.behind ≠ [] then g.fixScrollbarOrder else g
  (g.before.length + 1 + g.behind.length - 1,g)

section Place
variable (areaX areaW : ℤ)

def placeChild (c : Widget) (k : Cursor) : Option (Widget × Cursor) :=
  if !c.visible then some (c,k)
  else do
    let right ← checked (k.px + c.w)
    let limit ← checked (areaX + areaW)
    if right ≤ limit then do
      let step ← checked (c.w + CHILD_OFFSET)
      let px ← checked (k.px + step)
      some ({ c with x := k.px, y := k.py },{ k with px := px })
    else do
      let drop ← checked (c.h + CHILD_OFFSET)
      let py ← checked (k.py + drop)
      let areaH ← checked (k.areaH + drop)
      let step ← checked (c.w + CHILD_OFFSET)
      let px ← checked (areaX + step)
      some ({ c with x := areaX, y := py },⟨px,py,areaH⟩)

def placeChilds : List Widget → Cursor → Option (List Widget × Cursor)
  | [], k => some ([],k)
  | c :: cs, k => (placeChild areaX areaW c k).bind (fun (c,k) =>
    (placeChilds cs k).map (fun (cs,k) => (c :: cs,k)))

end Place

def countVisible (height : ℤ) : List Widget → Option ℕ
  | [] => some 0
  | c :: cs => do
    let bottom ← checked (c.y + c.h)
    let inner ← checked (height - BORDER_OFFSET)
    let vis ← countVisible height cs
    some (if bottom ≤ inner ∧ c.y ≥ BORDER_OFFSET then vis + 1 else vis)

def updateScrollbar (g : ExpandableGroup) (areaH : ℤ) (vis chSize : ℕ) : Option Scrollbar :=
  if vis ≠ chSize then do
    let right ← checked (g.x + g.w)
    let left ← checked (right - g.scrollW)
    some ⟨⟨left,g.y,g.scrollW,g.h,true⟩,some (g.sval,g.h,0,areaH)⟩
  else some { g.vscrollbar with visible := false }

/-- The scrollbar is behind the children that are counted, so none of those is compared with it. -/
def repositionChilds (g : ExpandableGroup) : Option ExpandableGroup :=
  let (chSize,g) := g.children
  if chSize < 1 then some g
  else do
    let o ← g.before.head?
    let areaX ← checked (g.x + BORDER_OFFSET)
    let areaY ← checked (g.y + BORDER_OFFSET)
    let areaW ← checked (g.w - BORDER_OFFSET)
    let areaH ← checked (BORDER_OFFSET + o.h)
    let py ← checked (areaY - g.sval)
    let (cs,k) ← placeChilds areaX areaW g.before ⟨areaX,py,areaH⟩
    let areaH ← checked (k.areaH + BORDER_OFFSET)
    let vis ← countVisible g.h cs
    let vscrollbar ← g.updateScrollbar areaH vis chSize
    some { g with
      areaX := areaX
      areaY := areaY
      areaW := areaW
      areaH := areaH
      px := k.px
      py := k.py
      sval := 0
      vscrollbar := vscrollbar
      before := cs }

/-! ## Layouts -/

def widgets (g : ExpandableGroup) : List Widget := g.before ++ g.behind

def shown (g : ExpandableGroup) : List Widget := g.widgets.filter Widget.visible

def box (c : Widget) : Box := ⟨c.x,c.y,c.w,c.h⟩

/-- The children keep their order and their sizes, they are in rows from left to right, and each of them fits into
the area or is the first of its row. -/
structure Laid (g g' : ExpandableGroup) : Prop where
  sizes : g'.shown.map (fun c => (c.w,c.h)) = g.shown.map (fun c => (c.w,c.h))
  rows : (g'.shown.map box).Pairwise Box.Before
  fits : ∀ before c after, g'.shown = before ++ c :: after →
    c.x + c.w ≤ g'.areaX + g'.areaW ∨ c.x = g'.areaX ∧ ∀ b ∈ before, b.y < c.y

/-- No two children overlap, and the area, which is scrolled, reaches to the border under each of them. -/
structure Tidy (g g' : ExpandableGroup) : Prop where
  apart : (g'.shown.map box).Pairwise Box.Apart
  covered : ∀ c ∈ g'.shown, c.y + c.h + BORDER_OFFSET ≤ g.y - g.sval + g'.areaH

section Settle
variable (areaX areaW : ℤ)

def settle (c : Widget) (k : Cursor) : Widget × Cursor :=
  if !c.visible then (c,k)
  else if k.px + c.w ≤ areaX + areaW then
    ({ c with x := k.px, y := k.py },{ k with px := k.px + (c.w + CHILD_OFFSET) })
  else
    ({ c with x := areaX, y := k.py + (c.h + CHILD_OFFSET) },
      ⟨areaX + (c.w + CHILD_OFFSET),k.py + (c.h + CHILD_OFFSET),k.areaH + (c.h + CHILD_OFFSET)⟩)

def settleAll : List Widget → Cursor → List Widget × Cursor
  | [], k => ([],k)
  | c :: cs, k =>
    let (c,k) := settle areaX areaW c k
    let (cs,k) := settleAll cs k
    (c :: cs,k)

def Sums (c : Widget) (k : Cursor) : Prop := c.visible → IsInt (k.px + c.w) ∧ IsInt (areaX + areaW) ∧
  if k.px + c.w ≤ areaX + areaW then IsInt (c.w + CHILD_OFFSET) ∧ IsInt (k.px + (c.w + CHILD_OFFSET))
  else IsInt (c.h + CHILD_OFFSET) ∧ IsInt (k.py + (c.h + CHILD_OFFSET)) ∧ IsInt (k.areaH + (c.h + CHILD_OFFSET)) ∧
    IsInt (c.w + CHILD_OFFSET) ∧ IsInt (areaX + (c.w + CHILD_OFFSET))

def SumsAll : List Widget → Cursor → Prop
  | [], _ => True
  | c :: cs, k => Sums areaX areaW c k ∧ SumsAll cs (settle areaX areaW c k).2

end Settle

def FullyVisible (height : ℤ) (c : Widget) : Prop := c.y + c.h ≤ height - BORDER_OFFSET ∧ c.y ≥ BORDER_OFFSET

instance (height : ℤ) (c : Widget) : Decidable (FullyVisible height c) := inferInstanceAs (Decidable (_ ∧ _))

/-- Where the first child is put; `o` gives the height of the first row. -/
def start (g : ExpandableGroup) (o : Widget) : Cursor :=
  ⟨g.x + BORDER_OFFSET,g.y + BORDER_OFFSET - g.sval,BORDER_OFFSET + o.h⟩

def settled (g : ExpandableGroup) (o : Widget) : List Widget × Cursor :=
  settleAll (g.x + BORDER_OFFSET) (g.w - BORDER_OFFSET) g.widgets (g.start o)

def InRange (g : ExpandableGroup) : Prop := ∀ o ∈ g.widgets.head?,
  IsInt (g.x + BORDER_OFFSET) ∧ IsInt (g.y + BORDER_OFFSET) ∧ IsInt (g.w - BORDER_OFFSET) ∧
    IsInt (BORDER_OFFSET + o.h) ∧ IsInt (g.y + BORDER_OFFSET - g.sval) ∧
      SumsAll (g.x + BORDER_OFFSET) (g.w - BORDER_OFFSET) g.widgets (g.start o) ∧
        IsInt ((g.settled o).2.areaH + BORDER_OFFSET) ∧
          (∀ c ∈ (g.settled o).1, IsInt (c.y + c.h) ∧ IsInt (g.h - BORDER_OFFSET)) ∧
            ((g.settled o).1.countP (FullyVisible g.h ·) ≠ g.widgets.length →
              IsInt (g.x + g.w) ∧ IsInt (g.x + g.w - g.scrollW))

/-! ## Rounds -/

theorem checked_bind_eq_some {α : Type} {i : ℤ} {f : ℤ → Option α} {r : α} :
    (checked i).bind f = some r ↔ IsInt i ∧ f i = some r := by
  rw [checked]
  split_ifs with h
  · rw [Option.bind_some,and_iff_right h]
  · exact iff_of_false (Option.some_ne_none r).symm (fun hr => h hr.1)

variable {areaX areaW : ℤ} {c : Widget} {cs : List Widget} {k : Cursor}

theorem placeChild_eq_some {r : Widget × Cursor} :
    placeChild areaX areaW c k = some r ↔ Sums areaX areaW c k ∧ settle areaX areaW c k = r := by
  rw [placeChild,Sums,settle]
  cases hc : c.visible with
  | false =>
    simp only [Bool.not_false,if_true,Bool.false_eq_true,false_imp_iff,true_and,Option.some_inj]
  | true =>
    simp only [Bool.not_true,Bool.false_eq_true,if_false,true_imp_iff,Option.bind_eq_bind,checked_bind_eq_some]
    by_cases hfits : k.px + c.w ≤ areaX + areaW
    · simp only [if_pos hfits,checked_bind_eq_some,Option.some_inj,and_assoc]
    · simp only [if_neg hfits,checked_bind_eq_some,Option.some_inj,and_assoc]

theorem placeChilds_eq_some {r : List Widget × Cursor} :
    placeChilds areaX areaW cs k = some r ↔ SumsAll areaX areaW cs k ∧ settleAll areaX areaW cs k = r := by
  induction cs generalizing k r with
  | nil => rw [placeChilds,SumsAll,settleAll,true_and,Option.some_inj]
  | cons c cs ih =>
    rw [placeChilds,SumsAll,settleAll,Option.bind_eq_some_iff]
    constructor
    · rintro ⟨⟨c',k'⟩,hc,hcs⟩
      obtain ⟨hsums,hsettle⟩ := placeChild_eq_some.mp hc
      obtain ⟨⟨cs',k''⟩,hrest,rfl⟩ := Option.map_eq_some_iff.mp hcs
      obtain ⟨hall,hsettled⟩ := ih.mp hrest
      rw [hsettle]
      refine ⟨⟨hsums,hall⟩,?_⟩
      dsimp only
      rw [hsettled]
    · rintro ⟨⟨hsums,hall⟩,rfl⟩
      refine ⟨_,placeChild_eq_some.mpr ⟨hsums,rfl⟩,Option.map_eq_some_iff.mpr ⟨_,ih.mpr ⟨hall,rfl⟩,rfl⟩⟩

theorem countVisible_eq_some {height : ℤ} {n : ℕ} : countVisible height cs = some n ↔
    (∀ c ∈ cs, IsInt (c.y + c.h) ∧ IsInt (height - BORDER_OFFSET)) ∧ cs.countP (FullyVisible height ·) = n := by
  induction cs generalizing n with
  | nil => simp [countVisible]
  | cons c cs ih =>
    simp only [countVisible,Option.bind_eq_bind,checked_bind_eq_some]
    rw [Option.bind_eq_some_iff,List.forall_mem_cons,List.countP_cons]
    have hadd : ∀ vis : ℕ, (if c.y + c.h ≤ height - BORDER_OFFSET ∧ c.y ≥ BORDER_OFFSET then vis + 1 else vis) =
        vis + if decide (FullyVisible height c) = true then 1 else 0 := by
      intro vis
      have hvisible : (c.y + c.h ≤ height - BORDER_OFFSET ∧ c.y ≥ BORDER_OFFSET) ↔ FullyVisible height c := Iff.rfl
      simp only [hvisible,decide_eq_true_eq]
      split_ifs <;> rfl
    simp only [Option.some_inj,hadd]
    constructor
    · rintro ⟨hbottom,hinner,vis,hvis,rfl⟩
      obtain ⟨hall,rfl⟩ := ih.mp hvis
      exact ⟨⟨⟨hbottom,hinner⟩,hall⟩,rfl⟩
    · rintro ⟨⟨⟨hbottom,hinner⟩,hall⟩,rfl⟩
      exact ⟨hbottom,hinner,_,ih.mpr ⟨hall,rfl⟩,rfl⟩

/-! ## Runs -/

theorem children_eq (g : ExpandableGroup) :
    g.children = (g.widgets.length,{ g with before := g.widgets, behind := [] }) := by
  obtain ⟨_,_,_,_,_,_,_,_,_,_,_,_,_,_,_,before,behind⟩ := g
  cases behind with
  | nil => simp [children,widgets]
  | cons c behind => simp [children,widgets,fixScrollbarOrder]

def settledScrollbar (g : ExpandableGroup) (areaH : ℤ) (vis chSize : ℕ) : Scrollbar :=
  if vis ≠ chSize then ⟨⟨g.x + g.w - g.scrollW,g.y,g.scrollW,g.h,true⟩,some (g.sval,g.h,0,areaH)⟩
  else { g.vscrollbar with visible := false }

theorem updateScrollbar_eq_some {g : ExpandableGroup} {areaH : ℤ} {vis chSize : ℕ} {r : Scrollbar} :
    g.updateScrollbar areaH vis chSize = some r ↔
      (vis ≠ chSize → IsInt (g.x + g.w) ∧ IsInt (g.x + g.w - g.scrollW)) ∧ g.settledScrollbar areaH vis chSize = r := by
  rw [updateScrollbar,settledScrollbar]
  split_ifs with h
  · rw [Option.bind_eq_bind,checked_bind_eq_some,checked_bind_eq_some,Option.some_inj,
      imp_iff_right h,and_assoc]
  · rw [Option.some_inj]
    exact (and_iff_right (fun hne => absurd hne h)).symm

def relaid (g : ExpandableGroup) (o : Widget) : ExpandableGroup :=
  { g with
    areaX := g.x + BORDER_OFFSET
    areaY := g.y + BORDER_OFFSET
    areaW := g.w - BORDER_OFFSET
    areaH := (g.settled o).2.areaH + BORDER_OFFSET
    px := (g.settled o).2.px
    py := (g.settled o).2.py
    sval := 0
    vscrollbar := g.settledScrollbar ((g.settled o).2.areaH + BORDER_OFFSET)
      ((g.settled o).1.countP (FullyVisible g.h ·)) g.widgets.length
    before := (g.settled o).1
    behind := [] }

variable {g g' : ExpandableGroup} {o : Widget}

theorem repositionChilds_of_empty (h : g.widgets = []) : g.repositionChilds = some g.children.2 := by
  rw [repositionChilds,children_eq,h]
  rfl

theorem inRange_iff (hw : g.widgets = o :: cs) : g.InRange ↔
    IsInt (g.x + BORDER_OFFSET) ∧ IsInt (g.y + BORDER_OFFSET) ∧ IsInt (g.w - BORDER_OFFSET) ∧
    IsInt (BORDER_OFFSET + o.h) ∧ IsInt (g.y + BORDER_OFFSET - g.sval) ∧
      SumsAll (g.x + BORDER_OFFSET) (g.w - BORDER_OFFSET) g.widgets (g.start o) ∧
        IsInt ((g.settled o).2.areaH + BORDER_OFFSET) ∧
          (∀ c ∈ (g.settled o).1, IsInt (c.y + c.h) ∧ IsInt (g.h - BORDER_OFFSET)) ∧
            ((g.settled o).1.countP (FullyVisible g.h ·) ≠ g.widgets.length →
              IsInt (g.x + g.w) ∧ IsInt (g.x + g.w - g.scrollW)) := by
  have hhead : ∀ o', o' ∈ g.widgets.head? ↔ o = o' := by
    intro o'
    rw [hw,List.head?_cons,Option.mem_some_iff]
  rw [InRange]
  simp only [hhead,forall_eq']

theorem repositionChilds_eq_some (hw : g.widgets = o :: cs) :
    g.repositionChilds = some g' ↔ g.InRange ∧ g.relaid o = g' := by
  have hplace := @placeChilds_eq_some (g.x + BORDER_OFFSET) (g.w - BORDER_OFFSET) g.widgets (g.start o)
  have hcons : g.widgets.head? = some o := by
    rw [hw,List.head?_cons]
  have hlength : ¬ g.widgets.length < 1 := by
    rw [hw,List.length_cons]
    omega
  rw [repositionChilds,children_eq,inRange_iff hw]
  simp only [if_neg hlength,hcons,Option.bind_eq_bind,Option.bind_some,checked_bind_eq_some]
  constructor
  · rintro ⟨hx,hy,hw,hh,hpy,h⟩
    obtain ⟨r,hr,h⟩ := Option.bind_eq_some_iff.mp h
    obtain ⟨hsums,rfl⟩ := hplace.mp hr
    obtain ⟨harea,h⟩ := checked_bind_eq_some.mp h
    obtain ⟨vis,hvis,h⟩ := Option.bind_eq_some_iff.mp h
    obtain ⟨hbottoms,rfl⟩ := countVisible_eq_some.mp hvis
    obtain ⟨scrollbar,hscrollbar,h⟩ := Option.bind_eq_some_iff.mp h
    obtain ⟨hright,rfl⟩ := updateScrollbar_eq_some.mp hscrollbar
    exact ⟨⟨hx,hy,hw,hh,hpy,hsums,harea,hbottoms,hright⟩,Option.some.inj h⟩
  · rintro ⟨⟨hx,hy,hw,hh,hpy,hsums,harea,hbottoms,hright⟩,h⟩
    refine ⟨hx,hy,hw,hh,hpy,Option.bind_eq_some_iff.mpr ⟨_,hplace.mpr ⟨hsums,rfl⟩,checked_bind_eq_some.mpr ⟨harea,?_⟩⟩⟩
    refine Option.bind_eq_some_iff.mpr ⟨_,countVisible_eq_some.mpr ⟨hbottoms,rfl⟩,?_⟩
    exact Option.bind_eq_some_iff.mpr ⟨_,updateScrollbar_eq_some.mpr ⟨hright,rfl⟩,congrArg some h⟩

theorem repositionChilds_isSome : g.repositionChilds.isSome ↔ g.InRange := by
  cases hw : g.widgets with
  | nil =>
    rw [repositionChilds_of_empty hw,InRange,hw]
    exact iff_of_true rfl (fun o ho => absurd ho (Option.not_mem_none o))
  | cons o cs =>
    rw [Option.isSome_iff_exists]
    simp only [repositionChilds_eq_some hw]
    exact ⟨fun h => h.choose_spec.1,fun h => ⟨_,h,rfl⟩⟩

/-! ## What is laid out -/

def sizes (cs : List Widget) : List (ℤ × ℤ) := cs.map (fun c => (c.w,c.h))

/-- The visible children are arranged in rows. -/
theorem settleAll_boxes : ((settleAll areaX areaW cs k).1.filter Widget.visible).map box =
    arrange areaX (areaX + areaW) CHILD_OFFSET k.px k.py (sizes (cs.filter Widget.visible)) := by
  induction cs generalizing k with
  | nil => rfl
  | cons c cs ih =>
    rw [settleAll,settle]
    cases hc : c.visible with
    | false =>
      simp only [Bool.not_false,if_true,List.filter_cons,hc,Bool.false_eq_true,if_false]
      exact ih
    | true =>
      simp only [Bool.not_true,Bool.false_eq_true,if_false,List.filter_cons,hc,if_true]
      by_cases hfits : k.px + c.w ≤ areaX + areaW
      · simp only [if_pos hfits,if_true,List.map_cons,sizes]
        rw [arrange_fits hfits,ih]
        rfl
      · simp only [if_neg hfits,if_true,List.map_cons,sizes]
        rw [arrange_opens hfits,ih]
        rfl

/-- The area grows with the rows. -/
theorem settleAll_area : (settleAll areaX areaW cs k).2.areaH =
    k.areaH + (reached areaX (areaX + areaW) CHILD_OFFSET k.px k.py (sizes (cs.filter Widget.visible)) - k.py) := by
  induction cs generalizing k with
  | nil =>
    simp only [settleAll,List.filter_nil,sizes,List.map_nil,reached]
    omega
  | cons c cs ih =>
    rw [settleAll,settle]
    cases hc : c.visible with
    | false =>
      simp only [Bool.not_false,if_true,List.filter_cons,hc,Bool.false_eq_true,if_false]
      exact ih
    | true =>
      simp only [Bool.not_true,Bool.false_eq_true,if_false,List.filter_cons,hc,if_true]
      by_cases hfits : k.px + c.w ≤ areaX + areaW
      · simp only [if_pos hfits,sizes,List.map_cons]
        rw [reached_fits hfits,ih]
        rfl
      · simp only [if_neg hfits,sizes,List.map_cons]
        rw [reached_opens hfits,ih]
        dsimp only [sizes]
        omega

theorem relaid_boxes (g : ExpandableGroup) (o : Widget) : (g.relaid o).shown.map box =
    arrange (g.x + BORDER_OFFSET) (g.x + BORDER_OFFSET + (g.w - BORDER_OFFSET)) CHILD_OFFSET (g.x + BORDER_OFFSET)
      (g.y + BORDER_OFFSET - g.sval) (sizes g.shown) := by
  have hshown : (g.relaid o).shown = (g.settled o).1.filter Widget.visible :=
    congrArg (List.filter Widget.visible) (List.append_nil _)
  rw [hshown]
  exact settleAll_boxes

theorem sizes_of_boxes (cs : List Widget) : (cs.map box).map (fun b => (b.width,b.height)) = sizes cs := by
  rw [List.map_map]
  rfl

theorem nonneg_sizes (h : ∀ c ∈ cs, 0 ≤ c.w ∧ 0 ≤ c.h) : Sizes (sizes cs) := by
  intro s hs
  obtain ⟨c,hc,rfl⟩ := List.mem_map.mp hs
  exact h c hc

/-- In a group without children there is nothing to show. -/
theorem shown_of_empty (h : g.widgets = []) (hg : g.repositionChilds = some g') : g.shown = [] ∧ g'.shown = [] := by
  rw [repositionChilds_of_empty h,children_eq] at hg
  obtain rfl := Option.some.inj hg
  have hshown : g.shown = [] := by
    rw [shown,h]
    rfl
  refine ⟨hshown,?_⟩
  rw [shown,widgets,List.append_nil]
  exact hshown

theorem laid_relaid (hsizes : ∀ c ∈ g.shown, 0 ≤ c.w ∧ 0 ≤ c.h) : Laid g (g.relaid o) where
  sizes := by
    have hboxes := congrArg (List.map (fun b : Box => (b.width,b.height))) (relaid_boxes g o)
    rwa [sizes_of_boxes,arrange_sizes] at hboxes
  rows := by
    rw [relaid_boxes]
    exact arrange_before (by decide) (nonneg_sizes hsizes)
  fits := by
    intro before c after h
    have hsplit := (relaid_boxes g o).symm.trans (congrArg (List.map box) h)
    rw [List.map_append,List.map_cons] at hsplit
    obtain hfits | ⟨hleft,-,hall⟩ := arrange_fits_or (by decide) (nonneg_sizes hsizes) hsplit
    · exact .inl hfits
    · exact .inr ⟨hleft,fun b hb => hall (box b) (List.mem_map_of_mem hb)⟩

theorem tidy_relaid (hw : g.widgets = o :: cs) (hsizes : ∀ c ∈ g.shown, 0 ≤ c.w ∧ 0 ≤ c.h)
    (heven : ∀ c ∈ g.widgets, ∀ d ∈ g.widgets, c.h = d.h) : Tidy g (g.relaid o) := by
  have ho : o ∈ g.widgets := by
    rw [hw]
    exact List.mem_cons_self
  have heights : ∀ s ∈ sizes g.shown, s.2 = o.h := by
    intro s hs
    obtain ⟨c,hc,rfl⟩ := List.mem_map.mp hs
    exact heven c (List.mem_of_mem_filter hc) o ho
  constructor
  · rw [relaid_boxes]
    exact arrange_apart (by decide) (nonneg_sizes hsizes) heights
  · intro c hc
    have hbox : box c ∈ (g.relaid o).shown.map box := List.mem_map_of_mem hc
    rw [relaid_boxes] at hbox
    have htop := top_le_reached (by decide) (nonneg_sizes hsizes) (box c) hbox
    have hheight : c.h = o.h := by
      have hmem := List.mem_map_of_mem (f := fun b : Box => (b.width,b.height)) hbox
      rw [arrange_sizes] at hmem
      exact heights _ hmem
    have harea : (g.relaid o).areaH = (g.settled o).2.areaH + BORDER_OFFSET := rfl
    have hgrow := @settleAll_area (g.x + BORDER_OFFSET) (g.w - BORDER_OFFSET) g.widgets (g.start o)
    rw [harea,settled,hgrow]
    change c.y ≤ _ at htop
    dsimp only [start,shown,BORDER_OFFSET] at *
    omega

/-- A layout is computed where its sums are of type `int`; whatever the heights are, it is in rows, and where all
children have one height they do not overlap and the area covers them. -/
theorem repositionChilds_laid (g : ExpandableGroup) (hsizes : ∀ c ∈ g.shown, 0 ≤ c.w ∧ 0 ≤ c.h) :
    (g.repositionChilds.isSome ↔ g.InRange) ∧ ∀ g', g.repositionChilds = some g' →
      Laid g g' ∧ ((∀ c ∈ g.widgets, ∀ d ∈ g.widgets, c.h = d.h) → Tidy g g') := by
  refine ⟨repositionChilds_isSome,fun g' h => ?_⟩
  cases hw : g.widgets with
  | nil =>
    obtain ⟨hshown,hshown'⟩ := shown_of_empty hw h
    refine ⟨⟨?_,?_,?_⟩,fun _ => ⟨?_,?_⟩⟩
    · rw [hshown,hshown']
    · rw [hshown']
      exact .nil
    · intro before c after hsplit
      rw [hshown'] at hsplit
      exact absurd hsplit.symm (List.append_ne_nil_of_right_ne_nil before (List.cons_ne_nil c after))
    · rw [hshown']
      exact .nil
    · rw [hshown']
      exact fun c hc => absurd hc List.not_mem_nil
  | cons o cs =>
    obtain ⟨-,rfl⟩ := (repositionChilds_eq_some hw).mp h
    exact ⟨laid_relaid hsizes,fun heven => tidy_relaid hw hsizes (hw ▸ heven)⟩

/-- A group whose area is 100 wide, with two children that are 80 wide. -/
def pair (height₁ height₂ : ℤ) : ExpandableGroup where
  x := 0
  y := 0
  w := 110
  h := 200
  scrollW := 16
  px := 0
  py := 0
  sval := 0
  svalCurr := 0
  svalOld := 0
  areaX := 10
  areaY := 10
  areaW := 110
  areaH := 200
  vscrollbar := ⟨⟨94,0,16,200,false⟩,none⟩
  before := []
  behind := [⟨0,0,80,height₁,true⟩,⟨0,0,80,height₂,true⟩]

theorem repositionChilds_laid_pair : ((pair 50 50).repositionChilds.isSome ↔ (pair 50 50).InRange) ∧
    ∀ g', (pair 50 50).repositionChilds = some g' → Laid (pair 50 50) g' ∧
      ((∀ c ∈ (pair 50 50).widgets, ∀ d ∈ (pair 50 50).widgets, c.h = d.h) → Tidy (pair 50 50) g') :=
  repositionChilds_laid (pair 50 50) (by decide)

/-- A child that opens a row is put over the one before if that is taller. -/
theorem not_repositionChilds_tidy : ¬ ∀ g : ExpandableGroup, (∀ c ∈ g.shown, 0 ≤ c.w ∧ 0 ≤ c.h) →
    ∀ g', g.repositionChilds = some g' → Laid g g' ∧ Tidy g g' := by
  intro h
  have hlaid : (pair 50 10).repositionChilds = some ((pair 50 10).relaid ⟨0,0,80,50,true⟩) := rfl
  have hapart := (h (pair 50 10) (by decide) _ hlaid).2.apart
  revert hapart
  decide

end ExpandableGroup
end Edelib.Widgets
