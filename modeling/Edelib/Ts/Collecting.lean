import Edelib.Foundation.LinkedPath
import Edelib.Ts.Marking

/-! # What is collected

The cells are used or free. What is used is linked to what is used, and the free ones are a list in address order. A
collection frees the cells that cannot be reached, and leaves the others as they are.
-/
namespace Edelib.Ts
open Foundation Relation

def statics : List ℕ := [NIL,T,F,EOF_OBJ]

abbrev Chain (cells : Cells) (p : ℕ) (l : List ℕ) : Prop := Path (fun x => (cells x).cdr) p l NIL

def Used (sc : Scheme) (free : List ℕ) (x : ℕ) : Prop := x ∈ statics ∨ x ∈ sc.segCells ∧ x ∉ free

/-- A cell that a variable may point to: it is used, and not inside a vector. -/
def Proper (sc : Scheme) (free : List ℕ) (x : ℕ) : Prop := Used sc free x ∧ ∀ v, Used sc free v → ¬ Within sc.cells v x

structure FreeList (sc : Scheme) (free : List ℕ) : Prop where
  segs : sc.cellSeg.Pairwise (fun s t => s + CELL_SEGSIZE < t)
  above : ∀ s ∈ sc.cellSeg, sink < s
  chain : Chain sc.cells sc.freeCell free
  sorted : free.Pairwise (· < ·)
  sub : ∀ x ∈ free, x ∈ sc.segCells
  fcells : sc.fcells = free.length
  blank : ∀ x ∈ free, (sc.cells x).inUse = false

structure Heap (sc : Scheme) (free : List ℕ) : Prop extends FreeList sc free where
  unmarked : ∀ x ∈ sc.segCells, isMark sc.cells x = false
  bare : ∀ x ∈ statics, ∀ y, ¬ Edge sc.cells x y
  links : ∀ x, Used sc free x → ∀ y, Edge sc.cells x y → Used sc free y
  atom : ∀ v, Used sc free v → (sc.cells v).type = .vector → (sc.cells v).atom = true
  inside : ∀ v, Used sc free v → ∀ y, Within sc.cells v y →
    y ∉ statics ∧ (sc.cells y).type ≠ .vector ∧ ∀ x, Used sc free x → Edge sc.cells x y → x = v
  proper : ∀ a ∈ sc.registers, Proper sc free a

variable {sc sc' : Scheme} {free free' : List ℕ} {x y p a b : ℕ} {cells : Cells} {m : Finset ℕ} {l : List ℕ}

/-! ## The free list -/

theorem mem_segCells : x ∈ sc.segCells ↔ ∃ s ∈ sc.cellSeg, s ≤ x ∧ x < s + CELL_SEGSIZE := by
  rw [Scheme.segCells,List.mem_flatMap]
  simp only [List.mem_range'_1]

/-- The cells of the segments are in order. -/
theorem FreeList.segCells_sorted (h : FreeList sc free) : sc.segCells.Pairwise (· < ·) := by
  rw [Scheme.segCells,List.pairwise_flatMap]
  refine ⟨fun s _ => List.pairwise_lt_range',h.segs.imp ?_⟩
  intro s t hst x hx y hy
  rw [List.mem_range'_1] at hx hy
  omega

theorem FreeList.sink_lt (h : FreeList sc free) (hx : x ∈ sc.segCells) : sink < x := by
  obtain ⟨s,hs,hle,-⟩ := mem_segCells.mp hx
  exact (h.above s hs).trans_le hle

theorem static_le (hx : x ∈ statics) : 0 < x ∧ x < sink := by
  simp only [statics,List.mem_cons,List.not_mem_nil,or_false] at hx
  rcases hx with rfl | rfl | rfl | rfl <;> decide

/-! ## Sweeping -/

def reclaim (c : Cell) (next : ℕ) : Cell :=
  { (if c.inUse then { c.clear with car := NIL } else c) with cdr := next }

theorem inUse_reclaim {c : Cell} (next : ℕ) : (reclaim c next).inUse = false := by
  rw [reclaim]
  split_ifs with h
  · rfl
  · exact Bool.eq_false_of_not_eq_true h

def finalized (c : Cell) : List ℕ := if c.type = .string ∨ c.type = .port then [c.svalue] else []

theorem inUse_of_finalized {c : Cell} (h : finalized c ≠ []) : c.inUse = true := by
  rw [finalized] at h
  split_ifs at h with htype
  · rcases htype with htype | htype <;> rw [Cell.inUse,htype] <;> rfl
  · exact absurd rfl h

theorem sweepCell_marked (h : isMark sc.cells p = true) :
    sc.sweepCell p = { sc with cells := put sc.cells p { sc.cells p with mark := false } } := if_pos h

theorem sweepCell_unmarked (h : isMark sc.cells p = false) : sc.sweepCell p = { sc with
    freed := sc.freed ++ finalized (sc.cells p), fcells := sc.fcells + 1, freeCell := p
    cells := put sc.cells p (reclaim (sc.cells p) sc.freeCell) } := by
  rw [Scheme.sweepCell,if_neg (by rw [h]; exact Bool.false_ne_true)]
  cases huse : (sc.cells p).inUse with
  | false =>
    have hnone : finalized (sc.cells p) = [] := by
      by_contra hne
      rw [inUse_of_finalized hne] at huse
      cases huse
    rw [hnone,List.append_nil,reclaim,huse]
    rfl
  | true =>
    rw [if_pos rfl,reclaim,huse,if_pos rfl,finalized,Scheme.finalizeCell]
    split_ifs with htype
    · dsimp only
      rw [put_apply_self,put_put]
    · dsimp only
      rw [put_apply_self,put_put,List.append_nil]

structure Swept (sc sc' : Scheme) (l free : List ℕ) : Prop where
  eq : sc' = { sc with cells := sc'.cells, fcells := sc'.fcells, freeCell := sc'.freeCell, freed := sc'.freed }
  others : ∀ x ∉ l, sc'.cells x = sc.cells x
  marked : ∀ x ∈ l, isMark sc.cells x = true → sc'.cells x = { sc.cells x with mark := false }
  blank : ∀ x ∈ l, isMark sc.cells x = false → (sc'.cells x).inUse = false
  chain : Chain sc'.cells sc'.freeCell (l.filter (fun x => !isMark sc.cells x) ++ free)
  fcells : sc'.fcells = sc.fcells + (l.filter (fun x => !isMark sc.cells x)).length
  freed : sc'.freed = sc.freed ++ (l.reverse.filter (fun x => !isMark sc.cells x)).flatMap (fun x => finalized (sc.cells x))

theorem Swept.cons (h : Swept sc sc' l free) (hp : p ∉ l) (hfree : p ∉ free) : Swept sc (sc'.sweepCell p) (p :: l) free := by
  have hcell := h.others p hp
  have hmark : isMark sc'.cells p = isMark sc.cells p := by
    rw [isMark,hcell,isMark]
  have hne : ∀ x ∈ l, x ≠ p := fun x hx heq => hp (heq ▸ hx)
  have hchain : ∀ c, Chain (put sc'.cells p c) sc'.freeCell (l.filter (fun x => !isMark sc.cells x) ++ free) := by
    refine fun c => h.chain.congr (fun x hx => ?_)
    have hx' : x ≠ p := by
      rintro rfl
      rcases List.mem_append.mp hx with hx | hx
      · exact hp (List.mem_filter.mp hx).1
      · exact hfree hx
    rw [put_of_ne hx']
  cases hm : isMark sc.cells p with
  | true =>
    have hfilter : (p :: l).filter (fun x => !isMark sc.cells x) = l.filter (fun x => !isMark sc.cells x) :=
      List.filter_cons_of_neg (by rw [hm]; exact Bool.false_ne_true)
    have hfilter' : (p :: l).reverse.filter (fun x => !isMark sc.cells x) =
        l.reverse.filter (fun x => !isMark sc.cells x) := by
      rw [List.reverse_cons,List.filter_append,List.filter_cons_of_neg (by rw [hm]; exact Bool.false_ne_true)]
      exact List.append_nil _
    rw [sweepCell_marked (hmark.trans hm)]
    refine ⟨?_,fun x hx => ?_,fun x hx hmx => ?_,fun x hx hmx => ?_,?_,?_,?_⟩
    · conv_lhs => rw [h.eq]
    · rw [List.mem_cons,not_or] at hx
      exact (put_of_ne hx.1).trans (h.others x hx.2)
    · dsimp only
      rcases List.mem_cons.mp hx with rfl | hx
      · rw [put_apply_self,hcell]
      · rw [put_of_ne (hne x hx),h.marked x hx hmx]
    · dsimp only
      rcases List.mem_cons.mp hx with rfl | hx
      · rw [hm] at hmx
        cases hmx
      · rw [put_of_ne (hne x hx),h.blank x hx hmx]
    · rw [hfilter]
      exact hchain _
    · rw [hfilter]
      exact h.fcells
    · rw [hfilter']
      exact h.freed
  | false =>
    have hfilter : (p :: l).filter (fun x => !isMark sc.cells x) = p :: l.filter (fun x => !isMark sc.cells x) :=
      List.filter_cons_of_pos (by rw [hm]; rfl)
    have hfilter' : (p :: l).reverse.filter (fun x => !isMark sc.cells x) =
        l.reverse.filter (fun x => !isMark sc.cells x) ++ [p] := by
      rw [List.reverse_cons,List.filter_append,List.filter_cons_of_pos (by rw [hm]; rfl),List.filter_nil]
    rw [sweepCell_unmarked (hmark.trans hm)]
    refine ⟨?_,fun x hx => ?_,fun x hx hmx => ?_,fun x hx hmx => ?_,?_,?_,?_⟩
    · conv_lhs => rw [h.eq]
    · rw [List.mem_cons,not_or] at hx
      exact (put_of_ne hx.1).trans (h.others x hx.2)
    · dsimp only
      rcases List.mem_cons.mp hx with rfl | hx
      · rw [hm] at hmx
        cases hmx
      · rw [put_of_ne (hne x hx),h.marked x hx hmx]
    · dsimp only
      rcases List.mem_cons.mp hx with rfl | hx
      · rw [put_apply_self,inUse_reclaim]
      · rw [put_of_ne (hne x hx),h.blank x hx hmx]
    · rw [hfilter]
      refine ⟨rfl,?_⟩
      dsimp only
      rw [put_apply_self]
      exact hchain _
    · dsimp only
      rw [hfilter,List.length_cons,h.fcells,Nat.cast_succ,add_assoc]
    · dsimp only
      rw [hfilter',h.freed,hcell,List.flatMap_append,List.append_assoc,List.flatMap_cons,List.flatMap_nil,List.append_nil]

theorem sweep_cells (hchain : Chain sc.cells sc.freeCell free) (hnodup : (l ++ free).Nodup) :
    Swept sc (l.reverse.foldl Scheme.sweepCell sc) l free := by
  induction l with
  | nil => exact ⟨rfl,fun _ _ => rfl,fun _ hx => absurd hx List.not_mem_nil,fun _ hx => absurd hx List.not_mem_nil,hchain,
      (add_zero _).symm,(List.append_nil _).symm⟩
  | cons p l ih =>
    obtain ⟨hnot,hnodup'⟩ := List.nodup_cons.mp hnodup
    rw [List.reverse_cons,List.foldl_append,List.foldl_cons,List.foldl_nil]
    exact (ih hnodup').cons (fun hmem => hnot (List.mem_append_left _ hmem)) (fun hmem => hnot (List.mem_append_right _ hmem))

/-! ## Collecting -/

/-- The cells are the same but for their marks. -/
def Same (c c' : Cell) : Prop := { c with mark := false } = { c' with mark := false }

theorem Same.fields {c c' : Cell} (h : Same c c') : c.type = c'.type ∧ c.atom = c'.atom ∧ c.ivalue = c'.ivalue ∧
    c.svalue = c'.svalue ∧ c.car = c'.car ∧ c.cdr = c'.cdr := by
  rw [Same] at h
  simp only [Cell.mk.injEq] at h
  tauto

theorem Same.eq {c c' : Cell} (h : Same c c') (hmark : c.mark = c'.mark) : c = c' := by
  rw [Same] at h
  simp only [Cell.mk.injEq,true_and] at h
  cases c
  cases c'
  simp_all only

theorem within_congr {cells' : Cells} (h : Same (cells' x) (cells x)) : Within cells' x y ↔ Within cells x y := by
  obtain ⟨htype,-,hivalue,-⟩ := h.fields
  rw [Within,Within,Cell.elems,Cell.elems,htype,hivalue]

theorem edge_congr {cells' : Cells} (h : Same (cells' x) (cells x)) : Edge cells' x y ↔ Edge cells x y := by
  obtain ⟨-,hatom,-,-,hcar,hcdr⟩ := h.fields
  rw [Edge,Edge,within_congr h,hatom,hcar,hcdr]

theorem same_marked (cells : Cells) (m : Finset ℕ) (x : ℕ) : Same (marked cells m x) (cells x) := by
  by_cases hx : x ∈ m
  · rw [marked_of_mem hx]
    rfl
  · rw [marked_of_notMem hx]
    rfl

def usedCells (sc : Scheme) (free : List ℕ) : Finset ℕ := (statics ++ sc.segCells).toFinset.filter (fun x => x ∉ free)

namespace Heap

theorem mem_usedCells (h : Heap sc free) : x ∈ usedCells sc free ↔ Used sc free x := by
  rw [usedCells,Finset.mem_filter,List.mem_toFinset,List.mem_append,Used]
  constructor
  · rintro ⟨hx | hx,hfree⟩
    · exact .inl hx
    · exact .inr ⟨hx,hfree⟩
  · rintro (hx | ⟨hx,hfree⟩)
    · refine ⟨.inl hx,fun hfree => ?_⟩
      have := h.sink_lt (h.sub x hfree)
      have := (static_le hx).2
      omega
    · exact ⟨.inr hx,hfree⟩

theorem card_usedCells (sc : Scheme) (free : List ℕ) : (usedCells sc free).card ≤ sc.segCells.length + 4 := by
  refine (Finset.card_filter_le _ _).trans ((List.toFinset_card_le _).trans ?_)
  rw [List.length_append,Nat.add_comm]
  exact le_rfl

theorem shape (h : Heap sc free) : Shape (usedCells sc free) sc.cells where
  nonnull hzero := by
    rcases h.mem_usedCells.mp hzero with hx | hx
    · exact absurd (static_le hx).1 (Nat.lt_irrefl 0)
    · exact absurd (h.sink_lt hx.1) (Nat.not_lt_zero _)
  link x hx y hedge := h.mem_usedCells.mpr (h.links x (h.mem_usedCells.mp hx) y hedge)
  atom v hv := h.atom v (h.mem_usedCells.mp hv)
  inside v hv y hy x hx hedge := (h.inside v (h.mem_usedCells.mp hv) y hy).2.2 x (h.mem_usedCells.mp hx) hedge
  plain v hv y hy := (h.inside v (h.mem_usedCells.mp hv) y hy).2.1

/-- What can be reached is used. -/
theorem used_of_live (h : Heap sc free) {roots : List ℕ} (hroots : ∀ a ∈ roots, Used sc free a) (hx : Live sc.cells roots x) :
    Used sc free x := by
  obtain ⟨a,ha,hpath⟩ := hx
  induction hpath with
  | refl => exact hroots a ha
  | tail _ hedge ih => exact h.links _ ih _ hedge

end Heap

structure Collected (sc sc' : Scheme) (roots free' : List ℕ) : Prop where
  eq : sc' = { sc with cells := sc'.cells, fcells := sc'.fcells, freeCell := sc'.freeCell, freed := sc'.freed }
  free : ∀ x, x ∈ free' ↔ x ∈ sc.segCells ∧ ¬ Live sc.cells roots x
  live : ∀ x, Live sc.cells roots x ∨ x ∉ sc.segCells → Same (sc'.cells x) (sc.cells x)
  sink : sc'.cells sink = sc.cells sink
  freed : sc'.freed = sc.freed ++
    (sc.segCells.reverse.filter (fun x => decide (x ∈ free'))).flatMap (fun x => finalized (sc.cells x))

theorem Heap.gc (h : Heap sc free) (ha : Proper sc free a) (hb : Proper sc free b) :
    ∃ sc' free', sc.gc a b = some sc' ∧ Collected sc sc' (sc.roots a b) free' ∧ Heap sc' free' := by
  have hroots : ∀ r ∈ sc.roots a b, Proper sc free r := by
    intro r hr
    rcases List.mem_append.mp hr with hr | hr
    · exact h.proper r hr
    · rcases List.mem_pair.mp hr with rfl | rfl
      · exact ha
      · exact hb
  have hstatic : ∀ {x}, x ∈ statics → x ∉ sc.segCells := fun hx hseg => by
    have := h.sink_lt hseg
    have := (static_le hx).2
    omega
  -- what is marked before are static cells, which are not linked to anything
  obtain ⟨m,hsub,hrun,hmark⟩ := markAll_eq h.shape
    (fun x hx hmark y hedge => by
      rcases h.mem_usedCells.mp hx with hx | hx
      · exact absurd hedge (h.bare x hx y)
      · rw [h.unmarked x hx.1] at hmark
        cases hmark)
    (fun v hv y hy _ => by
      have hinside := h.inside v (h.mem_usedCells.mp hv) y hy
      rcases h.links v (h.mem_usedCells.mp hv) y (.inl hy) with hy | hy
      · exact absurd hy hinside.1
      · exact h.unmarked y hy.1)
    (fun r hr => ⟨h.mem_usedCells.mpr (hroots r hr).1,fun v hv => (hroots r hr).2 v (h.mem_usedCells.mp hv)⟩)
    (by
      have := Heap.card_usedCells sc free
      rw [Scheme.markSteps]
      omega : 4 * (usedCells sc free).card + 4 ≤ sc.markSteps)
  have hlive : ∀ x ∈ sc.segCells, isMark (marked sc.cells m) x = true ↔ Live sc.cells (sc.roots a b) x := by
    intro x hx
    rw [hmark,h.unmarked x hx]
    exact ⟨fun h => h.resolve_left Bool.false_ne_true,.inr⟩
  have hsink : sink ∉ m := fun hmem => by
    rcases h.mem_usedCells.mp (hsub hmem) with hx | hx
    · exact absurd (static_le hx).2 (Nat.lt_irrefl _)
    · exact absurd (h.sink_lt hx.1) (Nat.lt_irrefl _)
  -- the cells are swept
  obtain ⟨sc₁,hsc₁⟩ : ∃ sc₁ : Scheme, sc₁ = { sc with
    cells := put (marked sc.cells m) NIL { marked sc.cells m NIL with mark := false }, fcells := 0, freeCell := NIL } :=
    ⟨_,rfl⟩
  have hsegs : sc₁.segCells = sc.segCells := by rw [hsc₁]; rfl
  have hcell : ∀ x, x ≠ NIL → sc₁.cells x = marked sc.cells m x := by
    intro x hx
    rw [hsc₁]
    exact put_of_ne hx
  have hsame₁ : ∀ x, Same (sc₁.cells x) (sc.cells x) := by
    intro x
    by_cases hx : x = NIL
    · rw [hx,hsc₁]
      change Same (put (marked sc.cells m) NIL _ NIL) _
      rw [put_apply_self]
      exact same_marked sc.cells m NIL
    · rw [hcell x hx]
      exact same_marked sc.cells m x
  have hseg : ∀ x ∈ sc.segCells, x ≠ NIL := by
    rintro x hx rfl
    exact hstatic List.mem_cons_self hx
  have hmark₁ : ∀ x ∈ sc.segCells, isMark sc₁.cells x = true ↔ Live sc.cells (sc.roots a b) x := by
    intro x hx
    rw [isMark,hcell x (hseg x hx)]
    exact hlive x hx
  have hswept : Swept sc₁ sc₁.sweep sc.segCells [] := by
    rw [Scheme.sweep,hsegs]
    refine sweep_cells ?_ ?_
    · rw [hsc₁]
      rfl
    · rw [List.append_nil]
      exact h.segCells_sorted.imp (fun hlt => Nat.ne_of_lt hlt)
  obtain ⟨sc',hsc'⟩ : ∃ sc', sc' = sc₁.sweep := ⟨_,rfl⟩
  obtain ⟨free',hfree'⟩ : ∃ free', free' = sc.segCells.filter (fun x => !isMark sc₁.cells x) := ⟨_,rfl⟩
  rw [← hsc'] at hswept
  have hfree : ∀ x, x ∈ free' ↔ x ∈ sc.segCells ∧ ¬ Live sc.cells (sc.roots a b) x := by
    intro x
    rw [hfree',List.mem_filter,Bool.not_eq_true']
    refine and_congr_right (fun hx => ?_)
    rw [← hmark₁ x hx,Bool.not_eq_true]
  have hsame : ∀ x, Live sc.cells (sc.roots a b) x ∨ x ∉ sc.segCells → Same (sc'.cells x) (sc.cells x) := by
    intro x hx
    by_cases hmem : x ∈ sc.segCells
    · rw [hswept.marked x hmem ((hmark₁ x hmem).mpr (hx.resolve_right (not_not.mpr hmem)))]
      exact hsame₁ x
    · rw [hswept.others x hmem]
      exact hsame₁ x
  have hsinkcell : sc'.cells sink = sc.cells sink := by
    have hnot : sink ∉ sc.segCells := fun hmem => absurd (h.sink_lt hmem) (Nat.lt_irrefl _)
    rw [hswept.others sink hnot,hcell sink (by decide),marked_of_notMem hsink]
  have heq : sc' = { sc with cells := sc'.cells, fcells := sc'.fcells, freeCell := sc'.freeCell, freed := sc'.freed } := by
    conv_lhs => rw [hswept.eq,hsc₁]
  have hsegs' : sc'.segCells = sc.segCells := by rw [heq]; rfl
  -- what is used afterwards is a static cell, or can be reached
  have hused : ∀ x, Used sc' free' x ↔ x ∈ statics ∨ x ∈ sc.segCells ∧ Live sc.cells (sc.roots a b) x := by
    intro x
    rw [Used,hsegs',hfree]
    exact or_congr_right (and_congr_right (fun hx => ⟨fun hnot => not_not.mp (fun hdead => hnot ⟨hx,hdead⟩),
      fun hlive hdead => hdead.2 hlive⟩))
  have hbefore : ∀ x, Used sc' free' x → Used sc free x ∧ Same (sc'.cells x) (sc.cells x) := by
    intro x hx
    rcases (hused x).mp hx with hx | ⟨hx,hlive⟩
    · exact ⟨.inl hx,hsame x (.inr (hstatic hx))⟩
    · exact ⟨h.used_of_live (fun r hr => (hroots r hr).1) hlive,hsame x (.inl hlive)⟩
  have hafter : ∀ x, Live sc.cells (sc.roots a b) x → Used sc' free' x := by
    intro x hx
    refine (hused x).mpr ?_
    rcases h.used_of_live (fun r hr => (hroots r hr).1) hx with hstatic | hseg
    · exact .inl hstatic
    · exact .inr ⟨hseg.1,hx⟩
  refine ⟨sc',free',?_,⟨heq,hfree,hsame,hsinkcell,?_⟩,⟨⟨?_,?_,?_,?_,?_,?_,?_⟩,?_,?_,?_,?_,?_,?_⟩⟩
  · rw [Scheme.gc,hrun,hsc',hsc₁]
    rfl
  · rw [hswept.freed,hfree']
    have hfreed : sc₁.freed = sc.freed := by rw [hsc₁]
    have hfilter : sc.segCells.reverse.filter (fun x => decide (x ∈ sc.segCells.filter (fun x => !isMark sc₁.cells x))) =
        sc.segCells.reverse.filter (fun x => !isMark sc₁.cells x) := by
      refine List.filter_congr (fun x hx => ?_)
      rw [List.mem_reverse] at hx
      cases hm : isMark sc₁.cells x with
      | true => exact decide_eq_false (fun hmem => by rw [List.mem_filter,hm] at hmem; exact Bool.false_ne_true hmem.2)
      | false => exact decide_eq_true (List.mem_filter.mpr ⟨hx,by rw [hm]; rfl⟩)
    have hfinal : ∀ x, finalized (sc₁.cells x) = finalized (sc.cells x) := by
      intro x
      obtain ⟨htype,-,-,hsvalue,-⟩ := (hsame₁ x).fields
      rw [finalized,finalized,htype,hsvalue]
    rw [hfreed,hfilter]
    simp only [hfinal]
  · rw [heq]
    exact h.segs
  · rw [heq]
    exact h.above
  · have hchain := hswept.chain
    rwa [List.append_nil,← hfree'] at hchain
  · rw [hfree']
    exact h.segCells_sorted.sublist List.filter_sublist
  · rw [hsegs']
    exact fun x hx => ((hfree x).mp hx).1
  · have hzero : sc₁.fcells = 0 := by rw [hsc₁]
    rw [hswept.fcells,hzero,zero_add,← hfree']
  · intro x hx
    rw [hfree',List.mem_filter,Bool.not_eq_true'] at hx
    exact hswept.blank x hx.1 hx.2
  · rw [hsegs']
    intro x hx
    cases hm : isMark sc₁.cells x with
    | true =>
      rw [isMark,hswept.marked x hx hm]
    | false =>
      have hblank := hswept.blank x hx hm
      rw [Cell.inUse,Bool.or_eq_false_iff] at hblank
      exact hblank.2
  · intro x hx y hedge
    exact h.bare x hx y ((edge_congr (hsame x (.inr (hstatic hx)))).mp hedge)
  · intro x hx y hedge
    have hedge' := (edge_congr (hbefore x hx).2).mp hedge
    rcases (hused x).mp hx with hx | ⟨-,r,hr,hpath⟩
    · exact absurd hedge' (h.bare x hx y)
    · exact hafter y ⟨r,hr,hpath.tail hedge'⟩
  · intro v hv hvector
    obtain ⟨hv,hsame⟩ := hbefore v hv
    obtain ⟨htype,hatom,-⟩ := hsame.fields
    rw [hatom]
    exact h.atom v hv (htype ▸ hvector)
  · intro v hv y hy
    obtain ⟨hv',hsamev⟩ := hbefore v hv
    have hy' := (within_congr hsamev).mp hy
    obtain ⟨hnot,hplain,honly⟩ := h.inside v hv' y hy'
    have hlivey : Live sc.cells (sc.roots a b) y := by
      rcases (hused v).mp hv with hv | ⟨-,r,hr,hpath⟩
      · exact absurd (.inl hy') (h.bare v hv y)
      · exact ⟨r,hr,hpath.tail (.inl hy')⟩
    refine ⟨hnot,?_,fun x hx hedge => ?_⟩
    · rw [(hsame y (.inl hlivey)).fields.1]
      exact hplain
    · obtain ⟨hx',hsamex⟩ := hbefore x hx
      exact honly x hx' ((edge_congr hsamex).mp hedge)
  · intro r hr
    have hregs : sc'.registers = sc.registers := by
      rw [Scheme.registers,Scheme.registers,hsinkcell,heq]
    rw [hregs] at hr
    refine ⟨hafter r ⟨r,List.mem_append_left _ hr,.refl⟩,fun v hv hwithin => ?_⟩
    obtain ⟨hv',hsamev⟩ := hbefore v hv
    exact (h.proper r hr).2 v hv' ((within_congr hsamev).mp hwithin)

end Edelib.Ts
