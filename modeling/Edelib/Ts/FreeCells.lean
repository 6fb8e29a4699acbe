import Edelib.Ts.Allocator
import Edelib.Ts.Collecting

/-! # The list of the free cells

A cell is taken from its front, consecutive cells are taken from its middle, and the cells of a new segment are put where
their addresses belong.
-/
namespace Edelib.Ts
open Foundation Relation

variable {sc sc' sc₁ : Scheme} {free free' free₁ rest lo hi l₁ l₂ : List ℕ} {x y p q n newp steps : ℕ} {cells cells' : Cells} {c : Cell}

namespace FreeList

theorem nodup (h : FreeList sc free) : free.Nodup := h.sorted.imp (fun hlt => Nat.ne_of_lt hlt)

theorem sink_lt_of_mem (h : FreeList sc free) (hx : x ∈ free) : sink < x := h.sink_lt (h.sub x hx)

theorem ne_nil_of_mem (h : FreeList sc free) (hx : x ∈ free) : x ≠ NIL := by
  have := h.sink_lt_of_mem hx
  rintro rfl
  exact absurd this (by decide)

/-- Cells that are not free may be written. -/
theorem congr (h : FreeList sc free) (hsegs : sc'.cellSeg = sc.cellSeg) (hfirst : sc'.freeCell = sc.freeCell)
    (hcount : sc'.fcells = sc.fcells) (hsame : ∀ x ∈ free, sc'.cells x = sc.cells x) : FreeList sc' free where
  segs := by
    rw [hsegs]
    exact h.segs
  above := by
    rw [hsegs]
    exact h.above
  chain := by
    rw [hfirst]
    exact h.chain.congr (fun x hx => by rw [hsame x hx])
  sorted := h.sorted
  sub x hx := by
    rw [Scheme.segCells,hsegs]
    exact h.sub x hx
  fcells := by
    rw [hcount]
    exact h.fcells
  blank x hx := by rw [hsame x hx,h.blank x hx]

theorem freeCell_eq_nil (h : FreeList sc free) : sc.freeCell = NIL ↔ free = [] := by
  cases free with
  | nil => exact iff_of_true h.chain rfl
  | cons x rest =>
    rw [h.chain.head]
    exact iff_of_false (h.ne_nil_of_mem List.mem_cons_self) (List.cons_ne_nil x rest)

/-- The first cell is taken. -/
theorem pop (h : FreeList sc (x :: rest)) : sc.popCell.1 = x ∧ FreeList sc.popCell.2 rest := by
  refine ⟨h.chain.head,h.segs,h.above,?_,h.sorted.of_cons,fun y hy => h.sub y (List.mem_cons_of_mem x hy),?_,
    fun y hy => h.blank y (List.mem_cons_of_mem x hy)⟩
  · have htail := h.chain.tail
    rwa [← h.chain.head] at htail
  · change sc.fcells - 1 = rest.length
    rw [h.fcells,List.length_cons,Nat.cast_succ]
    exact add_sub_cancel_right _ _

end FreeList

/-! ## Segments -/

theorem mem_placeSeg {segs : List ℕ} : x ∈ placeSeg newp segs ↔ x = newp ∨ x ∈ segs := by
  induction segs with
  | nil => rw [placeSeg,List.mem_singleton,or_iff_left List.not_mem_nil]
  | cons s segs ih =>
    rw [placeSeg]
    split_ifs with hs
    · rw [List.mem_cons,ih,List.mem_cons]
      tauto
    · rw [List.mem_cons]

/-- The segments stay apart and in order. -/
theorem placeSeg_pairwise {segs : List ℕ} (h : segs.Pairwise (fun s t => t + CELL_SEGSIZE < s))
    (hapart : ∀ s ∈ segs, newp + CELL_SEGSIZE < s ∨ s + CELL_SEGSIZE < newp) :
    (placeSeg newp segs).Pairwise (fun s t => t + CELL_SEGSIZE < s) := by
  induction segs with
  | nil => exact List.pairwise_singleton ..
  | cons s segs ih =>
    obtain ⟨hs,hsegs⟩ := List.pairwise_cons.mp h
    obtain ⟨hnew,hrest⟩ := List.forall_mem_cons.mp hapart
    rw [placeSeg]
    split_ifs with hgt
    · refine List.pairwise_cons.mpr ⟨fun t ht => ?_,ih hsegs hrest⟩
      rcases mem_placeSeg.mp ht with rfl | ht
      · omega
      · exact hs t ht
    · refine List.pairwise_cons.mpr ⟨fun t ht => ?_,h⟩
      rcases List.mem_cons.mp ht with rfl | ht
      · omega
      · have := hs t ht
        omega

theorem foldl_initCell {l : List ℕ} (hnodup : l.Nodup) (x : ℕ) : l.foldl initCell cells x =
    if x ∈ l then { (cells x).clear with cdr := x + 1, car := NIL } else cells x := by
  induction l generalizing cells with
  | nil => rw [if_neg List.not_mem_nil]; rfl
  | cons p l ih =>
    obtain ⟨hp,hl⟩ := List.nodup_cons.mp hnodup
    rw [List.foldl_cons,ih hl]
    by_cases hx : x = p
    · rw [hx,if_neg hp,if_pos List.mem_cons_self,initCell,put_apply_self]
    · have hiff : x ∈ p :: l ↔ x ∈ l := by rw [List.mem_cons,or_iff_right hx]
      simp only [hiff,initCell,put_of_ne hx]

theorem initSeg_apply (cells : Cells) (newp x : ℕ) : initSeg cells newp x =
    if newp ≤ x ∧ x < newp + CELL_SEGSIZE then { (cells x).clear with cdr := x + 1, car := NIL } else cells x := by
  rw [initSeg,foldl_initCell (List.nodup_range' ..)]
  simp only [List.mem_range'_1]

/-- The search stops at the last cell below the new segment. -/
theorem freeBefore_eq (h : Chain cells p (l₁ ++ x :: l₂)) (hlo : ∀ y ∈ l₁ ++ [x], y ≠ NIL ∧ y < newp)
    (hhi : ∀ y ∈ l₂, newp < y) (hsteps : l₁.length < steps) : freeBefore cells newp steps p = some x := by
  induction l₁ generalizing p steps with
  | nil =>
    obtain ⟨steps,rfl⟩ := Nat.exists_eq_succ_of_ne_zero (Nat.ne_of_gt hsteps)
    have hp : p = x := h.head
    have hstop : ¬ ((cells x).cdr ≠ NIL ∧ newp > (cells x).cdr) := by
      cases l₂ with
      | nil =>
        have hnil : (cells x).cdr = NIL := h.tail
        rw [hnil]
        exact fun hne => hne.1 rfl
      | cons y l₂ =>
        have hy : (cells x).cdr = y := h.tail.head
        have := hhi y List.mem_cons_self
        rw [hy]
        omega
    rw [hp,freeBefore,if_neg hstop]
  | cons z l₁ ih =>
    obtain ⟨steps,rfl⟩ := Nat.exists_eq_succ_of_ne_zero (Nat.ne_of_gt (Nat.zero_lt_of_lt hsteps))
    have hp : p = z := h.head
    have hrest := h.tail
    have hnext : (cells z).cdr ∈ l₁ ++ [x] := by
      cases l₁ with
      | nil =>
        have : (cells z).cdr = x := hrest.head
        rw [this]
        exact List.mem_singleton_self x
      | cons w l₁ =>
        have : (cells z).cdr = w := hrest.head
        rw [this]
        exact List.mem_cons_self
    have hgo := hlo _ (List.mem_cons_of_mem z hnext)
    rw [hp,freeBefore,if_pos ⟨hgo.1,hgo.2⟩]
    exact ih hrest (fun y hy => hlo y (List.mem_cons_of_mem z hy)) (by rw [List.length_cons] at hsteps; omega)

/-- A list in order has what is below first. -/
theorem split_sorted {l : List ℕ} (h : l.Pairwise (· < ·)) (n : ℕ) :
    ∃ lo hi, l = lo ++ hi ∧ (∀ x ∈ lo, x < n) ∧ ∀ x ∈ hi, n ≤ x := by
  induction l with
  | nil => exact ⟨[],[],rfl,fun _ hx => absurd hx List.not_mem_nil,fun _ hx => absurd hx List.not_mem_nil⟩
  | cons y l ih =>
    obtain ⟨hy,hl⟩ := List.pairwise_cons.mp h
    by_cases hlt : y < n
    · obtain ⟨lo,hi,heq,hlo,hhi⟩ := ih hl
      refine ⟨y :: lo,hi,by rw [heq]; rfl,fun x hx => ?_,hhi⟩
      rcases List.mem_cons.mp hx with rfl | hx
      · exact hlt
      · exact hlo x hx
    · refine ⟨[],y :: l,rfl,fun _ hx => absurd hx List.not_mem_nil,fun x hx => ?_⟩
      rcases List.mem_cons.mp hx with rfl | hx
      · exact Nat.le_of_not_lt hlt
      · have := hy x hx
        omega

/-- What was free below a new segment, and above it. -/
theorem FreeList.around (h : FreeList sc free)
    (hapart : ∀ s ∈ sc.cellSeg, newp + CELL_SEGSIZE < s ∨ s + CELL_SEGSIZE < newp) :
    ∃ lo hi, free = lo ++ hi ∧ (∀ x ∈ lo, x < newp) ∧ ∀ x ∈ hi, newp + CELL_SEGSIZE < x := by
  obtain ⟨lo,hi,heq,hlo,hhi⟩ := split_sorted h.sorted newp
  refine ⟨lo,hi,heq,hlo,fun x hx => ?_⟩
  obtain ⟨s,hs,hle,hlt⟩ := mem_segCells.mp (h.sub x (heq ▸ List.mem_append_right lo hx))
  have := hhi x hx
  rcases hapart s hs with hs | hs <;> omega

/-- Cells that are free already, and those of a new segment between them. -/
theorem FreeList.insert (h : FreeList sc (lo ++ hi)) (habove : sink < newp)
    (hapart : ∀ s ∈ sc.cellSeg, newp + CELL_SEGSIZE < s ∨ s + CELL_SEGSIZE < newp)
    (hlo : ∀ x ∈ lo, x < newp) (hhi : ∀ x ∈ hi, newp + CELL_SEGSIZE < x)
    (hsegs : sc'.cellSeg = (placeSeg newp sc.cellSeg.reverse).reverse)
    (hcount : sc'.fcells = sc.fcells + CELL_SEGSIZE)
    (hchain : Chain sc'.cells sc'.freeCell (lo ++ (List.range' newp CELL_SEGSIZE ++ hi)))
    (hblank : ∀ x, newp ≤ x → x < newp + CELL_SEGSIZE → (sc'.cells x).inUse = false)
    (hold : ∀ x ∈ lo ++ hi, (sc'.cells x).inUse = (sc.cells x).inUse) :
    FreeList sc' (lo ++ (List.range' newp CELL_SEGSIZE ++ hi)) := by
  have hmem : ∀ s, s ∈ sc'.cellSeg ↔ s = newp ∨ s ∈ sc.cellSeg := by
    intro s
    rw [hsegs,List.mem_reverse,mem_placeSeg,List.mem_reverse]
  have hcase : ∀ x ∈ lo ++ (List.range' newp CELL_SEGSIZE ++ hi), x ∈ lo ++ hi ∨ newp ≤ x ∧ x < newp + CELL_SEGSIZE := by
    intro x hx
    rw [List.mem_append,List.mem_append,List.mem_range'_1] at hx
    rw [List.mem_append]
    tauto
  refine ⟨?_,fun s hs => ?_,hchain,?_,fun x hx => ?_,?_,fun x hx => ?_⟩
  · rw [hsegs,List.pairwise_reverse]
    refine placeSeg_pairwise (List.pairwise_reverse.mpr h.segs) (fun s hs => ?_)
    exact hapart s (List.mem_reverse.mp hs)
  · rcases (hmem s).mp hs with rfl | hs
    · exact habove
    · exact h.above s hs
  · obtain ⟨hlosorted,hhisorted,hacross⟩ := List.pairwise_append.mp h.sorted
    refine List.pairwise_append.mpr ⟨hlosorted,List.pairwise_append.mpr ⟨List.pairwise_lt_range',hhisorted,?_⟩,?_⟩
    · intro x hx y hy
      rw [List.mem_range'_1] at hx
      have := hhi y hy
      omega
    · intro x hx y hy
      have := hlo x hx
      rcases List.mem_append.mp hy with hy | hy
      · rw [List.mem_range'_1] at hy
        omega
      · exact hacross x hx y hy
  · rw [mem_segCells]
    rcases hcase x hx with hx | hx
    · obtain ⟨s,hs,hrange⟩ := mem_segCells.mp (h.sub x hx)
      exact ⟨s,(hmem s).mpr (.inr hs),hrange⟩
    · exact ⟨newp,(hmem newp).mpr (.inl rfl),hx⟩
  · rw [hcount,h.fcells]
    simp only [List.length_append,List.length_range']
    omega
  · rcases hcase x hx with hx | hx
    · rw [hold x hx,h.blank x hx]
    · exact hblank x hx.1 hx.2

structure Grown (sc sc' : Scheme) (free free' : List ℕ) : Prop where
  eq : sc' = { sc with cells := sc'.cells, cellSeg := sc'.cellSeg, fcells := sc'.fcells, freeCell := sc'.freeCell }
  segs : ∀ x ∈ sc.segCells, x ∈ sc'.segCells
  free : ∀ x, x ∈ free' ↔ x ∈ free ∨ x ∈ sc'.segCells ∧ x ∉ sc.segCells
  others : ∀ x ∉ free', sc'.cells x = sc.cells x

/-- The cells of a new segment, the last of which is linked to what is free above. -/
def openSeg (cells : Cells) (newp next : ℕ) : Cells :=
  put (initSeg cells newp) (newp + CELL_SEGSIZE - 1) { initSeg cells newp (newp + CELL_SEGSIZE - 1) with cdr := next }

theorem openSeg_of_outside (hx : ¬ (newp ≤ x ∧ x < newp + CELL_SEGSIZE)) : openSeg cells newp q x = cells x := by
  have hpos : 0 < CELL_SEGSIZE := Nat.succ_pos _
  have hlast : x ≠ newp + CELL_SEGSIZE - 1 := by omega
  rw [openSeg,put_of_ne hlast,initSeg_apply,if_neg hx]

theorem inUse_openSeg (hle : newp ≤ x) (hlt : x < newp + CELL_SEGSIZE) : (openSeg cells newp q x).inUse = false := by
  rw [openSeg]
  by_cases hlast : x = newp + CELL_SEGSIZE - 1
  · rw [← hlast,put_apply_self,initSeg_apply,if_pos ⟨hle,hlt⟩]
    rfl
  · rw [put_of_ne hlast,initSeg_apply,if_pos ⟨hle,hlt⟩]
    rfl

theorem openSeg_chain (h : Chain cells q hi) (hhi : ∀ x ∈ hi, newp + CELL_SEGSIZE < x) :
    Chain (openSeg cells newp q) newp (List.range' newp CELL_SEGSIZE ++ hi) := by
  obtain ⟨n,hn⟩ : ∃ n, CELL_SEGSIZE = n + 1 := ⟨_,rfl⟩
  have hlast : newp + CELL_SEGSIZE - 1 = newp + n := by omega
  refine Path.append_iff.mpr ⟨q,?_,h.congr (fun x hx => ?_)⟩
  · rw [hn]
    refine path_range' (fun x hle hlt => ?_) ?_
    · have hne : x ≠ newp + n := by omega
      rw [openSeg,hlast,put_of_ne hne,initSeg_apply,if_pos ⟨hle,by omega⟩]
    · rw [openSeg,hlast,put_apply_self]
  · have := hhi x hx
    rw [openSeg_of_outside (by omega)]

theorem FreeList.length_le (h : FreeList sc free) : free.length ≤ sc.segCells.length :=
  (List.subperm_of_subset h.nodup h.sub).length_le

theorem notMem_of_apart (hapart : ∀ s ∈ sc.cellSeg, newp + CELL_SEGSIZE < s ∨ s + CELL_SEGSIZE < newp)
    (hx : x ∈ sc.segCells) : ¬ (newp ≤ x ∧ x < newp + CELL_SEGSIZE) := by
  intro hnew
  obtain ⟨s,hs,hle,hlt⟩ := mem_segCells.mp hx
  rcases hapart s hs with hs | hs <;> omega

def withSegment (sc : Scheme) (newp : ℕ) (cells : Cells) (first : ℕ) : Scheme :=
  { sc with
    cells := cells, cellSeg := (placeSeg newp sc.cellSeg.reverse).reverse
    fcells := sc.fcells + CELL_SEGSIZE, freeCell := first }

theorem mem_withSegment : x ∈ (withSegment sc newp cells p).segCells ↔
    (newp ≤ x ∧ x < newp + CELL_SEGSIZE) ∨ x ∈ sc.segCells := by
  rw [mem_segCells,mem_segCells,withSegment]
  simp only [List.mem_reverse,mem_placeSeg,or_and_right,exists_or,exists_eq_left]

/-- The cells are those of the open segment, but for the link before it. -/
theorem FreeList.opened (cells : Cells) (p q : ℕ) (h : FreeList sc (lo ++ hi)) (habove : sink < newp)
    (hapart : ∀ s ∈ sc.cellSeg, newp + CELL_SEGSIZE < s ∨ s + CELL_SEGSIZE < newp)
    (hlo : ∀ x ∈ lo, x < newp) (hhi : ∀ x ∈ hi, newp + CELL_SEGSIZE < x)
    (hchain : Chain cells p (lo ++ (List.range' newp CELL_SEGSIZE ++ hi)))
    (hcells : ∀ x ∉ lo, cells x = openSeg sc.cells newp q x)
    (huse : ∀ x ∈ lo, (cells x).inUse = (sc.cells x).inUse) :
    FreeList (withSegment sc newp cells p) (lo ++ (List.range' newp CELL_SEGSIZE ++ hi)) ∧
      Grown sc (withSegment sc newp cells p) (lo ++ hi) (lo ++ (List.range' newp CELL_SEGSIZE ++ hi)) := by
  have hout : ∀ x ∈ lo ++ hi, ¬ (newp ≤ x ∧ x < newp + CELL_SEGSIZE) := fun x hx => notMem_of_apart hapart (h.sub x hx)
  have hmem : ∀ x, x ∈ lo ++ (List.range' newp CELL_SEGSIZE ++ hi) ↔
      x ∈ lo ++ hi ∨ newp ≤ x ∧ x < newp + CELL_SEGSIZE := by
    intro x
    rw [List.mem_append,List.mem_append,List.mem_append,List.mem_range'_1]
    tauto
  refine ⟨h.insert habove hapart hlo hhi rfl rfl hchain (fun x hle hlt => ?_) (fun x hx => ?_),
    ⟨rfl,fun x hx => mem_withSegment.mpr (.inr hx),fun x => ?_,fun x hx => ?_⟩⟩
  · change (cells x).inUse = false
    rw [hcells x (fun hx => hout x (List.mem_append_left hi hx) ⟨hle,hlt⟩),inUse_openSeg hle hlt]
  · change (cells x).inUse = _
    by_cases hmem : x ∈ lo
    · exact huse x hmem
    · rw [hcells x hmem,openSeg_of_outside (hout x hx)]
  · rw [hmem,mem_withSegment]
    exact or_congr_right ⟨fun hx => ⟨.inl hx,fun hseg => notMem_of_apart hapart hseg hx⟩,fun hx => hx.1.resolve_right hx.2⟩
  · change cells x = _
    rw [hmem,not_or,List.mem_append,not_or] at hx
    rw [hcells x hx.1.1,openSeg_of_outside hx.2]

/-- The cells of a new segment are put where their addresses belong. -/
theorem FreeList.addSegment (h : FreeList sc free) (habove : sink < newp)
    (hapart : ∀ s ∈ sc.cellSeg, newp + CELL_SEGSIZE < s ∨ s + CELL_SEGSIZE < newp) :
    ∃ sc' free', sc.addSegment newp = some sc' ∧ FreeList sc' free' ∧ Grown sc sc' free free' ∧ free' ≠ [] := by
  obtain ⟨lo,hi,rfl,hlo,hhi⟩ := h.around hapart
  have hpos : 0 < CELL_SEGSIZE := Nat.succ_pos _
  have hnonempty : lo ++ (List.range' newp CELL_SEGSIZE ++ hi) ≠ [] := by
    intro hnil
    have := congrArg List.length hnil
    simp only [List.length_append,List.length_range',List.length_nil] at this
    omega
  rcases List.eq_nil_or_concat' lo with rfl | ⟨lo',p,rfl⟩
  · have hfirst : sc.freeCell = NIL ∨ newp + CELL_SEGSIZE < sc.freeCell := by
      cases hi with
      | nil => exact .inl (h.freeCell_eq_nil.mpr rfl)
      | cons y hi =>
        rw [h.chain.head]
        exact .inr (hhi y List.mem_cons_self)
    obtain ⟨hfree,hgrown⟩ := h.opened (openSeg sc.cells newp sc.freeCell) newp sc.freeCell habove hapart hlo hhi
      (openSeg_chain h.chain hhi) (fun x _ => rfl) (fun x hx => absurd hx List.not_mem_nil)
    refine ⟨_,_,?_,hfree,hgrown,hnonempty⟩
    rw [Scheme.addSegment,if_pos hfirst]
    rfl
  · have hp : p < newp := hlo p (List.mem_append_right lo' (List.mem_singleton_self p))
    -- the list goes on below the segment
    have hfirst : ¬ (sc.freeCell = NIL ∨ newp + CELL_SEGSIZE < sc.freeCell) := by
      rintro (hnil | hlt)
      · have := h.freeCell_eq_nil.mp hnil
        simp only [List.append_eq_nil_iff,List.cons_ne_nil,and_false,false_and] at this
      · have hmem : sc.freeCell ∈ lo' ++ [p] := by
          cases lo' with
          | nil =>
            rw [h.chain.head]
            exact List.mem_singleton_self p
          | cons y lo' =>
            rw [h.chain.head]
            exact List.mem_cons_self
        have := hlo _ hmem
        omega
    obtain ⟨r,hto,hfrom⟩ := Path.append_iff.mp h.chain
    obtain ⟨htop,hr⟩ := Path.snoc_iff.mp hto
    have hseg : ∀ x ∈ lo' ++ [p], x ≠ NIL ∧ ¬ (newp ≤ x ∧ x < newp + CELL_SEGSIZE) := by
      intro x hx
      have := hlo x hx
      exact ⟨h.ne_nil_of_mem (List.mem_append_left hi hx),by omega⟩
    have hsame : ∀ x ∈ lo' ++ [p] ++ hi, initSeg sc.cells newp x = sc.cells x := by
      intro x hx
      rw [initSeg_apply,if_neg (notMem_of_apart hapart (h.sub x hx))]
    have hpath : Chain (initSeg sc.cells newp) sc.freeCell (lo' ++ p :: hi) := by
      have hpath : Chain (initSeg sc.cells newp) sc.freeCell (lo' ++ [p] ++ hi) :=
        h.chain.congr (fun x hx => by rw [hsame x hx])
      rwa [List.append_assoc] at hpath
    have hp' : p ∈ lo' ++ [p] := List.mem_append_right lo' (List.mem_singleton_self p)
    have hnotp : ∀ x ∈ List.range' newp CELL_SEGSIZE ++ hi, x ≠ p := by
      rintro x hx rfl
      rcases List.mem_append.mp hx with hx | hx
      · exact (hseg x hp').2 (List.mem_range'_1.mp hx)
      · have := hhi x hx
        omega
    have hold : ∀ x ∈ lo', x ≠ p ∧ openSeg sc.cells newp r x = sc.cells x := by
      intro x hx
      refine ⟨?_,openSeg_of_outside (hseg x (List.mem_append_left [p] hx)).2⟩
      rintro rfl
      have hnodup := h.nodup
      rw [List.nodup_append,List.nodup_append] at hnodup
      exact hnodup.1.2.2 x hx x (List.mem_singleton_self x) rfl
    obtain ⟨hfree,hgrown⟩ := h.opened
      (put (openSeg sc.cells newp r) p { openSeg sc.cells newp r p with cdr := newp }) sc.freeCell r habove hapart hlo hhi
      (Path.append_iff.mpr ⟨newp,Path.snoc_iff.mpr ⟨htop.congr (fun x hx => by rw [put_of_ne (hold x hx).1,(hold x hx).2]),
        by rw [put_apply_self]⟩,(openSeg_chain hfrom hhi).congr (fun x hx => by rw [put_of_ne (hnotp x hx)])⟩)
      (fun x hx => put_of_ne (fun heq => hx (heq ▸ hp')))
      (fun x hx => by
        by_cases heq : x = p
        · rw [heq,put_apply_self,openSeg_of_outside (hseg p hp').2]
          rfl
        · rw [put_of_ne heq,openSeg_of_outside (hseg x hx).2])
    refine ⟨_,_,?_,hfree,hgrown,hnonempty⟩
    -- the number of steps is enough for the list
    have hsteps : lo'.length < (withSegment sc newp (initSeg sc.cells newp) sc.freeCell).segCells.length + 1 := by
      have hshort : lo'.length ≤ (lo' ++ [p] ++ hi).length := by
        rw [List.append_assoc,List.length_append]
        exact Nat.le_add_right _ _
      have hsub : sc.segCells.length ≤ (withSegment sc newp (initSeg sc.cells newp) sc.freeCell).segCells.length :=
        (List.subperm_of_subset (h.segCells_sorted.imp (fun hlt => Nat.ne_of_lt hlt))
          (fun x hx => mem_withSegment.mpr (.inr hx))).length_le
      have := h.length_le
      omega
    have hbefore := freeBefore_eq hpath (fun x hx => ⟨(hseg x hx).1,hlo x hx⟩)
      (fun x hx => by have := hhi x hx; omega) hsteps
    rw [Scheme.addSegment,if_neg hfirst]
    change (freeBefore (initSeg sc.cells newp) newp
      ((withSegment sc newp (initSeg sc.cells newp) sc.freeCell).segCells.length + 1) sc.freeCell).bind _ = _
    have hcdr : (initSeg sc.cells newp p).cdr = r := by
      rw [hsame p (List.mem_append_left hi hp')]
      exact hr
    rw [hbefore,Option.bind_some,hcdr]
    rfl

namespace Grown

theorem refl (sc : Scheme) (free : List ℕ) : Grown sc sc free free where
  eq := rfl
  segs _ hx := hx
  free _ := ⟨.inl,fun hx => hx.resolve_right (fun hnew => hnew.2 hnew.1)⟩
  others _ _ := rfl

theorem mono (h : Grown sc sc' free free') (hx : x ∈ free) : x ∈ free' := (h.free x).mpr (.inl hx)

theorem trans (h : Grown sc sc₁ free free₁) (h' : Grown sc₁ sc' free₁ free') : Grown sc sc' free free' where
  eq := by
    conv_lhs => rw [h'.eq,h.eq]
  segs x hx := h'.segs x (h.segs x hx)
  free x := by
    have hsegs := h.segs x
    have hsegs' := h'.segs x
    rw [h'.free,h.free]
    tauto
  others x hx := (h'.others x hx).trans (h.others x (fun hfree => hx (h'.mono hfree)))

end Grown

def Sound (malloc : Scheme → Option ℕ) : Prop := ∀ sc newp, malloc sc = some newp →
  sink < newp ∧ ∀ s ∈ sc.cellSeg, newp + CELL_SEGSIZE < s ∨ s + CELL_SEGSIZE < newp

theorem FreeList.allocCellseg {malloc : Scheme → Option ℕ} (hmalloc : Sound malloc) (h : FreeList sc free) (n : ℕ) :
    ∃ k sc' free', Scheme.allocCellseg malloc n sc = some (k,sc') ∧ FreeList sc' free' ∧ Grown sc sc' free free' ∧
      (k ≠ 0 → free' ≠ []) := by
  induction n generalizing sc free with
  | zero => exact ⟨0,sc,free,rfl,h,.refl sc free,fun hne => absurd rfl hne⟩
  | succ n ih =>
    have hnone : ∀ r, Scheme.allocCellseg malloc (n + 1) sc = r → r = some (0,sc) → ∃ k sc' free',
        Scheme.allocCellseg malloc (n + 1) sc = some (k,sc') ∧ FreeList sc' free' ∧ Grown sc sc' free free' ∧
          (k ≠ 0 → free' ≠ []) :=
      fun r hr hr' => ⟨0,sc,free,hr.trans hr',h,.refl sc free,fun hne => absurd rfl hne⟩
    by_cases hfull : sc.cellSeg.length ≥ CELL_NSEGMENT
    · exact hnone _ rfl (by rw [Scheme.allocCellseg,if_pos hfull])
    · cases hnew : malloc sc with
      | none => exact hnone _ rfl (by rw [Scheme.allocCellseg,if_neg hfull,hnew])
      | some newp =>
        obtain ⟨habove,hapart⟩ := hmalloc sc newp hnew
        obtain ⟨sc₁,free₁,hrun₁,h₁,hgrown₁,hne₁⟩ := h.addSegment habove hapart
        obtain ⟨k,sc',free',hrun,h',hgrown,-⟩ := ih h₁
        refine ⟨k + 1,sc',free',?_,h',hgrown₁.trans hgrown,fun _ hnil => ?_⟩
        · rw [Scheme.allocCellseg,if_neg hfull,hnew]
          dsimp only
          rw [hrun₁,Option.bind_eq_bind,Option.bind_some,hrun]
          rfl
        · obtain ⟨x,hx⟩ := List.exists_mem_of_ne_nil free₁ hne₁
          have := hgrown.mono hx
          rw [hnil] at this
          exact List.not_mem_nil this

/-! ## Consecutive cells -/

theorem countLoop_eq (cells : Cells) (rounds x n : ℕ) : ∃ k ≤ rounds, Scheme.countLoop cells rounds x n = n + k ∧
    ∀ i < k, (cells (x + i)).cdr = x + i + 1 := by
  induction rounds generalizing x n with
  | zero => exact ⟨0,Nat.le_refl 0,rfl,fun i hi => absurd hi (Nat.not_lt_zero i)⟩
  | succ rounds ih =>
    rw [Scheme.countLoop]
    split_ifs with hnext
    · obtain ⟨k,hk,heq,hlinks⟩ := ih (x + 1) (n + 1)
      refine ⟨k + 1,Nat.succ_le_succ hk,by rw [heq]; omega,fun i hi => ?_⟩
      cases i with
      | zero => exact hnext
      | succ i =>
        have hsum : x + (i + 1) = x + 1 + i := by omega
        rw [hsum]
        exact hlinks i (by omega)
    · exact ⟨0,Nat.zero_le _,rfl,fun i hi => absurd hi (Nat.not_lt_zero i)⟩

/-- Cells that are linked in a row are in a row on the list. -/
theorem run_of_links {k : ℕ} (h : Chain cells x free) (hne : free ≠ []) (habove : ∀ y ∈ free, sink < y)
    (hlinks : ∀ i < k, (cells (x + i)).cdr = x + i + 1) : ∃ rest, free = List.range' x (k + 1) ++ rest := by
  induction k generalizing x free with
  | zero =>
    cases free with
    | nil => exact absurd rfl hne
    | cons y rest => exact ⟨rest,by rw [h.head]; rfl⟩
  | succ k ih =>
    cases free with
    | nil => exact absurd rfl hne
    | cons y rest =>
      obtain rfl := h.head
      have hnext : (cells x).cdr = x + 1 := hlinks 0 (Nat.succ_pos k)
      have htail : Chain cells (x + 1) rest := by
        rw [← hnext]
        exact h.tail
      have hrest : rest ≠ [] := by
        rintro rfl
        have hnil : x + 1 = NIL := htail
        have := habove x List.mem_cons_self
        rw [NIL] at hnil
        omega
      obtain ⟨rest',heq⟩ := ih htail hrest (fun y hy => habove y (List.mem_cons_of_mem x hy)) (fun i hi => by
        have hsum : x + (i + 1) = x + 1 + i := by omega
        rw [← hsum]
        exact hlinks (i + 1) (by omega))
      exact ⟨rest',by rw [heq]; rfl⟩

theorem cdr_put (cells : Cells) (p q : ℕ) : (fun x => (put cells p { cells p with cdr := q } x).cdr) =
    Function.update (fun x => (cells x).cdr) p q := by
  funext x
  by_cases hx : x = p
  · rw [hx,put_apply_self,Function.update_self]
  · rw [put_of_ne hx,Function.update_of_ne hx]

/-- What is taken from the middle is passed over by the link before it. -/
theorem FreeList.cut (h : FreeList sc (l₁ ++ (List.range' x (n + 1) ++ l₂)))
    (hsc₁ : sc₁ = sc.setLink (sc.cells (x + (n + 1) - 1)).cdr l₁.getLast?) :
    FreeList { sc₁ with fcells := sc₁.fcells - (n + 1 : ℕ) } (l₁ ++ l₂) ∧ ∀ y ∉ l₁, sc₁.cells y = sc.cells y := by
  have hlast : x + (n + 1) - 1 = x + n := rfl
  rw [hlast] at hsc₁
  have hsub : (l₁ ++ l₂).Sublist (l₁ ++ (List.range' x (n + 1) ++ l₂)) :=
    List.Sublist.append_left (List.sublist_append_right ..) l₁
  have hsum : x + 1 * n = x + n := by rw [Nat.one_mul]
  obtain ⟨r,hto,hfrom⟩ := Path.append_iff.mp h.chain
  obtain ⟨s,hrun,hrest⟩ := Path.append_iff.mp hfrom
  rw [List.range'_concat,hsum] at hrun
  obtain ⟨-,hs⟩ := Path.snoc_iff.mp hrun
  have hcount : (sc.fcells - (n + 1 : ℕ) : ℤ) = (l₁ ++ l₂).length := by
    rw [h.fcells]
    simp only [List.length_append,List.length_range']
    push_cast
    omega
  have hnotfrom : ∀ y ∈ l₁, y ∉ l₂ := by
    intro y hy hy'
    have hnodup := h.nodup
    rw [List.nodup_append] at hnodup
    exact hnodup.2.2 y hy y (List.mem_append_right _ hy') rfl
  subst hsc₁
  rcases List.eq_nil_or_concat' l₁ with rfl | ⟨l,q,rfl⟩
  · refine ⟨⟨h.segs,h.above,?_,h.sorted.sublist hsub,fun y hy => h.sub y (hsub.mem hy),hcount,
      fun y hy => h.blank y (hsub.mem hy)⟩,fun y _ => rfl⟩
    change Chain sc.cells (sc.cells (x + n)).cdr l₂
    rw [hs]
    exact hrest
  · have hq : q ∉ l := by
      intro hq
      have hnodup := h.nodup
      rw [List.nodup_append,List.nodup_append] at hnodup
      exact hnodup.1.2.2 q hq q (List.mem_singleton_self q) rfl
    rw [List.getLast?_concat]
    refine ⟨⟨h.segs,h.above,?_,h.sorted.sublist hsub,fun y hy => h.sub y (hsub.mem hy),hcount,fun y hy => ?_⟩,
      fun y hy => put_of_ne ?_⟩
    · change Path (fun y => (put sc.cells q { sc.cells q with cdr := (sc.cells (x + n)).cdr } y).cdr) sc.freeCell _ NIL
      rw [cdr_put]
      refine Path.append_iff.mpr ⟨_,hto.redirect hq _,?_⟩
      rw [hs]
      refine hrest.congr (fun y hy => Function.update_of_ne ?_ ..)
      rintro rfl
      exact hnotfrom y (List.mem_append_right l (List.mem_singleton_self y)) hy
    · change (put sc.cells q { sc.cells q with cdr := (sc.cells (x + n)).cdr } y).inUse = false
      by_cases heq : y = q
      · rw [heq,put_apply_self]
        exact h.blank q (List.mem_append_left _ (List.mem_append_right l (List.mem_singleton_self q)))
      · rw [put_of_ne heq]
        exact h.blank y (hsub.mem hy)
    · rintro rfl
      exact hy (List.mem_append_right l (List.mem_singleton_self y))

structure Taken (sc sc' : Scheme) (lo hi : List ℕ) : Prop where
  eq : sc' = { sc with cells := sc'.cells, fcells := sc'.fcells, freeCell := sc'.freeCell }
  freeList : FreeList sc' (lo ++ hi)
  others : ∀ y ∉ lo, sc'.cells y = sc.cells y

theorem linkAt_getLast? (h : Chain sc.cells sc.freeCell (l₁ ++ l₂)) : Chain sc.cells (sc.linkAt l₁.getLast?) l₂ := by
  obtain ⟨r,hto,hfrom⟩ := Path.append_iff.mp h
  rcases List.eq_nil_or_concat' l₁ with rfl | ⟨l,q,rfl⟩
  · rw [show sc.linkAt ([] : List ℕ).getLast? = r from hto]
    exact hfrom
  · obtain ⟨-,hr⟩ := Path.snoc_iff.mp hto
    rw [List.getLast?_concat]
    rw [show sc.linkAt (some q) = r from hr]
    exact hfrom

theorem findLoop_eq {steps : ℕ} (h : FreeList sc (l₁ ++ l₂)) (hsteps : l₂.length < steps) (n : ℕ) :
    Scheme.findLoop (n + 1) steps l₁.getLast? sc = some (NIL,sc) ∨
      ∃ x lo hi sc', Scheme.findLoop (n + 1) steps l₁.getLast? sc = some (x,sc') ∧ x ≠ NIL ∧
        l₁ ++ l₂ = lo ++ (List.range' x (n + 1) ++ hi) ∧ Taken sc sc' lo hi := by
  induction steps generalizing l₁ l₂ with
  | zero => exact absurd hsteps (Nat.not_lt_zero _)
  | succ steps ih =>
    have hchain := linkAt_getLast? h.chain
    rw [Scheme.findLoop]
    dsimp only
    cases l₂ with
    | nil =>
      rw [if_pos (show sc.linkAt l₁.getLast? = NIL from hchain)]
      exact .inl rfl
    | cons x l =>
      have hfirst : sc.linkAt l₁.getLast? = x := hchain.head
      rw [hfirst] at hchain ⊢
      have hx : x ≠ NIL := h.ne_nil_of_mem (List.mem_append_right l₁ List.mem_cons_self)
      obtain ⟨k,hk,hcount,hlinks⟩ := countLoop_eq sc.cells (n + 1) x 1
      obtain ⟨rest,hrest⟩ := run_of_links hchain (List.cons_ne_nil x l)
        (fun y hy => h.sink_lt_of_mem (List.mem_append_right l₁ hy)) hlinks
      rw [if_neg hx,Scheme.countConsecutiveCells,hcount]
      split_ifs with henough
      · -- there are enough of them, and perhaps one more
        have hsplit : List.range' x (k + 1) ++ rest = List.range' x (n + 1) ++ (List.range' (x + (n + 1)) (k - n) ++ rest) := by
          rw [← List.append_assoc]
          congr 1
          have hsum : k + 1 = n + 1 + (k - n) := by omega
          rw [hsum,← List.range'_append_1]
        rw [hrest,hsplit] at h
        obtain ⟨hcut,hothers⟩ := h.cut rfl
        refine .inr ⟨x,l₁,_,_,rfl,hx,by rw [hrest,hsplit],?_,hcut,hothers⟩
        cases l₁.getLast? <;> rfl
      · have hlast : some (x + (1 + k) - 1) = (l₁ ++ List.range' x (k + 1)).getLast? := by
          rw [List.range'_concat,← List.append_assoc,List.getLast?_concat,Nat.one_mul]
          congr 1
          omega
        have hlength := congrArg List.length hrest
        rw [List.length_append,List.length_range',List.length_cons] at hlength
        rw [hrest,← List.append_assoc] at h ⊢
        rw [hlast]
        exact ih h (by rw [List.length_cons] at hsteps; omega)

theorem FreeList.findConsecutiveCells (h : FreeList sc free) (n : ℕ) :
    sc.findConsecutiveCells (n + 1) = some (NIL,sc) ∨
      ∃ x lo hi sc', sc.findConsecutiveCells (n + 1) = some (x,sc') ∧ x ≠ NIL ∧
        free = lo ++ (List.range' x (n + 1) ++ hi) ∧ Taken sc sc' lo hi := by
  have hsteps := h.length_le
  have h' : FreeList sc ([] ++ free) := h
  exact findLoop_eq h' (by omega) n

end Edelib.Ts
