import Edelib.Ts.FreeCells

/-! # What is kept

Cells that are free are taken or get more, and cells that are used are written: what holds between operations holds
afterwards. What is behind a cell is given back once, when the cell is collected.
-/
namespace Edelib.Ts
open Foundation Relation

variable {sc sc' sc₁ : Scheme} {free free' free₁ rest new roots : List ℕ} {x y p q v a b n newp : ℕ}
  {cells cells' : Cells} {malloc : Scheme → Option ℕ}

/-! ## Writing cells -/

/-- What an operation leaves that takes cells off the free list, or writes cells that are used. -/
structure Renewed (sc : Scheme) (free : List ℕ) (sc' : Scheme) (free' new : List ℕ) : Prop where
  freeList : FreeList sc' free'
  used : ∀ x, Used sc' free' x ↔ Used sc free x ∨ x ∈ new
  same : ∀ x, Used sc free x → x ∉ new → sc'.cells x = sc.cells x
  nonstatic : ∀ x ∈ new, x ∉ statics
  unmarked : ∀ x ∈ new, isMark sc'.cells x = false
  plain : ∀ x ∈ new, Used sc free x → (sc'.cells x).type ≠ .vector
  atom : ∀ x ∈ new, (sc'.cells x).type = .vector → (sc'.cells x).atom = true
  links : ∀ x ∈ new, ∀ y, Edge sc'.cells x y → Within sc'.cells x y ∨ Proper sc free y
  fresh : ∀ v ∈ new, ∀ y, Within sc'.cells v y → y ∈ new ∧ ¬ Used sc free y ∧ (sc'.cells y).type ≠ .vector
  unique : ∀ v ∈ new, ∀ w ∈ new, ∀ y, Within sc'.cells v y → Within sc'.cells w y → w = v

namespace Renewed

theorem proper (hr : Renewed sc free sc' free' new) (ha : Proper sc free a) : Proper sc' free' a := by
  refine ⟨(hr.used a).mpr (.inl ha.1),fun v hv hwithin => ?_⟩
  by_cases hnew : v ∈ new
  · exact (hr.fresh v hnew a hwithin).2.1 ha.1
  · have hv' := ((hr.used v).mp hv).resolve_right hnew
    rw [Within,hr.same v hv' hnew] at hwithin
    exact ha.2 v hv' hwithin

/-- A new cell that is not inside a new vector. -/
theorem proper_new (h : Heap sc free) (hr : Renewed sc free sc' free' new) (hx : x ∈ new) (hunused : ¬ Used sc free x)
    (hout : ∀ v ∈ new, ¬ Within sc'.cells v x) : Proper sc' free' x := by
  refine ⟨(hr.used x).mpr (.inr hx),fun v hv hwithin => ?_⟩
  by_cases hnew : v ∈ new
  · exact hout v hnew hwithin
  · have hv' := ((hr.used v).mp hv).resolve_right hnew
    rw [Within,hr.same v hv' hnew] at hwithin
    exact hunused (h.links v hv' x (.inl hwithin))

theorem heap (h : Heap sc free) (hr : Renewed sc free sc' free' new) (hregs : ∀ a ∈ sc'.registers, Proper sc' free' a) :
    Heap sc' free' := by
  have hold : ∀ x, Used sc' free' x → x ∉ new → Used sc free x ∧ sc'.cells x = sc.cells x := by
    intro x hx hnew
    have hx' := ((hr.used x).mp hx).resolve_right hnew
    exact ⟨hx',hr.same x hx' hnew⟩
  have hedge : ∀ {x y}, sc'.cells x = sc.cells x → Edge sc'.cells x y → Edge sc.cells x y := by
    intro x y hsame hedge
    rwa [Edge,Within,hsame] at hedge
  refine ⟨hr.freeList,fun x hx => ?_,fun x hx y hxy => ?_,fun x hx y hxy => ?_,fun v hv hvector => ?_,
    fun v hv y hy => ?_,hregs⟩
  · by_cases hfree : x ∈ free'
    · have hblank := hr.freeList.blank x hfree
      rw [Cell.inUse,Bool.or_eq_false_iff] at hblank
      exact hblank.2
    · by_cases hnew : x ∈ new
      · exact hr.unmarked x hnew
      · obtain ⟨hx',hsame⟩ := hold x (.inr ⟨hx,hfree⟩) hnew
        rcases hx' with hstatic | hseg
        · have := (static_le hstatic).2
          have := hr.freeList.sink_lt hx
          omega
        · rw [isMark,hsame]
          exact h.unmarked x hseg.1
  · have hnew : x ∉ new := fun hnew => hr.nonstatic x hnew hx
    exact h.bare x hx y (hedge (hr.same x (.inl hx) hnew) hxy)
  · by_cases hnew : x ∈ new
    · rcases hr.links x hnew y hxy with hwithin | hproper
      · exact (hr.used y).mpr (.inr (hr.fresh x hnew y hwithin).1)
      · exact (hr.used y).mpr (.inl hproper.1)
    · obtain ⟨hx',hsame⟩ := hold x hx hnew
      exact (hr.used y).mpr (.inl (h.links x hx' y (hedge hsame hxy)))
  · by_cases hnew : v ∈ new
    · exact hr.atom v hnew hvector
    · obtain ⟨hv',hsame⟩ := hold v hv hnew
      rw [hsame] at hvector ⊢
      exact h.atom v hv' hvector
  · by_cases hnew : v ∈ new
    · obtain ⟨hy',hunused,hplain⟩ := hr.fresh v hnew y hy
      refine ⟨hr.nonstatic y hy',hplain,fun x hx hxy => ?_⟩
      by_cases hxnew : x ∈ new
      · rcases hr.links x hxnew y hxy with hwithin | hproper
        · exact hr.unique v hnew x hxnew y hy hwithin
        · exact absurd hproper.1 hunused
      · obtain ⟨hx',hsame⟩ := hold x hx hxnew
        exact absurd (h.links x hx' y (hedge hsame hxy)) hunused
    · obtain ⟨hv',hsame⟩ := hold v hv hnew
      have hy' : Within sc.cells v y := by rwa [Within,hsame] at hy
      have hyused := h.links v hv' y (.inl hy')
      obtain ⟨hnotstatic,hplain,honly⟩ := h.inside v hv' y hy'
      refine ⟨hnotstatic,?_,fun x hx hxy => ?_⟩
      · by_cases hynew : y ∈ new
        · exact hr.plain y hynew hyused
        · rw [hr.same y hyused hynew]
          exact hplain
      · by_cases hxnew : x ∈ new
        · rcases hr.links x hxnew y hxy with hwithin | hproper
          · exact absurd hyused (hr.fresh x hxnew y hwithin).2.1
          · exact absurd hy' (hproper.2 v hv')
        · obtain ⟨hx',hsamex⟩ := hold x hx hxnew
          exact honly x hx' (hedge hsamex hxy)

end Renewed

/-! ## Blocks -/

def owned (sc : Scheme) : List ℕ := sc.segCells.flatMap (fun x => finalized (sc.cells x))

def blocks (sc : Scheme) : List ℕ := sc.freed ++ owned sc

theorem finalized_of_blank {c : Cell} (h : c.inUse = false) : finalized c = [] := by
  by_contra hne
  rw [inUse_of_finalized hne] at h
  cases h

theorem Same.finalized {c c' : Cell} (h : Same c c') : finalized c = finalized c' := by
  obtain ⟨htype,-,-,hsvalue,-⟩ := h.fields
  rw [Ts.finalized,Ts.finalized,htype,hsvalue]

theorem Grown.blocks (h : FreeList sc free) (h' : FreeList sc' free') (hgrown : Grown sc sc' free free') :
    (blocks sc').Perm (blocks sc) := by
  have hfreed : sc'.freed = sc.freed := by rw [hgrown.eq]
  have hnodup : ∀ {sc : Scheme} {free}, FreeList sc free → sc.segCells.Nodup :=
    fun h => h.segCells_sorted.imp (fun hlt => Nat.ne_of_lt hlt)
  have hperm : sc'.segCells.Perm (sc.segCells ++ sc'.segCells.filter (fun x => x ∉ sc.segCells)) := by
    refine (List.perm_ext_iff_of_nodup (hnodup h') ?_).mpr (fun x => ?_)
    · refine List.nodup_append.mpr ⟨hnodup h,(hnodup h').filter _,fun x hx y hy heq => ?_⟩
      rw [List.mem_filter,decide_eq_true_iff] at hy
      exact hy.2 (heq ▸ hx)
    · have := hgrown.segs x
      rw [List.mem_append,List.mem_filter,decide_eq_true_iff]
      tauto
  have hnew : (sc'.segCells.filter (fun x => x ∉ sc.segCells)).flatMap (fun x => finalized (sc'.cells x)) = [] := by
    rw [List.flatMap_eq_nil_iff]
    intro x hx
    rw [List.mem_filter,decide_eq_true_iff] at hx
    exact finalized_of_blank (h'.blank x ((hgrown.free x).mpr (.inr hx)))
  have hold : ∀ x ∈ sc.segCells, finalized (sc'.cells x) = finalized (sc.cells x) := by
    intro x hx
    by_cases hfree : x ∈ free'
    · have hfree' : x ∈ free := ((hgrown.free x).mp hfree).resolve_right (fun hnew => hnew.2 hx)
      rw [finalized_of_blank (h'.blank x hfree),finalized_of_blank (h.blank x hfree')]
    · rw [hgrown.others x hfree]
  rw [Ts.blocks,Ts.blocks,hfreed]
  refine List.Perm.append_left _ ?_
  rw [owned,owned]
  refine (hperm.flatMap_right _).trans ?_
  rw [List.flatMap_append,hnew,List.append_nil,List.flatMap_congr hold]

theorem flatMap_eq_filter {α β : Type*} {l : List α} {q : α → Bool} {f g : α → List β}
    (hf : ∀ x ∈ l, q x = true → g x = f x) (hnone : ∀ x ∈ l, q x = false → g x = []) :
    l.flatMap g = (l.filter q).flatMap f := by
  induction l with
  | nil => rfl
  | cons x l ih =>
    obtain ⟨hx,hf'⟩ := List.forall_mem_cons.mp hf
    obtain ⟨hx',hnone'⟩ := List.forall_mem_cons.mp hnone
    rw [List.flatMap_cons,ih hf' hnone']
    cases hq : q x with
    | true => rw [List.filter_cons_of_pos hq,List.flatMap_cons,hx hq]
    | false => rw [List.filter_cons_of_neg (by rw [hq]; exact Bool.false_ne_true),hx' hq,List.nil_append]

theorem Collected.blocks (h : FreeList sc' free') (hcollected : Collected sc sc' roots free') :
    (blocks sc').Perm (blocks sc) := by
  have hsegs : sc'.segCells = sc.segCells := by rw [hcollected.eq]; rfl
  have howned : owned sc' = (sc.segCells.filter (fun x => !decide (x ∈ free'))).flatMap (fun x => finalized (sc.cells x)) := by
    rw [owned,hsegs]
    refine flatMap_eq_filter (fun x hx hkept => ?_) (fun x hx hgone => ?_)
    · rw [Bool.not_eq_true',decide_eq_false_iff_not,hcollected.free] at hkept
      exact (hcollected.live x (.inl (not_not.mp (fun hdead => hkept ⟨hx,hdead⟩)))).finalized
    · rw [Bool.not_eq_false',decide_eq_true_iff] at hgone
      exact finalized_of_blank (h.blank x hgone)
  rw [Ts.blocks,Ts.blocks,hcollected.freed,howned,List.append_assoc]
  refine List.Perm.append_left _ ?_
  rw [← List.flatMap_append]
  refine List.Perm.flatMap_right _ ?_
  rw [List.filter_reverse]
  exact ((List.reverse_perm _).append_right _).trans (List.filter_append_perm ..)

theorem blocks_congr (hsegs : sc'.cellSeg = sc.cellSeg) (hfreed : sc'.freed = sc.freed)
    (hsame : ∀ y ∈ sc.segCells, finalized (sc'.cells y) = finalized (sc.cells y)) : blocks sc' = blocks sc := by
  have hcells : sc'.segCells = sc.segCells := by rw [Scheme.segCells,hsegs,Scheme.segCells]
  rw [blocks,blocks,owned,owned,hfreed,hcells,List.flatMap_congr hsame]

/-! ## Getting a cell -/

def OnlyMemory (sc sc' : Scheme) : Prop := sc' = { sc with
  cells := sc'.cells, cellSeg := sc'.cellSeg, freeCell := sc'.freeCell, fcells := sc'.fcells, freed := sc'.freed }

theorem OnlyMemory.trans (h : OnlyMemory sc sc₁) (h' : OnlyMemory sc₁ sc') : OnlyMemory sc sc' := by
  rw [OnlyMemory] at h h' ⊢
  conv_lhs => rw [h',h]

theorem OnlyMemory.registers (h : OnlyMemory sc sc') (hsink : (sc'.cells sink).car = (sc.cells sink).car) :
    sc'.registers = sc.registers := by
  rw [Scheme.registers,Scheme.registers,hsink,h]

structure Kept (sc sc' : Scheme) (roots : List ℕ) : Prop where
  only : OnlyMemory sc sc'
  sink : sc'.cells sink = sc.cells sink
  live : ∀ x, Live sc.cells roots x → Same (sc'.cells x) (sc.cells x)
  blocks : (blocks sc').Perm (blocks sc)

/-- Over links that are kept the same can be reached. -/
theorem live_of_same {roots' : List ℕ} (hroots : ∀ a ∈ roots, Live cells' roots' a)
    (hsame : ∀ x, Live cells roots x → Same (cells' x) (cells x)) (hx : Live cells roots x) : Live cells' roots' x := by
  obtain ⟨a,ha,hpath⟩ := hx
  induction hpath with
  | refl => exact hroots a ha
  | tail hpath hedge ih =>
    obtain ⟨r,hr,hpath'⟩ := ih
    exact ⟨r,hr,hpath'.tail ((edge_congr (hsame _ ⟨a,ha,hpath⟩)).mpr hedge)⟩

theorem live_of_mem (h : a ∈ roots) : Live cells roots a := ⟨a,h,.refl⟩

theorem Kept.refl (sc : Scheme) (roots : List ℕ) : Kept sc sc roots := ⟨rfl,rfl,fun _ _ => rfl,.refl _⟩

theorem Kept.trans (h : Kept sc sc₁ roots) (h' : Kept sc₁ sc' roots) : Kept sc sc' roots where
  only := h.only.trans h'.only
  sink := h'.sink.trans h.sink
  live x hx := (h'.live x (live_of_same (fun _ => live_of_mem) h.live hx)).trans (h.live x hx)
  blocks := h'.blocks.trans h.blocks

theorem FreeList.sink_notMem (h : FreeList sc free) : sink ∉ sc.segCells := fun hmem => Nat.lt_irrefl _ (h.sink_lt hmem)

theorem Heap.grown (h : Heap sc free) (h' : FreeList sc' free') (hgrown : Grown sc sc' free free')
    (hroots : ∀ a ∈ roots, Proper sc free a) :
    Heap sc' free' ∧ Kept sc sc' roots ∧ ∀ a, Proper sc free a → Proper sc' free' a := by
  have hold : ∀ x, Used sc free x → x ∉ free' := by
    rintro x (hx | hx) hfree
    · have := h'.sink_lt_of_mem hfree
      have := (static_le hx).2
      omega
    · rcases (hgrown.free x).mp hfree with hfree | hnew
      · exact hx.2 hfree
      · exact hnew.2 hx.1
  have hrenewed : Renewed sc free sc' free' [] := by
    refine ⟨h',fun x => ?_,fun x hx _ => hgrown.others x (hold x hx),?_,?_,?_,?_,?_,?_,?_⟩
    · have := hgrown.segs x
      have := hold x
      rw [Used,Used,hgrown.free,or_iff_left List.not_mem_nil]
      tauto
    all_goals exact fun x hx => absurd hx List.not_mem_nil
  have hsink : sc'.cells sink = sc.cells sink :=
    hgrown.others sink (fun hmem => Nat.lt_irrefl _ (h'.sink_lt_of_mem hmem))
  have honly : OnlyMemory sc sc' := by
    rw [OnlyMemory]
    conv_lhs => rw [hgrown.eq]
    rw [hgrown.eq]
  refine ⟨hrenewed.heap h (fun a ha => ?_),⟨honly,hsink,fun x hx => ?_,hgrown.blocks h.toFreeList h'⟩,fun a => hrenewed.proper⟩
  · rw [honly.registers (by rw [hsink])] at ha
    exact hrenewed.proper (h.proper a ha)
  · rw [hgrown.others x (hold x (h.used_of_live (fun a ha => (hroots a ha).1) hx))]
    rfl

/-- What is proper and can be reached is proper after a collection. -/
theorem Collected.proper (h : Heap sc free) (hcollected : Collected sc sc' roots free')
    (hroots : ∀ a ∈ roots, Proper sc free a) (ha : Proper sc free a) (hlive : a ∈ roots) : Proper sc' free' a := by
  have hsegs : sc'.segCells = sc.segCells := by rw [hcollected.eq]; rfl
  refine ⟨?_,fun v hv hwithin => ?_⟩
  · refine ha.1.imp_right (fun hseg => ?_)
    rw [hsegs,hcollected.free]
    exact ⟨hseg.1,fun hdead => hdead.2 (live_of_mem hlive)⟩
  · have hv' : Used sc free v ∧ Same (sc'.cells v) (sc.cells v) := by
      rcases hv with hv | hv
      · refine ⟨.inl hv,hcollected.live v (.inr (fun hseg => ?_))⟩
        have := h.sink_lt hseg
        have := (static_le hv).2
        omega
      · rw [hsegs,hcollected.free] at hv
        have hlive : Live sc.cells roots v := not_not.mp (fun hdead => hv.2 ⟨hv.1,hdead⟩)
        exact ⟨h.used_of_live (fun a ha => (hroots a ha).1) hlive,hcollected.live v (.inl hlive)⟩
    exact ha.2 v hv'.1 ((within_congr hv'.2).mp hwithin)

theorem Collected.kept (h' : FreeList sc' free') (hcollected : Collected sc sc' roots free') :
    Kept sc sc' roots where
  only := by
    rw [OnlyMemory]
    conv_lhs => rw [hcollected.eq]
    rw [hcollected.eq]
  sink := hcollected.sink
  live x hx := hcollected.live x (.inl hx)
  blocks := hcollected.blocks h'

/-- Where memory is exhausted it stays so. -/
theorem getCellX_of_noMemory (h : sc.noMemory = true) (a b : ℕ) :
    ∃ x sc', sc.getCellX malloc a b = some (x,sc') ∧ sc'.noMemory = true := by
  rw [Scheme.getCellX]
  split_ifs
  · exact ⟨_,_,rfl,h⟩
  · rw [Scheme.getCellSlow,if_pos h]
    exact ⟨_,_,rfl,h⟩

/-- A cell is taken off the free list of an interpreter in which everything that can be reached is kept. -/
theorem Heap.getCellX (hmalloc : Sound malloc) (h : Heap sc free) (ha : Proper sc free a) (hb : Proper sc free b) :
    (∃ sc', sc.getCellX malloc a b = some (sink,sc') ∧ sc'.noMemory = true) ∨
      ∃ sc' x rest, sc.getCellX malloc a b = some (x,sc'.popCell.2) ∧ Heap sc' (x :: rest) ∧ Kept sc sc' (sc.roots a b) ∧
        Proper sc' (x :: rest) a ∧ Proper sc' (x :: rest) b := by
  have hroots : ∀ r ∈ sc.roots a b, Proper sc free r := by
    intro r hr
    rcases List.mem_append.mp hr with hr | hr
    · exact h.proper r hr
    · rcases List.mem_pair.mp hr with rfl | rfl
      · exact ha
      · exact hb
  have hamem : a ∈ sc.roots a b := List.mem_append_right _ List.mem_cons_self
  have hbmem : b ∈ sc.roots a b := List.mem_append_right _ (List.mem_cons_of_mem a List.mem_cons_self)
  -- what a cell is popped from
  have hpop : ∀ {sc' free'}, Heap sc' free' → sc'.freeCell ≠ NIL → Kept sc sc' (sc.roots a b) → Proper sc' free' a →
      Proper sc' free' b → ∃ sc₁ x rest, some sc'.popCell = some (x,sc₁.popCell.2) ∧ Heap sc₁ (x :: rest) ∧
        Kept sc sc₁ (sc.roots a b) ∧ Proper sc₁ (x :: rest) a ∧ Proper sc₁ (x :: rest) b := by
    intro sc' free' h' hne hkept ha' hb'
    cases free' with
    | nil => exact absurd (h'.freeCell_eq_nil.mpr rfl) hne
    | cons x rest => exact ⟨sc',x,rest,by rw [← h'.toFreeList.pop.1],h',hkept,ha',hb'⟩
  rw [Scheme.getCellX]
  split_ifs with hfirst
  · exact .inr (hpop h hfirst (.refl sc _) ha hb)
  · rw [not_not] at hfirst
    rw [Scheme.getCellSlow]
    split_ifs with hno
    · exact .inl ⟨sc,rfl,hno⟩
    · obtain ⟨sc₁,free₁,hgc,hcollected,h₁⟩ := h.gc ha hb
      have hkept₁ := hcollected.kept h₁.toFreeList
      have ha₁ := hcollected.proper h hroots ha hamem
      have hb₁ := hcollected.proper h hroots hb hbmem
      rw [hgc,Option.bind_eq_bind,Option.bind_some]
      split_ifs with hfew
      · obtain ⟨k,sc₂,free₂,halloc,h₂,hgrown,hmore⟩ := h₁.toFreeList.allocCellseg hmalloc 1
        have hroots₁ : ∀ r ∈ sc.roots a b, Proper sc₁ free₁ r := fun r hr => hcollected.proper h hroots (hroots r hr) hr
        obtain ⟨h₂,hkept₂,hproper₂⟩ := h₁.grown h₂ hgrown hroots₁
        rw [halloc,Option.bind_eq_bind,Option.bind_some]
        dsimp only
        split_ifs with hfail
        · exact .inl ⟨_,rfl,rfl⟩
        · have hne : sc₂.freeCell ≠ NIL := by
            intro hnil
            have hk : k ≠ 0 := fun hk => hfail ⟨hk,hnil⟩
            exact hmore hk (h₂.freeCell_eq_nil.mp hnil)
          exact .inr (hpop h₂ hne (hkept₁.trans hkept₂) (hproper₂ a ha₁) (hproper₂ b hb₁))
      · exact .inr (hpop h₁ (fun hnil => hfew (.inr hnil)) hkept₁ ha₁ hb₁)

end Edelib.Ts
