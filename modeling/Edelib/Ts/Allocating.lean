import Edelib.Ts.Renewing

/-! # What is handed out

A cell that is handed out was free or has just been collected, and whatever can be reached is as it was before.
-/
namespace Edelib.Ts
open Foundation Relation

variable {sc sc' sc₁ : Scheme} {free free' free₁ rest new roots : List ℕ} {x y p q v a b n newp : ℕ}
  {cells cells' : Cells} {malloc : Scheme → Option ℕ}

/-! ## Holding what was got -/

theorem Heap.sink_unused (h : Heap sc free) : ¬ Used sc free sink := by
  rintro (hmem | hmem)
  · exact absurd (static_le hmem).2 (Nat.lt_irrefl _)
  · exact h.sink_notMem hmem.1

theorem Heap.nil_proper (h : Heap sc free) : Proper sc free NIL :=
  ⟨.inl List.mem_cons_self,fun v hv hwithin => (h.inside v hv NIL hwithin).1 List.mem_cons_self⟩

/-- What another cell than a vector is linked to. -/
theorem Heap.proper_of_edge (h : Heap sc free) (hx : Used sc free x) (hplain : (sc.cells x).type ≠ .vector)
    (hedge : Edge sc.cells x y) : Proper sc free y := by
  refine ⟨h.links x hx y hedge,fun v hv hwithin => ?_⟩
  rw [(h.inside v hv y hwithin).2.2 x hx hedge] at hplain
  exact hplain hwithin.1

theorem Heap.notMem_of_live (h : Heap sc free) (hroots : ∀ a ∈ roots, Proper sc free a) (hy : Live sc.cells roots y) :
    y ∉ free := by
  intro hfree
  rcases h.used_of_live (fun a ha => (hroots a ha).1) hy with hy | hy
  · have := h.sink_lt_of_mem hfree
    have := (static_le hy).2
    omega
  · exact hy.2 hfree

def Linked (c : Cell) (y : ℕ) : Prop := c.atom = false ∧ y ≠ 0 ∧ (y = c.car ∨ y = c.cdr)

theorem Linked.proper {c : Cell} (hcar : Proper sc free c.car) (hcdr : Proper sc free c.cdr) (y : ℕ) (h : Linked c y) :
    Proper sc free y := by
  rcases h.2.2 with rfl | rfl
  · exact hcar
  · exact hcdr

theorem linked_car {c : Cell} (h : Linked { c with car := q } y) : y = q ∨ Linked c y :=
  h.2.2.imp_right (fun hy => ⟨h.1,h.2.1,.inr hy⟩)

theorem linked_cdr {c : Cell} (h : Linked { c with cdr := q } y) : y = q ∨ Linked c y :=
  h.2.2.symm.imp_right (fun hy => ⟨h.1,h.2.1,.inl hy⟩)

/-- One cell is written. -/
theorem renewed_cell {c : Cell} (h : Heap sc free) (hfree : FreeList sc' free')
    (hused : ∀ y, Used sc' free' y ↔ Used sc free y ∨ y = x) (hcells : ∀ y ≠ sink, sc'.cells y = put sc.cells x c y)
    (hx : x ∉ statics) (hsink : x ≠ sink) (hmark : c.mark = false) (htype : c.type ≠ .vector)
    (hlinks : ∀ y, Linked c y → Proper sc free y) : Renewed sc free sc' free' [x] := by
  have hcell : sc'.cells x = c := by rw [hcells x hsink,put_apply_self]
  have hplain : ∀ y, ¬ Within sc'.cells x y := by
    intro y hwithin
    rw [Within,hcell] at hwithin
    exact htype hwithin.1
  refine ⟨hfree,fun y => by rw [hused,List.mem_singleton],fun y hy hne => ?_,?_,?_,?_,?_,?_,?_,?_⟩
  · rw [List.mem_singleton] at hne
    rw [hcells y (fun heq => h.sink_unused (heq ▸ hy)),put_of_ne hne]
  all_goals simp only [List.forall_mem_singleton]
  · exact hx
  · rw [isMark,hcell,hmark]
  · rw [hcell]
    exact fun _ => htype
  · rw [hcell]
    exact fun hvector => absurd hvector htype
  · intro y hedge
    rcases hedge with hwithin | hlinked
    · exact absurd hwithin (hplain y)
    · rw [hcell] at hlinked
      exact .inr (hlinks y hlinked)
  · exact fun y hwithin => absurd hwithin (hplain y)
  · exact fun y hwithin => absurd hwithin (hplain y)

/-- The cell that was popped is written. -/
theorem Heap.take {c : Cell} (h : Heap sc (x :: rest)) (hsc' : sc' = { sc.popCell.2 with cells := sc'.cells })
    (hcells : ∀ y ≠ sink, sc'.cells y = put sc.cells x c y) (hmark : c.mark = false) (htype : c.type ≠ .vector)
    (hlinks : ∀ y, Linked c y → Proper sc (x :: rest) y) :
    Renewed sc (x :: rest) sc' rest [x] := by
  have hx : x ∈ sc.segCells := h.sub x List.mem_cons_self
  have hlt := h.sink_lt hx
  have hxrest : x ∉ rest := (List.nodup_cons.mp h.toFreeList.nodup).1
  have hsegs : sc'.segCells = sc.segCells := by rw [hsc']; rfl
  refine renewed_cell h ?_ (fun y => ?_) hcells (fun hstatic => ?_) (Nat.ne_of_gt hlt) hmark htype hlinks
  · refine h.toFreeList.pop.2.congr (by rw [hsc']) (by rw [hsc']) (by rw [hsc']) (fun y hy => ?_)
    have hne : y ≠ sink := Nat.ne_of_gt (h.sink_lt_of_mem (List.mem_cons_of_mem x hy))
    have hne' : y ≠ x := by
      rintro rfl
      exact hxrest hy
    rw [hcells y hne,put_of_ne hne']
    rfl
  · rw [Used,Used,hsegs,List.mem_cons,not_or]
    by_cases hy : y = x
    · rw [hy]
      exact iff_of_true (.inr ⟨hx,hxrest⟩) (.inr rfl)
    · tauto
  · have := (static_le hstatic).2
    omega

def Holds (cells : Cells) (holder x next : ℕ) : Prop :=
  ∃ c : Cell, cells holder = { c.setFlag .pair true false with car := x, cdr := next }

structure Pushed (sc sc' : Scheme) (x : ℕ) : Prop where
  only : OnlyMemory sc sc'
  live : ∀ y, Live sc.cells (sc.roots x NIL) y → Same (sc'.cells y) (sc.cells y)
  held : ¬ Live sc.cells (sc.roots x NIL) (sc'.cells sink).car ∧ Holds sc'.cells (sc'.cells sink).car x (sc.cells sink).car
  blocks : (blocks sc').Perm (blocks sc)

theorem Heap.roots_proper (h : Heap sc free) (ha : Proper sc free a) (hb : Proper sc free b) :
    ∀ r ∈ sc.roots a b, Proper sc free r := by
  intro r hr
  rcases List.mem_append.mp hr with hr | hr
  · exact h.proper r hr
  · rcases List.mem_pair.mp hr with rfl | rfl
    · exact ha
    · exact hb

theorem sinkCar_mem (sc : Scheme) : (sc.cells sink).car ∈ sc.registers := by
  simp only [Scheme.registers,List.mem_cons,true_or,or_true]

theorem mem_registers_of_only (h : OnlyMemory sc sc') (ha : a ∈ sc'.registers) :
    a ∈ sc.registers ∨ a = (sc'.cells sink).car := by
  rw [Scheme.registers,h] at ha
  simp only [Scheme.registers,List.mem_cons] at ha ⊢
  tauto

def hold (sc : Scheme) (recent holder : ℕ) : Scheme :=
  let cells := put sc.cells holder { (sc.cells holder).setFlag .pair true false with car := recent }
  let cells := put cells holder { cells holder with cdr := (cells sink).car }
  { sc with cells := put cells sink { cells sink with car := holder } }

theorem hold_cell (hne : p ≠ sink) (hy : y ≠ sink) : (hold sc x p).cells y =
    put sc.cells p { (sc.cells p).setFlag .pair true false with car := x, cdr := (sc.cells sink).car } y := by
  rw [hold]
  dsimp only
  rw [put_of_ne hy,put_apply_self,put_put,put_of_ne hne.symm]

theorem hold_sink (sc : Scheme) (x p : ℕ) : ((hold sc x p).cells sink).car = p := by
  rw [hold]
  dsimp only
  rw [put_apply_self]

theorem pushRecentAlloc_eq {b : ℕ} (h : sc.getCellX malloc x b = some (p,sc₁)) :
    sc.pushRecentAlloc malloc x b = some (hold sc₁ x p) := by
  rw [Scheme.pushRecentAlloc,h]
  rfl

theorem Heap.pushRecentAlloc (hmalloc : Sound malloc) (h : Heap sc free) (hx : Proper sc free x) :
    (∃ sc', sc.pushRecentAlloc malloc x NIL = some sc' ∧ sc'.noMemory = true) ∨
      ∃ sc' free', sc.pushRecentAlloc malloc x NIL = some sc' ∧ Heap sc' free' ∧ Pushed sc sc' x := by
  rcases h.getCellX hmalloc hx h.nil_proper with ⟨sc',hrun,hno⟩ | ⟨sc₁,holder,rest,hrun,h₁,hkept,hx₁,-⟩
  · exact .inl ⟨_,pushRecentAlloc_eq hrun,hno⟩
  · have hregs : sc₁.registers = sc.registers := hkept.only.registers (by rw [hkept.sink])
    have hroots : sc₁.roots x NIL = sc.roots x NIL := by rw [Scheme.roots,hregs,Scheme.roots]
    have hlive : ∀ y, Live sc.cells (sc.roots x NIL) y → Live sc₁.cells (sc.roots x NIL) y :=
      fun y hy => live_of_same (fun _ => live_of_mem) hkept.live hy
    have hproper : ∀ r ∈ sc.roots x NIL, Proper sc₁ (holder :: rest) r := by
      rw [← hroots]
      exact h₁.roots_proper hx₁ h₁.nil_proper
    have hne : ∀ y, Live sc.cells (sc.roots x NIL) y → y ≠ holder := by
      rintro y hy rfl
      exact h₁.notMem_of_live hproper (hlive y hy) List.mem_cons_self
    have hholder := h₁.sub holder List.mem_cons_self
    have hsink : holder ≠ sink := Nat.ne_of_gt (h₁.sink_lt hholder)
    have hcar : Proper sc₁ (holder :: rest) (sc₁.cells sink).car := h₁.proper _ (sinkCar_mem sc₁)
    obtain ⟨sc',hsc'⟩ : ∃ sc', sc' = hold sc₁.popCell.2 x holder := ⟨_,rfl⟩
    have hcells : ∀ y ≠ sink, sc'.cells y = put sc₁.cells holder
        { (sc₁.cells holder).setFlag .pair true false with car := x, cdr := (sc₁.cells sink).car } y := by
      intro y hy
      rw [hsc']
      exact hold_cell hsink hy
    have hself := hcells holder hsink
    rw [put_apply_self] at hself
    have hcarsink : (sc'.cells sink).car = holder := by rw [hsc',hold_sink]
    have honly : OnlyMemory sc₁ sc' := by rw [hsc']; rfl
    have hrenewed := h₁.take (by rw [hsc']; rfl) hcells rfl SchemeType.noConfusion (Linked.proper hx₁ hcar)
    have hnew : Proper sc' rest holder := by
      refine hrenewed.proper_new h₁ (List.mem_singleton_self holder) (fun hused => ?_) (fun v hv hwithin => ?_)
      · exact hused.elim (fun hstatic => absurd (static_le hstatic).2 (Nat.lt_asymm (h₁.sink_lt hholder)))
          (fun hseg => hseg.2 List.mem_cons_self)
      · rw [List.mem_singleton] at hv
        rw [hv,Within,hself] at hwithin
        exact SchemeType.noConfusion hwithin.1
    have h' := hrenewed.heap h₁ (fun a ha => by
      rcases mem_registers_of_only honly ha with ha | ha
      · exact hrenewed.proper (h₁.proper a ha)
      · rw [ha,hcarsink]
        exact hnew)
    refine .inr ⟨sc',rest,by rw [hsc']; exact pushRecentAlloc_eq hrun,h',hkept.only.trans honly,fun y hy => ?_,?_,?_⟩
    · have hysink : y ≠ sink := by
        rintro rfl
        exact h.sink_unused (h.used_of_live (fun r hr => (h.roots_proper hx h.nil_proper r hr).1) hy)
      rw [hcells y hysink,put_of_ne (hne y hy)]
      exact hkept.live y hy
    · rw [hcarsink]
      exact ⟨fun hlive => hne holder hlive rfl,_,by rw [hself,hkept.sink]⟩
    · refine .trans (.of_eq ?_) hkept.blocks
      refine blocks_congr (by rw [hsc']; rfl) (by rw [hsc']; rfl) (fun y hy => ?_)
      rw [hcells y (Nat.ne_of_gt (h₁.sink_lt hy))]
      by_cases hyh : y = holder
      · rw [hyh,put_apply_self,finalized_of_blank (h₁.blank holder List.mem_cons_self)]
        rfl
      · rw [put_of_ne hyh]

/-! ## One cell -/

structure Handed (sc sc' : Scheme) (roots : List ℕ) (x : ℕ) : Prop where
  only : OnlyMemory sc sc'
  live : ∀ y, Live sc.cells roots y → Same (sc'.cells y) (sc.cells y)
  fresh : ¬ Live sc.cells roots x
  holder : ¬ Live sc.cells roots (sc'.cells sink).car ∧ (sc'.cells sink).car ≠ x
  held : Holds sc'.cells (sc'.cells sink).car x (sc.cells sink).car

theorem Heap.ne_zero (h : Heap sc free) (hx : Used sc free x) : x ≠ 0 := by
  rintro rfl
  exact h.shape.nonnull (h.mem_usedCells.mpr hx)

/-- A cell that is used is marked only if it is static. -/
theorem Heap.isMark_eq_false (h : Heap sc free) (hx : Used sc free x) (hstatic : x ∉ statics) : isMark sc.cells x = false :=
  h.unmarked x (hx.resolve_left hstatic).1

theorem Pushed.proper (h : Heap sc' free') (hpushed : Pushed sc sc' x) (hx : x ≠ 0) : Proper sc' free' x := by
  obtain ⟨c,hholder⟩ := hpushed.held.2
  refine h.proper_of_edge (h.proper _ (sinkCar_mem sc')).1 ?_ (.inr ⟨by rw [hholder]; rfl,hx,.inl (by rw [hholder])⟩)
  rw [hholder]
  exact SchemeType.noConfusion

theorem FreeList.nonstatic (h : FreeList sc free) (hx : x ∈ sc.segCells) : x ∉ statics :=
  fun hmem => absurd (static_le hmem).2 (Nat.lt_asymm (h.sink_lt hx))

theorem Heap.unused_of_free (h : Heap sc free) (hx : x ∈ free) : ¬ Used sc free x :=
  fun hused => hused.elim (h.nonstatic (h.sub x hx)) (fun hseg => hseg.2 hx)

/-- The cell that was popped is a pair for now. -/
theorem Heap.pairTaken (h : Heap sc (x :: rest)) (ha : Proper sc (x :: rest) a) (hb : Proper sc (x :: rest) b)
    (hsc' : sc' = { sc.popCell.2 with
      cells := put sc.cells x { (sc.cells x).setFlag .pair false false with car := a, cdr := b } }) :
    Heap sc' rest ∧ Proper sc' rest x ∧ blocks sc' = blocks sc ∧
      ∀ r ∈ sc.roots a b, Live sc'.cells (sc'.roots x NIL) r := by
  have hx := h.sub x List.mem_cons_self
  have hself : sc'.cells x = { (sc.cells x).setFlag .pair false false with car := a, cdr := b } := by
    rw [hsc']
    exact put_apply_self ..
  have hregs : sc'.registers = sc.registers := by
    refine OnlyMemory.registers (by rw [hsc']; rfl) ?_
    rw [hsc']
    change (put sc.cells x _ sink).car = _
    rw [put_of_ne (Nat.ne_of_lt (h.sink_lt hx))]
  have hrenewed : Renewed sc (x :: rest) sc' rest [x] :=
    h.take (by rw [hsc']) (fun y _ => by rw [hsc']) rfl SchemeType.noConfusion (Linked.proper ha hb)
  refine ⟨hrenewed.heap h (fun r hr => ?_),hrenewed.proper_new h (List.mem_singleton_self x)
    (h.unused_of_free List.mem_cons_self) (fun v hv hwithin => ?_),blocks_congr (by rw [hsc']; rfl) (by rw [hsc']; rfl)
    (fun y hy => ?_),fun r hr => ?_⟩
  · rw [hregs] at hr
    exact hrenewed.proper (h.proper r hr)
  · rw [List.mem_singleton] at hv
    rw [hv,Within,hself] at hwithin
    exact SchemeType.noConfusion hwithin.1
  · by_cases hyx : y = x
    · rw [hyx,hself,finalized_of_blank (h.blank x List.mem_cons_self)]
      rfl
    · rw [hsc']
      change finalized (put sc.cells x _ y) = _
      rw [put_of_ne hyx]
  · have hxlive : x ∈ sc'.roots x NIL := List.mem_append_right _ List.mem_cons_self
    rcases List.mem_append.mp hr with hr' | hr'
    · exact live_of_mem (List.mem_append_left _ (by rwa [hregs]))
    · refine ⟨x,hxlive,.single (.inr ⟨by rw [hself]; rfl,h.ne_zero (h.roots_proper ha hb r hr).1,?_⟩)⟩
      rw [hself]
      exact List.mem_pair.mp hr'

/-- What was got is held, and is handed out. -/
theorem Heap.handed (hmalloc : Sound malloc) (h : Heap sc₁ free₁) (hx : Proper sc₁ free₁ x) (hstatic : x ∉ statics)
    (honly : OnlyMemory sc sc₁) (hsink : sc₁.cells sink = sc.cells sink)
    (hsame : ∀ y, Live sc.cells roots y → Same (sc₁.cells y) (sc.cells y))
    (hroots : ∀ r ∈ roots, Live sc₁.cells (sc₁.roots x NIL) r) (hfresh : ¬ Live sc.cells roots x) :
    (∃ sc', sc₁.pushRecentAlloc malloc x NIL = some sc' ∧ sc'.noMemory = true) ∨
      ∃ sc' free', sc₁.pushRecentAlloc malloc x NIL = some sc' ∧ Heap sc' free' ∧ Handed sc sc' roots x ∧
        Proper sc' free' x ∧ Pushed sc₁ sc' x ∧ sc'.cells x = sc₁.cells x := by
  rcases h.pushRecentAlloc hmalloc hx with hfail | ⟨sc',free',hrun,h',hpushed⟩
  · exact .inl hfail
  · have hx' : Proper sc' free' x := hpushed.proper h' (h.ne_zero hx.1)
    have hxlive : Live sc₁.cells (sc₁.roots x NIL) x := live_of_mem (List.mem_append_right _ List.mem_cons_self)
    have hlive : ∀ y, Live sc.cells roots y → Live sc₁.cells (sc₁.roots x NIL) y := fun y hy => live_of_same hroots hsame hy
    refine .inr ⟨sc',free',hrun,h',⟨honly.trans hpushed.only,fun y hy => ?_,hfresh,⟨fun hy => ?_,fun heq => ?_⟩,?_⟩,hx',
      hpushed,(hpushed.live x hxlive).eq ?_⟩
    · exact (hpushed.live y (hlive y hy)).trans (hsame y hy)
    · exact hpushed.held.1 (hlive _ hy)
    · exact hpushed.held.1 (heq ▸ hxlive)
    · rw [← hsink]
      exact hpushed.held.2
    · exact (h'.isMark_eq_false hx'.1 hstatic).trans (h.isMark_eq_false hx.1 hstatic).symm

theorem Heap.getCell (hmalloc : Sound malloc) (h : Heap sc free) (ha : Proper sc free a) (hb : Proper sc free b) :
    (∃ x sc', sc.getCell malloc a b = some (x,sc') ∧ sc'.noMemory = true) ∨
      ∃ x sc' free', sc.getCell malloc a b = some (x,sc') ∧ Heap sc' free' ∧ Handed sc sc' (sc.roots a b) x ∧
        Proper sc' free' x ∧ x ∉ statics ∧ (blocks sc').Perm (blocks sc) ∧
        ∃ c : Cell, sc'.cells x = { c.setFlag .pair false false with car := a, cdr := b } := by
  rw [Scheme.getCell]
  rcases h.getCellX hmalloc ha hb with ⟨sc₁,hrun,hno⟩ | ⟨sc₁,x,rest,hrun,h₁,hkept,ha₁,hb₁⟩
  · rw [hrun,Option.bind_eq_bind,Option.bind_some]
    obtain ⟨sc₂,hsc₂⟩ : ∃ sc₂ : Scheme, sc₂ = { sc₁ with
      cells := put sc₁.cells sink { (sc₁.cells sink).setFlag .pair false false with car := a, cdr := b } } := ⟨_,rfl⟩
    have hno₂ : sc₂.noMemory = true := by
      rw [hsc₂]
      exact hno
    obtain ⟨p,sc',hrun',hno'⟩ : ∃ p sc', sc₂.getCellX malloc sink NIL = some (p,sc') ∧ sc'.noMemory = true :=
      getCellX_of_noMemory hno₂ sink NIL
    dsimp only
    rw [← hsc₂,pushRecentAlloc_eq hrun',Option.bind_eq_bind,Option.bind_some]
    exact .inl ⟨_,_,rfl,hno'⟩
  · rw [hrun,Option.bind_eq_bind,Option.bind_some]
    dsimp only
    obtain ⟨sc₂,hsc₂⟩ : ∃ sc₂ : Scheme, sc₂ = { sc₁.popCell.2 with
      cells := put sc₁.popCell.2.cells x { (sc₁.popCell.2.cells x).setFlag .pair false false with car := a, cdr := b } } :=
      ⟨_,rfl⟩
    rw [← hsc₂]
    have hx := h₁.sub x List.mem_cons_self
    have hsink : x ≠ sink := Nat.ne_of_gt (h₁.sink_lt hx)
    have hregs₁ : sc₁.registers = sc.registers := hkept.only.registers (by rw [hkept.sink])
    have hroots₁ : sc₁.roots a b = sc.roots a b := by rw [Scheme.roots,hregs₁,Scheme.roots]
    have hne : ∀ y, Live sc.cells (sc.roots a b) y → y ≠ x := by
      rintro y hy rfl
      refine h₁.notMem_of_live (h₁.roots_proper ha₁ hb₁) ?_ List.mem_cons_self
      rw [hroots₁]
      exact live_of_same (fun _ => live_of_mem) hkept.live hy
    obtain ⟨h₂,hx₂,hblocks₂,hroots₂⟩ := h₁.pairTaken ha₁ hb₁ hsc₂
    rw [hroots₁] at hroots₂
    have hcells₂ : sc₂.cells = put sc₁.cells x { (sc₁.cells x).setFlag .pair false false with car := a, cdr := b } := by
      rw [hsc₂]
      rfl
    have hsame₂ : ∀ y, Live sc.cells (sc.roots a b) y → Same (sc₂.cells y) (sc.cells y) := by
      intro y hy
      rw [hcells₂,put_of_ne (hne y hy)]
      exact hkept.live y hy
    have honly₂ : OnlyMemory sc₁ sc₂ := by rw [hsc₂]; rfl
    rcases h₂.handed hmalloc hx₂ (h₁.nonstatic hx) (hkept.only.trans honly₂)
      (by rw [hcells₂,put_of_ne hsink.symm,hkept.sink]) hsame₂ hroots₂ (fun hy => hne x hy rfl) with
      ⟨sc',hrun',hno⟩ | ⟨sc',free',hrun',h',hhanded,hx',hpushed,hcell⟩
    · rw [hrun',Option.bind_eq_bind,Option.bind_some]
      exact .inl ⟨_,_,rfl,hno⟩
    · rw [hrun',Option.bind_eq_bind,Option.bind_some]
      refine .inr ⟨x,sc',free',rfl,h',hhanded,hx',h₁.nonstatic hx,?_,sc₁.cells x,?_⟩
      · exact (hpushed.blocks.trans (.of_eq hblocks₂)).trans hkept.blocks
      · rw [hcell,hcells₂,put_apply_self]

/-- A cell that is used is written. -/
theorem Heap.rewritten {c : Cell} (h : Heap sc free) (hx : Used sc free x) (hstatic : x ∉ statics)
    (hsc' : sc' = { sc with cells := put sc.cells x c }) (hmark : c.mark = false) (htype : c.type ≠ .vector)
    (hlinks : ∀ y, Linked c y → Proper sc free y) :
    Heap sc' free ∧ ∀ a, Proper sc free a → Proper sc' free a := by
  have hseg := hx.resolve_left hstatic
  have hsink : x ≠ sink := Nat.ne_of_gt (h.sink_lt hseg.1)
  have hrenewed : Renewed sc free sc' free [x] := by
    refine renewed_cell h ?_ (fun y => ?_) (fun y _ => by rw [hsc']) hstatic hsink hmark htype hlinks
    · refine h.toFreeList.congr (by rw [hsc']) (by rw [hsc']) (by rw [hsc']) (fun y hy => ?_)
      rw [hsc']
      refine put_of_ne ?_
      rintro rfl
      exact hseg.2 hy
    · have hsame : Used sc' free y ↔ Used sc free y := by rw [Used,Used,Scheme.segCells,Scheme.segCells,hsc']
      rw [hsame]
      refine (or_iff_left_of_imp ?_).symm
      rintro rfl
      exact hx
  have hregs : sc'.registers = sc.registers := by
    refine OnlyMemory.registers (by rw [hsc']; rfl) ?_
    rw [hsc']
    change (put sc.cells x c sink).car = _
    rw [put_of_ne hsink.symm]
  refine ⟨hrenewed.heap h (fun a ha => ?_),fun a => hrenewed.proper⟩
  rw [hregs] at ha
  exact hrenewed.proper (h.proper a ha)

theorem Handed.rewritten {c : Cell} (hhanded : Handed sc sc₁ roots x) (hsc' : sc' = { sc₁ with cells := put sc₁.cells x c })
    (hsink : x ≠ sink) : Handed sc sc' roots x := by
  have hcar : (sc'.cells sink).car = (sc₁.cells sink).car := by
    rw [hsc']
    change (put sc₁.cells x c sink).car = _
    rw [put_of_ne hsink.symm]
  refine ⟨hhanded.only.trans (by rw [hsc']; rfl),fun y hy => ?_,hhanded.fresh,by rw [hcar]; exact hhanded.holder,?_⟩
  · have hne : y ≠ x := by
      rintro rfl
      exact hhanded.fresh hy
    rw [hsc']
    change Same (put sc₁.cells x c y) _
    rw [put_of_ne hne]
    exact hhanded.live y hy
  · rw [hcar,Holds,hsc']
    change ∃ d : Cell, put sc₁.cells x c _ = _
    rw [put_of_ne hhanded.holder.2]
    exact hhanded.held

theorem blocks_put {c : Cell} (h : FreeList sc free) (hx : x ∈ sc.segCells) (hnone : finalized (sc.cells x) = [])
    (hsc' : sc' = { sc with cells := put sc.cells x c }) : (blocks sc').Perm (blocks sc ++ finalized c) := by
  have hnodup : sc.segCells.Nodup := h.segCells_sorted.imp (fun hlt => Nat.ne_of_lt hlt)
  have hperm := List.perm_cons_erase hx
  have hrest : (sc.segCells.erase x).flatMap (fun y => finalized (sc'.cells y)) =
      (sc.segCells.erase x).flatMap (fun y => finalized (sc.cells y)) := by
    refine List.flatMap_congr (fun y hy => ?_)
    have hne : y ≠ x := ((hnodup.mem_erase_iff).mp hy).1
    rw [hsc']
    change finalized (put sc.cells x c y) = _
    rw [put_of_ne hne]
  have hself : sc'.cells x = c := by
    rw [hsc']
    exact put_apply_self ..
  have hsegs : sc'.segCells = sc.segCells := by rw [hsc']; rfl
  have hfreed : sc'.freed = sc.freed := by rw [hsc']
  rw [blocks,blocks,hfreed,List.append_assoc]
  refine List.Perm.append_left _ ?_
  rw [owned,owned,hsegs]
  refine (hperm.flatMap_right _).trans ?_
  rw [List.flatMap_cons,hself,hrest]
  refine List.perm_append_comm.trans (List.Perm.append_right _ ?_)
  refine .trans (.of_eq ?_) (hperm.flatMap_right _).symm
  rw [List.flatMap_cons,hnone,List.nil_append]

structure Got (sc sc' : Scheme) (free' roots : List ℕ) (x : ℕ) : Prop where
  heap : Heap sc' free'
  handed : Handed sc sc' roots x
  proper : Proper sc' free' x
  nonstatic : x ∉ statics

def getCellFor (malloc : Scheme → Option ℕ) (sc : Scheme) (a b : ℕ) (f : Cell → Cell) : Option (ℕ × Scheme) := do
  let (x,sc) ← sc.getCell malloc a b
  some (x,{ sc with cells := put sc.cells x (f (sc.cells x)) })

theorem Heap.getCellFor {f : Cell → Cell} (hmalloc : Sound malloc) (h : Heap sc free) (ha : Proper sc free a)
    (hb : Proper sc free b) (hmark : ∀ c, (f c).mark = false) (htype : ∀ c, (f c).type ≠ .vector)
    (hlinks : ∀ c, (f c).atom = true ∨ (f c).car = a ∧ (f c).cdr = b) :
    (∃ x sc', Ts.getCellFor malloc sc a b f = some (x,sc') ∧ sc'.noMemory = true) ∨
      ∃ x sc' free', Ts.getCellFor malloc sc a b f = some (x,sc') ∧ Got sc sc' free' (sc.roots a b) x ∧
        (blocks sc').Perm (blocks sc ++ finalized (sc'.cells x)) ∧ ∃ c, sc'.cells x = f c := by
  rw [Ts.getCellFor]
  rcases h.getCell hmalloc ha hb with ⟨x,sc',hrun,hno⟩ | ⟨x,sc₁,free₁,hrun,h₁,hhanded,hx,hstatic,hblocks,c,hcell⟩
  · rw [hrun]
    exact .inl ⟨_,_,rfl,hno⟩
  · rw [hrun]
    have hseg := (hx.1.resolve_left hstatic).1
    have hplain : (sc₁.cells x).type ≠ .vector := by
      rw [hcell]
      exact SchemeType.noConfusion
    have hlinked : ∀ y, y ≠ 0 → y = a ∨ y = b → Proper sc₁ free₁ y := by
      intro y hy hor
      refine h₁.proper_of_edge hx.1 hplain (.inr ⟨by rw [hcell]; rfl,hy,?_⟩)
      rw [hcell]
      exact hor
    have ha₁ := hlinked a (h.ne_zero ha.1) (.inl rfl)
    have hb₁ := hlinked b (h.ne_zero hb.1) (.inr rfl)
    obtain ⟨sc',hsc'⟩ : ∃ sc' : Scheme, sc' = { sc₁ with cells := put sc₁.cells x (f (sc₁.cells x)) } := ⟨_,rfl⟩
    obtain ⟨h',hproper⟩ := h₁.rewritten hx.1 hstatic hsc' (hmark _) (htype _) (fun y hlinked => by
      rcases hlinks (sc₁.cells x) with hatom | ⟨hcar,hcdr⟩
      · rw [Linked,hatom] at hlinked
        cases hlinked.1
      · exact Linked.proper (hcar ▸ ha₁) (hcdr ▸ hb₁) y hlinked)
    have hself : sc'.cells x = f (sc₁.cells x) := by
      rw [hsc']
      exact put_apply_self ..
    refine .inr ⟨x,sc',free₁,by rw [hsc']; rfl,⟨h',hhanded.rewritten hsc' (Nat.ne_of_gt (h₁.sink_lt hseg)),hproper x hx,hstatic⟩,
      ?_,_,hself⟩
    rw [hself]
    refine (blocks_put h₁.toFreeList hseg ?_ hsc').trans (hblocks.append_right _)
    rw [hcell]
    rfl

theorem Heap.cons (hmalloc : Sound malloc) (h : Heap sc free) (ha : Proper sc free a) (hb : Proper sc free b)
    (immutable : Bool) : (∃ x sc', sc.cons malloc a b immutable = some (x,sc') ∧ sc'.noMemory = true) ∨
      ∃ x sc' free', sc.cons malloc a b immutable = some (x,sc') ∧ Got sc sc' free' (sc.roots a b) x ∧
        (blocks sc').Perm (blocks sc) ∧
        ∃ c : Cell, sc'.cells x = { c.setFlag .pair immutable false with car := a, cdr := b } := by
  rcases h.getCellFor (f := fun c => { c.setFlag .pair immutable false with car := a, cdr := b }) hmalloc ha hb
    (fun _ => rfl) (fun _ => SchemeType.noConfusion) (fun _ => .inr ⟨rfl,rfl⟩) with
    ⟨x,sc',hrun,hno⟩ | ⟨x,sc',free',hrun,hgot,hblocks,c,hcell⟩
  · exact .inl ⟨x,sc',hrun,hno⟩
  · refine .inr ⟨x,sc',free',hrun,hgot,?_,c,hcell⟩
    rw [hcell] at hblocks
    exact hblocks.trans (.of_eq (List.append_nil _))

theorem Heap.mkAtom (hmalloc : Sound malloc) (h : Heap sc free) {type : SchemeType} (htype : type ≠ .vector) (ivalue : ℤ)
    (svalue : ℕ) : (∃ x sc', sc.mkAtom malloc type ivalue svalue = some (x,sc') ∧ sc'.noMemory = true) ∨
      ∃ x sc' free', sc.mkAtom malloc type ivalue svalue = some (x,sc') ∧ Got sc sc' free' (sc.roots NIL NIL) x ∧
        (blocks sc').Perm (blocks sc ++ finalized (sc'.cells x)) ∧
        ∃ c : Cell, sc'.cells x = { c.setFlag type false true with ivalue := ivalue, svalue := svalue } :=
  h.getCellFor (f := fun c => { c.setFlag type false true with ivalue := ivalue, svalue := svalue }) hmalloc h.nil_proper
    h.nil_proper (fun _ => rfl) (fun _ => htype) (fun _ => .inl rfl)

/-! ## Vectors -/

theorem noMemory_of_only (h : OnlyMemory sc sc') : sc'.noMemory = sc.noMemory := by rw [h]

/-- Cells in a row are taken from an interpreter in which everything that can be reached is kept. -/
theorem Heap.getConsecutiveCells (hmalloc : Sound malloc) (h : Heap sc free) (n : ℕ) :
    (∃ x sc', sc.getConsecutiveCells malloc (n + 1) = some (x,sc') ∧ sc'.noMemory = true) ∨
      ∃ sc₁ x lo hi sc', sc.getConsecutiveCells malloc (n + 1) = some (x,sc') ∧ sc'.noMemory = false ∧
        Heap sc₁ (lo ++ (List.range' x (n + 1) ++ hi)) ∧ Kept sc sc₁ (sc.roots NIL NIL) ∧ Taken sc₁ sc' lo hi := by
  rw [Scheme.getConsecutiveCells]
  by_cases hno : sc.noMemory = true
  · rw [if_pos hno]
    exact .inl ⟨_,_,rfl,hno⟩
  · rw [if_neg hno]
    -- what is found is taken from what is kept
    have hdone : ∀ {sc₁ free₁ x lo hi sc'}, Heap sc₁ free₁ → Kept sc sc₁ (sc.roots NIL NIL) →
        free₁ = lo ++ (List.range' x (n + 1) ++ hi) → Taken sc₁ sc' lo hi → ∃ sc₁ y lo hi sc₂,
          some (x,sc') = some (y,sc₂) ∧ sc₂.noMemory = false ∧ Heap sc₁ (lo ++ (List.range' y (n + 1) ++ hi)) ∧
            Kept sc sc₁ (sc.roots NIL NIL) ∧ Taken sc₁ sc₂ lo hi := by
      intro sc₁ free₁ x lo hi sc' h₁ hkept hfree htaken
      refine ⟨sc₁,x,lo,hi,sc',rfl,?_,hfree ▸ h₁,hkept,htaken⟩
      rw [htaken.eq]
      exact (noMemory_of_only hkept.only).trans (Bool.eq_false_of_not_eq_true hno)
    rcases h.toFreeList.findConsecutiveCells n with hnone | ⟨x,lo,hi,sc',hfound,hx,hfree,htaken⟩
    · obtain ⟨sc₁,free₁,hgc,hcollected,h₁⟩ := h.gc h.nil_proper h.nil_proper
      have hkept₁ := hcollected.kept h₁.toFreeList
      rw [hnone,Option.bind_eq_bind,Option.bind_some]
      dsimp only
      rw [if_neg (fun hne => hne rfl),hgc,Option.bind_eq_bind,Option.bind_some]
      rcases h₁.toFreeList.findConsecutiveCells n with hnone₁ | ⟨x,lo,hi,sc',hfound,hx,hfree,htaken⟩
      · obtain ⟨k,sc₂,free₂,halloc,h₂,hgrown,-⟩ := h₁.toFreeList.allocCellseg hmalloc 1
        have hroots : ∀ r ∈ sc.roots NIL NIL, Proper sc free r := h.roots_proper h.nil_proper h.nil_proper
        have hroots₁ : ∀ r ∈ sc.roots NIL NIL, Proper sc₁ free₁ r := fun r hr => hcollected.proper h hroots (hroots r hr) hr
        obtain ⟨h₂,hkept₂,-⟩ := h₁.grown h₂ hgrown hroots₁
        rw [hnone₁,Option.bind_some]
        dsimp only
        rw [if_neg (fun hne => hne rfl),halloc,Option.bind_some]
        dsimp only
        split_ifs with hk
        · exact .inl ⟨_,_,rfl,rfl⟩
        · rcases h₂.toFreeList.findConsecutiveCells n with hnone₂ | ⟨x,lo,hi,sc',hfound,hx,hfree,htaken⟩
          · rw [hnone₂,Option.bind_some]
            dsimp only
            rw [if_neg (fun hne => hne rfl)]
            exact .inl ⟨_,_,rfl,rfl⟩
          · rw [hfound,Option.bind_some]
            dsimp only
            rw [if_pos hx]
            exact .inr (hdone h₂ (hkept₁.trans hkept₂) hfree htaken)
      · rw [hfound,Option.bind_some]
        dsimp only
        rw [if_pos hx]
        exact .inr (hdone h₁ hkept₁ hfree htaken)
    · rw [hfound,Option.bind_eq_bind,Option.bind_some]
      dsimp only
      rw [if_pos hx]
      exact .inr (hdone h (.refl sc _) hfree htaken)

/-- The cells of a vector are filled. -/
theorem foldl_fill {l : List ℕ} (hnodup : l.Nodup) (obj x : ℕ) :
    l.foldl (fun cells p => put cells p { (cells p).setFlag .pair true false with car := obj, cdr := obj }) cells x =
      if x ∈ l then { (cells x).setFlag .pair true false with car := obj, cdr := obj } else cells x := by
  induction l generalizing cells with
  | nil => rw [if_neg List.not_mem_nil]; rfl
  | cons p l ih =>
    obtain ⟨hp,hl⟩ := List.nodup_cons.mp hnodup
    rw [List.foldl_cons,ih hl]
    by_cases hx : x = p
    · rw [hx,if_neg hp,if_pos List.mem_cons_self,put_apply_self]
    · have hiff : x ∈ p :: l ↔ x ∈ l := by rw [List.mem_cons,or_iff_right hx]
      simp only [hiff,put_of_ne hx]

theorem elems_of_ivalue {c : Cell} {len : ℕ} (h : c.ivalue = len) : c.elems = len / 2 + len % 2 := by
  have hdiv : (len : ℤ).tdiv 2 = (len / 2 : ℕ) := (Int.ofNat_tdiv len 2).symm
  have hmod : (len : ℤ).tmod 2 = (len % 2 : ℕ) := (Int.ofNat_tmod len 2).symm
  rw [Cell.elems,h,hdiv,hmod,← Nat.cast_add,Int.toNat_natCast]

structure VectorAt (cells : Cells) (x len obj : ℕ) : Prop where
  first : ∃ c : Cell, cells x = { c.setFlag .vector false true with ivalue := len }
  inside : ∀ y, x < y → y ≤ x + (len / 2 + len % 2) →
    ∃ c : Cell, cells y = { c.setFlag .pair true false with car := obj, cdr := obj }

theorem VectorAt.fields {len obj : ℕ} (h : VectorAt cells x len obj) : (cells x).type = .vector ∧ (cells x).atom = true ∧
    (cells x).ivalue = len ∧ isMark cells x = false := by
  obtain ⟨c,hc⟩ := h.first
  rw [isMark,hc]
  exact ⟨rfl,rfl,rfl,rfl⟩

theorem VectorAt.congr {len obj : ℕ} (h : VectorAt cells x len obj)
    (hsame : ∀ y, x ≤ y → y ≤ x + (len / 2 + len % 2) → cells' y = cells y) : VectorAt cells' x len obj := by
  refine ⟨?_,fun y hlt hle => ?_⟩
  · rw [hsame x (Nat.le_refl x) (Nat.le_add_right _ _)]
    exact h.first
  · rw [hsame y (Nat.le_of_lt hlt) hle]
    exact h.inside y hlt hle

theorem VectorAt.within_iff {len obj : ℕ} (h : VectorAt cells x len obj) :
    Within cells x y ↔ x < y ∧ y ≤ x + (len / 2 + len % 2) := by
  obtain ⟨htype,-,hivalue,-⟩ := h.fields
  rw [Within,htype,elems_of_ivalue hivalue]
  exact and_iff_right rfl

def recordVector (cells : Cells) (vec len init : ℕ) : Cells :=
  Scheme.fillVector (put cells vec { (cells vec).setFlag .vector false true with ivalue := len }) vec init

theorem recordVector_apply (cells : Cells) (x len obj y : ℕ) : recordVector cells x len obj y =
    if y ∈ List.range' (x + 1) (len / 2 + len % 2) then
      { (put cells x { (cells x).setFlag .vector false true with ivalue := len } y).setFlag .pair true false with
        car := obj, cdr := obj }
    else put cells x { (cells x).setFlag .vector false true with ivalue := len } y := by
  have helems : ({ (cells x).setFlag .vector false true with ivalue := (len : ℤ) } : Cell).elems = len / 2 + len % 2 :=
    elems_of_ivalue rfl
  rw [recordVector,Scheme.fillVector,put_apply_self,helems,foldl_fill (List.nodup_range' ..)]

theorem recordVector_of_outside {len obj : ℕ} (hy : y ∉ List.range' x (len / 2 + len % 2 + 1)) :
    recordVector cells x len obj y = cells y := by
  rw [List.mem_range'_1] at hy
  rw [recordVector_apply,if_neg (by rw [List.mem_range'_1]; omega),put_of_ne (by omega)]

theorem vectorAt_recordVector (cells : Cells) (x len obj : ℕ) : VectorAt (recordVector cells x len obj) x len obj := by
  have hself : recordVector cells x len obj x = { (cells x).setFlag .vector false true with ivalue := len } := by
    rw [recordVector_apply,if_neg (by rw [List.mem_range'_1]; omega),put_apply_self]
  refine ⟨⟨_,hself⟩,fun y hlt hle => ?_⟩
  rw [recordVector_apply,if_pos (by rw [List.mem_range'_1]; omega)]
  exact ⟨_,rfl⟩

theorem Taken.only {lo hi : List ℕ} (h : Taken sc sc' lo hi) : OnlyMemory sc sc' := by
  rw [OnlyMemory]
  conv_lhs => rw [h.eq]
  rw [h.eq]

theorem Heap.vectorTaken {lo hi : List ℕ} {len : ℕ} (h : Heap sc (lo ++ (List.range' x (len / 2 + len % 2 + 1) ++ hi)))
    (htaken : Taken sc sc₁ lo hi) (hsc' : sc' = { sc₁ with cells := recordVector sc₁.cells x len NIL }) :
    Heap sc' (lo ++ hi) ∧ Proper sc' (lo ++ hi) x ∧ blocks sc' = blocks sc ∧
      ∀ y ∉ lo ++ (List.range' x (len / 2 + len % 2 + 1) ++ hi), sc'.cells y = sc.cells y := by
  have hvector := vectorAt_recordVector sc₁.cells x len NIL
  have hcells : sc'.cells = recordVector sc₁.cells x len NIL := by rw [hsc']
  have hsegs : sc'.cellSeg = sc.cellSeg := by rw [hsc',htaken.eq]
  have hsegs' : sc'.segCells = sc.segCells := by rw [Scheme.segCells,hsegs,Scheme.segCells]
  rw [← hcells] at hvector
  -- what was taken is not among the rest
  have hnodup := h.toFreeList.nodup
  rw [List.nodup_append,List.nodup_append] at hnodup
  have hout : ∀ y ∈ lo ++ hi, y ∉ List.range' x (len / 2 + len % 2 + 1) := by
    intro y hy hmem
    rcases List.mem_append.mp hy with hy | hy
    · exact hnodup.2.2 y hy y (List.mem_append_left _ hmem) rfl
    · exact hnodup.2.1.2.2 y hmem y hy rfl
  have hnew : ∀ y ∈ List.range' x (len / 2 + len % 2 + 1), y ∈ lo ++ (List.range' x (len / 2 + len % 2 + 1) ++ hi) :=
    fun y hy => List.mem_append_right lo (List.mem_append_left hi hy)
  have hfirst : x ∈ List.range' x (len / 2 + len % 2 + 1) := by
    rw [List.mem_range'_1]
    omega
  have hcase : ∀ y ∈ List.range' x (len / 2 + len % 2 + 1), y = x ∨
      ∃ c : Cell, sc'.cells y = { c.setFlag .pair true false with car := NIL, cdr := NIL } := by
    intro y hy
    rw [List.mem_range'_1] at hy
    by_cases hyx : y = x
    · exact .inl hyx
    · exact .inr (hvector.inside y (by omega) (by omega))
  have honly : ∀ v ∈ List.range' x (len / 2 + len % 2 + 1), (sc'.cells v).type = .vector → v = x := by
    intro v hv htype
    refine (hcase v hv).resolve_right (fun hother => ?_)
    obtain ⟨c,hc⟩ := hother
    rw [hc] at htype
    exact SchemeType.noConfusion htype
  have hsame : ∀ y ∉ lo ++ (List.range' x (len / 2 + len % 2 + 1) ++ hi), sc'.cells y = sc.cells y := by
    intro y hy
    rw [hcells,recordVector_of_outside (fun hmem => hy (hnew y hmem))]
    exact htaken.others y (fun hlo => hy (List.mem_append_left _ hlo))
  have hrenewed : Renewed sc (lo ++ (List.range' x (len / 2 + len % 2 + 1) ++ hi)) sc' (lo ++ hi)
      (List.range' x (len / 2 + len % 2 + 1)) := by
    refine ⟨?_,fun y => ?_,fun y hy _ => hsame y (fun hfree => h.unused_of_free hfree hy),fun y hy => h.nonstatic (h.sub y (hnew y hy)),fun y hy => ?_,
      fun y hy hused => absurd hused (h.unused_of_free (hnew y hy)),fun y hy htype => ?_,fun y hy z hedge => ?_,
      fun v hv y hwithin => ?_,fun v hv w hw y hvy hwy => ?_⟩
    · refine htaken.freeList.congr (by rw [hsc']) (by rw [hsc']) (by rw [hsc']) (fun y hy => ?_)
      rw [hcells,recordVector_of_outside (hout y hy)]
    · have hseg := fun hy => h.sub y (hnew y hy)
      have hout' := fun hy => hout y hy
      rw [Used,Used,hsegs']
      simp only [List.mem_append] at hout' ⊢
      tauto
    · rcases hcase y hy with rfl | ⟨c,hc⟩
      · exact hvector.fields.2.2.2
      · rw [isMark,hc]
        rfl
    · rw [honly y hy htype]
      exact hvector.fields.2.1
    · rcases hedge with hwithin | ⟨hatom,-,hz⟩
      · exact .inl hwithin
      · rcases hcase y hy with rfl | ⟨c,hc⟩
        · rw [hvector.fields.2.1] at hatom
          cases hatom
        · rw [hc,or_self] at hz
          rw [hz]
          exact .inr h.nil_proper
    · obtain rfl := honly v hv hwithin.1
      have hy := hvector.within_iff.mp hwithin
      have hmem : y ∈ List.range' v (len / 2 + len % 2 + 1) := by
        rw [List.mem_range'_1]
        omega
      refine ⟨hmem,h.unused_of_free (hnew y hmem),fun htype => ?_⟩
      have := honly y hmem htype
      omega
    · exact (honly w hw hwy.1).trans (honly v hv hvy.1).symm
  refine ⟨hrenewed.heap h (fun a ha => ?_),hrenewed.proper_new h hfirst (h.unused_of_free (hnew x hfirst)) (fun v hv hwithin => ?_),
    ?_,hsame⟩
  · have hsink : sc'.cells sink = sc.cells sink := hsame sink (fun hmem => Nat.lt_irrefl _ (h.sink_lt_of_mem hmem))
    rw [(htaken.only.trans (by rw [hsc']; rfl : OnlyMemory sc₁ sc')).registers (by rw [hsink])] at ha
    exact hrenewed.proper (h.proper a ha)
  · obtain rfl := honly v hv hwithin.1
    exact Nat.lt_irrefl _ hwithin.2.1
  · refine blocks_congr hsegs (by rw [hsc',htaken.eq]) (fun y _ => ?_)
    by_cases hy : y ∈ List.range' x (len / 2 + len % 2 + 1)
    · have hplain : finalized (sc'.cells y) = [] := by
        rcases hcase y hy with rfl | ⟨c,hc⟩
        · rw [finalized,hvector.fields.1]
          rfl
        · rw [hc]
          rfl
      rw [hplain,finalized_of_blank (h.blank y (hnew y hy))]
    · rw [hcells,recordVector_of_outside hy]
      by_cases hlo : y ∈ lo
      · rw [finalized_of_blank (htaken.freeList.blank y (List.mem_append_left hi hlo)),
          finalized_of_blank (h.blank y (List.mem_append_left _ hlo))]
      · rw [htaken.others y hlo]

theorem getVectorObject_eq {len obj : ℕ} (hrun : sc.getConsecutiveCells malloc (len / 2 + len % 2 + 1) = some (x,sc₁))
    (hno : sc₁.noMemory = false) (hsc' : sc' = { sc₁ with cells := recordVector sc₁.cells x len obj }) :
    sc.getVectorObject malloc len obj = (sc'.pushRecentAlloc malloc x NIL).bind (fun sc => some (x,sc)) := by
  rw [Scheme.getVectorObject,hrun,Option.bind_eq_bind,Option.bind_some,hsc']
  dsimp only
  rw [if_neg (by rw [hno]; exact Bool.false_ne_true)]
  rfl

/-- A vector is handed out, none of whose cells could be reached. -/
theorem Heap.mkVector (hmalloc : Sound malloc) (h : Heap sc free) (len : ℕ) :
    (∃ x sc', sc.mkVector malloc len = some (x,sc') ∧ sc'.noMemory = true) ∨
      ∃ x sc' free', sc.mkVector malloc len = some (x,sc') ∧ Got sc sc' free' (sc.roots NIL NIL) x ∧
        (blocks sc').Perm (blocks sc) ∧ VectorAt sc'.cells x len NIL ∧
        ∀ y, x < y → y ≤ x + (len / 2 + len % 2) → ¬ Live sc.cells (sc.roots NIL NIL) y := by
  rw [Scheme.mkVector]
  rcases h.getConsecutiveCells hmalloc (len / 2 + len % 2) with ⟨x,sc',hrun,hno⟩ | ⟨sc₁,x,lo,hi,sc₂,hrun,hno,h₁,hkept,htaken⟩
  · rw [Scheme.getVectorObject,hrun,Option.bind_eq_bind,Option.bind_some]
    dsimp only
    rw [if_pos hno]
    exact .inl ⟨_,_,rfl,hno⟩
  · obtain ⟨sc₃,hsc₃⟩ : ∃ sc₃ : Scheme, sc₃ = { sc₂ with cells := recordVector sc₂.cells x len NIL } := ⟨_,rfl⟩
    rw [getVectorObject_eq hrun hno hsc₃]
    obtain ⟨h₃,hx₃,hblocks₃,hothers⟩ := h₁.vectorTaken htaken hsc₃
    have hvector₃ : VectorAt sc₃.cells x len NIL := by
      rw [hsc₃]
      exact vectorAt_recordVector sc₂.cells x len NIL
    have hnew : ∀ y, x ≤ y → y ≤ x + (len / 2 + len % 2) →
        y ∈ lo ++ (List.range' x (len / 2 + len % 2 + 1) ++ hi) := by
      intro y hle hle'
      refine List.mem_append_right _ (List.mem_append_left _ ?_)
      rw [List.mem_range'_1]
      omega
    have hstatic : ∀ y, x ≤ y → y ≤ x + (len / 2 + len % 2) → y ∉ statics :=
      fun y hle hle' => h₁.nonstatic (h₁.sub y (hnew y hle hle'))
    have hx : x ≤ x + (len / 2 + len % 2) := Nat.le_add_right _ _
    have hregs₁ : sc₁.registers = sc.registers := hkept.only.registers (by rw [hkept.sink])
    have hunused : ∀ y, Live sc.cells (sc.roots NIL NIL) y →
        y ∉ lo ++ (List.range' x (len / 2 + len % 2 + 1) ++ hi) := by
      intro y hy
      refine h₁.notMem_of_live (h₁.roots_proper h₁.nil_proper h₁.nil_proper) ?_
      rw [Scheme.roots,hregs₁]
      exact live_of_same (fun _ => live_of_mem) hkept.live hy
    have honly₃ : OnlyMemory sc sc₃ := hkept.only.trans (htaken.only.trans (by rw [hsc₃]; rfl : OnlyMemory sc₂ sc₃))
    have hsink₃ : sc₃.cells sink = sc.cells sink := by
      rw [hothers sink (fun hmem => Nat.lt_irrefl _ (h₁.sink_lt_of_mem hmem)),hkept.sink]
    have hfresh : ∀ y, x ≤ y → y ≤ x + (len / 2 + len % 2) → ¬ Live sc.cells (sc.roots NIL NIL) y :=
      fun y hle hle' hy => hunused y hy (hnew y hle hle')
    rcases h₃.handed hmalloc hx₃ (hstatic x (Nat.le_refl x) hx) honly₃ hsink₃ (fun y (hy : Live sc.cells (sc.roots NIL NIL) y) => by
        rw [hothers y (hunused y hy)]
        exact hkept.live y hy) (fun r hr => by
        rw [Scheme.roots,← honly₃.registers (by rw [hsink₃])] at hr
        refine live_of_mem ?_
        rw [Scheme.roots]
        simp only [List.mem_append,List.mem_cons,List.not_mem_nil,or_false,or_self] at hr ⊢
        exact hr.imp_right .inr) (hfresh x (Nat.le_refl x) hx) with
      ⟨sc',hrun',hno'⟩ | ⟨sc',free',hrun',h',hhanded,hx',hpushed,hcell⟩
    · exact .inl ⟨x,sc',by rw [hrun']; rfl,hno'⟩
    · -- the cells inside are linked from the first one, and are as they were filled
      have hself : ∀ y, x ≤ y → y ≤ x + (len / 2 + len % 2) → sc'.cells y = sc₃.cells y := by
        intro y hle hle'
        rcases Nat.eq_or_lt_of_le hle with rfl | hlt
        · exact hcell
        · have hin : Within sc₃.cells x y := hvector₃.within_iff.mpr ⟨hlt,hle'⟩
          have hlive : Live sc₃.cells (sc₃.roots x NIL) y :=
            ⟨x,List.mem_append_right _ List.mem_cons_self,.single (.inl hin)⟩
          have hin' : Within sc'.cells x y := by rwa [Within,hcell]
          refine (hpushed.live y hlive).eq ?_
          have hmark := h'.isMark_eq_false (h'.links x hx'.1 y (.inl hin')) (hstatic y hle hle')
          exact hmark.trans (h₃.isMark_eq_false (h₃.links x hx₃.1 y (.inl hin)) (hstatic y hle hle')).symm
      refine .inr ⟨x,sc',free',by rw [hrun']; rfl,⟨h',hhanded,hx',hstatic x (Nat.le_refl x) hx⟩,?_,hvector₃.congr hself,
        fun y hlt hle => hfresh y (Nat.le_of_lt hlt) hle⟩
      exact (hpushed.blocks.trans (.of_eq hblocks₃)).trans hkept.blocks

end Edelib.Ts
