import Edelib.Ts.Allocating

/-! # The memory over runs

What the interpreter does with its memory, where it points only to what it came to over links. In every run what can be
reached is kept, no cell that can be reached is handed out, and every block is given back once.
-/
namespace Edelib.Ts
open Foundation Relation

/-- A cell that the interpreter can point to: it came to it, and not into a vector. -/
def Reached (sc : Scheme) (x : ℕ) : Prop := x ∈ statics ∨
  Live sc.cells sc.registers x ∧ ∀ v, Live sc.cells sc.registers v → ¬ Within sc.cells v x

def Writable (sc : Scheme) (x : ℕ) : Prop := Reached sc x ∧ x ∉ statics ∧ (sc.cells x).atom = false

/-- What the interpreter keeps to. -/
def Permitted (sc : Scheme) : Op → Prop
  | .cons a b _ => Reached sc a ∧ Reached sc b
  | .mkAtom type _ _ => type ≠ .vector
  | .mkVector _ => True
  | .setCar p q => Writable sc p ∧ Reached sc q
  | .setCdr p q => Writable sc p ∧ Reached sc q
  | .setVectorElem vec ielem a => Reached sc vec ∧ (sc.cells vec).type = .vector ∧ (ielem : ℤ) < (sc.cells vec).ivalue ∧
      Reached sc a
  | .setType p type _ => Writable sc p ∧ ((sc.cells p).type = .pair ∨ (sc.cells p).type = .closure) ∧
      type ≠ .vector ∧ type ≠ .string ∧ type ≠ .port
  | .load r => ∀ a ∈ r.values, Reached sc a
  | .okToFreelyGc => True
  | .gc a b => Reached sc a ∧ Reached sc b
  | .allocCellseg _ => True

def Op.target : Op → Option ℕ
  | .setCar p _ => some p
  | .setCdr p _ => some p
  | .setVectorElem vec ielem _ => some (vec + 1 + ielem / 2)
  | .setType p _ _ => some p
  | _ => none

def Op.brings : Op → List ℕ
  | .mkAtom type _ svalue => if type = .string ∨ type = .port then [svalue] else []
  | _ => []

def Op.allocates : Op → Bool
  | .cons _ _ _ => true
  | .mkAtom _ _ _ => true
  | .mkVector _ => true
  | _ => false

variable {sc sc' sc₀ : Scheme} {free free' free₀ : List ℕ} {x y p q a b : ℕ} {malloc : Scheme → Option ℕ} {op : Op} {ops : List Op}

theorem Heap.proper_of_reached (h : Heap sc free) (hx : Reached sc x) : Proper sc free x := by
  have hused : ∀ {y}, Live sc.cells sc.registers y → Used sc free y := h.used_of_live (fun a ha => (h.proper a ha).1)
  rcases hx with hstatic | ⟨hlive,hout⟩
  · exact ⟨.inl hstatic,fun v hv hwithin => (h.inside v hv x hwithin).1 hstatic⟩
  · refine ⟨hused hlive,fun v hv hwithin => ?_⟩
    -- whatever linked it last is the vector, and can be reached
    obtain ⟨a,ha,hpath⟩ := hlive
    rcases ReflTransGen.cases_tail hpath with heq | ⟨z,hpath',hedge⟩
    · exact (h.proper a ha).2 v hv (heq ▸ hwithin)
    · have hz : Live sc.cells sc.registers z := ⟨a,ha,hpath'⟩
      have hzv := (h.inside v hv x hwithin).2.2 z (hused hz) hedge
      exact hout z hz (hzv ▸ hwithin)

/-! ## One operation -/

structure Stepped (op : Op) (sc sc' : Scheme) (x : ℕ) : Prop where
  heap : ∃ free', Heap sc' free'
  kept : ∀ y, Live sc.cells sc.registers y → op.target ≠ some y → Same (sc'.cells y) (sc.cells y)
  fresh : op.allocates = true → x ∉ statics ∧ ¬ Live sc.cells sc.registers x ∧ Live sc'.cells sc'.registers x ∧
    ∀ y, Live sc.cells sc.registers y → Live sc'.cells sc'.registers y
  held : op.allocates = true → Holds sc'.cells (sc'.cells sink).car x (sc.cells sink).car
  blocks : (blocks sc').Perm (blocks sc ++ op.brings)

theorem live_mono {cells : Cells} {roots roots' : List ℕ} (h : ∀ a ∈ roots, a ∈ roots') (hx : Live cells roots x) :
    Live cells roots' x := by
  obtain ⟨a,ha,hpath⟩ := hx
  exact ⟨a,h a ha,hpath⟩

theorem live_roots (hx : Live sc.cells sc.registers x) : Live sc.cells (sc.roots a b) x :=
  live_mono (fun _ ha => List.mem_append_left _ ha) hx

theorem Got.stepped (h : Heap sc free) (hgot : Got sc sc' free' (sc.roots a b) x)
    (hblocks : (blocks sc').Perm (blocks sc ++ op.brings)) : Stepped op sc sc' x := by
  obtain ⟨c,hheld⟩ := hgot.handed.held
  have hatom : (sc'.cells (sc'.cells sink).car).atom = false := by
    rw [hheld]
    rfl
  have hholder : (sc'.cells sink).car ∈ sc'.registers := sinkCar_mem sc'
  refine ⟨⟨free',hgot.heap⟩,fun y hy _ => hgot.handed.live y (live_roots hy),fun _ => ⟨hgot.nonstatic,
    fun hx => hgot.handed.fresh (live_roots hx),?_,fun y hy => ?_⟩,fun _ => hgot.handed.held,hblocks⟩
  · exact ⟨_,hholder,.single (.inr ⟨hatom,hgot.heap.ne_zero hgot.proper.1,.inl (by rw [hheld])⟩)⟩
  · refine live_of_same (fun r hr => ?_) (fun y hy => hgot.handed.live y (live_roots hy)) hy
    by_cases hold : r = (sc.cells sink).car
    · exact ⟨_,hholder,.single (.inr ⟨hatom,h.ne_zero (h.proper r hr).1,.inr (by rw [hheld,hold])⟩)⟩
    · refine live_of_mem ?_
      rw [Scheme.registers,hgot.handed.only]
      simp only [Scheme.registers,List.mem_cons] at hr ⊢
      tauto

/-- A cell with links is written, and is linked to nothing but what is proper. -/
theorem Heap.relinked {c : Cell} (h : Heap sc free) (hx : Used sc free x) (hstatic : x ∉ statics) (hq : Proper sc free q)
    (hplain : (sc.cells x).type ≠ .vector) (hsc' : sc' = { sc with cells := put sc.cells x c })
    (hmark : c.mark = (sc.cells x).mark) (htype : c.type ≠ .vector) (hlinks : ∀ y, Linked c y → y = q ∨ Linked (sc.cells x) y)
    (hfinal : finalized c = finalized (sc.cells x)) (htarget : op.target = some x) (hop : op.allocates = false)
    (hbrings : op.brings = []) : Stepped op sc sc' y := by
  obtain ⟨h',-⟩ := h.rewritten hx hstatic hsc' (hmark.trans (h.isMark_eq_false hx hstatic)) htype (fun z hz => by
    rcases hlinks z hz with rfl | hold
    · exact hq
    · exact h.proper_of_edge hx hplain (.inr hold))
  refine ⟨⟨free,h'⟩,fun z _ hne => ?_,fun halloc => ?_,fun halloc => ?_,?_⟩
  · have hzx : z ≠ x := by
      rintro rfl
      exact hne htarget
    rw [hsc']
    change Same (put sc.cells x c z) _
    rw [put_of_ne hzx]
    rfl
  · rw [hop] at halloc
    cases halloc
  · rw [hop] at halloc
    cases halloc
  · rw [hbrings,List.append_nil]
    refine .of_eq (blocks_congr (by rw [hsc']) (by rw [hsc']) (fun z _ => ?_))
    rw [hsc']
    change finalized (put sc.cells x c z) = _
    by_cases hz : z = x
    · rw [hz,put_apply_self,hfinal]
    · rw [put_of_ne hz]

/-- Only what the interpreter points to is changed, or the cell of the recent allocations. -/
theorem Heap.repointed (h : Heap sc free) (hsegs : sc'.cellSeg = sc.cellSeg) (hfirst : sc'.freeCell = sc.freeCell)
    (hcount : sc'.fcells = sc.fcells) (hfreed : sc'.freed = sc.freed) (hcells : ∀ y ≠ sink, sc'.cells y = sc.cells y)
    (hregs : ∀ a ∈ sc'.registers, Proper sc free a) (hop : op.allocates = false) (hbrings : op.brings = []) :
    Stepped op sc sc' x := by
  have hsegs' : sc'.segCells = sc.segCells := by rw [Scheme.segCells,hsegs,Scheme.segCells]
  have hrenewed : Renewed sc free sc' free [] := by
    refine ⟨h.toFreeList.congr hsegs hfirst hcount (fun y hy => hcells y (Nat.ne_of_gt (h.sink_lt_of_mem hy))),fun y => ?_,
      fun y hy _ => hcells y (fun heq => h.sink_unused (heq ▸ hy)),?_,?_,?_,?_,?_,?_,?_⟩
    · rw [Used,Used,hsegs',or_iff_left List.not_mem_nil]
    all_goals exact fun y hy => absurd hy List.not_mem_nil
  refine ⟨⟨free,hrenewed.heap h (fun a ha => hrenewed.proper (hregs a ha))⟩,fun y hy _ => ?_,fun halloc => ?_,
    fun halloc => ?_,?_⟩
  · rw [hcells y (fun heq => h.sink_unused (heq ▸ h.used_of_live (fun a ha => (h.proper a ha).1) hy))]
    rfl
  · rw [hop] at halloc
    cases halloc
  · rw [hop] at halloc
    cases halloc
  · rw [hbrings,List.append_nil]
    exact .of_eq (blocks_congr hsegs hfreed (fun y hy => by rw [hcells y (Nat.ne_of_gt (h.sink_lt hy))]))

theorem Heap.plain_of_atom (h : Heap sc free) (hx : Used sc free x) (hatom : (sc.cells x).atom = false) :
    (sc.cells x).type ≠ .vector := by
  intro htype
  rw [h.atom x hx htype] at hatom
  cases hatom

/-- The cell of an element of a vector. -/
theorem Heap.elem_inside {vec ielem : ℕ} (h : Heap sc free) (hvec : Used sc free vec) (htype : (sc.cells vec).type = .vector)
    (hlt : (ielem : ℤ) < (sc.cells vec).ivalue) : Used sc free (vec + 1 + ielem / 2) ∧ vec + 1 + ielem / 2 ∉ statics ∧
      (sc.cells (vec + 1 + ielem / 2)).type ≠ .vector := by
  obtain ⟨len,hlen⟩ : ∃ len : ℕ, (sc.cells vec).ivalue = len := ⟨(sc.cells vec).ivalue.toNat,by omega⟩
  have hwithin : Within sc.cells vec (vec + 1 + ielem / 2) := by
    refine ⟨htype,by omega,?_⟩
    rw [elems_of_ivalue hlen]
    omega
  obtain ⟨hstatic,hplain,-⟩ := h.inside vec hvec _ hwithin
  exact ⟨h.links vec hvec _ (.inl hwithin),hstatic,hplain⟩

/-- A permitted operation is carried out, and memory is exhausted or everything is kept that can be reached. -/
theorem Heap.step (hmalloc : Sound malloc) (h : Heap sc free) (hpermitted : Permitted sc op) :
    ∃ x sc', op.step malloc sc = some (x,sc') ∧ (sc'.noMemory = true ∨ Stepped op sc sc' x) := by
  have hproper : ∀ {y}, Reached sc y → Proper sc free y := h.proper_of_reached
  cases op with
  | cons a b immutable =>
    rcases h.cons hmalloc (hproper hpermitted.1) (hproper hpermitted.2) immutable with
      ⟨x,sc',hrun,hno⟩ | ⟨x,sc',free',hrun,hgot,hblocks,-⟩
    · exact ⟨x,sc',hrun,.inl hno⟩
    · exact ⟨x,sc',hrun,.inr (hgot.stepped h (hblocks.trans (.of_eq (List.append_nil _).symm)))⟩
  | mkAtom type ivalue svalue =>
    rcases h.mkAtom hmalloc hpermitted ivalue svalue with ⟨x,sc',hrun,hno⟩ | ⟨x,sc',free',hrun,hgot,hblocks,c,hcell⟩
    · exact ⟨x,sc',hrun,.inl hno⟩
    · rw [hcell] at hblocks
      exact ⟨x,sc',hrun,.inr (hgot.stepped h hblocks)⟩
  | mkVector len =>
    rcases h.mkVector hmalloc len with ⟨x,sc',hrun,hno⟩ | ⟨x,sc',free',hrun,hgot,hblocks,-⟩
    · exact ⟨x,sc',hrun,.inl hno⟩
    · exact ⟨x,sc',hrun,.inr (hgot.stepped h (hblocks.trans (.of_eq (List.append_nil _).symm)))⟩
  | setCar p q =>
    obtain ⟨⟨hp,hstatic,hatom⟩,hq⟩ := hpermitted
    have hplain := h.plain_of_atom (hproper hp).1 hatom
    exact ⟨NIL,_,rfl,.inr (h.relinked (hproper hp).1 hstatic (hproper hq) hplain rfl rfl hplain (fun y => linked_car) rfl rfl rfl
      rfl)⟩
  | setCdr p q =>
    obtain ⟨⟨hp,hstatic,hatom⟩,hq⟩ := hpermitted
    have hplain := h.plain_of_atom (hproper hp).1 hatom
    exact ⟨NIL,_,rfl,.inr (h.relinked (hproper hp).1 hstatic (hproper hq) hplain rfl rfl hplain (fun y => linked_cdr) rfl rfl rfl
      rfl)⟩
  | setVectorElem vec ielem a =>
    obtain ⟨hvec,htype,hlt,ha⟩ := hpermitted
    obtain ⟨hx,hstatic,hplain⟩ := h.elem_inside (hproper hvec).1 htype hlt
    refine ⟨NIL,_,rfl,.inr ?_⟩
    rw [Scheme.setVectorElem]
    split_ifs
    · exact h.relinked hx hstatic (hproper ha) hplain rfl rfl hplain (fun y => linked_car) rfl rfl rfl rfl
    · exact h.relinked hx hstatic (hproper ha) hplain rfl rfl hplain (fun y => linked_cdr) rfl rfl rfl rfl
  | setType p type immutable =>
    obtain ⟨⟨hp,hstatic,hatom⟩,hold,hvector,hstring,hport⟩ := hpermitted
    have hfinal : finalized { sc.cells p with type := type, immutable := immutable } = finalized (sc.cells p) := by
      rw [finalized,finalized,if_neg (not_or.mpr ⟨hstring,hport⟩),if_neg]
      rcases hold with hold | hold <;> rw [hold] <;> decide
    exact ⟨NIL,_,rfl,.inr (h.relinked (hproper hp).1 hstatic h.nil_proper (h.plain_of_atom (hproper hp).1 hatom) rfl rfl hvector
      (fun y => .inr) hfinal rfl rfl rfl)⟩
  | load r =>
    refine ⟨NIL,_,rfl,.inr (h.repointed rfl rfl rfl rfl (fun _ _ => rfl) (fun a ha => ?_) rfl rfl)⟩
    have hcase : a ∈ r.values ∨ a = (sc.cells sink).car := by
      simp only [Scheme.registers,Scheme.load,Registers.values,List.mem_cons] at ha ⊢
      tauto
    rcases hcase with ha | rfl
    · exact hproper (hpermitted a ha)
    · exact h.proper _ (sinkCar_mem sc)
  | okToFreelyGc =>
    refine ⟨NIL,_,rfl,.inr (h.repointed rfl rfl rfl rfl (fun y hy => put_of_ne hy) (fun a ha => ?_) rfl rfl)⟩
    rcases mem_registers_of_only (rfl : OnlyMemory sc sc.okToFreelyGc) ha with ha | ha
    · exact h.proper a ha
    · have hnil : a = NIL := by
        rw [ha,Scheme.okToFreelyGc,Scheme.setCar]
        dsimp only
        rw [put_apply_self]
      rw [hnil]
      exact h.nil_proper
  | gc a b =>
    have ha := hproper hpermitted.1
    have hb := hproper hpermitted.2
    obtain ⟨sc',free',hrun,hcollected,h'⟩ := h.gc ha hb
    have hkept := hcollected.kept h'.toFreeList
    exact ⟨NIL,sc',by rw [Op.step,hrun]; rfl,.inr ⟨⟨free',h'⟩,fun y hy _ => hkept.live y (live_roots hy),
      fun halloc => (Bool.false_ne_true halloc).elim,fun halloc => (Bool.false_ne_true halloc).elim,hkept.blocks.trans (.of_eq (List.append_nil _).symm)⟩⟩
  | allocCellseg n =>
    obtain ⟨k,sc',free',hrun,h',hgrown,-⟩ := h.toFreeList.allocCellseg hmalloc n
    obtain ⟨h',hkept,-⟩ := h.grown h' hgrown h.proper
    exact ⟨NIL,sc',by rw [Op.step,hrun]; rfl,.inr ⟨⟨free',h'⟩,fun y hy _ => hkept.live y hy,
      fun halloc => (Bool.false_ne_true halloc).elim,fun halloc => (Bool.false_ne_true halloc).elim,hkept.blocks.trans (.of_eq (List.append_nil _).symm)⟩⟩

/-! ## Runs -/

inductive Run (malloc : Scheme → Option ℕ) (sc₀ : Scheme) : List Op → Scheme → Prop where
  | nil : Run malloc sc₀ [] sc₀
  | snoc {ops : List Op} {op : Op} {sc sc' : Scheme} {x : ℕ} : Run malloc sc₀ ops sc → sc.noMemory = false →
      Permitted sc op → op.step malloc sc = some (x,sc') → Run malloc sc₀ (ops ++ [op]) sc'

theorem Run.heap (hmalloc : Sound malloc) (h₀ : Heap sc₀ free₀) (hrun : Run malloc sc₀ ops sc) (hmemory : sc.noMemory = false) :
    (∃ free, Heap sc free) ∧ (blocks sc).Perm (blocks sc₀ ++ ops.flatMap Op.brings) := by
  induction hrun with
  | nil => exact ⟨⟨free₀,h₀⟩,by rw [List.flatMap_nil,List.append_nil]⟩
  | snoc hrun hno hpermitted hstep ih =>
    obtain ⟨⟨free,h⟩,hblocks⟩ := ih hno
    obtain ⟨x,sc',hstep',hcase⟩ := h.step hmalloc hpermitted
    rw [hstep'] at hstep
    obtain ⟨rfl,rfl⟩ := Prod.mk.inj (Option.some.inj hstep)
    rcases hcase with hfull | hstepped
    · rw [hfull] at hmemory
      cases hmemory
    · refine ⟨hstepped.heap,hstepped.blocks.trans ?_⟩
      rw [List.flatMap_append,List.flatMap_cons,List.flatMap_nil,List.append_nil,← List.append_assoc]
      exact hblocks.append_right _

/-- In every run an operation that is permitted is carried out. Unless memory is exhausted by it, whatever can be reached is
kept but for the cell that it is told to write, no mark is left, and what it hands out is a cell that could not be reached
before and can be reached now over the list of recent allocations. -/
theorem Run.reached_kept (hmalloc : Sound malloc) (h₀ : Heap sc₀ free₀) (hrun : Run malloc sc₀ ops sc) (hmemory : sc.noMemory = false)
    (hpermitted : Permitted sc op) : ∃ x sc', op.step malloc sc = some (x,sc') ∧ (sc'.noMemory = true ∨
      (∀ y, Live sc.cells sc.registers y → op.target ≠ some y → Same (sc'.cells y) (sc.cells y)) ∧
      (∀ y ∈ sc'.segCells, isMark sc'.cells y = false) ∧
      (op.allocates = true → (x ∉ statics ∧ ¬ Live sc.cells sc.registers x ∧ Live sc'.cells sc'.registers x ∧
        ∀ y, Live sc.cells sc.registers y → Live sc'.cells sc'.registers y) ∧
        Holds sc'.cells (sc'.cells sink).car x (sc.cells sink).car)) := by
  obtain ⟨⟨free,h⟩,-⟩ := hrun.heap hmalloc h₀ hmemory
  obtain ⟨x,sc',hstep,hcase⟩ := h.step hmalloc hpermitted
  refine ⟨x,sc',hstep,hcase.imp_right (fun hstepped => ?_)⟩
  obtain ⟨free',h'⟩ := hstepped.heap
  exact ⟨hstepped.kept,h'.unmarked,fun halloc => ⟨hstepped.fresh halloc,hstepped.held halloc⟩⟩

/-- A segment in which only the first cell is used, by a string that nothing is linked to. -/
def sample : Scheme where
  cells x :=
    { type := if x = 100 then .string else .free, isSyntax := false, immutable := false, atom := x ≤ 100, mark := false
      ivalue := 0, svalue := 7, car := NIL, cdr := if x = 20099 then NIL else x + 1 }
  cellSeg := [100]
  freeCell := 101
  fcells := 19999
  noMemory := false
  freed := []
  oblist := NIL
  globalEnv := NIL
  args := NIL
  envir := NIL
  code := NIL
  dump := NIL
  value := NIL
  inport := NIL
  saveInport := NIL
  outport := NIL
  loadport := NIL
  cNest := NIL

theorem sample_heap : Heap sample (List.range' 101 19999) := by
  have hmem : ∀ x, x ∈ List.range' 101 19999 ↔ 101 ≤ x ∧ x < 20100 := fun x => List.mem_range'_1
  have hseg : ∀ x, x ∈ sample.segCells ↔ 100 ≤ x ∧ x < 20100 := by
    intro x
    rw [mem_segCells]
    constructor
    · rintro ⟨s,hs,h⟩
      rw [List.mem_singleton.mp hs] at h
      exact h
    · exact fun h => ⟨100,List.mem_singleton_self _,h⟩
  -- the cells that are used are atoms
  have hatom : ∀ x, Used sample (List.range' 101 19999) x → (sample.cells x).atom = true := by
    rintro x (hx | hx)
    · have := (static_le hx).2
      rw [sink] at this
      exact decide_eq_true (by omega)
    · rw [hseg,hmem] at hx
      exact decide_eq_true (by omega)
  have hplain : ∀ x, (sample.cells x).type ≠ .vector := by
    intro x
    change (if x = 100 then SchemeType.string else .free) ≠ _
    split_ifs <;> decide
  have hedge : ∀ x, Used sample (List.range' 101 19999) x → ∀ y, ¬ Edge sample.cells x y := by
    rintro x hx y (hwithin | ⟨hno,-⟩)
    · exact hplain x hwithin.1
    · rw [hatom x hx] at hno
      cases hno
  refine ⟨⟨List.pairwise_singleton ..,by decide,?_,List.pairwise_lt_range',fun x hx => ?_,?_,fun x hx => ?_⟩,fun _ _ => rfl,
    fun x hx => hedge x (.inl hx),fun x hx y hy => absurd hy (hedge x hx y),fun v _ hv => absurd hv (hplain v),
    fun v _ y hy => absurd hy.1 (hplain v),fun a ha => ?_⟩
  · have hcdr : ∀ x, (sample.cells x).cdr = if x = 20099 then NIL else x + 1 := fun _ => rfl
    change Path _ 101 (List.range' 101 (19998 + 1)) NIL
    exact path_range' (fun x hle hlt => (hcdr x).trans (if_neg (by omega))) ((hcdr _).trans (if_pos (by omega)))
  · rw [hmem] at hx
    rw [hseg]
    omega
  · rw [List.length_range']
    rfl
  · rw [hmem] at hx
    change ((if x = 100 then SchemeType.string else .free) ≠ .free || false || false || decide (x ≤ 100) || false) = false
    rw [if_neg (by omega),decide_eq_false (by omega : ¬ x ≤ 100)]
    rfl
  · have hnil : a = NIL := by
      simpa [Scheme.registers,sample] using ha
    rw [hnil]
    exact ⟨.inl List.mem_cons_self,fun v _ hwithin => hplain v hwithin.1⟩

def mallocAbove (sc : Scheme) : Option ℕ := some (sc.cellSeg.foldr max sink + CELL_SEGSIZE + 1)

theorem mallocAbove_sound : Sound mallocAbove := by
  intro sc newp hnew
  obtain rfl := Option.some.inj hnew
  have hsink : ∀ l : List ℕ, sink ≤ l.foldr max sink ∧ ∀ s ∈ l, s ≤ l.foldr max sink := by
    intro l
    induction l with
    | nil => exact ⟨Nat.le_refl _,fun s hs => absurd hs List.not_mem_nil⟩
    | cons s l ih =>
      refine ⟨ih.1.trans (Nat.le_max_right _ _),fun t ht => ?_⟩
      rcases List.mem_cons.mp ht with rfl | ht
      · exact Nat.le_max_left _ _
      · exact (ih.2 t ht).trans (Nat.le_max_right _ _)
  obtain ⟨hle,hall⟩ := hsink sc.cellSeg
  refine ⟨by omega,fun s hs => .inr ?_⟩
  have := hall s hs
  omega

/-- What is handed out first is there when the string that nothing is linked to is collected. -/
theorem sample_run (hpermitted : Permitted sample op) (hstep : op.step mallocAbove sample = some (x,sc))
    (hmemory : sc.noMemory = false) : ∃ sc', Run mallocAbove sample [op,.gc NIL NIL] sc' ∧ sc'.noMemory = false := by
  have hnil : ∀ {sc : Scheme}, Reached sc NIL := .inl List.mem_cons_self
  have hrun : Run mallocAbove sample [op] sc := .snoc .nil rfl hpermitted hstep
  obtain ⟨⟨free,h⟩,-⟩ := hrun.heap mallocAbove_sound sample_heap hmemory
  obtain ⟨sc',free',hgc,hcollected,-⟩ := h.gc h.nil_proper h.nil_proper
  refine ⟨sc',hrun.snoc (x := NIL) hmemory ⟨hnil,hnil⟩ (by rw [Op.step,hgc]; rfl),?_⟩
  rw [hcollected.eq]
  exact hmemory

theorem permitted_sample (sc : Scheme) : Permitted sc (.cons NIL T false) :=
  ⟨.inl List.mem_cons_self,.inl (List.mem_cons_of_mem _ List.mem_cons_self)⟩

/-- A pair is handed out before the collection, and is held. -/
theorem sample_cons : ∃ sc, Run mallocAbove sample [.cons NIL T false,.gc NIL NIL] sc ∧ sc.noMemory = false :=
  sample_run (permitted_sample sample) rfl rfl

theorem Run.reached_kept_sample : ∃ sc x sc', Run mallocAbove sample [.cons NIL T false,.gc NIL NIL] sc ∧
    (Op.cons NIL T false).step mallocAbove sc = some (x,sc') ∧ (sc'.noMemory = true ∨
      (∀ y, Live sc.cells sc.registers y → (Op.cons NIL T false).target ≠ some y → Same (sc'.cells y) (sc.cells y)) ∧
      (∀ y ∈ sc'.segCells, isMark sc'.cells y = false) ∧
      ((Op.cons NIL T false).allocates = true → (x ∉ statics ∧ ¬ Live sc.cells sc.registers x ∧
        Live sc'.cells sc'.registers x ∧ ∀ y, Live sc.cells sc.registers y → Live sc'.cells sc'.registers y) ∧
        Holds sc'.cells (sc'.cells sink).car x (sc.cells sink).car)) := by
  obtain ⟨sc,hrun,hmemory⟩ := sample_cons
  obtain ⟨x,sc',h⟩ := Run.reached_kept mallocAbove_sound sample_heap hrun hmemory (permitted_sample sc)
  exact ⟨sc,x,sc',hrun,h⟩

/-- In every run a collection frees the cells that cannot be reached, in address order, and leaves the others as they are,
without marks. -/
theorem Run.collects (hmalloc : Sound malloc) (h₀ : Heap sc₀ free₀) (hrun : Run malloc sc₀ ops sc)
    (hmemory : sc.noMemory = false) (ha : Reached sc a) (hb : Reached sc b) :
    ∃ sc' free', sc.gc a b = some sc' ∧ Collected sc sc' (sc.roots a b) free' ∧ FreeList sc' free' ∧
      ∀ y ∈ sc'.segCells, isMark sc'.cells y = false := by
  obtain ⟨⟨free,h⟩,-⟩ := hrun.heap hmalloc h₀ hmemory
  obtain ⟨sc',free',hgc,hcollected,h'⟩ := h.gc (h.proper_of_reached ha) (h.proper_of_reached hb)
  exact ⟨sc',free',hgc,hcollected,h'.toFreeList,h'.unmarked⟩

theorem Run.collects_sample : ∃ sc, Run mallocAbove sample [.cons NIL T false,.gc NIL NIL] sc ∧
    ∃ sc' free', sc.gc NIL T = some sc' ∧ Collected sc sc' (sc.roots NIL T) free' ∧ FreeList sc' free' ∧
      ∀ y ∈ sc'.segCells, isMark sc'.cells y = false := by
  obtain ⟨sc,hrun,hmemory⟩ := sample_cons
  exact ⟨sc,hrun,Run.collects mallocAbove_sound sample_heap hrun hmemory (.inl List.mem_cons_self)
    (.inl (List.mem_cons_of_mem _ List.mem_cons_self))⟩

/-- Where the blocks that strings and ports are given are different, none is given back twice, and none that belongs to a
string or a port that can be reached. -/
theorem Run.blocks_once (hmalloc : Sound malloc) (h₀ : Heap sc₀ free₀) (hrun : Run malloc sc₀ ops sc)
    (hmemory : sc.noMemory = false) (hdistinct : (blocks sc₀ ++ ops.flatMap Op.brings).Nodup) :
    sc.freed.Nodup ∧ ∀ y ∉ statics, Live sc.cells sc.registers y →
      (sc.cells y).type = .string ∨ (sc.cells y).type = .port → (sc.cells y).svalue ∉ sc.freed := by
  obtain ⟨⟨free,h⟩,hblocks⟩ := hrun.heap hmalloc h₀ hmemory
  have hnodup : (blocks sc).Nodup := hblocks.nodup_iff.mpr hdistinct
  rw [blocks,List.nodup_append] at hnodup
  refine ⟨hnodup.1,fun y hstatic hy htype hfreed => ?_⟩
  have hseg : y ∈ sc.segCells := ((h.used_of_live (fun a ha => (h.proper a ha).1) hy).resolve_left hstatic).1
  refine hnodup.2.2 _ hfreed _ (List.mem_flatMap.mpr ⟨y,hseg,?_⟩) rfl
  rw [finalized,if_pos htype]
  exact List.mem_singleton_self _

theorem sample_blocks : blocks sample = [7] := by
  have hrest : (List.range' 101 19999).flatMap (fun x => finalized (sample.cells x)) = [] := by
    rw [List.flatMap_eq_nil_iff]
    exact fun x hx => finalized_of_blank (sample_heap.blank x hx)
  change [] ++ ((List.range' 100 (19999 + 1) ++ []).flatMap (fun x => finalized (sample.cells x))) = [7]
  rw [List.nil_append,List.append_nil,List.range'_succ,List.flatMap_cons,hrest]
  rfl

/-- A string is handed out and held, the other one is given back. -/
theorem Run.blocks_once_sample : ∃ sc, Run mallocAbove sample [.mkAtom .string 0 8,.gc NIL NIL] sc ∧ sc.freed.Nodup ∧
    ∀ y ∉ statics, Live sc.cells sc.registers y → (sc.cells y).type = .string ∨ (sc.cells y).type = .port →
      (sc.cells y).svalue ∉ sc.freed := by
  have hpermitted : Permitted sample (.mkAtom .string 0 8) := SchemeType.noConfusion
  obtain ⟨sc,hrun,hmemory⟩ := sample_run hpermitted rfl rfl
  refine ⟨sc,hrun,Run.blocks_once mallocAbove_sound sample_heap hrun hmemory ?_⟩
  rw [sample_blocks]
  decide

end Edelib.Ts
