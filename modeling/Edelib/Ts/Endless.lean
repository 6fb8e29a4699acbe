import Edelib.Ts.Runs

/-! # A memory without end

The operations over a memory in which every cell that is handed out is a new one and nothing is collected. It is what a
program may take the memory of the interpreter for. The two are compared by what can be reached in them.
-/
namespace Edelib.Ts
open Foundation Relation

def Scheme.regs (sc : Scheme) : Registers where
  oblist := sc.oblist
  globalEnv := sc.globalEnv
  args := sc.args
  envir := sc.envir
  code := sc.code
  dump := sc.dump
  value := sc.value
  inport := sc.inport
  saveInport := sc.saveInport
  outport := sc.outport
  loadport := sc.loadport
  cNest := sc.cNest

def Registers.map (f : ℕ → ℕ) (r : Registers) : Registers where
  oblist := f r.oblist
  globalEnv := f r.globalEnv
  args := f r.args
  envir := f r.envir
  code := f r.code
  dump := f r.dump
  value := f r.value
  inport := f r.inport
  saveInport := f r.saveInport
  outport := f r.outport
  loadport := f r.loadport
  cNest := f r.cNest

def Op.map (f : ℕ → ℕ) : Op → Op
  | .cons a b immutable => .cons (f a) (f b) immutable
  | .mkAtom type ivalue svalue => .mkAtom type ivalue svalue
  | .mkVector len => .mkVector len
  | .setCar p q => .setCar (f p) (f q)
  | .setCdr p q => .setCdr (f p) (f q)
  | .setVectorElem vec ielem a => .setVectorElem (f vec) ielem (f a)
  | .setType p type immutable => .setType (f p) type immutable
  | .load r => .load (r.map f)
  | .okToFreelyGc => .okToFreelyGc
  | .gc a b => .gc (f a) (f b)
  | .allocCellseg n => .allocCellseg n

def Op.pointers : Op → List ℕ
  | .cons a b _ => [a,b]
  | .setCar p q => [p,q]
  | .setCdr p q => [p,q]
  | .setVectorElem vec _ a => [vec,a]
  | .setType p _ _ => [p]
  | .load r => r.values
  | .gc a b => [a,b]
  | _ => []

namespace Endless

/-- The next cells are handed out and held; the first free cell is the next one. -/
def getCells (sc : Scheme) (n : ℕ) (f : Cells → ℕ → Cells) : ℕ × Scheme :=
  (sc.freeCell,hold { sc with cells := f sc.cells sc.freeCell, freeCell := sc.freeCell + n + 2 } sc.freeCell
    (sc.freeCell + n + 1))

def cons (sc : Scheme) (a b : ℕ) (immutable : Bool) : ℕ × Scheme :=
  getCells sc 0 (fun cells x => put cells x { (cells x).setFlag .pair immutable false with car := a, cdr := b })

def mkAtom (sc : Scheme) (type : SchemeType) (ivalue : ℤ) (svalue : ℕ) : ℕ × Scheme :=
  getCells sc 0 (fun cells x => put cells x { (cells x).setFlag type false true with ivalue := ivalue, svalue := svalue })

def mkVector (sc : Scheme) (len : ℕ) : ℕ × Scheme :=
  getCells sc (len / 2 + len % 2) (fun cells x => recordVector cells x len NIL)

def step (sc : Scheme) : Op → ℕ × Scheme
  | .cons a b immutable => cons sc a b immutable
  | .mkAtom type ivalue svalue => mkAtom sc type ivalue svalue
  | .mkVector len => mkVector sc len
  | .setCar p q => (NIL,sc.setCar p q)
  | .setCdr p q => (NIL,sc.setCdr p q)
  | .setVectorElem vec ielem a => (NIL,sc.setVectorElem vec ielem a)
  | .setType p type immutable => (NIL,sc.setType p type immutable)
  | .load r => (NIL,sc.load r)
  | .okToFreelyGc => (NIL,sc.okToFreelyGc)
  -- nothing is collected, and there is always more
  | .gc _ _ => (NIL,sc)
  | .allocCellseg _ => (NIL,sc)

end Endless

/-! ## The same memory but for the addresses -/

structure Mirror (ρ : ℕ → ℕ) (c c' : Cell) : Prop where
  type : c'.type = c.type
  isSyntax : c'.isSyntax = c.isSyntax
  immutable : c'.immutable = c.immutable
  atom : c'.atom = c.atom
  content : c.atom = true → c'.ivalue = c.ivalue ∧ finalized c' = finalized c
  links : c.atom = false → (c'.car = ρ c.car ∧ c'.cdr = ρ c.cdr) ∧ (c.car ≠ 0 ∧ c.cdr ≠ 0) ∧ c'.car ≠ 0 ∧ c'.cdr ≠ 0

def Known (sc : Scheme) (i : ℕ) : Prop := i ∈ statics ∨ Live sc.cells sc.registers i

structure Mirrors (ρ : ℕ → ℕ) (st sc : Scheme) : Prop where
  regs : sc.regs = st.regs.map ρ
  recent : (sc.cells sink).car = ρ (st.cells sink).car
  fixed : ∀ s ∈ statics, ρ s = s
  bare : ∀ s ∈ statics, ∀ y, ¬ Edge st.cells s y
  room : sink < st.freeCell
  inj : ∀ i j, Known st i → Known st j → ρ i = ρ j → i = j
  below : ∀ i, Live st.cells st.registers i → i ∉ statics → sink < i ∧ i < st.freeCell
  cell : ∀ i, Live st.cells st.registers i → i ∉ statics → Mirror ρ (st.cells i) (sc.cells (ρ i))
  atom : ∀ v, Live st.cells st.registers v → v ∉ statics → (st.cells v).type = .vector → (st.cells v).atom = true
  inside : ∀ v, Live st.cells st.registers v → ∀ y, Within st.cells v y → ρ y + v = ρ v + y

variable {sc sc' st st' sc₀ : Scheme} {free free' free₀ : List ℕ} {i j x y p q a b n : ℕ} {ρ ρ' f g : ℕ → ℕ}
  {c c' d : Cell}

theorem mem_registers : a ∈ sc.registers ↔ a ∈ sc.regs.values ∨ a = (sc.cells sink).car := by
  simp only [Scheme.registers,Scheme.regs,Registers.values,List.mem_cons]
  tauto

theorem values_map (f : ℕ → ℕ) (r : Registers) : (r.map f).values = r.values.map f := rfl

theorem regs_map_congr {r : Registers} (h : ∀ a ∈ r.values, f a = g a) : r.map f = r.map g := by
  simp only [Registers.values,List.forall_mem_cons] at h
  obtain ⟨h₁,h₂,h₃,h₄,h₅,h₆,h₇,h₈,h₉,h₁₀,h₁₁,h₁₂,-⟩ := h
  rw [Registers.map,Registers.map,h₁,h₂,h₃,h₄,h₅,h₆,h₇,h₈,h₉,h₁₀,h₁₁,h₁₂]

theorem regs_map_map (f g : ℕ → ℕ) (r : Registers) : (r.map f).map g = r.map (fun x => g (f x)) := rfl

theorem regs_map_id (r : Registers) : r.map (fun x => x) = r := rfl

/-- Whatever holds of the registers and along the links holds of what can be reached. -/
theorem live_closed {P : ℕ → Prop} {cells : Cells} {roots : List ℕ} (hroots : ∀ a ∈ roots, P a)
    (hedge : ∀ x y, P x → Edge cells x y → P y) (hx : Live cells roots x) : P x := by
  obtain ⟨a,ha,hpath⟩ := hx
  induction hpath with
  | refl => exact hroots a ha
  | tail _ hxy ih => exact hedge _ _ ih hxy

theorem live_edge {cells : Cells} {roots : List ℕ} (hx : Live cells roots x) (hedge : Edge cells x y) : Live cells roots y := by
  obtain ⟨a,ha,hpath⟩ := hx
  exact ⟨a,ha,hpath.tail hedge⟩

namespace Mirror

theorem of_same (h : Mirror ρ c c') (hsame : Same d c') : Mirror ρ c d := by
  obtain ⟨htype,hatom,hivalue,-,hcar,hcdr⟩ := hsame.fields
  have hfinal := hsame.finalized
  rw [Same] at hsame
  simp only [Cell.mk.injEq] at hsame
  refine ⟨htype.trans h.type,hsame.2.1.trans h.isSyntax,hsame.2.2.1.trans h.immutable,hatom.trans h.atom,fun ha => ?_,
    fun ha => ?_⟩
  · rw [hivalue,hfinal]
    exact h.content ha
  · rw [hcar,hcdr]
    exact h.links ha

theorem rename (h : Mirror ρ c c') (hcar : c.atom = false → ρ' c.car = ρ c.car) (hcdr : c.atom = false → ρ' c.cdr = ρ c.cdr) :
    Mirror ρ' c c' :=
  ⟨h.type,h.isSyntax,h.immutable,h.atom,h.content,fun ha => by
    rw [hcar ha,hcdr ha]
    exact h.links ha⟩

end Mirror

namespace Mirrors

theorem known_edge (hm : Mirrors ρ st sc) (hi : Known st i) (hedge : Edge st.cells i j) : Known st j := by
  rcases hi with hi | hi
  · exact absurd hedge (hm.bare i hi j)
  · exact .inr (live_edge hi hedge)

theorem edge_map (hm : Mirrors ρ st sc) (hi : Live st.cells st.registers i) (hedge : Edge st.cells i j) :
    Edge sc.cells (ρ i) (ρ j) := by
  have hstatic : i ∉ statics := fun hs => hm.bare i hs j hedge
  have hcell := hm.cell i hi hstatic
  rcases hedge with hwithin | ⟨hatom,-,hj⟩
  · have hplace := hm.inside i hi j hwithin
    obtain ⟨htype,hlt,hle⟩ := hwithin
    have helems : (sc.cells (ρ i)).elems = (st.cells i).elems := by
      rw [Cell.elems,Cell.elems,(hcell.content (hm.atom i hi hstatic htype)).1]
    exact .inl ⟨hcell.type.trans htype,by omega,by omega⟩
  · obtain ⟨⟨hcar,hcdr⟩,-,hcar',hcdr'⟩ := hcell.links hatom
    refine .inr ⟨hcell.atom.trans hatom,?_,?_⟩
    · rcases hj with rfl | rfl
      · rwa [← hcar]
      · rwa [← hcdr]
    · rw [hcar,hcdr]
      exact hj.imp (congrArg ρ) (congrArg ρ)

theorem edge_back (hm : Mirrors ρ st sc) (h : Heap sc free) (hi : Live st.cells st.registers i)
    (hedge : Edge sc.cells (ρ i) y) : ∃ j, Edge st.cells i j ∧ ρ j = y := by
  have hstatic : i ∉ statics := fun hs => h.bare i hs y (hm.fixed i hs ▸ hedge)
  have hcell := hm.cell i hi hstatic
  rcases hedge with ⟨htype,hlt,hle⟩ | ⟨hatom,-,hy⟩
  · have htype' : (st.cells i).type = .vector := hcell.type.symm.trans htype
    have helems : (sc.cells (ρ i)).elems = (st.cells i).elems := by
      rw [Cell.elems,Cell.elems,(hcell.content (hm.atom i hi hstatic htype')).1]
    have hwithin : Within st.cells i (i + (y - ρ i)) := ⟨htype',by omega,by omega⟩
    have hplace := hm.inside i hi _ hwithin
    exact ⟨_,.inl hwithin,by omega⟩
  · have hatom' : (st.cells i).atom = false := hcell.atom.symm.trans hatom
    obtain ⟨⟨hcar,hcdr⟩,⟨hne,hne'⟩,-⟩ := hcell.links hatom'
    rcases hy with rfl | rfl
    · exact ⟨_,.inr ⟨hatom',hne,.inl rfl⟩,hcar.symm⟩
    · exact ⟨_,.inr ⟨hatom',hne',.inr rfl⟩,hcdr.symm⟩

theorem live_map (hm : Mirrors ρ st sc) (hi : Live st.cells st.registers i) : Live sc.cells sc.registers (ρ i) := by
  have hboth : Live st.cells st.registers i ∧ Live sc.cells sc.registers (ρ i) := by
    refine live_closed (P := fun i => Live st.cells st.registers i ∧ Live sc.cells sc.registers (ρ i))
      (fun a ha => ⟨live_of_mem ha,live_of_mem ?_⟩) (fun x y hx hxy => ⟨live_edge hx.1 hxy,live_edge hx.2 (hm.edge_map hx.1 hxy)⟩) hi
    rw [mem_registers] at ha ⊢
    rw [hm.regs,values_map,hm.recent]
    exact ha.imp (List.mem_map_of_mem) (congrArg ρ)
  exact hboth.2

theorem live_back (hm : Mirrors ρ st sc) (h : Heap sc free) (hx : Live sc.cells sc.registers x) :
    ∃ i, Live st.cells st.registers i ∧ ρ i = x := by
  refine live_closed (P := fun x => ∃ i, Live st.cells st.registers i ∧ ρ i = x) (fun a ha => ?_) (fun x y hx hxy => ?_) hx
  · rw [mem_registers,hm.regs,values_map,hm.recent] at ha
    rcases ha with ha | rfl
    · obtain ⟨i,hi,rfl⟩ := List.mem_map.mp ha
      exact ⟨i,live_of_mem (mem_registers.mpr (.inl hi)),rfl⟩
    · exact ⟨_,live_of_mem (sinkCar_mem st),rfl⟩
  · obtain ⟨i,hi,rfl⟩ := hx
    obtain ⟨j,hij,rfl⟩ := hm.edge_back h hi hxy
    exact ⟨j,live_edge hi hij,rfl⟩

theorem known_of_reached (hm : Mirrors ρ st sc) (h : Heap sc free) (hx : Reached sc x) : ∃ i, Known st i ∧ ρ i = x := by
  rcases hx with hx | hx
  · exact ⟨x,.inl hx,hm.fixed x hx⟩
  · obtain ⟨i,hi,rfl⟩ := hm.live_back h hx.1
    exact ⟨i,.inr hi,rfl⟩

/-- Only addresses or marks are changed there. -/
theorem kept (hm : Mirrors ρ st sc) (hregs : sc'.regs = sc.regs) (hsink : (sc'.cells sink).car = (sc.cells sink).car)
    (hsame : ∀ y, Live sc.cells sc.registers y → Same (sc'.cells y) (sc.cells y)) : Mirrors ρ st sc' where
  regs := hregs.trans hm.regs
  recent := hsink.trans hm.recent
  fixed := hm.fixed
  bare := hm.bare
  room := hm.room
  inj := hm.inj
  below := hm.below
  cell i hi hstatic := (hm.cell i hi hstatic).of_same (hsame _ (hm.live_map hi))
  atom := hm.atom
  inside := hm.inside

theorem ne_sink (hm : Mirrors ρ st sc) (hi : Known st i) : i ≠ sink := by
  by_cases hstatic : i ∈ statics
  · exact Nat.ne_of_lt (static_le hstatic).2
  · exact Nat.ne_of_gt (hm.below i (hi.resolve_left hstatic) hstatic).1

theorem image_ne_sink (hm : Mirrors ρ st sc) (h : Heap sc free) (hi : Known st i) : ρ i ≠ sink := by
  rcases hi with hi | hi
  · rw [hm.fixed i hi]
    exact Nat.ne_of_lt (static_le hi).2
  · intro heq
    exact h.sink_unused (heq ▸ h.used_of_live (fun a ha => (h.proper a ha).1) (hm.live_map hi))

/-- Other registers, or other recent allocations. -/
theorem repointed (hm : Mirrors ρ st sc) (h : Heap sc free) (hcells : ∀ y ≠ sink, st'.cells y = st.cells y)
    (hcells' : ∀ y ≠ sink, sc'.cells y = sc.cells y) (hfree : st'.freeCell = st.freeCell)
    (hregs : sc'.regs = st'.regs.map ρ) (hrecent : (sc'.cells sink).car = ρ (st'.cells sink).car)
    (hknown : ∀ a ∈ st'.registers, Known st a) : Mirrors ρ st' sc' := by
  have hsame : ∀ {i}, Known st i → st'.cells i = st.cells i := fun hi => hcells _ (hm.ne_sink hi)
  have hedge : ∀ {i j}, Known st i → Edge st'.cells i j → Edge st.cells i j := by
    intro i j hi hij
    rwa [Edge,Within,hsame hi] at hij
  have hlive : ∀ {i}, Live st'.cells st'.registers i → Known st i :=
    fun hi => live_closed (P := Known st) hknown (fun x y hx hxy => hm.known_edge hx (hedge hx hxy)) hi
  have hlive' : ∀ {i}, Live st'.cells st'.registers i → i ∉ statics → Live st.cells st.registers i :=
    fun hi hstatic => (hlive hi).resolve_left hstatic
  have hvector : ∀ {v}, Live st'.cells st'.registers v → ∀ {y}, Within st'.cells v y → v ∉ statics :=
    fun hv y hwithin hs => hm.bare _ hs _ (hedge (.inl hs) (.inl hwithin))
  refine ⟨hregs,hrecent,hm.fixed,fun s hs y hy => hm.bare s hs y (hedge (.inl hs) hy),by rw [hfree]; exact hm.room,fun i j hi hj => ?_,fun i hi hs => ?_,
    fun i hi hs => ?_,fun v hv hs htype => ?_,fun v hv y hy => ?_⟩
  · exact hm.inj i j (hi.elim .inl hlive) (hj.elim .inl hlive)
  · rw [hfree]
    exact hm.below i (hlive' hi hs) hs
  · rw [hsame (hlive hi),hcells' _ (hm.image_ne_sink h (hlive hi))]
    exact hm.cell i (hlive' hi hs) hs
  · rw [hsame (hlive hv)] at htype ⊢
    exact hm.atom v (hlive' hv hs) hs htype
  · have hy' : Within st.cells v y := by rwa [Within,hsame (hlive hv)] at hy
    exact hm.inside v (hlive' hv (hvector hv hy)) y hy'

/-- A cell is written on both sides. -/
theorem relinked (hm : Mirrors ρ st sc) (h : Heap sc free) (hi : Live st.cells st.registers i) (hstatic : i ∉ statics)
    (hst' : st' = { st with cells := put st.cells i c }) (hsc' : sc' = { sc with cells := put sc.cells (ρ i) c' })
    (hmirror : Mirror ρ c c') (hplain : c.type ≠ .vector) (hlinks : ∀ y, Linked c y → Known st y) : Mirrors ρ st' sc' := by
  have hsink : sink ≠ i := (hm.ne_sink (.inr hi)).symm
  have hsink' : sink ≠ ρ i := (hm.image_ne_sink h (.inr hi)).symm
  have hcells : ∀ j ≠ i, st'.cells j = st.cells j := by
    intro j hj
    rw [hst']
    exact put_of_ne hj
  have hself : st'.cells i = c := by
    rw [hst']
    exact put_apply_self ..
  have hregs : st'.registers = st.registers := by
    refine OnlyMemory.registers (by rw [hst']; rfl) ?_
    rw [hcells sink hsink]
  have hedge : ∀ {x y}, Known st x → Edge st'.cells x y → Known st y := by
    intro x y hx hxy
    by_cases hxi : x = i
    · rw [hxi] at hxy
      rcases hxy with hwithin | hlinked
      · rw [Within,hself] at hwithin
        exact absurd hwithin.1 hplain
      · rw [hself] at hlinked
        exact hlinks y hlinked
    · rw [Edge,Within,hcells x hxi] at hxy
      exact hm.known_edge hx hxy
  have hlive : ∀ {j}, Live st'.cells st'.registers j → Known st j := by
    intro j hj
    refine live_closed (P := Known st) (fun a ha => ?_) (fun x y => hedge) hj
    rw [hregs] at ha
    exact .inr (live_of_mem ha)
  have hne : ∀ {j}, Known st j → j ≠ i → ρ j ≠ ρ i := fun hj hji heq => hji (hm.inj _ _ hj (.inr hi) heq)
  refine ⟨?_,?_,hm.fixed,fun s hs y hy => ?_,by rw [hst']; exact hm.room,fun j k hj hk => hm.inj j k (hj.elim .inl hlive) (hk.elim .inl hlive),
    fun j hj hs => ?_,fun j hj hs => ?_,fun v hv hs htype => ?_,fun v hv y hy => ?_⟩
  · rw [hst',hsc']
    exact hm.regs
  · rw [hcells sink hsink,hsc']
    change (put sc.cells (ρ i) c' sink).car = _
    rw [put_of_ne hsink']
    exact hm.recent
  · have hsi : s ≠ i := by
      rintro rfl
      exact hstatic hs
    rw [Edge,Within,hcells s hsi] at hy
    exact hm.bare s hs y hy
  · rw [hst']
    exact hm.below j ((hlive hj).resolve_left hs) hs
  · rw [hsc']
    change Mirror ρ _ (put sc.cells (ρ i) c' (ρ j))
    by_cases hji : j = i
    · rw [hji,hself,put_apply_self]
      exact hmirror
    · rw [hcells j hji,put_of_ne (hne (hlive hj) hji)]
      exact hm.cell j ((hlive hj).resolve_left hs) hs
  · have hvi : v ≠ i := by
      rintro rfl
      rw [hself] at htype
      exact hplain htype
    rw [hcells v hvi] at htype ⊢
    exact hm.atom v ((hlive hv).resolve_left hs) hs htype
  · have hvi : v ≠ i := by
      rintro rfl
      rw [Within,hself] at hy
      exact hplain hy.1
    rw [Within,hcells v hvi] at hy
    have hs : v ∉ statics := fun hs => hm.bare v hs y (.inl hy)
    exact hm.inside v ((hlive hv).resolve_left hs) y hy

theorem pos (hm : Mirrors ρ st sc) (hi : Known st i) : 0 < i := by
  by_cases hs : i ∈ statics
  · exact (static_le hs).1
  · exact Nat.zero_lt_of_lt (hm.below i (hi.resolve_left hs) hs).1

theorem image_ne_zero (hm : Mirrors ρ st sc) (h : Heap sc free) (hi : Known st i) : ρ i ≠ 0 := by
  rcases hi with hi | hi
  · rw [hm.fixed i hi]
    exact Nat.ne_of_gt (static_le hi).1
  · exact h.ne_zero (h.used_of_live (fun a ha => (h.proper a ha).1) (hm.live_map hi))

theorem image_static (hm : Mirrors ρ st sc) (hs : ρ i ∉ statics) : i ∉ statics :=
  fun hi => hs ((hm.fixed i hi).symm ▸ hi)

theorem lt_freeCell (hm : Mirrors ρ st sc) (hi : Known st i) : i < st.freeCell := by
  by_cases hs : i ∈ statics
  · exact (static_le hs).2.trans hm.room
  · exact (hm.below i (hi.resolve_left hs) hs).2

end Mirrors

end Edelib.Ts
