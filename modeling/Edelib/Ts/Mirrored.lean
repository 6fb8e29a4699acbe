import Edelib.Ts.Endless

/-! # The memory without end over runs

In every run the memory of the interpreter and the one without end look the same from the registers, but for the addresses
of the cells.
-/
namespace Edelib.Ts
open Foundation Relation

variable {sc sc' st st' sc₀ : Scheme} {free free' free₀ : List ℕ} {i j x y p q a b n : ℕ} {ρ ρ' f g : ℕ → ℕ}
  {malloc : Scheme → Option ℕ} {op : Op} {ops : List Op} {c c' : Cell}

/-! ## What is handed out -/

/-- What is written to the cells that are handed out, on both sides. The others are not written. -/
structure Fills (ρ : ℕ → ℕ) (st sc : Scheme) (f : Cells → ℕ → Cells) (n x : ℕ) : Prop where
  others : ∀ y, y < st.freeCell → f st.cells st.freeCell y = st.cells y
  mirror : ∀ k ≤ n, Mirror ρ (f st.cells st.freeCell (st.freeCell + k)) (sc.cells (x + k))
  links : ∀ k ≤ n, ∀ y, Linked (f st.cells st.freeCell (st.freeCell + k)) y → Known st y
  vector : ∀ k ≤ n, (f st.cells st.freeCell (st.freeCell + k)).type = .vector →
    k = 0 ∧ (f st.cells st.freeCell st.freeCell).atom = true ∧ (f st.cells st.freeCell st.freeCell).elems = n
  holder : ∀ k ≤ n, x + k ∉ statics ∧ (sc.cells sink).car ≠ x + k

/-- The cells of the memory without end that are known or have just been handed out. -/
def Reaches (st : Scheme) (n i : ℕ) : Prop := Known st i ∨ (∃ k ≤ n, i = st.freeCell + k) ∨ i = st.freeCell + n + 1

def renamed (ρ : ℕ → ℕ) (next n x holder : ℕ) (i : ℕ) : ℕ :=
  if i = next + n + 1 then holder else if next ≤ i then x + (i - next) else ρ i

theorem renamed_of_lt {next holder : ℕ} (h : i < next) : renamed ρ next n x holder i = ρ i := by
  rw [renamed,if_neg (by omega),if_neg (by omega)]

theorem renamed_add {next holder k : ℕ} (h : k ≤ n) : renamed ρ next n x holder (next + k) = x + k := by
  rw [renamed,if_neg (by omega),if_pos (by omega)]
  omega

theorem renamed_holder {next holder : ℕ} : renamed ρ next n x holder (next + n + 1) = holder := if_pos rfl

namespace Endless
variable {F : Cells → ℕ → Cells}

theorem getCells_cells (hroom : sink < st.freeCell) (hst' : st' = (getCells st n F).2) :
    (st'.cells sink).car = st.freeCell + n + 1 ∧ ∀ y ≠ sink, st'.cells y = put (F st.cells st.freeCell) (st.freeCell + n + 1)
      { (F st.cells st.freeCell (st.freeCell + n + 1)).setFlag .pair true false with
        car := st.freeCell, cdr := (F st.cells st.freeCell sink).car } y := by
  rw [hst']
  exact ⟨hold_sink ..,fun y hy => hold_cell (by omega) hy⟩

/-- What can be reached afterwards. -/
theorem reaches_of_live (hm : Mirrors ρ st sc) (hfills : Fills ρ st sc' F n x) (hst' : st' = (getCells st n F).2)
    (hi : Live st'.cells st'.registers i) : Reaches st n i := by
  obtain ⟨hcar,hcells⟩ := getCells_cells hm.room hst'
  refine live_closed (P := Reaches st n) (fun a ha => ?_) (fun i y hi hy => ?_) hi
  · have hregs : st'.regs = st.regs := by rw [hst']; rfl
    rw [mem_registers,hregs,hcar] at ha
    exact ha.elim (fun ha => .inl (.inr (live_of_mem (mem_registers.mpr (.inl ha))))) (fun ha => .inr (.inr ha))
  · rcases hi with hi | ⟨k,hk,rfl⟩ | rfl
    · have hlt := hm.lt_freeCell hi
      rw [Edge,Within,hcells i (hm.ne_sink hi),put_of_ne (by omega),hfills.others i hlt] at hy
      exact .inl (hm.known_edge hi hy)
    · have hroom := hm.room
      rw [Edge,Within,hcells _ (by omega),put_of_ne (by omega)] at hy
      rcases hy with ⟨htype,hlt,hle⟩ | hlinked
      · obtain ⟨rfl,-,helems⟩ := hfills.vector k hk htype
        rw [Nat.add_zero,helems] at hle
        exact .inr (.inl ⟨y - st.freeCell,by omega,by omega⟩)
      · exact .inl (hfills.links k hk y hlinked)
    · have hroom := hm.room
      rw [Edge,Within,hcells _ (by omega),put_apply_self,hfills.others sink hroom] at hy
      rcases hy with hwithin | ⟨-,-,rfl | rfl⟩
      · exact SchemeType.noConfusion hwithin.1
      · exact .inr (.inl ⟨0,Nat.zero_le n,rfl⟩)
      · exact .inl (.inr (live_of_mem (sinkCar_mem st)))

end Endless

/-- The cells that were handed out are the same on both sides, and whatever could be reached still is. -/
theorem Mirrors.handed {F : Cells → ℕ → Cells} (hm : Mirrors ρ st sc) (h : Heap sc free)
    (hgot : Got sc sc' free' (sc.roots a b) x) (hfills : Fills ρ st sc' F n x)
    (hfresh : ∀ k ≤ n, ¬ Live sc.cells sc.registers (x + k)) (hst' : st' = (Endless.getCells st n F).2) :
    Mirrors (renamed ρ st.freeCell n x (sc'.cells sink).car) st' sc' := by
  have hroom := hm.room
  obtain ⟨hcar,hcells⟩ := Endless.getCells_cells hroom hst'
  obtain ⟨d,hheld⟩ := hgot.handed.held
  have hreaches : ∀ {i}, Live st'.cells st'.registers i → Reaches st n i := Endless.reaches_of_live hm hfills hst'
  have hfree : st'.freeCell = st.freeCell + n + 2 := by rw [hst']; rfl
  have hregs : st'.regs = st.regs := by rw [hst']; rfl
  have hregs' : sc'.regs = sc.regs := by rw [hgot.handed.only]; rfl
  have hold : ∀ {i}, Known st i → renamed ρ st.freeCell n x (sc'.cells sink).car i = ρ i :=
    fun hi => renamed_of_lt (hm.lt_freeCell hi)
  have hcell : ∀ {i}, Known st i → st'.cells i = st.cells i := by
    intro i hi
    have hlt := hm.lt_freeCell hi
    rw [hcells i (hm.ne_sink hi),put_of_ne (by omega),hfills.others i hlt]
  have hblock : ∀ {k}, k ≤ n → st'.cells (st.freeCell + k) = F st.cells st.freeCell (st.freeCell + k) := by
    intro k hk
    rw [hcells _ (by omega),put_of_ne (by omega)]
  have hlast : st'.cells (st.freeCell + n + 1) = { (F st.cells st.freeCell (st.freeCell + n + 1)).setFlag .pair true false with
      car := st.freeCell, cdr := (st.cells sink).car } := by
    rw [hcells _ (by omega),put_apply_self,hfills.others sink hroom]
  have hrecent : Known st (st.cells sink).car := .inr (live_of_mem (sinkCar_mem st))
  -- the cell that holds them is new too
  have hholder : (sc'.cells sink).car ∉ statics ∧ ¬ Live sc.cells sc.registers (sc'.cells sink).car := by
    refine ⟨fun hs => hgot.heap.bare _ hs x (.inr ?_),fun hy => hgot.handed.holder.1 (live_roots hy)⟩
    rw [hheld]
    exact ⟨rfl,hgot.heap.ne_zero hgot.proper.1,.inl rfl⟩
  have himage : ∀ {i}, Known st i → ρ i ∈ statics ∨ Live sc.cells sc.registers (ρ i) := by
    rintro i (hi | hi)
    · rw [hm.fixed i hi]
      exact .inl hi
    · exact .inr (hm.live_map hi)
  have hne : ∀ {i k}, Known st i → k ≤ n → ρ i ≠ x + k := by
    intro i k hi hk heq
    rcases himage hi with hs | hlive
    · exact (hfills.holder k hk).1 (heq ▸ hs)
    · exact hfresh k hk (heq ▸ hlive)
  have hne' : ∀ {i}, Known st i → ρ i ≠ (sc'.cells sink).car := by
    intro i hi heq
    rcases himage hi with hs | hlive
    · exact hholder.1 (heq ▸ hs)
    · exact hholder.2 (heq ▸ hlive)
  have hcase : ∀ {i}, Known st' i → Reaches st n i := fun hi => hi.elim (fun hs => .inl (.inl hs)) hreaches
  refine ⟨?_,?_,fun s hs => ?_,fun s hs y hy => ?_,?_,fun i j hi hj heq => ?_,fun i hi hs => ?_,fun i hi hs => ?_,
    fun v hv hs htype => ?_,fun v hv y hy => ?_⟩
  · rw [hregs',hm.regs,hregs]
    exact regs_map_congr (fun r hr => (hold (.inr (live_of_mem (mem_registers.mpr (.inl hr))))).symm)
  · rw [hcar,renamed_holder]
  · rw [hold (.inl hs),hm.fixed s hs]
  · rw [Edge,Within,hcell (.inl hs)] at hy
    exact hm.bare s hs y hy
  · omega
  · rcases hcase hi with hi | ⟨k,hk,rfl⟩ | rfl <;> rcases hcase hj with hj | ⟨l,hl,rfl⟩ | rfl
    · rw [hold hi,hold hj] at heq
      exact hm.inj i j hi hj heq
    · rw [hold hi,renamed_add hl] at heq
      exact absurd heq (hne hi hl)
    · rw [hold hi,renamed_holder] at heq
      exact absurd heq (hne' hi)
    · rw [hold hj,renamed_add hk] at heq
      exact absurd heq.symm (hne hj hk)
    · rw [renamed_add hk,renamed_add hl] at heq
      omega
    · rw [renamed_add hk,renamed_holder] at heq
      exact absurd heq.symm (hfills.holder k hk).2
    · rw [hold hj,renamed_holder] at heq
      exact absurd heq.symm (hne' hj)
    · rw [renamed_add hl,renamed_holder] at heq
      exact absurd heq (hfills.holder l hl).2
    · rfl
  · rw [hfree]
    rcases hreaches hi with hi | ⟨k,hk,rfl⟩ | rfl
    · have := hm.below i (hi.resolve_left hs) hs
      omega
    · omega
    · omega
  · rcases hreaches hi with hi | ⟨k,hk,rfl⟩ | rfl
    · have hi' := hi.resolve_left hs
      have hmirror := (hm.cell i hi' hs).of_same (hgot.handed.live _ (live_roots (hm.live_map hi')))
      rw [hcell hi,hold hi]
      refine hmirror.rename (fun hatom => hold (hm.known_edge hi (.inr ⟨hatom,?_,.inl rfl⟩)))
        (fun hatom => hold (hm.known_edge hi (.inr ⟨hatom,?_,.inr rfl⟩)))
      · exact (hmirror.links hatom).2.1.1
      · exact (hmirror.links hatom).2.1.2
    · have hmirror := hfills.mirror k hk
      rw [hblock hk,renamed_add hk]
      exact hmirror.rename (fun hatom => hold (hfills.links k hk _ ⟨hatom,(hmirror.links hatom).2.1.1,.inl rfl⟩))
        (fun hatom => hold (hfills.links k hk _ ⟨hatom,(hmirror.links hatom).2.1.2,.inr rfl⟩))
    · have hfirst : renamed ρ st.freeCell n x (sc'.cells sink).car st.freeCell = x := renamed_add (Nat.zero_le n)
      rw [hlast,renamed_holder,hheld]
      refine ⟨rfl,rfl,rfl,rfl,fun hatom => (Bool.false_ne_true hatom).elim,fun _ => ⟨⟨hfirst.symm,?_⟩,⟨?_,?_⟩,?_,?_⟩⟩
      · rw [hold hrecent]
        exact hm.recent
      · exact Nat.ne_of_gt (Nat.zero_lt_of_lt hroom)
      · exact Nat.ne_of_gt (hm.pos hrecent)
      · exact hgot.heap.ne_zero hgot.proper.1
      · rw [hm.recent]
        exact hm.image_ne_zero h hrecent
  · rcases hreaches hv with hv | ⟨k,hk,rfl⟩ | rfl
    · rw [hcell hv] at htype ⊢
      exact hm.atom v (hv.resolve_left hs) hs htype
    · rw [hblock hk] at htype ⊢
      obtain ⟨rfl,hatom,-⟩ := hfills.vector k hk htype
      exact hatom
    · rw [hlast] at htype
      exact SchemeType.noConfusion htype
  · rcases hreaches hv with hv | ⟨k,hk,rfl⟩ | rfl
    · have hy' : Within st.cells v y := by rwa [Within,hcell hv] at hy
      have hs : v ∉ statics := fun hs => hm.bare v hs y (.inl hy')
      rw [hold hv,hold (hm.known_edge hv (.inl hy'))]
      exact hm.inside v (hv.resolve_left hs) y hy'
    · rw [Within,hblock hk] at hy
      obtain ⟨htype,hlt,hle⟩ := hy
      obtain ⟨rfl,-,helems⟩ := hfills.vector k hk htype
      rw [Nat.add_zero,helems] at hle
      obtain ⟨l,rfl⟩ := Nat.exists_eq_add_of_lt hlt
      rw [renamed_add (Nat.zero_le n)]
      rw [show st.freeCell + 0 + l + 1 = st.freeCell + (l + 1) by omega,renamed_add (by omega)]
      omega
    · rw [Within,hlast] at hy
      exact SchemeType.noConfusion hy.1

/-- What a cell is given that is not a vector, on both sides. -/
theorem fills_put {f : Cell → Cell} (hgot : Got sc sc' free' (sc.roots a b) x)
    (hplain : ∀ c, (f c).type ≠ .vector) (hmirror : ∀ c, Mirror ρ (f c) (sc'.cells x))
    (hlinks : ∀ c y, Linked (f c) y → Known st y) : Fills ρ st sc' (fun cells x => put cells x (f (cells x))) 0 x := by
  refine ⟨fun y hy => put_of_ne (Nat.ne_of_lt hy),fun k hk => ?_,fun k hk y hy => ?_,fun k hk htype => ?_,fun k hk => ?_⟩
  all_goals obtain rfl := Nat.le_zero.mp hk
  · rw [Nat.add_zero,put_apply_self]
    exact hmirror _
  · rw [Nat.add_zero,put_apply_self] at hy
    exact hlinks _ y hy
  · rw [Nat.add_zero,put_apply_self] at htype
    exact absurd htype (hplain _)
  · exact ⟨hgot.nonstatic,hgot.handed.holder.2⟩

theorem Mirrors.fills_vector {len : ℕ} (hm : Mirrors ρ st sc) (hgot : Got sc sc' free' (sc.roots a b) x)
    (hvector : VectorAt sc'.cells x len NIL) :
    Fills ρ st sc' (fun cells x => recordVector cells x len NIL) (len / 2 + len % 2) x := by
  obtain ⟨d,hheld⟩ := hgot.handed.held
  have hnil : ρ NIL = NIL := hm.fixed NIL List.mem_cons_self
  have hvector' := vectorAt_recordVector st.cells st.freeCell len NIL
  have hcase : ∀ k ≤ len / 2 + len % 2, k = 0 ∨ 0 < k ∧
      (∃ c : Cell, recordVector st.cells st.freeCell len NIL (st.freeCell + k) =
        { c.setFlag .pair true false with car := NIL, cdr := NIL }) ∧
      ∃ c : Cell, sc'.cells (x + k) = { c.setFlag .pair true false with car := NIL, cdr := NIL } := by
    intro k hk
    by_cases hzero : k = 0
    · exact .inl hzero
    · exact .inr ⟨Nat.pos_of_ne_zero hzero,hvector'.inside _ (by omega) (by omega),hvector.inside _ (by omega) (by omega)⟩
  refine ⟨fun y hy => recordVector_of_outside (by rw [List.mem_range'_1]; omega),fun k hk => ?_,fun k hk y hy => ?_,
    fun k hk htype => ?_,fun k hk => ?_⟩
  · rcases hcase k hk with rfl | ⟨-,⟨c,hc⟩,c',hc'⟩
    · obtain ⟨c,hc⟩ := hvector'.first
      obtain ⟨c',hc'⟩ := hvector.first
      rw [Nat.add_zero,Nat.add_zero,hc,hc']
      exact ⟨rfl,rfl,rfl,rfl,fun _ => ⟨rfl,rfl⟩,fun hatom => (Bool.false_ne_true hatom.symm).elim⟩
    · rw [hc,hc']
      exact ⟨rfl,rfl,rfl,rfl,fun hatom => (Bool.false_ne_true hatom).elim,
        fun _ => ⟨⟨hnil.symm,hnil.symm⟩,⟨Nat.one_ne_zero,Nat.one_ne_zero⟩,Nat.one_ne_zero,Nat.one_ne_zero⟩⟩
  · rcases hcase k hk with rfl | ⟨-,⟨c,hc⟩,-⟩
    · rw [Nat.add_zero,Linked,hvector'.fields.2.1] at hy
      exact (Bool.false_ne_true hy.1.symm).elim
    · rw [Linked,hc,or_self] at hy
      rw [hy.2.2]
      exact .inl List.mem_cons_self
  · rcases hcase k hk with rfl | ⟨-,⟨c,hc⟩,-⟩
    · exact ⟨rfl,hvector'.fields.2.1,elems_of_ivalue hvector'.fields.2.2.1⟩
    · rw [hc] at htype
      exact SchemeType.noConfusion htype
  · rcases hcase k hk with rfl | ⟨hpos,-,c,hc⟩
    · exact ⟨hgot.nonstatic,hgot.handed.holder.2⟩
    · have hwithin : Within sc'.cells x (x + k) := hvector.within_iff.mpr ⟨by omega,by omega⟩
      refine ⟨(hgot.heap.inside x hgot.proper.1 _ hwithin).1,fun heq => ?_⟩
      -- what holds the vector is linked to it, and the cells inside are not
      have hcar : x = NIL := congrArg Cell.car (hheld.symm.trans (heq ▸ hc))
      exact hgot.nonstatic (hcar ▸ List.mem_cons_self)

/-! ## One operation -/

theorem Permitted.reached (h : Permitted sc op) : ∀ a ∈ op.pointers, Reached sc a := by
  cases op with
  | cons a b immutable => exact List.forall_mem_cons.mpr ⟨h.1,List.forall_mem_singleton.mpr h.2⟩
  | setCar p q => exact List.forall_mem_cons.mpr ⟨h.1.1,List.forall_mem_singleton.mpr h.2⟩
  | setCdr p q => exact List.forall_mem_cons.mpr ⟨h.1.1,List.forall_mem_singleton.mpr h.2⟩
  | setVectorElem vec ielem a => exact List.forall_mem_cons.mpr ⟨h.1,List.forall_mem_singleton.mpr h.2.2.2⟩
  | setType p type immutable => exact List.forall_mem_singleton.mpr h.1.1
  | load r => exact h
  | gc a b => exact List.forall_mem_cons.mpr ⟨h.1,List.forall_mem_singleton.mpr h.2⟩
  | mkAtom type ivalue svalue => exact fun a ha => absurd ha List.not_mem_nil
  | mkVector len => exact fun a ha => absurd ha List.not_mem_nil
  | okToFreelyGc => exact fun a ha => absurd ha List.not_mem_nil
  | allocCellseg n => exact fun a ha => absurd ha List.not_mem_nil

theorem Op.map_map (f g : ℕ → ℕ) (op : Op) : (op.map f).map g = op.map (fun x => g (f x)) := by
  cases op with
  | load r => exact congrArg Op.load (regs_map_map f g r)
  | _ => rfl

theorem Op.map_eq_self (h : ∀ a ∈ op.pointers, f a = a) : op.map f = op := by
  cases op with
  | load r => exact congrArg Op.load ((regs_map_congr (g := fun x => x) h).trans (regs_map_id r))
  | _ => simp_all [Op.map,Op.pointers]

theorem Op.mem_pointers_map (ha : a ∈ (op.map f).pointers) : ∃ i ∈ op.pointers, f i = a := by
  have hmap : (op.map f).pointers = op.pointers.map f := by
    cases op with
    | load r => exact values_map f r
    | _ => rfl
  rw [hmap] at ha
  exact List.mem_map.mp ha

namespace Mirror

theorem car (h : Mirror ρ c c') (hq : q ≠ 0) (hq' : ρ q ≠ 0) : Mirror ρ { c with car := q } { c' with car := ρ q } :=
  ⟨h.type,h.isSyntax,h.immutable,h.atom,h.content,fun hatom => by
    obtain ⟨⟨-,hcdr⟩,⟨-,hne⟩,-,hne'⟩ := h.links hatom
    exact ⟨⟨rfl,hcdr⟩,⟨hq,hne⟩,hq',hne'⟩⟩

theorem cdr (h : Mirror ρ c c') (hq : q ≠ 0) (hq' : ρ q ≠ 0) : Mirror ρ { c with cdr := q } { c' with cdr := ρ q } :=
  ⟨h.type,h.isSyntax,h.immutable,h.atom,h.content,fun hatom => by
    obtain ⟨⟨hcar,-⟩,⟨hne,-⟩,hne',-⟩ := h.links hatom
    exact ⟨⟨hcar,rfl⟩,⟨hne,hq⟩,hne',hq'⟩⟩

end Mirror

namespace Mirrors

/-- What was got has a new name, and the others keep theirs. -/
theorem allocated {F : Cells → ℕ → Cells} (hm : Mirrors ρ st sc) (h : Heap sc free)
    (hgot : Got sc sc' free' (sc.roots a b) x) (hfills : Fills ρ st sc' F n x)
    (hfresh : ∀ k ≤ n, ¬ Live sc.cells sc.registers (x + k)) :
    ∃ ρ' : ℕ → ℕ, (∀ i, Known st i → ρ' i = ρ i) ∧ ρ' (Endless.getCells st n F).1 = x ∧
      Mirrors ρ' (Endless.getCells st n F).2 sc' :=
  ⟨_,fun _ hi => renamed_of_lt (hm.lt_freeCell hi),renamed_add (Nat.zero_le n),hm.handed h hgot hfills hfresh rfl⟩

/-- Only the cell that was got is new. -/
theorem allocated_put {f : Cell → Cell} (hm : Mirrors ρ st sc) (h : Heap sc free) (hgot : Got sc sc' free' (sc.roots a b) x)
    (hplain : ∀ c, (f c).type ≠ .vector) (hmirror : ∀ c, Mirror ρ (f c) (sc'.cells x))
    (hlinks : ∀ c y, Linked (f c) y → Known st y) : ∃ ρ' : ℕ → ℕ, (∀ i, Known st i → ρ' i = ρ i) ∧
      ρ' (Endless.getCells st 0 (fun cells x => put cells x (f (cells x)))).1 = x ∧
        Mirrors ρ' (Endless.getCells st 0 (fun cells x => put cells x (f (cells x)))).2 sc' := by
  refine hm.allocated h hgot (fills_put hgot hplain hmirror hlinks) (fun k hk hlive => ?_)
  rw [Nat.le_zero.mp hk,Nat.add_zero] at hlive
  exact hgot.handed.fresh (live_roots hlive)

/-- The cell of an element of a vector. -/
theorem elem {vec ielem : ℕ} (hm : Mirrors ρ st sc) (h : Heap sc free) (hvec : Known st vec)
    (htype : (sc.cells (ρ vec)).type = .vector) (hlt : (ielem : ℤ) < (sc.cells (ρ vec)).ivalue) :
    Live st.cells st.registers (vec + 1 + ielem / 2) ∧ vec + 1 + ielem / 2 ∉ statics ∧
      (st.cells (vec + 1 + ielem / 2)).type ≠ .vector ∧ ρ (vec + 1 + ielem / 2) = ρ vec + 1 + ielem / 2 := by
  have hused : Used sc free (ρ vec) := by
    rcases hvec with hs | hlive
    · rw [hm.fixed vec hs]
      exact .inl hs
    · exact h.used_of_live (fun a ha => (h.proper a ha).1) (hm.live_map hlive)
  obtain ⟨len,hlen⟩ : ∃ len : ℕ, (sc.cells (ρ vec)).ivalue = len := ⟨(sc.cells (ρ vec)).ivalue.toNat,by omega⟩
  have helems := elems_of_ivalue hlen
  have hwithin : Within sc.cells (ρ vec) (ρ vec + 1 + ielem / 2) := ⟨htype,by omega,by omega⟩
  have hs : vec ∉ statics := fun hs => h.bare vec hs (ρ vec + 1 + ielem / 2) (.inl (by rwa [hm.fixed vec hs] at hwithin ⊢))
  have hlive := hvec.resolve_left hs
  have hcell := hm.cell vec hlive hs
  have hwithin' : Within st.cells vec (vec + 1 + ielem / 2) := by
    have htype' := hcell.type.symm.trans htype
    have hivalue := (hcell.content (hm.atom vec hlive hs htype')).1
    rw [Cell.elems,hivalue,← Cell.elems] at helems
    exact ⟨htype',by omega,by omega⟩
  have himage : ρ (vec + 1 + ielem / 2) = ρ vec + 1 + ielem / 2 := by
    have := hm.inside vec hlive _ hwithin'
    omega
  obtain ⟨hstatic,hplain,-⟩ := h.inside (ρ vec) hused _ hwithin
  have hs' := hm.image_static (himage ▸ hstatic)
  have hlive' := live_edge hlive (.inl hwithin')
  refine ⟨hlive',hs',?_,himage⟩
  rw [← (hm.cell _ hlive' hs').type,himage]
  exact hplain

theorem writable (hm : Mirrors ρ st sc) (hp : Known st p) (hwritable : Writable sc (ρ p)) :
    Live st.cells st.registers p ∧ p ∉ statics ∧ (st.cells p).atom = false ∧ (st.cells p).type ≠ .vector := by
  have hs := hm.image_static hwritable.2.1
  have hlive := hp.resolve_left hs
  have hatom := (hm.cell p hlive hs).atom.symm.trans hwritable.2.2
  refine ⟨hlive,hs,hatom,fun htype => ?_⟩
  rw [hm.atom p hlive hs htype] at hatom
  cases hatom

/-- The same operation is the same on both sides. -/
theorem step (hmalloc : Sound malloc) (hm : Mirrors ρ st sc) (h : Heap sc free) (hknown : ∀ a ∈ op.pointers, Known st a)
    (hpermitted : Permitted sc (op.map ρ)) (hstep : (op.map ρ).step malloc sc = some (x,sc')) (hno : sc'.noMemory = false) :
    ∃ ρ' : ℕ → ℕ, (∀ i, Known st i → ρ' i = ρ i) ∧ (op.allocates = true → ρ' (Endless.step st op).1 = x) ∧
      Mirrors ρ' (Endless.step st op).2 sc' := by
  have hproper : ∀ {y}, Reached sc y → Proper sc free y := h.proper_of_reached
  have hpos : ∀ {i}, Known st i → i ≠ 0 := fun hi => Nat.ne_of_gt (hm.pos hi)
  -- nothing is handed out
  have hquiet : ∀ {st' : Scheme}, op.allocates = false → Mirrors ρ st' sc' → ∃ ρ' : ℕ → ℕ, (∀ i, Known st i → ρ' i = ρ i) ∧
      (op.allocates = true → ρ' (Endless.step st op).1 = x) ∧ Mirrors ρ' st' sc' :=
    fun hop hm' => ⟨ρ,fun _ _ => rfl,fun hop' => absurd (hop.symm.trans hop') Bool.false_ne_true,hm'⟩
  have hnamed : ∀ {y : ℕ} {st' : Scheme}, (∃ ρ' : ℕ → ℕ, (∀ i, Known st i → ρ' i = ρ i) ∧ ρ' y = x ∧ Mirrors ρ' st' sc') →
      ∃ ρ' : ℕ → ℕ, (∀ i, Known st i → ρ' i = ρ i) ∧ (op.allocates = true → ρ' y = x) ∧ Mirrors ρ' st' sc' :=
    Exists.imp (fun _ h => ⟨h.1,fun _ => h.2.1,h.2.2⟩)
  cases op with
  | cons a b immutable =>
    have ha : Known st a := hknown a List.mem_cons_self
    have hb : Known st b := hknown b (List.mem_cons_of_mem a List.mem_cons_self)
    rcases h.cons hmalloc (hproper hpermitted.1) (hproper hpermitted.2) immutable with
      ⟨y,sc₁,hrun,hfull⟩ | ⟨y,sc₁,free',hrun,hgot,-,c,hcell⟩
    · obtain ⟨rfl,rfl⟩ := Prod.mk.inj (Option.some.inj (hrun.symm.trans hstep))
      exact absurd (hno.symm.trans hfull) Bool.false_ne_true
    · obtain ⟨rfl,rfl⟩ := Prod.mk.inj (Option.some.inj (hrun.symm.trans hstep))
      refine hnamed (hm.allocated_put (f := fun c => { c.setFlag .pair immutable false with car := a, cdr := b }) h hgot
        (fun _ => SchemeType.noConfusion) (fun d => ?_) (fun d y hy => ?_))
      · rw [hcell]
        exact ⟨rfl,rfl,rfl,rfl,fun hatom => (Bool.false_ne_true hatom).elim,
          fun _ => ⟨⟨rfl,rfl⟩,⟨hpos ha,hpos hb⟩,hm.image_ne_zero h ha,hm.image_ne_zero h hb⟩⟩
      · rcases hy.2.2 with rfl | rfl
        · exact ha
        · exact hb
  | mkAtom type ivalue svalue =>
    rcases h.mkAtom hmalloc hpermitted ivalue svalue with ⟨y,sc₁,hrun,hfull⟩ | ⟨y,sc₁,free',hrun,hgot,-,c,hcell⟩
    · obtain ⟨rfl,rfl⟩ := Prod.mk.inj (Option.some.inj (hrun.symm.trans hstep))
      exact absurd (hno.symm.trans hfull) Bool.false_ne_true
    · obtain ⟨rfl,rfl⟩ := Prod.mk.inj (Option.some.inj (hrun.symm.trans hstep))
      refine hnamed (hm.allocated_put (f := fun c => { c.setFlag type false true with ivalue := ivalue, svalue := svalue }) h
        hgot (fun _ => hpermitted) (fun d => ?_) (fun d y hy => ?_))
      · rw [hcell]
        exact ⟨rfl,rfl,rfl,rfl,fun _ => ⟨rfl,rfl⟩,fun hatom => (Bool.false_ne_true hatom.symm).elim⟩
      · exact (Bool.false_ne_true hy.1.symm).elim
  | mkVector len =>
    rcases h.mkVector hmalloc len with ⟨y,sc₁,hrun,hfull⟩ | ⟨y,sc₁,free',hrun,hgot,-,hvector,hinside⟩
    · obtain ⟨rfl,rfl⟩ := Prod.mk.inj (Option.some.inj (hrun.symm.trans hstep))
      exact absurd (hno.symm.trans hfull) Bool.false_ne_true
    · obtain ⟨rfl,rfl⟩ := Prod.mk.inj (Option.some.inj (hrun.symm.trans hstep))
      refine hnamed (hm.allocated h hgot (hm.fills_vector hgot hvector) (fun k hk hlive => ?_))
      rcases Nat.eq_zero_or_pos k with rfl | hk'
      · exact hgot.handed.fresh (live_roots hlive)
      · exact hinside _ (by omega) (by omega) (live_roots hlive)
  | setCar p q =>
    have hp : Known st p := hknown p List.mem_cons_self
    have hq : Known st q := hknown q (List.mem_cons_of_mem p List.mem_cons_self)
    obtain ⟨-,rfl⟩ := Prod.mk.inj (Option.some.inj hstep)
    obtain ⟨hlive,hs,-,hplain⟩ := hm.writable hp hpermitted.1
    refine hquiet rfl (hm.relinked h hlive hs rfl rfl ((hm.cell p hlive hs).car (hpos hq) (hm.image_ne_zero h hq)) hplain
      (fun y hy => ?_))
    rcases linked_car hy with rfl | hold
    · exact hq
    · exact hm.known_edge hp (.inr hold)
  | setCdr p q =>
    have hp : Known st p := hknown p List.mem_cons_self
    have hq : Known st q := hknown q (List.mem_cons_of_mem p List.mem_cons_self)
    obtain ⟨-,rfl⟩ := Prod.mk.inj (Option.some.inj hstep)
    obtain ⟨hlive,hs,-,hplain⟩ := hm.writable hp hpermitted.1
    refine hquiet rfl (hm.relinked h hlive hs rfl rfl ((hm.cell p hlive hs).cdr (hpos hq) (hm.image_ne_zero h hq)) hplain
      (fun y hy => ?_))
    rcases linked_cdr hy with rfl | hold
    · exact hq
    · exact hm.known_edge hp (.inr hold)
  | setVectorElem vec ielem a =>
    have hvec : Known st vec := hknown vec List.mem_cons_self
    have ha : Known st a := hknown a (List.mem_cons_of_mem vec List.mem_cons_self)
    obtain ⟨-,rfl⟩ := Prod.mk.inj (Option.some.inj hstep)
    obtain ⟨hlive,hs,hplain,himage⟩ := hm.elem h hvec hpermitted.2.1 hpermitted.2.2.1
    have hcell := hm.cell _ hlive hs
    refine hquiet rfl ?_
    rw [Endless.step,Scheme.setVectorElem,Scheme.setVectorElem,← himage]
    split_ifs
    · refine hm.relinked h hlive hs rfl rfl (hcell.car (hpos ha) (hm.image_ne_zero h ha)) hplain (fun y hy => ?_)
      rcases linked_car hy with rfl | hold
      · exact ha
      · exact hm.known_edge (.inr hlive) (.inr hold)
    · refine hm.relinked h hlive hs rfl rfl (hcell.cdr (hpos ha) (hm.image_ne_zero h ha)) hplain (fun y hy => ?_)
      rcases linked_cdr hy with rfl | hold
      · exact ha
      · exact hm.known_edge (.inr hlive) (.inr hold)
  | setType p type immutable =>
    have hp : Known st p := hknown p List.mem_cons_self
    obtain ⟨-,rfl⟩ := Prod.mk.inj (Option.some.inj hstep)
    obtain ⟨hlive,hs,hatom,-⟩ := hm.writable hp hpermitted.1
    have hcell := hm.cell p hlive hs
    refine hquiet rfl (hm.relinked h hlive hs rfl rfl ⟨rfl,hcell.isSyntax,rfl,hcell.atom,fun hatom' => ?_,hcell.links⟩
      hpermitted.2.2.1 (fun y hy => hm.known_edge hp (.inr hy)))
    exact absurd (hatom.symm.trans hatom') Bool.false_ne_true
  | load r =>
    obtain ⟨-,rfl⟩ := Prod.mk.inj (Option.some.inj hstep)
    refine hquiet rfl (hm.repointed h (fun _ _ => rfl) (fun _ _ => rfl) rfl rfl hm.recent (fun a ha => ?_))
    rcases mem_registers.mp ha with ha | rfl
    · exact hknown a ha
    · exact .inr (live_of_mem (sinkCar_mem st))
  | okToFreelyGc =>
    obtain ⟨-,rfl⟩ := Prod.mk.inj (Option.some.inj hstep)
    have hnil : NIL ∈ statics := List.mem_cons_self
    have hcar : ∀ sc : Scheme, (sc.okToFreelyGc.cells sink).car = NIL := by
      intro sc
      rw [Scheme.okToFreelyGc,Scheme.setCar]
      dsimp only
      rw [put_apply_self]
    refine hquiet rfl (hm.repointed h (fun _ hy => put_of_ne hy) (fun _ hy => put_of_ne hy) rfl hm.regs ?_ (fun a ha => ?_))
    · exact (hcar sc).trans ((hm.fixed NIL hnil).symm.trans (congrArg ρ (hcar st).symm))
    · rcases mem_registers.mp ha with ha | rfl
      · exact .inr (live_of_mem (mem_registers.mpr (.inl ha)))
      · exact .inl ((hcar st).symm ▸ hnil)
  | gc a b =>
    obtain ⟨sc₁,free',hrun,hcollected,h'⟩ := h.gc (hproper hpermitted.1) (hproper hpermitted.2)
    have hstep' : (Op.gc (ρ a) (ρ b)).step malloc sc = some (NIL,sc₁) := by rw [Op.step,hrun]; rfl
    obtain ⟨-,rfl⟩ := Prod.mk.inj (Option.some.inj (hstep'.symm.trans hstep))
    have hkept := hcollected.kept h'.toFreeList
    refine hquiet rfl (hm.kept ?_ (by rw [hkept.sink]) (fun y hy => hkept.live y (live_roots hy)))
    rw [hkept.only]
    rfl
  | allocCellseg n =>
    obtain ⟨k,sc₁,free',hrun,h',hgrown,-⟩ := h.toFreeList.allocCellseg hmalloc n
    have hstep' : (Op.allocCellseg n).step malloc sc = some (NIL,sc₁) := by rw [Op.step,hrun]; rfl
    obtain ⟨-,rfl⟩ := Prod.mk.inj (Option.some.inj (hstep'.symm.trans hstep))
    obtain ⟨-,hkept,-⟩ := h.grown h' hgrown h.proper
    refine hquiet rfl (hm.kept ?_ (by rw [hkept.sink]) hkept.live)
    rw [hkept.only]
    rfl

end Mirrors

/-! ## Runs -/

def endless (sc : Scheme) : Scheme := { sc with freeCell := sink + 1 }

/-- The states that both memories come to with the same operations. Each is told by the names of its cells, and a name that
was given is kept. -/
inductive Alike (malloc : Scheme → Option ℕ) (sc₀ : Scheme) : List Op → Scheme → List Op → Scheme → (ℕ → ℕ) → Prop where
  | nil : Alike malloc sc₀ [] (endless sc₀) [] sc₀ (fun x => x)
  | snoc {ops ops' : List Op} {op : Op} {st sc sc' : Scheme} {x : ℕ} {ρ ρ' : ℕ → ℕ} : Alike malloc sc₀ ops st ops' sc ρ →
      (∀ a ∈ op.pointers, Known st a) → (op.map ρ).step malloc sc = some (x,sc') → (∀ i, Known st i → ρ' i = ρ i) →
        (op.allocates = true → ρ' (Endless.step st op).1 = x) → Mirrors ρ' (Endless.step st op).2 sc' →
          Alike malloc sc₀ (ops ++ [op]) (Endless.step st op).2 (ops' ++ [op.map ρ]) sc' ρ'

theorem mirrors_endless (h : Heap sc free) (hstart : ∀ a ∈ sc.registers, a ∈ statics) :
    Mirrors (fun x => x) (endless sc) sc := by
  have hlive : ∀ {i}, Live sc.cells sc.registers i → i ∈ statics :=
    fun hi => live_closed (P := fun i => i ∈ statics) hstart (fun x y hx hxy => absurd hxy (h.bare x hx y)) hi
  exact ⟨(regs_map_id _).symm,rfl,fun _ _ => rfl,h.bare,Nat.lt_succ_self sink,fun _ _ _ _ heq => heq,
    fun i hi hs => absurd (hlive hi) hs,fun i hi hs => absurd (hlive hi) hs,fun v hv hs => absurd (hlive hv) hs,
    fun v hv y hy => absurd (.inl hy) (h.bare v (hlive hv) y)⟩

/-- From the start, when only static cells are pointed to, every run is the same as a run of a memory without end in which
nothing is collected and no cell is handed out twice. What can be reached in both is the same, but for the addresses. -/
theorem Run.mirrored (hmalloc : Sound malloc) (h₀ : Heap sc₀ free₀) (hstart : ∀ a ∈ sc₀.registers, a ∈ statics)
    (hrun : Run malloc sc₀ ops sc) (hmemory : sc.noMemory = false) :
    ∃ ops' st ρ, Alike malloc sc₀ ops' st ops sc ρ ∧ Mirrors ρ st sc := by
  induction hrun with
  | nil => exact ⟨[],_,_,.nil,mirrors_endless h₀ hstart⟩
  | @snoc ops op sc sc' x hrun hno hpermitted hstep ih =>
    obtain ⟨ops',st,ρ,halike,hm⟩ := ih hno
    obtain ⟨⟨free,h⟩,-⟩ := hrun.heap hmalloc h₀ hno
    -- the operation by the names of the other side
    have hname : ∀ y, ∃ i, Reached sc y → Known st i ∧ ρ i = y := by
      intro y
      by_cases hy : Reached sc y
      · obtain ⟨i,hi⟩ := hm.known_of_reached h hy
        exact ⟨i,fun _ => hi⟩
      · exact ⟨y,fun hy' => absurd hy' hy⟩
    choose σ hσ using hname
    have hsame : (op.map σ).map ρ = op := by
      rw [Op.map_map]
      exact Op.map_eq_self (fun a ha => (hσ a (hpermitted.reached a ha)).2)
    have hknown : ∀ a ∈ (op.map σ).pointers, Known st a := by
      intro a ha
      obtain ⟨i,hi,rfl⟩ := Op.mem_pointers_map ha
      exact (hσ i (hpermitted.reached i hi)).1
    obtain ⟨ρ',hkeeps,hx,hm'⟩ := hm.step hmalloc h hknown (by rwa [hsame]) (by rwa [hsame]) hmemory
    have halike' := halike.snoc hknown (by rwa [hsame]) hkeeps hx hm'
    rw [hsame] at halike'
    exact ⟨_,_,ρ',halike',hm'⟩

theorem Run.mirrored_sample : ∃ sc ops' st ρ, Run mallocAbove sample [.cons NIL T false,.gc NIL NIL] sc ∧
    Alike mallocAbove sample ops' st [.cons NIL T false,.gc NIL NIL] sc ρ ∧ Mirrors ρ st sc := by
  obtain ⟨sc,hrun,hmemory⟩ := sample_cons
  obtain ⟨ops',st,ρ,h⟩ := Run.mirrored mallocAbove_sound sample_heap (fun a ha => by
    have hnil : a = NIL := by
      simpa [Scheme.registers,sample] using ha
    exact hnil ▸ List.mem_cons_self) hrun hmemory
  exact ⟨sc,ops',st,ρ,hrun,h⟩

end Edelib.Ts
