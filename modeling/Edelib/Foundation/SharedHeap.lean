import Mathlib.Algebra.Order.Ring.Int
import Mathlib.Data.List.Perm.Basic

/-! # Heaps of counted blocks

A block holds handles to other blocks and counts those to itself, in 32 bits. A variable
is a block that nothing refers to. In the middle of an operation some handles are in hand:
they are counted, and no block holds them.
-/
namespace Edelib.Foundation

structure Block (α : Type*) where
  payload : α
  pinned : Bool
  held : List ℕ
  refs : BitVec 32

/-- A block keeps its number when others are freed, and the number of a freed one is not
used again. -/
structure Heap (α : Type*) where
  blocks : List (Option (Block α))
  freed : List ℕ

namespace Heap
variable {α : Type*}

def empty : Heap α where
  blocks := []
  freed := []

def get (h : Heap α) (a : ℕ) : Option (Block α) := h.blocks[a]?.join

def put (h : Heap α) (a : ℕ) (blk : Block α) : Heap α := { h with blocks := h.blocks.set a (some blk) }

def free (h : Heap α) (a : ℕ) : Heap α where
  blocks := h.blocks.set a none
  freed := a :: h.freed

def alloc (h : Heap α) (blk : Block α) : Heap α := { h with blocks := h.blocks ++ [some blk] }

def read (h : Heap α) (loc : ℕ × ℕ) : Option ℕ := (h.get loc.1).bind (fun blk => blk.held[loc.2]?)

def heldBy : Option (Block α) → List ℕ
  | none => []
  | some blk => blk.held

def weigh (w : List ℕ → ℕ) (blocks : List (Option (Block α))) : ℕ := (blocks.map (fun o => w (heldBy o))).sum

def handles (h : Heap α) (a : ℕ) : ℕ := weigh (List.count a) h.blocks

def size (h : Heap α) : ℕ := weigh List.length h.blocks

/-! ## Blocks after an operation -/

theorem get_lt {h : Heap α} {a : ℕ} {blk : Block α} (hget : h.get a = some blk) : a < h.blocks.length := by
  by_contra hge
  rw [get,List.getElem?_eq_none (Nat.le_of_not_lt hge)] at hget
  cases hget

theorem getElem_of_get {h : Heap α} {a : ℕ} {blk : Block α} (hget : h.get a = some blk)
    (ha : a < h.blocks.length) : h.blocks[a] = some blk := by
  rwa [get,List.getElem?_eq_getElem ha] at hget

theorem get_put_self {h : Heap α} {a : ℕ} (ha : a < h.blocks.length) (blk : Block α) :
    (h.put a blk).get a = some blk := by
  rw [get,put,List.getElem?_set_self ha]
  rfl

theorem get_put_ne (h : Heap α) {a b : ℕ} (hne : b ≠ a) (blk : Block α) : (h.put a blk).get b = h.get b := by
  rw [get,put,List.getElem?_set_ne hne.symm]
  rfl

theorem get_free_self (h : Heap α) (a : ℕ) : (h.free a).get a = none := by
  rw [get,free]
  by_cases ha : a < h.blocks.length
  · rw [List.getElem?_set_self ha]
    rfl
  · rw [List.getElem?_eq_none (by simpa using ha)]
    rfl

theorem get_free_ne (h : Heap α) {a b : ℕ} (hne : b ≠ a) : (h.free a).get b = h.get b := by
  rw [get,free,List.getElem?_set_ne hne.symm]
  rfl

theorem get_alloc_self (h : Heap α) (blk : Block α) : (h.alloc blk).get h.blocks.length = some blk := by
  rw [get,alloc,List.getElem?_append_right (Nat.le_refl _),Nat.sub_self]
  rfl

theorem get_alloc_lt (h : Heap α) (blk : Block α) {a : ℕ} (ha : a < h.blocks.length) :
    (h.alloc blk).get a = h.get a := by
  rw [get,alloc,List.getElem?_append_left ha]
  rfl

theorem get_of_alloc {h : Heap α} {blk blk' : Block α} {a : ℕ} (hget : (h.alloc blk).get a = some blk') :
    a = h.blocks.length ∧ blk' = blk ∨ h.get a = some blk' := by
  have hlt := get_lt hget
  rw [alloc,List.length_append,List.length_singleton] at hlt
  rcases Nat.lt_succ_iff_lt_or_eq.mp hlt with ha | rfl
  · exact Or.inr (get_alloc_lt h blk ha ▸ hget)
  · exact Or.inl ⟨rfl,Option.some.inj (hget.symm.trans (get_alloc_self h blk))⟩

@[simp] theorem length_put (h : Heap α) (a : ℕ) (blk : Block α) : (h.put a blk).blocks.length = h.blocks.length :=
  List.length_set

@[simp] theorem length_free (h : Heap α) (a : ℕ) : (h.free a).blocks.length = h.blocks.length :=
  List.length_set

@[simp] theorem length_alloc (h : Heap α) (blk : Block α) : (h.alloc blk).blocks.length = h.blocks.length + 1 := by
  rw [alloc,List.length_append,List.length_singleton]

/-! ## Handles after an operation -/

theorem weigh_set (w : List ℕ → ℕ) {blocks : List (Option (Block α))} {a : ℕ} (ha : a < blocks.length)
    (o : Option (Block α)) : weigh w (blocks.set a o) + w (heldBy blocks[a]) = weigh w blocks + w (heldBy o) := by
  induction blocks generalizing a with
  | nil => cases ha
  | cons first blocks ih =>
    cases a with
    | zero =>
      simp only [weigh,List.set_cons_zero,List.map_cons,List.sum_cons,List.getElem_cons_zero]
      omega
    | succ a =>
      have hrest := ih (Nat.lt_of_succ_lt_succ ha)
      simp only [weigh,List.set_cons_succ,List.map_cons,List.sum_cons,List.getElem_cons_succ] at hrest ⊢
      omega

theorem weigh_put (w : List ℕ → ℕ) {h : Heap α} {a : ℕ} {blk : Block α} (hget : h.get a = some blk)
    (blk' : Block α) : weigh w (h.put a blk').blocks + w blk.held = weigh w h.blocks + w blk'.held := by
  have ha := get_lt hget
  have hset := weigh_set w ha (some blk')
  rwa [getElem_of_get hget ha] at hset

theorem weigh_free (w : List ℕ → ℕ) (hw : w [] = 0) {h : Heap α} {a : ℕ} {blk : Block α}
    (hget : h.get a = some blk) : weigh w (h.free a).blocks + w blk.held = weigh w h.blocks := by
  have ha := get_lt hget
  have hset := weigh_set w ha none
  rwa [getElem_of_get hget ha,show heldBy (none : Option (Block α)) = [] from rfl,hw] at hset

theorem handles_put {h : Heap α} {a : ℕ} {blk : Block α} (hget : h.get a = some blk) (blk' : Block α) (b : ℕ) :
    (h.put a blk').handles b + blk.held.count b = h.handles b + blk'.held.count b :=
  weigh_put (List.count b) hget blk'

theorem handles_free {h : Heap α} {a : ℕ} {blk : Block α} (hget : h.get a = some blk) (b : ℕ) :
    (h.free a).handles b + blk.held.count b = h.handles b :=
  weigh_free (List.count b) List.count_nil hget

theorem handles_alloc (h : Heap α) (blk : Block α) (b : ℕ) :
    (h.alloc blk).handles b = h.handles b + blk.held.count b := by
  simp [handles,weigh,alloc,heldBy]

theorem count_le_handles {h : Heap α} {a : ℕ} {blk : Block α} (hget : h.get a = some blk) (b : ℕ) :
    blk.held.count b ≤ h.handles b := by
  have hfree := handles_free hget b
  omega

theorem weigh_mono {w w' : List ℕ → ℕ} (hw : ∀ held, w held ≤ w' held) (blocks : List (Option (Block α))) :
    weigh w blocks ≤ weigh w' blocks := by
  induction blocks with
  | nil => exact Nat.le_refl 0
  | cons o blocks ih =>
    have ho := hw (heldBy o)
    simp only [weigh,List.map_cons,List.sum_cons] at ih ⊢
    omega

theorem handles_le_size (h : Heap α) (a : ℕ) : h.handles a ≤ h.size :=
  weigh_mono (fun _ => List.count_le_length) h.blocks

/-- Two blocks that both hold a handle hold two. -/
theorem count_add_le_handles {h : Heap α} {a a' : ℕ} {blk blk' : Block α} (hne : a' ≠ a)
    (hget : h.get a = some blk) (hget' : h.get a' = some blk') (b : ℕ) :
    blk.held.count b + blk'.held.count b ≤ h.handles b := by
  have hfree := handles_free hget b
  have hle := count_le_handles ((get_free_ne h hne).trans hget') b
  omega

theorem read_eq_some {h : Heap α} {loc : ℕ × ℕ} {b : ℕ} :
    h.read loc = some b ↔ ∃ blk, h.get loc.1 = some blk ∧ blk.held[loc.2]? = some b :=
  Option.bind_eq_some_iff

theorem handles_pos_of_read {h : Heap α} {loc : ℕ × ℕ} {b : ℕ} (hread : h.read loc = some b) : 0 < h.handles b := by
  obtain ⟨blk,hget,hheld⟩ := read_eq_some.mp hread
  have hpos := List.count_pos_iff.mpr (List.mem_of_getElem? hheld)
  exact Nat.lt_of_lt_of_le hpos (count_le_handles hget b)

/-! ## Exact counts -/

/-- Every count is the number of handles to the block, those in hand included; a block that
is no variable is there as long as there are such, and every block is freed once. -/
structure Counted (h : Heap α) (inHand : List ℕ) : Prop where
  refs : ∀ a blk, h.get a = some blk → blk.refs = BitVec.ofNat 32 (h.handles a + inHand.count a)
  live : ∀ a, 0 < h.handles a + inHand.count a → ∃ blk, h.get a = some blk ∧ blk.pinned = false
  used : ∀ a blk, h.get a = some blk → blk.pinned = false → 0 < h.handles a + inHand.count a
  freed_nodup : h.freed.Nodup
  mem_freed : ∀ a, a ∈ h.freed ↔ a < h.blocks.length ∧ h.get a = none

/-- The blocks that are still there are what they were, but for those in `X`. -/
structure Later (X : Set ℕ) (h h' : Heap α) : Prop where
  length_le : h.blocks.length ≤ h'.blocks.length
  kept : ∀ a blk', a < h.blocks.length → h'.get a = some blk' → ∃ blk, h.get a = some blk ∧
    blk'.pinned = blk.pinned ∧ (a ∉ X → blk'.payload = blk.payload ∧ blk'.held = blk.held)
  pinned : ∀ a blk, h.get a = some blk → blk.pinned = true → a ∉ X → ∃ blk', h'.get a = some blk'

/-- No block was freed either. -/
structure Grows (X : Set ℕ) (h h' : Heap α) : Prop extends Later X h h' where
  alive : ∀ a blk, h.get a = some blk → ∃ blk', h'.get a = some blk'

theorem counted_empty : Counted (empty : Heap α) [] where
  refs := nofun
  live := nofun
  used := nofun
  freed_nodup := List.nodup_nil
  mem_freed := fun a => ⟨nofun,fun hfreed => absurd hfreed.1 (Nat.not_lt_zero a)⟩

/-- A later heap of a later one; what changes among the blocks that were there is in `X`. -/
theorem Later.trans {X Y : Set ℕ} {h h' h'' : Heap α} (h₁ : Later X h h') (h₂ : Later Y h' h'')
    (hYX : ∀ a ∈ Y, a < h.blocks.length → a ∈ X) : Later X h h'' where
  length_le := h₁.length_le.trans h₂.length_le
  kept := by
    intro a blk'' ha hget
    obtain ⟨blk',hget',hp',hsame'⟩ := h₂.kept a blk'' (ha.trans_le h₁.length_le) hget
    obtain ⟨blk,hget,hp,hsame⟩ := h₁.kept a blk' ha hget'
    refine ⟨blk,hget,hp'.trans hp,fun hX => ?_⟩
    have hY : a ∉ Y := fun hmem => hX (hYX a hmem ha)
    exact ⟨(hsame' hY).1.trans (hsame hX).1,(hsame' hY).2.trans (hsame hX).2⟩
  pinned := by
    intro a blk hget hpin hX
    obtain ⟨blk',hget'⟩ := h₁.pinned a blk hget hpin hX
    obtain ⟨blk₀,hget₀,hp,-⟩ := h₁.kept a blk' (get_lt hget) hget'
    obtain rfl := Option.some.inj (hget.symm.trans hget₀)
    exact h₂.pinned a blk' hget' (hp.trans hpin) (fun hmem => hX (hYX a hmem (get_lt hget)))

theorem Grows.trans {X Y : Set ℕ} {h h' h'' : Heap α} (h₁ : Grows X h h') (h₂ : Grows Y h' h'')
    (hYX : ∀ a ∈ Y, a < h.blocks.length → a ∈ X) : Grows X h h'' where
  toLater := h₁.toLater.trans h₂.toLater hYX
  alive := by
    intro a blk hget
    obtain ⟨blk',hget'⟩ := h₁.alive a blk hget
    exact h₂.alive a blk' hget'

theorem Grows.refl (X : Set ℕ) (h : Heap α) : Grows X h h where
  length_le := Nat.le_refl _
  kept := fun _ blk' _ hget => ⟨blk',hget,rfl,fun _ => ⟨rfl,rfl⟩⟩
  pinned := fun _ blk hget _ _ => ⟨blk,hget⟩
  alive := fun _ blk hget => ⟨blk,hget⟩

/-- A block outside of `X` and what became of it. -/
theorem Grows.get {X : Set ℕ} {h h' : Heap α} (hg : Grows X h h') {a : ℕ} {blk : Block α} (hget : h.get a = some blk)
    (hX : a ∉ X) : ∃ blk', h'.get a = some blk' ∧ blk'.pinned = blk.pinned ∧ blk'.payload = blk.payload ∧
      blk'.held = blk.held := by
  obtain ⟨blk',hget'⟩ := hg.alive a blk hget
  obtain ⟨blk₀,hget₀,hp,hsame⟩ := hg.kept a blk' (get_lt hget) hget'
  obtain rfl := Option.some.inj (hget.symm.trans hget₀)
  exact ⟨blk',hget',hp,hsame hX⟩

/-- Another block in the place of one that is not freed. -/
theorem grows_put {h : Heap α} {a : ℕ} {blk blk' : Block α} (hget : h.get a = some blk) {X : Set ℕ}
    (hpinned : blk'.pinned = blk.pinned) (hX : a ∉ X → blk'.payload = blk.payload ∧ blk'.held = blk.held) :
    Grows X h (h.put a blk') := by
  have hself := get_put_self (get_lt hget) blk'
  have halive : ∀ b blk₀, h.get b = some blk₀ → ∃ blk₁, (h.put a blk').get b = some blk₁ := by
    intro b blk₀ hb
    by_cases hba : b = a
    · exact ⟨blk',hba ▸ hself⟩
    · exact ⟨blk₀,(get_put_ne h hba blk').trans hb⟩
  refine ⟨⟨(length_put h a blk').ge,fun b blk₁ _ hb => ?_,fun b blk₀ hb _ _ => halive b blk₀ hb⟩,halive⟩
  by_cases hba : b = a
  · subst hba
    obtain rfl := Option.some.inj (hself.symm.trans hb)
    exact ⟨blk,hget,hpinned,hX⟩
  · exact ⟨blk₁,(get_put_ne h hba blk').symm.trans hb,rfl,fun _ => ⟨rfl,rfl⟩⟩

/-! ## Operations -/

/-- `refs++`. -/
def inc (h : Heap α) (a : ℕ) : Option (Heap α) :=
  (h.get a).map (fun blk => h.put a { blk with refs := blk.refs + 1 })

/-- `refs--` where the result is not looked at. -/
def dec (h : Heap α) (a : ℕ) : Option (Heap α) :=
  (h.get a).map (fun blk => h.put a { blk with refs := blk.refs - 1 })

def incAll (h : Heap α) (held : List ℕ) : Option (Heap α) := held.foldlM inc h

/-- Handles are dropped. A block whose count reaches zero is freed, and the handles it holds
are dropped as well; the count of a freed block cannot be looked at. -/
def releaseAll : ℕ → Heap α → List ℕ → Option (Heap α)
  | _,h,[] => some h
  | 0,_,_ :: _ => none
  | fuel + 1,h,a :: rest =>
    (h.get a).bind (fun blk =>
      if blk.refs - 1 = 0 then releaseAll fuel (h.free a) (blk.held ++ rest)
      else releaseAll fuel (h.put a { blk with refs := blk.refs - 1 }) rest)

def release (h : Heap α) (dropped : List ℕ) : Option (Heap α) := releaseAll (h.size + dropped.length) h dropped

/-- The handles in hand may be taken in any order. -/
theorem Counted.perm {h : Heap α} {inHand inHand' : List ℕ} (hc : Counted h inHand) (hp : inHand.Perm inHand') :
    Counted h inHand' := by
  have hcount : ∀ a, inHand'.count a = inHand.count a := fun a => (hp.count_eq a).symm
  constructor
  · simpa only [hcount] using hc.refs
  · simpa only [hcount] using hc.live
  · simpa only [hcount] using hc.used
  · exact hc.freed_nodup
  · exact hc.mem_freed

theorem Counted.not_pinned {h : Heap α} {inHand : List ℕ} (hc : Counted h inHand) {a : ℕ} {blk : Block α}
    (hget : h.get a = some blk) (hpinned : blk.pinned = true) : h.handles a + inHand.count a = 0 := by
  by_contra hne
  obtain ⟨blk',hget',hnot⟩ := hc.live a (Nat.pos_of_ne_zero hne)
  obtain rfl := Option.some.inj (hget.symm.trans hget')
  exact absurd (hpinned.symm.trans hnot) nofun

/-- A changed block, whose count is right for what is held and in hand afterwards. -/
theorem Counted.put {h : Heap α} {inHand inHand' : List ℕ} (hc : Counted h inHand) {a : ℕ} {blk blk' : Block α}
    (hget : h.get a = some blk) (hpinned : blk'.pinned = blk.pinned)
    (hothers : ∀ b, b ≠ a → (h.put a blk').handles b + inHand'.count b = h.handles b + inHand.count b)
    (hpos : 0 < (h.put a blk').handles a + inHand'.count a ↔ 0 < h.handles a + inHand.count a)
    (hrefs : blk'.refs = BitVec.ofNat 32 ((h.put a blk').handles a + inHand'.count a)) :
    Counted (h.put a blk') inHand' := by
  have hself := get_put_self (get_lt hget) blk'
  constructor
  · intro b blk₀ hb
    by_cases hba : b = a
    · subst hba
      obtain rfl := Option.some.inj (hself.symm.trans hb)
      exact hrefs
    · rw [hothers b hba]
      exact hc.refs b blk₀ ((get_put_ne h hba blk').symm.trans hb)
  · intro b hb
    by_cases hba : b = a
    · subst hba
      obtain ⟨blk₀,hget₀,hnot⟩ := hc.live b (hpos.mp hb)
      obtain rfl := Option.some.inj (hget.symm.trans hget₀)
      exact ⟨blk',hself,hpinned.trans hnot⟩
    · obtain ⟨blk₀,hget₀,hnot⟩ := hc.live b (hothers b hba ▸ hb)
      exact ⟨blk₀,(get_put_ne h hba blk').trans hget₀,hnot⟩
  · intro b blk₀ hb hnot
    by_cases hba : b = a
    · subst hba
      obtain rfl := Option.some.inj (hself.symm.trans hb)
      exact hpos.mpr (hc.used b blk hget (hpinned.symm.trans hnot))
    · rw [hothers b hba]
      exact hc.used b blk₀ ((get_put_ne h hba blk').symm.trans hb) hnot
  · exact hc.freed_nodup
  · intro b
    rw [length_put]
    refine (hc.mem_freed b).trans (and_congr_right fun _ => ?_)
    by_cases hba : b = a
    · subst hba
      simp [hself,hget]
    · rw [get_put_ne h hba]

theorem handles_put_same {h : Heap α} {a : ℕ} {blk blk' : Block α} (hget : h.get a = some blk)
    (hheld : blk'.held = blk.held) (b : ℕ) : (h.put a blk').handles b = h.handles b := by
  have hput := handles_put hget blk' b
  rw [hheld] at hput
  omega

theorem ofNat_succ (n : ℕ) : BitVec.ofNat 32 (n + 1) = BitVec.ofNat 32 n + 1 := BitVec.ofNat_add n 1

/-- A handle is copied into the hand. -/
theorem Counted.inc {h : Heap α} {inHand : List ℕ} (hc : Counted h inHand) {a : ℕ}
    (ha : 0 < h.handles a + inHand.count a) : ∃ h', h.inc a = some h' ∧ Counted h' (a :: inHand) ∧ Grows ∅ h h' ∧
      h'.blocks.length = h.blocks.length ∧ ∀ b, h'.handles b = h.handles b := by
  obtain ⟨blk,hget,-⟩ := hc.live a ha
  have hhandles := @handles_put_same _ h a blk { blk with refs := blk.refs + 1 } hget rfl
  have heq : h.inc a = some (h.put a { blk with refs := blk.refs + 1 }) := by rw [Heap.inc,hget,Option.map_some]
  refine ⟨_,heq,?_,grows_put hget rfl (fun _ => ⟨rfl,rfl⟩),length_put h a _,hhandles⟩
  refine hc.put hget rfl ?_ ?_ ?_
  · intro b hba
    rw [hhandles,List.count_cons_of_ne hba.symm]
  · rw [hhandles,List.count_cons_self]
    omega
  · rw [hhandles,List.count_cons_self,← Nat.add_assoc,ofNat_succ,← hc.refs a blk hget]

/-- A handle in hand is dropped while there are others. -/
theorem Counted.dec {h : Heap α} {inHand : List ℕ} {a : ℕ} (hc : Counted h (a :: inHand))
    (ha : 0 < h.handles a + inHand.count a) : ∃ h', h.dec a = some h' ∧ Counted h' inHand ∧ Grows ∅ h h' ∧
      h'.blocks.length = h.blocks.length ∧ ∀ b, h'.handles b = h.handles b := by
  have hpos : 0 < h.handles a + (a :: inHand).count a := by
    rw [List.count_cons_self]
    omega
  obtain ⟨blk,hget,-⟩ := hc.live a hpos
  have hhandles := @handles_put_same _ h a blk { blk with refs := blk.refs - 1 } hget rfl
  have heq : h.dec a = some (h.put a { blk with refs := blk.refs - 1 }) := by rw [Heap.dec,hget,Option.map_some]
  refine ⟨_,heq,?_,grows_put hget rfl (fun _ => ⟨rfl,rfl⟩),length_put h a _,hhandles⟩
  refine hc.put hget rfl ?_ ?_ ?_
  · intro b hba
    rw [hhandles,List.count_cons_of_ne hba.symm]
  · rw [hhandles]
    omega
  · have hrefs := hc.refs a blk hget
    rw [List.count_cons_self,← Nat.add_assoc] at hrefs
    rw [hhandles,hrefs,ofNat_succ,BitVec.add_sub_cancel]

theorem Counted.incAll {h : Heap α} {inHand : List ℕ} (hc : Counted h inHand) {held : List ℕ}
    (hheld : ∀ a ∈ held, 0 < h.handles a) : ∃ h', h.incAll held = some h' ∧ Counted h' (held ++ inHand) ∧
      Grows ∅ h h' ∧ h'.blocks.length = h.blocks.length ∧ ∀ b, h'.handles b = h.handles b := by
  induction held generalizing h inHand with
  | nil => exact ⟨h,rfl,hc,Grows.refl ∅ h,rfl,fun _ => rfl⟩
  | cons a held ih =>
    obtain ⟨ha,hrest⟩ := List.forall_mem_cons.mp hheld
    obtain ⟨h₁,h₁eq,hc₁,hg₁,hlen₁,hhandles₁⟩ := hc.inc (Nat.add_pos_left ha _)
    obtain ⟨h₂,h₂eq,hc₂,hg₂,hlen₂,hhandles₂⟩ := ih hc₁ (fun b hb => hhandles₁ b ▸ hrest b hb)
    refine ⟨h₂,?_,hc₂.perm List.perm_middle,hg₁.trans hg₂ nofun,hlen₂.trans hlen₁,
      fun b => (hhandles₂ b).trans (hhandles₁ b)⟩
    rw [Heap.incAll,List.foldlM_cons,h₁eq]
    exact h₂eq

/-- Handles go from the hand into a block, and back. -/
theorem Counted.exchange {h : Heap α} {inHand inHand' : List ℕ} (hc : Counted h inHand) {a : ℕ} {blk blk' : Block α}
    (hget : h.get a = some blk) (hpinned : blk'.pinned = blk.pinned) (hrefs : blk'.refs = blk.refs)
    (hp : (blk.held ++ inHand).Perm (blk'.held ++ inHand')) : Counted (h.put a blk') inHand' := by
  have htotal : ∀ b, (h.put a blk').handles b + inHand'.count b = h.handles b + inHand.count b := by
    intro b
    have hput := handles_put hget blk' b
    have hcount := hp.count_eq b
    rw [List.count_append,List.count_append] at hcount
    omega
  refine hc.put hget hpinned (fun b _ => htotal b) (by rw [htotal]) ?_
  rw [htotal,hrefs,hc.refs a blk hget]

theorem handles_length {h : Heap α} {inHand : List ℕ} (hc : Counted h inHand) :
    h.handles h.blocks.length + inHand.count h.blocks.length = 0 := by
  by_contra hne
  obtain ⟨blk,hget,-⟩ := hc.live _ (Nat.pos_of_ne_zero hne)
  exact absurd (get_lt hget) (Nat.lt_irrefl _)

theorem grows_alloc (h : Heap α) (blk : Block α) : Grows ∅ h (h.alloc blk) where
  length_le := by
    rw [length_alloc]
    omega
  kept := fun a blk' ha hget => ⟨blk',(get_alloc_lt h blk ha).symm.trans hget,rfl,fun _ => ⟨rfl,rfl⟩⟩
  pinned := fun a blk' hget _ _ => ⟨blk',(get_alloc_lt h blk (get_lt hget)).trans hget⟩
  alive := fun a blk' hget => ⟨blk',(get_alloc_lt h blk (get_lt hget)).trans hget⟩

/-- A new block takes handles from the hand; a handle to it is put there, unless it is a
variable. -/
theorem Counted.alloc {h : Heap α} {inHand inHand' new : List ℕ} (hc : Counted h inHand) {blk : Block α}
    (hp : inHand.Perm (blk.held ++ inHand'))
    (hnew : new = [h.blocks.length] ∧ blk.pinned = false ∧ blk.refs = 1 ∨ new = [] ∧ blk.pinned = true ∧ blk.refs = 0) :
    Counted (h.alloc blk) (new ++ inHand') := by
  have htotal : ∀ b, (h.alloc blk).handles b + (new ++ inHand').count b =
      h.handles b + inHand.count b + new.count b := by
    intro b
    have hcount := hp.count_eq b
    rw [List.count_append] at hcount
    rw [handles_alloc,List.count_append]
    omega
  have hlen := handles_length hc
  have hother : ∀ b, b ≠ h.blocks.length → new.count b = 0 := by
    intro b hb
    rcases hnew with ⟨rfl,-⟩ | ⟨rfl,-⟩
    · exact List.count_eq_zero.mpr (fun hmem => hb (List.mem_singleton.mp hmem))
    · exact List.count_nil
  have hself := get_alloc_self h blk
  constructor
  · intro b blk' hget
    rcases get_of_alloc hget with ⟨rfl,rfl⟩ | hget
    · rw [htotal,hlen]
      rcases hnew with ⟨rfl,-,hrefs⟩ | ⟨rfl,-,hrefs⟩
      · rw [hrefs,List.count_singleton_self]
        rfl
      · rw [hrefs,List.count_nil]
        rfl
    · rw [htotal,hother b (Nat.ne_of_lt (get_lt hget)),hc.refs b blk' hget]
      rfl
  · intro b hb
    rw [htotal] at hb
    by_cases hbl : b = h.blocks.length
    · subst hbl
      rcases hnew with ⟨rfl,hnot,-⟩ | ⟨rfl,-,-⟩
      · exact ⟨blk,hself,hnot⟩
      · rw [hlen,List.count_nil] at hb
        exact absurd hb (Nat.lt_irrefl 0)
    · rw [hother b hbl,Nat.add_zero] at hb
      obtain ⟨blk',hget,hnot⟩ := hc.live b hb
      exact ⟨blk',(get_alloc_lt h blk (get_lt hget)).trans hget,hnot⟩
  · intro b blk' hget hnot
    rw [htotal]
    rcases get_of_alloc hget with ⟨rfl,rfl⟩ | hget
    · rcases hnew with ⟨rfl,-,-⟩ | ⟨-,hpinned,-⟩
      · rw [List.count_singleton_self]
        omega
      · exact absurd (hpinned.symm.trans hnot) nofun
    · exact Nat.add_pos_left (hc.used b blk' hget hnot) _
  · exact hc.freed_nodup
  · intro b
    change b ∈ h.freed ↔ _
    rw [hc.mem_freed b,length_alloc]
    by_cases hb : b < h.blocks.length
    · rw [get_alloc_lt h blk hb]
      exact and_congr_left fun _ => iff_of_true hb (by omega)
    · refine iff_of_false (fun hlt => hb hlt.1) (fun hfreed => ?_)
      obtain ⟨hlt,hnone⟩ := hfreed
      obtain rfl : b = h.blocks.length := by omega
      rw [hself] at hnone
      cases hnone

/-- A block without handles to it is freed, and what it held is in hand. -/
theorem Counted.free {h : Heap α} {inHand inHand' : List ℕ} (hc : Counted h inHand) {a : ℕ} {blk : Block α}
    (hget : h.get a = some blk) (hlast : h.handles a + inHand'.count a = 0)
    (hothers : ∀ b, b ≠ a → inHand'.count b = inHand.count b) : Counted (h.free a) (blk.held ++ inHand') := by
  have htotal : ∀ b, (h.free a).handles b + (blk.held ++ inHand').count b = h.handles b + inHand'.count b := by
    intro b
    have hfree := handles_free hget b
    rw [List.count_append]
    omega
  have hget_ne : ∀ b blk', (h.free a).get b = some blk' → b ≠ a ∧ h.get b = some blk' := by
    intro b blk' hb
    have hba : b ≠ a := by
      rintro rfl
      rw [get_free_self] at hb
      cases hb
    exact ⟨hba,(get_free_ne h hba).symm.trans hb⟩
  constructor
  · intro b blk' hb
    obtain ⟨hba,hb⟩ := hget_ne b blk' hb
    rw [htotal,hothers b hba]
    exact hc.refs b blk' hb
  · intro b hb
    rw [htotal] at hb
    have hba : b ≠ a := by
      rintro rfl
      omega
    rw [hothers b hba] at hb
    obtain ⟨blk',hget',hnot⟩ := hc.live b hb
    exact ⟨blk',(get_free_ne h hba).trans hget',hnot⟩
  · intro b blk' hb hnot
    obtain ⟨hba,hb⟩ := hget_ne b blk' hb
    rw [htotal,hothers b hba]
    exact hc.used b blk' hb hnot
  · refine List.nodup_cons.mpr ⟨fun hmem => ?_,hc.freed_nodup⟩
    obtain ⟨-,hnone⟩ := (hc.mem_freed a).mp hmem
    rw [hget] at hnone
    cases hnone
  · intro b
    change b ∈ a :: h.freed ↔ _
    rw [List.mem_cons,hc.mem_freed b,length_free]
    by_cases hba : b = a
    · subst hba
      exact iff_of_true (Or.inl rfl) ⟨get_lt hget,get_free_self h b⟩
    · rw [get_free_ne h hba]
      exact or_iff_right hba

theorem later_free {h : Heap α} {a : ℕ} {blk : Block α} (hget : h.get a = some blk) {X : Set ℕ}
    (hX : blk.pinned = true → a ∈ X) : Later X h (h.free a) where
  length_le := (length_free h a).ge
  kept := by
    intro b blk' _ hb
    have hba : b ≠ a := by
      rintro rfl
      rw [get_free_self] at hb
      cases hb
    exact ⟨blk',(get_free_ne h hba).symm.trans hb,rfl,fun _ => ⟨rfl,rfl⟩⟩
  pinned := by
    intro b blk' hb hpinned hbX
    have hba : b ≠ a := by
      rintro rfl
      obtain rfl := Option.some.inj (hget.symm.trans hb)
      exact hbX (hX hpinned)
    exact ⟨blk',(get_free_ne h hba).trans hb⟩

/-- No count can pass for zero while there are handles. -/
def Small (h : Heap α) (inHand : List ℕ) : Prop := ∀ a, h.handles a + inHand.count a ≤ 4294967296

theorem ofNat_eq_zero {n : ℕ} (hn : n < 4294967296) : BitVec.ofNat 32 n = 0 ↔ n = 0 := by
  rw [← BitVec.toNat_inj,BitVec.toNat_ofNat,Nat.mod_eq_of_lt hn]
  rfl

/-- The handles of a block that is freed come into the hand for the one that was dropped. -/
theorem Small.free {h : Heap α} {a : ℕ} {rest : List ℕ} (hsmall : Small h (a :: rest)) {blk : Block α}
    (hget : h.get a = some blk) : Small (h.free a) (blk.held ++ rest) := by
  intro b
  have hfree := handles_free hget b
  have hb := hsmall b
  have hle : rest.count b ≤ (a :: rest).count b := List.count_le_count_cons
  rw [List.count_append]
  omega

theorem Small.tail {h h' : Heap α} {a : ℕ} {rest : List ℕ} (hsmall : Small h (a :: rest))
    (hhandles : ∀ b, h'.handles b = h.handles b) : Small h' rest := by
  intro b
  have hle : rest.count b ≤ (a :: rest).count b := List.count_le_count_cons
  rw [hhandles]
  exact (Nat.add_le_add_left hle _).trans (hsmall b)

/-- All that is in hand is dropped; the loop ends when no handle is left to drop. -/
theorem Counted.releaseAll {fuel : ℕ} {h : Heap α} {inHand : List ℕ} (hc : Counted h inHand)
    (hsmall : Small h inHand) (hfuel : h.size + inHand.length ≤ fuel) :
    ∃ h', releaseAll fuel h inHand = some h' ∧ Counted h' [] ∧ Later ∅ h h' := by
  induction fuel generalizing h inHand with
  | zero =>
    obtain rfl : inHand = [] := List.eq_nil_of_length_eq_zero (by omega)
    exact ⟨h,rfl,hc,(Grows.refl ∅ h).toLater⟩
  | succ fuel ih =>
    cases inHand with
    | nil => exact ⟨h,rfl,hc,(Grows.refl ∅ h).toLater⟩
    | cons a rest =>
      have hcount : (a :: rest).count a = rest.count a + 1 := List.count_cons_self
      have hothers : ∀ b, b ≠ a → (a :: rest).count b = rest.count b := fun b hb => List.count_cons_of_ne hb.symm
      have hpos : 0 < h.handles a + (a :: rest).count a := by omega
      obtain ⟨blk,hget,hnot⟩ := hc.live a hpos
      have hrefs : blk.refs - 1 = BitVec.ofNat 32 (h.handles a + rest.count a) := by
        rw [hc.refs a blk hget,hcount,← Nat.add_assoc,ofNat_succ,BitVec.add_sub_cancel]
      have ha := hsmall a
      have hzero : blk.refs - 1 = 0 ↔ h.handles a + rest.count a = 0 := by
        rw [hrefs]
        exact ofNat_eq_zero (by omega)
      rw [List.length_cons] at hfuel
      simp only [Heap.releaseAll,hget,Option.bind_some]
      by_cases hlast : h.handles a + rest.count a = 0
      · -- the last handle: the block is freed
        rw [if_pos (hzero.mpr hlast)]
        have hc' := hc.free hget hlast (fun b hb => (hothers b hb).symm)
        have hsize : (h.free a).size + blk.held.length = h.size := weigh_free List.length rfl hget
        have hfuel' : (h.free a).size + (blk.held ++ rest).length ≤ fuel := by
          rw [List.length_append]
          omega
        obtain ⟨h',h'eq,hc',hl'⟩ := ih hc' (hsmall.free hget) hfuel'
        have hl := later_free hget (X := ∅) (fun hpinned => absurd (hpinned.symm.trans hnot) nofun)
        exact ⟨h',h'eq,hc',hl.trans hl' nofun⟩
      · rw [if_neg (fun hz => hlast (hzero.mp hz))]
        obtain ⟨h₁,h₁eq,hc₁,hg₁,hlen₁,hhandles₁⟩ := hc.dec (Nat.pos_of_ne_zero hlast)
        obtain rfl : h.put a { blk with refs := blk.refs - 1 } = h₁ := by
          rw [Heap.dec,hget] at h₁eq
          exact Option.some.inj h₁eq
        have hsize : (h.put a { blk with refs := blk.refs - 1 }).size + blk.held.length =
            h.size + blk.held.length := weigh_put List.length hget _
        obtain ⟨h',h'eq,hc',hl'⟩ := ih hc₁ (hsmall.tail hhandles₁) (by omega)
        exact ⟨h',h'eq,hc',hg₁.toLater.trans hl' nofun⟩

theorem Counted.release {h : Heap α} {dropped : List ℕ} (hc : Counted h dropped) (hsmall : Small h dropped) :
    ∃ h', h.release dropped = some h' ∧ Counted h' [] ∧ Later ∅ h h' :=
  hc.releaseAll hsmall (Nat.le_refl _)

end Heap
end Edelib.Foundation
