import Edelib.Foundation.SharedHeap
import Mathlib.Data.List.NodupEquivFin

/-! # What a handle shows

The content behind a handle is what is found along the paths from its block. It depends on
no count, and stays while the blocks on the way stay.
-/
namespace Edelib.Foundation.Heap
variable {α : Type*}

/-- What is at the end of a path: the payload of the block there and the number of handles
it holds. -/
def look (h : Heap α) : ℕ → List ℕ → Option (α × ℕ)
  | a,[] => (h.get a).map (fun blk => (blk.payload,blk.held.length))
  | a,i :: path => (h.read (a,i)).bind (fun b => look h b path)

theorem Counted.get_of_read {h : Heap α} {inHand : List ℕ} (hc : Counted h inHand) {loc : ℕ × ℕ} {b : ℕ}
    (hread : h.read loc = some b) : ∃ blk, h.get b = some blk ∧ blk.pinned = false :=
  hc.live b (Nat.add_pos_left (handles_pos_of_read hread) _)

theorem Later.read {X : Set ℕ} {h h' : Heap α} (hl : Later X h h') {a : ℕ} {blk blk' : Block α}
    (hget : h.get a = some blk) (hget' : h'.get a = some blk') (ha : a ∉ X) (k : ℕ) :
    h'.read (a,k) = h.read (a,k) := by
  obtain ⟨blk₀,hget₀,-,hsame⟩ := hl.kept a blk' (get_lt hget) hget'
  obtain rfl := Option.some.inj (hget.symm.trans hget₀)
  rw [Heap.read,Heap.read,hget,hget',Option.bind_some,Option.bind_some,(hsame ha).2]

/-- The content behind a block stays while the block does, when no block outside of `X` holds
a handle into `X`. -/
theorem Later.look {X : Set ℕ} {h h' : Heap α} (hl : Later X h h') (hc : Counted h []) (hc' : Counted h' [])
    (hclosed : ∀ a k b, a ∉ X → h.read (a,k) = some b → b ∉ X) {a : ℕ} {blk blk' : Block α}
    (hget : h.get a = some blk) (hget' : h'.get a = some blk') (ha : a ∉ X) (path : List ℕ) :
    h'.look a path = h.look a path := by
  induction path generalizing a blk blk' with
  | nil =>
    obtain ⟨blk₀,hget₀,-,hsame⟩ := hl.kept a blk' (get_lt hget) hget'
    obtain rfl := Option.some.inj (hget.symm.trans hget₀)
    rw [Heap.look,Heap.look,hget,hget',Option.map_some,Option.map_some,(hsame ha).1,(hsame ha).2]
  | cons i path ih =>
    have hread := hl.read hget hget' ha i
    rw [Heap.look,Heap.look,hread]
    cases hb : h.read (a,i) with
    | none => rfl
    | some b =>
      obtain ⟨blkb,hgetb,-⟩ := hc.get_of_read hb
      obtain ⟨blkb',hgetb',-⟩ := hc'.get_of_read (hread.trans hb)
      exact ih hgetb hgetb' (hclosed a i b ha hb)

theorem two_le_handles {h : Heap α} {loc loc' : ℕ × ℕ} (hne : loc ≠ loc') {b : ℕ} (hread : h.read loc = some b)
    (hread' : h.read loc' = some b) : 2 ≤ h.handles b := by
  obtain ⟨a,k⟩ := loc
  obtain ⟨a',k'⟩ := loc'
  obtain ⟨blk,hget,hk⟩ := read_eq_some.mp hread
  obtain ⟨blk',hget',hk'⟩ := read_eq_some.mp hread'
  dsimp only at hget hget' hk hk'
  by_cases ha : a = a'
  · subst ha
    obtain rfl := Option.some.inj (hget.symm.trans hget')
    obtain ⟨hlt,hbk⟩ := List.getElem?_eq_some_iff.mp hk
    obtain ⟨hlt',hbk'⟩ := List.getElem?_eq_some_iff.mp hk'
    have hdup : List.Duplicate b blk.held := by
      rw [List.duplicate_iff_exists_distinct_get]
      rcases Nat.lt_or_gt_of_ne (fun hkk : k = k' => hne (by rw [hkk])) with hlt₀ | hlt₀
      · exact ⟨⟨k,hlt⟩,⟨k',hlt'⟩,hlt₀,hbk.symm,hbk'.symm⟩
      · exact ⟨⟨k',hlt'⟩,⟨k,hlt⟩,hlt₀,hbk'.symm,hbk.symm⟩
    exact (List.duplicate_iff_two_le_count.mp hdup).trans (count_le_handles hget b)
  · have hadd := count_add_le_handles (fun haa => ha haa.symm) hget hget' b
    have hpos := List.count_pos_iff.mpr (List.mem_of_getElem? hk)
    have hpos' := List.count_pos_iff.mpr (List.mem_of_getElem? hk')
    omega

inductive Reaches (h : Heap α) (except : ℕ × ℕ) : ℕ → Prop
  | var {a : ℕ} {blk : Block α} : h.get a = some blk → blk.pinned = true → Reaches h except a
  | held {a k b : ℕ} : Reaches h except a → (a,k) ≠ except → h.read (a,k) = some b → Reaches h except b

/-- What can be reached without a handle survives the end of that handle. -/
theorem Reaches.survives {h h' : Heap α} {except : ℕ × ℕ} {a : ℕ} (hr : Reaches h except a) (hc' : Counted h' [])
    (hpinned : ∀ a blk, h.get a = some blk → blk.pinned = true → ∃ blk', h'.get a = some blk')
    (hread : ∀ a k b blk', h'.get a = some blk' → (a,k) ≠ except → h.read (a,k) = some b → h'.read (a,k) = some b) :
    ∃ blk', h'.get a = some blk' := by
  induction hr with
  | var hget hpin => exact hpinned _ _ hget hpin
  | held _ hne hb ih =>
    obtain ⟨blk',hget'⟩ := ih
    obtain ⟨blk,hget,-⟩ := hc'.get_of_read (hread _ _ _ blk' hget' hne hb)
    exact ⟨blk,hget⟩

/-- Assignment: the handle at `src` is copied over the one at `dst`, which is dropped. The
source is looked at once more after that, and must not have been freed. -/
def assign (h : Heap α) (dst src : ℕ × ℕ) : Option (Heap α) :=
  (h.read src).bind fun b =>
  (h.read dst).bind fun a =>
  (h.inc b).bind fun h =>
  (h.get dst.1).bind fun blk =>
  ((h.put dst.1 { blk with held := blk.held.set dst.2 b }).release [a]).bind fun h =>
  if (h.get src.1).isSome then some h else none

theorem set_perm {held : List ℕ} {k : ℕ} (hk : k < held.length) (b : ℕ) :
    (held ++ [b]).Perm (held.set k b ++ [held[k]]) :=
  calc (held ++ [b]).Perm (b :: held) := List.perm_append_singleton b held
    _ |>.Perm (b :: held[k] :: held.eraseIdx k) := (List.getElem_cons_eraseIdx_perm hk).symm.cons b
    _ |>.Perm (held[k] :: b :: held.eraseIdx k) := List.Perm.swap _ _ _
    _ |>.Perm (held[k] :: held.set k b) := (List.set_perm_cons_eraseIdx hk b).symm.cons _
    _ |>.Perm (held.set k b ++ [held[k]]) := (List.perm_append_singleton _ _).symm

/-- A handle is written over another, which comes into the hand; the handles elsewhere stay. -/
theorem Counted.overwrite {h : Heap α} {dst : ℕ × ℕ} {a b : ℕ} (hc : Counted h [b]) (hdst : h.read dst = some a) :
    ∃ blk, h.get dst.1 = some blk ∧
      Counted (h.put dst.1 { blk with held := blk.held.set dst.2 b }) [a] ∧
      Grows {dst.1} h (h.put dst.1 { blk with held := blk.held.set dst.2 b }) ∧
      (∀ c, (h.put dst.1 { blk with held := blk.held.set dst.2 b }).handles c + [a].count c =
        h.handles c + [b].count c) ∧
      ∀ loc, loc ≠ dst → (h.put dst.1 { blk with held := blk.held.set dst.2 b }).read loc = h.read loc := by
  obtain ⟨blk,hget,hheld⟩ := read_eq_some.mp hdst
  obtain ⟨hlt,rfl⟩ := List.getElem?_eq_some_iff.mp hheld
  have hperm := set_perm hlt b
  refine ⟨blk,hget,hc.exchange hget rfl rfl hperm,grows_put hget rfl (fun hX => absurd rfl hX),fun c => ?_,?_⟩
  · have hput := handles_put hget { blk with held := blk.held.set dst.2 b } c
    have hcount := hperm.count_eq c
    rw [List.count_append,List.count_append] at hcount
    dsimp only at hput
    omega
  · rintro ⟨c,k⟩ hne
    by_cases hcd : c = dst.1
    · subst hcd
      have hk : dst.2 ≠ k := fun hk => hne (by rw [← hk])
      rw [Heap.read,Heap.read,get_put_self (get_lt hget),hget,Option.bind_some,Option.bind_some]
      exact List.getElem?_set_ne hk
    · rw [Heap.read,Heap.read,get_put_ne h hcd]

theorem read_overwritten {h : Heap α} {a k b : ℕ} {blk : Block α} (hget : h.get a = some blk)
    (hk : k < blk.held.length) : (h.put a { blk with held := blk.held.set k b }).read (a,k) = some b :=
  read_eq_some.mpr ⟨_,get_put_self (get_lt hget) _,List.getElem?_set_self hk⟩

/-- A copy of a block, with a handle to it in the hand. -/
theorem Counted.clone {h : Heap α} (hc : Counted h []) {a : ℕ} {blk : Block α} (hget : h.get a = some blk)
    (hnot : blk.pinned = false) : ∃ h₁, h.incAll blk.held = some h₁ ∧
      Counted (h₁.alloc { blk with refs := 1 }) [h.blocks.length] ∧ Grows ∅ h (h₁.alloc { blk with refs := 1 }) ∧
      ∀ b, (h₁.alloc { blk with refs := 1 }).handles b = h.handles b + blk.held.count b := by
  have hheld : ∀ b ∈ blk.held, 0 < h.handles b := fun b hb =>
    Nat.lt_of_lt_of_le (List.count_pos_iff.mpr hb) (count_le_handles hget b)
  obtain ⟨h₁,h₁eq,hc₁,hg₁,hlen₁,hhandles₁⟩ := hc.incAll hheld
  have halloc := @Counted.alloc _ h₁ _ [] [h₁.blocks.length] hc₁ { blk with refs := 1 } (List.Perm.refl _)
    (Or.inl ⟨rfl,hnot,rfl⟩)
  rw [List.append_nil,hlen₁] at halloc
  refine ⟨h₁,h₁eq,halloc,Grows.trans hg₁ (grows_alloc h₁ _) nofun,fun b => ?_⟩
  rw [handles_alloc,hhandles₁]

/-- An assignment keeps the counts exact, where its source can be reached without the handle
that is dropped. -/
theorem Counted.assign {h : Heap α} (hc : Counted h []) (hsmall : ∀ b, h.handles b < 4294967296)
    {dst src : ℕ × ℕ} {a b : ℕ} (hdst : h.read dst = some a) (hsrc : h.read src = some b)
    (hreach : Reaches h dst src.1) : ∃ h', h.assign dst src = some h' ∧ Counted h' [] ∧ Later {dst.1} h h' ∧
      ∀ c, Reaches h dst c → ∃ blk', h'.get c = some blk' := by
  obtain ⟨h₁,h₁eq,hc₁,hg₁,hlen₁,hhandles₁⟩ := hc.inc (Nat.add_pos_left (handles_pos_of_read hsrc) _)
  have hread₁ : ∀ c blk k, h.get c = some blk → h₁.read (c,k) = h.read (c,k) := by
    intro c blk k hget
    obtain ⟨blk₁,hget₁,-⟩ := hg₁.get hget (Set.notMem_empty _)
    exact hg₁.toLater.read hget hget₁ (Set.notMem_empty _) k
  obtain ⟨blk,hget,-⟩ := read_eq_some.mp hdst
  obtain ⟨blk₁,hget₁,hc₂,hg₂,hhandles₂,hread₂⟩ := hc₁.overwrite ((hread₁ _ blk _ hget).trans hdst)
  have hsmall₂ : Small (h₁.put dst.1 { blk₁ with held := blk₁.held.set dst.2 b }) [a] := by
    intro c
    have hle : [b].count c ≤ 1 := List.count_le_length
    have hlt := hsmall c
    rw [hhandles₂,hhandles₁]
    omega
  obtain ⟨h₃,h₃eq,hc₃,hl₃⟩ := hc₂.release hsmall₂
  have hg : Grows {dst.1} h (h₁.put dst.1 { blk₁ with held := blk₁.held.set dst.2 b }) :=
    Grows.trans (Grows.trans (Grows.refl _ h) hg₁ nofun) hg₂ (fun c hc _ => hc)
  have hsurvives : ∀ c, Reaches h dst c → ∃ blk', h₃.get c = some blk' := by
    intro c hreach
    refine hreach.survives hc₃ (fun c blkc hgetc hpin => ?_) (fun c k d blk' hget₃ hne hread => ?_)
    · obtain ⟨blk₂,hget₂⟩ := hg.alive c blkc hgetc
      obtain ⟨blk₀,hget₀,hp,-⟩ := hg.kept c blk₂ (get_lt hgetc) hget₂
      obtain rfl := Option.some.inj (hgetc.symm.trans hget₀)
      exact hl₃.pinned c blk₂ hget₂ (hp.trans hpin) (Set.notMem_empty _)
    · obtain ⟨blkc,hgetc,-⟩ := read_eq_some.mp hread
      obtain ⟨blk₂,hget₂⟩ := hg.alive c blkc hgetc
      rw [hl₃.read hget₂ hget₃ (Set.notMem_empty _),hread₂ _ hne,hread₁ c blkc k hgetc,hread]
  obtain ⟨blk',hget'⟩ := hsurvives src.1 hreach
  refine ⟨h₃,?_,hc₃,hg.toLater.trans hl₃ nofun,hsurvives⟩
  rw [Heap.assign,hsrc,Option.bind_some,hdst,Option.bind_some,h₁eq,Option.bind_some,hget₁,Option.bind_some,h₃eq,
    Option.bind_some,hget']
  rfl

theorem Counted.shrink {h : Heap α} (hc : Counted h []) (hsmall : ∀ b, h.handles b < 4294967296) {a : ℕ}
    {blk : Block α} (hget : h.get a = some blk) {kept dropped : List ℕ} (hp : blk.held.Perm (kept ++ dropped)) :
    ∃ h', (h.put a { blk with held := kept }).release dropped = some h' ∧ Counted h' [] ∧ Later {a} h h' := by
  have hc₁ : Counted (h.put a { blk with held := kept }) dropped :=
    hc.exchange hget rfl rfl (by rw [List.append_nil]; exact hp)
  have hsmall₁ : Small (h.put a { blk with held := kept }) dropped := by
    intro b
    have hput := handles_put hget { blk with held := kept } b
    have hcount := hp.count_eq b
    have hb := hsmall b
    rw [List.count_append] at hcount
    dsimp only at hput
    omega
  obtain ⟨h',h'eq,hc',hl'⟩ := hc₁.release hsmall₁
  have hg : Grows {a} h (h.put a { blk with held := kept }) := grows_put hget rfl (fun hX => absurd rfl hX)
  exact ⟨h',h'eq,hc',hg.toLater.trans hl' nofun⟩

theorem Counted.extend {h : Heap α} (hc : Counted h []) {a : ℕ} {blk : Block α} (hget : h.get a = some blk)
    {new : List ℕ} (hnew : ∀ b ∈ new, 0 < h.handles b) : ∃ h₁ blk₁, h.incAll new = some h₁ ∧ h₁.get a = some blk₁ ∧
      Counted (h₁.put a { blk₁ with held := blk₁.held ++ new }) [] ∧
      Grows {a} h (h₁.put a { blk₁ with held := blk₁.held ++ new }) := by
  obtain ⟨h₁,h₁eq,hc₁,hg₁,-,-⟩ := hc.incAll hnew
  obtain ⟨blk₁,hget₁,-⟩ := hg₁.get hget (Set.notMem_empty _)
  refine ⟨h₁,blk₁,h₁eq,hget₁,hc₁.exchange hget₁ rfl rfl ?_,?_⟩
  · simp
  · have hg : Grows {a} h₁ (h₁.put a { blk₁ with held := blk₁.held ++ new }) :=
      grows_put hget₁ rfl (fun hX => absurd rfl hX)
    exact Grows.trans (Grows.trans (Grows.refl _ h) hg₁ nofun) hg (fun b hb _ => hb)

end Edelib.Foundation.Heap
