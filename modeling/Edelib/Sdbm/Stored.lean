import Edelib.Sdbm.PageHolds
import Edelib.Sdbm.Trie
import Mathlib.Data.List.Nodup
import Mathlib.Data.List.Perm.Subperm

/-! # Where the pairs are

Each pair is on the page at which the trie leaves its hash. A page that is written keeps the pairs of the others, and one
that is split hands over those with the next bit.
-/
namespace Edelib.Sdbm
open Foundation SlottedPage TextBlock HeapTrie

def hashOf (key : Datum) : ℕ := (sdbmHash key).toNat

def near (k h : ℕ) (pr : Pair) : Bool := hashOf pr.1 % 2 ^ k = h % 2 ^ k

def others (key : Datum) (pairs : List Pair) : List Pair := pairs.filter (fun pr => pr.1 ≠ key)

abbrev Content := ℕ → List Pair

def Held (content : Content) (pr : Pair) : Prop := ∃ p, pr ∈ content p

/-- The pairs are on their pages, and a page that the trie leads to can be read. -/
structure Stored (o : ByteOrder) (pagf : List Page) (marks : ℕ → Bool) (content : Content) : Prop where
  closed : Closed marks
  shallow : ∀ n, marks n = true → n + 1 < 2 ^ 15
  holds : ∀ p, Holds o (pagf.getD p blank) (content p)
  present : ∀ h l, Leaf marks h l → h % 2 ^ l < max 1 pagf.length
  routed : ∀ p, ∀ pr ∈ content p, ∃ l, Leaf marks (hashOf pr.1) l ∧ hashOf pr.1 % 2 ^ l = p
  nodup : ∀ p, ((content p).map Prod.fst).Nodup

variable {o : ByteOrder} {pagf : List Page} {marks : ℕ → Bool} {content : Content} {pairs : List Pair} {key val : Datum}
  {pr : Pair} {h l k : ℕ}

/-! ## Blocks of a file -/

theorem length_putBlock (hole : TextBlock.Block) (file : List TextBlock.Block) (b : ℕ) (block : TextBlock.Block) :
    (putBlock hole file b block).length = max file.length (b + 1) := by
  rw [putBlock]
  split_ifs with hb
  · rw [List.length_set]
    omega
  · rw [List.length_append,List.length_append,List.length_replicate,List.length_singleton]
    omega

theorem getD_putBlock (hole : TextBlock.Block) (file : List TextBlock.Block) (b : ℕ) (block : TextBlock.Block) (i : ℕ) :
    (putBlock hole file b block).getD i hole = if i = b then block else file.getD i hole := by
  rw [List.getD_eq_getElem?_getD,List.getD_eq_getElem?_getD,putBlock]
  split_ifs with hb hi hi
  · rw [hi,List.getElem?_set_self hb]
    rfl
  · rw [List.getElem?_set_ne (Ne.symm hi)]
  · rw [hi,List.getElem?_append_right (by omega),List.getElem?_append_right (by rw [List.length_replicate]),
      List.length_replicate,Nat.sub_self]
    rfl
  · by_cases hlt : i < file.length
    · rw [List.getElem?_append_left hlt]
    rw [List.getElem?_append_right (by omega),List.getElem?_eq_none (by omega : file.length ≤ i)]
    by_cases hgap : i < b
    · rw [List.getElem?_append_left (by rw [List.length_replicate]; omega),List.getElem?_replicate,if_pos (by omega)]
      rfl
    · rw [List.getElem?_eq_none]
      rw [List.length_append,List.length_replicate,List.length_singleton]
      omega

theorem putBlock_ne_nil (hole : TextBlock.Block) (file : List TextBlock.Block) (b : ℕ) (block : TextBlock.Block) : putBlock hole file b block ≠ [] := by
  intro hnil
  have hlength := length_putBlock hole file b block
  rw [hnil,List.length_nil] at hlength
  omega

theorem putBlock_putBlock (hole : TextBlock.Block) (file : List TextBlock.Block) (b : ℕ) (block block' : TextBlock.Block) :
    putBlock hole (putBlock hole file b block) b block' = putBlock hole file b block' := by
  have hlt : b < (putBlock hole file b block).length := by
    rw [length_putBlock]
    omega
  rw [putBlock,if_pos hlt,putBlock,putBlock]
  split_ifs with hb
  · rw [List.set_set]
  · rw [List.set_append_right _ _ (by omega),List.set_append_right _ _ (by rw [List.length_replicate]),
      List.length_replicate,Nat.sub_self]
    rfl

/-! ## Lists of pairs -/

theorem near_iff : near k h pr = true ↔ hashOf pr.1 % 2 ^ k = h % 2 ^ k := decide_eq_true_iff

theorem mem_others : pr ∈ others key pairs ↔ pr ∈ pairs ∧ pr.1 ≠ key := by
  rw [others,List.mem_filter,decide_eq_true_iff]

theorem others_of_notMem (hkey : key ∉ pairs.map Prod.fst) : others key pairs = pairs := by
  refine List.filter_eq_self.mpr (fun pr hpr => decide_eq_true ?_)
  rintro rfl
  exact hkey (List.mem_map_of_mem hpr)

theorem nodup_others (hnodup : (pairs.map Prod.fst).Nodup) : ((others key pairs).map Prod.fst).Nodup :=
  hnodup.sublist (List.filter_sublist.map _)

theorem others_split {l₁ l₂ : List Pair} (hnodup : ((l₁ ++ (key,val) :: l₂).map Prod.fst).Nodup) :
    others key (l₁ ++ (key,val) :: l₂) = l₁ ++ l₂ := by
  rw [List.map_append,List.map_cons,List.nodup_append,List.nodup_cons] at hnodup
  obtain ⟨-,⟨hafter,-⟩,hapart⟩ := hnodup
  have hbefore : key ∉ l₁.map Prod.fst := fun hmem => hapart key hmem key List.mem_cons_self rfl
  have h₁ := others_of_notMem hbefore
  have h₂ := others_of_notMem hafter
  rw [others] at h₁ h₂
  rw [others,List.filter_append,h₁,List.filter_cons_of_neg (by simp),h₂]

theorem lookup_eq_some_iff (hnodup : (pairs.map Prod.fst).Nodup) : pairs.lookup key = some val ↔ (key,val) ∈ pairs := by
  by_cases hkey : key ∈ pairs.map Prod.fst
  · obtain ⟨l₁,v,l₂,rfl,hbefore,-⟩ := split_of_mem hkey
    rw [lookup_split hbefore]
    constructor
    · rintro ⟨⟩
      exact List.mem_append_right _ List.mem_cons_self
    · intro hmem
      rw [List.map_append,List.map_cons,List.nodup_append,List.nodup_cons] at hnodup
      obtain ⟨-,⟨hafter,-⟩,-⟩ := hnodup
      rcases List.mem_append.mp hmem with hmem | hmem
      · exact absurd (List.mem_map_of_mem hmem) hbefore
      · rcases List.mem_cons.mp hmem with heq | hmem
        · rw [(Prod.mk.inj heq).2]
        · exact absurd (List.mem_map_of_mem hmem) hafter
  · have hnone : pairs.lookup key = none := by
      rw [List.lookup_eq_none_iff]
      intro p hp
      exact bne_iff_ne.mpr (fun heq => hkey (List.mem_map.mpr ⟨p,hp,heq.symm⟩))
    rw [hnone]
    exact iff_of_false (by simp) (fun hmem => hkey (List.mem_map_of_mem hmem))

/-- Pairs that are among others cost no more. -/
theorem costs_le_of_subset {l₁ l₂ : List Pair} (hnodup : (l₁.map Prod.fst).Nodup) (hsub : ∀ pr ∈ l₁, pr ∈ l₂) :
    costs l₁ ≤ costs l₂ := by
  obtain ⟨l,hperm,hsublist⟩ := List.Nodup.subperm (.of_map Prod.fst hnodup) hsub
  rw [costs,costs,← (hperm.map cost).sum_eq]
  exact (hsublist.map cost).sum_le_sum (fun _ _ => Nat.zero_le _)

/-- A pair is deleted from its page. -/
theorem Holds.delpair_others {pag : Page} (hpag : Holds o pag pairs) (hnodup : (pairs.map Prod.fst).Nodup) (key : Datum) :
    ∃ pag', Sdbm.delpair o pag key = some (decide (key ∈ pairs.map Prod.fst),pag') ∧ Holds o pag' (others key pairs) := by
  by_cases hkey : key ∈ pairs.map Prod.fst
  · obtain ⟨l₁,val,l₂,rfl,hbefore,-⟩ := split_of_mem hkey
    obtain ⟨pag',hdel,hpag'⟩ := hpag.delpair hbefore
    rw [decide_eq_true hkey,others_split hnodup]
    exact ⟨pag',hdel,hpag'⟩
  · rw [decide_eq_false hkey,others_of_notMem hkey]
    exact ⟨pag,hpag.delpair_of_notMem hkey,hpag⟩

theorem Holds.eq_nil_of_blank (hpag : Holds o blank pairs) : pairs = [] := by
  have hzero := hpag.ino_zero
  rw [(holds_blank (o := o)).ino_zero,List.length_nil] at hzero
  have := Option.some.inj hzero
  exact List.length_eq_zero_iff.mp (by omega)

theorem hasBit_mask_succ (hl : l < 64) (pr : Pair) : hasBit (mask l + 1) pr = (hashOf pr.1).testBit l := by
  rw [hasBit,hashOf]
  cases hbit : (sdbmHash pr.1).toNat.testBit l with
  | false => exact decide_eq_false (fun hne => by rw [(and_mask_succ_ne_zero hl).mp hne] at hbit; cases hbit)
  | true => exact decide_eq_true ((and_mask_succ_ne_zero hl).mpr hbit)

/-! ## Writing and splitting pages -/

namespace Stored

theorem level_le (hs : Stored o pagf marks content) (hl : Leaf marks h l) : l ≤ 15 := by
  cases l with
  | zero => exact Nat.zero_le _
  | succ l =>
    have hlow := hs.shallow _ (hl.above l (Nat.lt_succ_self l))
    have hpow : 2 ^ l < 2 ^ 15 := (node_bounds h l).1.trans_lt hlow
    exact (Nat.pow_lt_pow_iff_right (by decide)).mp hpow

theorem exists_leaf (hs : Stored o pagf marks content) (h : ℕ) : ∃ l, Leaf marks h l := by
  obtain ⟨l,-,hl⟩ := HeapTrie.exists_leaf 15 hs.shallow h
  exact ⟨l,hl⟩

/-- The pairs of a leaf's page have its low bits. -/
theorem near_of_mem (hs : Stored o pagf marks content) (hl : Leaf marks h l) (hpr : pr ∈ content (h % 2 ^ l)) :
    hashOf pr.1 % 2 ^ l = h % 2 ^ l := by
  obtain ⟨l',hl',hpage⟩ := hs.routed _ pr hpr
  obtain rfl := hl.apart hl' hpage.symm
  exact hpage

/-- A pair is on the page at which its hash is left. -/
theorem held_iff (hs : Stored o pagf marks content) (hl : Leaf marks h l) (hnear : hashOf pr.1 % 2 ^ l = h % 2 ^ l) :
    Held content pr ↔ pr ∈ content (h % 2 ^ l) := by
  refine ⟨?_,fun hmem => ⟨_,hmem⟩⟩
  rintro ⟨p,hp⟩
  obtain ⟨l',hl',rfl⟩ := hs.routed p pr hp
  obtain rfl := (hl.congr hnear.symm).unique hl'
  rwa [← hnear]

theorem write (hs : Stored o pagf marks content) (hl : Leaf marks h l) {page : Page} (hpage : Holds o page pairs)
    (hnear : ∀ pr ∈ pairs, hashOf pr.1 % 2 ^ l = h % 2 ^ l) (hnodup : (pairs.map Prod.fst).Nodup) :
    Stored o (putBlock blank pagf (h % 2 ^ l) page) marks (Function.update content (h % 2 ^ l) pairs) := by
  refine ⟨hs.closed,hs.shallow,?_,?_,?_,?_⟩
  · intro p
    rw [getD_putBlock,Function.update_apply]
    split_ifs
    · exact hpage
    · exact hs.holds p
  · intro h' l' hl'
    have hbefore := hs.present h' l' hl'
    rw [length_putBlock]
    omega
  · intro p pr hpr
    rw [Function.update_apply] at hpr
    split_ifs at hpr with hp
    · exact ⟨l,hl.congr (hnear pr hpr).symm,by rw [hp,hnear pr hpr]⟩
    · exact hs.routed p pr hpr
  · intro p
    rw [Function.update_apply]
    split_ifs
    · exact hnodup
    · exact hs.nodup p

end Stored

def splitContent (content : Content) (q l : ℕ) : Content := fun p =>
  if p = q then (content q).filter (fun pr => !(hashOf pr.1).testBit l)
  else if p = q + 2 ^ l then (content q).filter (fun pr => (hashOf pr.1).testBit l) else content p

namespace Stored

/-- There was nothing on the new page. -/
theorem new_eq_nil (hs : Stored o pagf marks content) (hl : Leaf marks h l) : content (h % 2 ^ l + 2 ^ l) = [] := by
  refine List.eq_nil_iff_forall_not_mem.mpr (fun pr hpr => ?_)
  obtain ⟨l',hl',hpage⟩ := hs.routed _ pr hpr
  have hpos : 0 < 2 ^ l := Nat.two_pow_pos l
  have hlt : hashOf pr.1 % 2 ^ l' < 2 ^ l' := Nat.mod_lt _ (Nat.two_pow_pos l')
  have hlevel : l < l' := (Nat.pow_lt_pow_iff_right (by decide : 1 < 2)).mp (by omega)
  have hdvd : 2 ^ l ∣ 2 ^ l' := Nat.pow_dvd_pow 2 hlevel.le
  have hmod : h % 2 ^ l = hashOf pr.1 % 2 ^ l := by
    rw [← Nat.mod_mod_of_dvd (hashOf pr.1) hdvd,hpage,Nat.add_mod_right,Nat.mod_mod]
  have := (hl.congr hmod).unique hl'
  omega

theorem held_split (hs : Stored o pagf marks content) (hl : Leaf marks h l) :
    Held (splitContent content (h % 2 ^ l) l) pr ↔ Held content pr := by
  have hpos : 0 < 2 ^ l := Nat.two_pow_pos l
  constructor
  · rintro ⟨p,hp⟩
    rw [splitContent] at hp
    split_ifs at hp
    · exact ⟨_,(List.mem_filter.mp hp).1⟩
    · exact ⟨_,(List.mem_filter.mp hp).1⟩
    · exact ⟨p,hp⟩
  · rintro ⟨p,hp⟩
    by_cases hq : p = h % 2 ^ l
    · rw [hq] at hp
      cases hbit : (hashOf pr.1).testBit l with
      | false => exact ⟨h % 2 ^ l,by rw [splitContent,if_pos rfl]; exact List.mem_filter.mpr ⟨hp,by rw [hbit]; rfl⟩⟩
      | true =>
        refine ⟨h % 2 ^ l + 2 ^ l,?_⟩
        rw [splitContent,if_neg (by omega),if_pos rfl]
        exact List.mem_filter.mpr ⟨hp,hbit⟩
    · refine ⟨p,?_⟩
      rw [splitContent,if_neg hq,if_neg]
      · exact hp
      · rintro rfl
        rw [hs.new_eq_nil hl] at hp
        cases hp

/-- The page below the leaf has the pairs with one more bit in common. -/
theorem splitContent_mod_succ (hs : Stored o pagf marks content) (hl : Leaf marks h l) :
    splitContent content (h % 2 ^ l) l (h % 2 ^ (l + 1)) = (content (h % 2 ^ l)).filter (near (l + 1) h) := by
  have hpos : 0 < 2 ^ l := Nat.two_pow_pos l
  have hnear : ∀ pr ∈ content (h % 2 ^ l), near (l + 1) h pr = ((hashOf pr.1).testBit l == h.testBit l) := by
    intro pr hpr
    have hlow := hs.near_of_mem hl hpr
    rw [near,mod_succ,mod_succ h,hlow]
    cases (hashOf pr.1).testBit l <;> cases h.testBit l <;> simp
  rw [List.filter_congr hnear,mod_succ]
  cases hbit : h.testBit l with
  | false =>
    rw [if_neg Bool.false_ne_true,Nat.add_zero,splitContent,if_pos rfl]
    refine List.filter_congr (fun pr _ => ?_)
    cases (hashOf pr.1).testBit l <;> rfl
  | true =>
    rw [if_pos rfl,splitContent,if_neg (by omega),if_pos rfl]
    refine List.filter_congr (fun pr _ => ?_)
    cases (hashOf pr.1).testBit l <;> rfl

/-- A page is split: both halves are written, and the leaf becomes an inner node. -/
theorem split (hs : Stored o pagf marks content) (hl : Leaf marks h l) (hlevel : l ≤ 14) {pagf' : List Page} {pag new : Page}
    (hpag : Holds o pag ((content (h % 2 ^ l)).filter (fun pr => !(hashOf pr.1).testBit l)))
    (hnew : Holds o new ((content (h % 2 ^ l)).filter (fun pr => (hashOf pr.1).testBit l)))
    (hlength : pagf'.length = max pagf.length (h % 2 ^ l + 2 ^ l + 1))
    (hpages : ∀ p, pagf'.getD p blank =
      if p = h % 2 ^ l then pag else if p = h % 2 ^ l + 2 ^ l then new else pagf.getD p blank) :
    Stored o pagf' (mark marks (node h l)) (splitContent content (h % 2 ^ l) l) := by
  refine ⟨hs.closed.mark hl,?_,?_,?_,?_,?_⟩
  · intro n hn
    by_cases heq : n = node h l
    · have hbound := (node_bounds h l).2
      have hpow : 2 ^ (l + 1) ≤ 2 ^ 15 := Nat.pow_le_pow_right (by decide) (by omega)
      omega
    · rw [mark_of_ne heq] at hn
      exact hs.shallow n hn
  · intro p
    rw [hpages,splitContent]
    split_ifs
    · exact hpag
    · exact hnew
    · exact hs.holds p
  · intro h' l' hl'
    rw [hlength]
    rcases leaf_mark_cases hs.closed hl hl' with ⟨hmod,rfl⟩ | ⟨hold,-⟩
    · rw [mod_succ,hmod]
      split_ifs <;> omega
    · have := hs.present h' l' hold
      omega
  · intro p pr hpr
    have hbelow : ∀ pr ∈ content (h % 2 ^ l), Leaf (mark marks (node h l)) (hashOf pr.1) (l + 1) :=
      fun pr hpr => hl.below hs.closed (hs.near_of_mem hl hpr)
    rw [splitContent] at hpr
    split_ifs at hpr with hq hq'
    · obtain ⟨hmem,hbit⟩ := List.mem_filter.mp hpr
      refine ⟨l + 1,hbelow pr hmem,?_⟩
      rw [mod_succ,hs.near_of_mem hl hmem,if_neg (by simpa using hbit),hq,Nat.add_zero]
    · obtain ⟨hmem,hbit⟩ := List.mem_filter.mp hpr
      refine ⟨l + 1,hbelow pr hmem,?_⟩
      rw [mod_succ,hs.near_of_mem hl hmem,if_pos hbit,hq']
    · obtain ⟨l',hl',rfl⟩ := hs.routed p pr hpr
      refine ⟨l',hl'.beside ?_,rfl⟩
      rintro ⟨rfl,hmod⟩
      exact hq hmod
  · intro p
    rw [splitContent]
    split_ifs
    · exact (hs.nodup _).sublist (List.filter_sublist.map _)
    · exact (hs.nodup _).sublist (List.filter_sublist.map _)
    · exact hs.nodup p

end Stored
end Edelib.Sdbm
