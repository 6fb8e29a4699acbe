import Mathlib.Data.Fintype.Card
import Mathlib.Data.List.Lex
import Mathlib.Data.Set.Finite.Lattice
import Mathlib.Logic.Relation
import Mathlib.Order.WellFounded

/-! # The tree below a node of a graph

A walk takes a node, and then what is below each of the nodes that it goes on to, in their
order. A place in the tree is the list of the turns that lead there, and a walk takes the
places in dictionary order.
-/
namespace Edelib.Foundation.Unfolding
variable {α : Type*} (next : α → List α)

abbrev Step (a b : α) : Prop := b ∈ next a

inductive Way : α → List ℕ → α → Prop
  | here (a : α) : Way a [] a
  | down {a b c : α} {i : ℕ} {p : List ℕ} (h : (next a)[i]? = some b) (hp : Way b p c) : Way a (i :: p) c

def under (p : List ℕ) (tree : List (List ℕ × α)) : List (List ℕ × α) := tree.map (fun v => (p ++ v.1,v.2))

def below (walk : α → Option (List (List ℕ × α))) : ℕ → List α → Option (List (List ℕ × α))
  | _,[] => some []
  | i,b :: bs => (walk b).bind fun tree => (below walk (i + 1) bs).map fun rest => under [i] tree ++ rest

def walk : ℕ → α → Option (List (List ℕ × α))
  | 0,_ => none
  | n + 1,a => (below (walk n) 0 (next a)).map (fun tree => ([],a) :: tree)

variable {next}

@[simp] theorem mem_under {p q : List ℕ} {c : α} {tree : List (List ℕ × α)} :
    (q,c) ∈ under p tree ↔ ∃ r, q = p ++ r ∧ (r,c) ∈ tree := by
  unfold under
  constructor
  · intro h
    obtain ⟨v,hv,heq⟩ := List.mem_map.mp h
    obtain ⟨rfl,rfl⟩ := Prod.mk.inj heq
    exact ⟨v.1,rfl,hv⟩
  · rintro ⟨r,rfl,hr⟩
    exact List.mem_map.mpr ⟨(r,c),hr,rfl⟩

theorem below_cons {walk : α → Option (List (List ℕ × α))} {i : ℕ} {b : α} {bs : List α} {l : List (List ℕ × α)} :
    below walk i (b :: bs) = some l ↔
      ∃ tree rest, walk b = some tree ∧ below walk (i + 1) bs = some rest ∧ l = under [i] tree ++ rest := by
  rw [below,Option.bind_eq_some_iff]
  constructor
  · rintro ⟨tree,htree,hmap⟩
    obtain ⟨rest,hrest,rfl⟩ := Option.map_eq_some_iff.mp hmap
    exact ⟨tree,rest,htree,hrest,rfl⟩
  · rintro ⟨tree,rest,htree,hrest,rfl⟩
    exact ⟨tree,htree,Option.map_eq_some_iff.mpr ⟨rest,hrest,rfl⟩⟩

theorem walk_succ {n : ℕ} {a : α} {l : List (List ℕ × α)} :
    walk next (n + 1) a = some l ↔ ∃ tree, below (walk next n) 0 (next a) = some tree ∧ l = ([],a) :: tree := by
  rw [walk,Option.map_eq_some_iff]
  exact exists_congr (fun tree => and_congr_right (fun _ => eq_comm))

/-! ## What a walk takes -/

theorem mem_below {walk : α → Option (List (List ℕ × α))}
    (hwalk : ∀ b tree, walk b = some tree → ∀ p c, (p,c) ∈ tree ↔ Way next b p c) {bs : List α} {i : ℕ}
    {l : List (List ℕ × α)} (h : below walk i bs = some l) {p : List ℕ} {c : α} :
    (p,c) ∈ l ↔ ∃ j b q, bs[j]? = some b ∧ p = (i + j) :: q ∧ Way next b q c := by
  induction bs generalizing i l with
  | nil =>
    obtain rfl := Option.some.inj h
    simp
  | cons b bs ih =>
    obtain ⟨tree,rest,htree,hrest,rfl⟩ := below_cons.mp h
    rw [List.mem_append,mem_under,ih hrest]
    constructor
    · rintro (⟨q,rfl,hq⟩ | ⟨j,b',q,hb',rfl,hq⟩)
      · exact ⟨0,b,q,rfl,rfl,(hwalk b tree htree q c).mp hq⟩
      · exact ⟨j + 1,b',q,hb',by rw [Nat.add_right_comm,Nat.add_assoc],hq⟩
    · rintro ⟨j,b',q,hb',rfl,hq⟩
      cases j with
      | zero =>
        obtain rfl := Option.some.inj hb'
        exact Or.inl ⟨q,rfl,(hwalk b tree htree q c).mpr hq⟩
      | succ j => exact Or.inr ⟨j,b',q,hb',by rw [Nat.add_right_comm,Nat.add_assoc],hq⟩

theorem mem_walk {n : ℕ} {a : α} {l : List (List ℕ × α)} (h : walk next n a = some l) (p : List ℕ) (c : α) :
    (p,c) ∈ l ↔ Way next a p c := by
  induction n generalizing a l p c with
  | zero => cases h
  | succ n ih =>
    obtain ⟨tree,htree,rfl⟩ := walk_succ.mp h
    rw [List.mem_cons,mem_below (fun b tree hb p c => ih hb p c) htree]
    constructor
    · rintro (heq | ⟨j,b,q,hb,rfl,hq⟩)
      · obtain ⟨rfl,rfl⟩ := Prod.mk.inj heq
        exact .here _
      · rw [Nat.zero_add]
        exact .down hb hq
    · intro hway
      cases hway with
      | here => exact Or.inl rfl
      | down hb hq => exact Or.inr ⟨_,_,_,hb,by rw [Nat.zero_add],hq⟩

/-! ## The order of a walk -/

def Sorted (l : List (List ℕ × α)) : Prop := l.Pairwise (fun v w => v.1 < w.1)

/-- In the order of a walk, the pairs of a relation are those in the order of their places. -/
theorem Sorted.pairwise_iff {l : List (List ℕ × α)} (h : Sorted l) {R : List ℕ × α → List ℕ × α → Prop} :
    l.Pairwise R ↔ ∀ v ∈ l, ∀ w ∈ l, v.1 < w.1 → R v w := by
  constructor
  · intro hR
    induction l with
    | nil => exact fun v hv => absurd hv List.not_mem_nil
    | cons u l ih =>
      obtain ⟨hu,hl⟩ := List.pairwise_cons.mp h
      obtain ⟨hRu,hRl⟩ := List.pairwise_cons.mp hR
      intro v hv w hw hlt
      rcases List.mem_cons.mp hv with rfl | hvl
      · rcases List.mem_cons.mp hw with rfl | hwl
        · exact absurd hlt (lt_irrefl _)
        · exact hRu w hwl
      · rcases List.mem_cons.mp hw with rfl | hwl
        · exact absurd (hlt.trans (hu v hvl)) (lt_irrefl _)
        · exact ih hl hRl v hvl w hwl hlt
  · exact fun hR => h.imp_of_mem (fun hv hw hlt => hR _ hv _ hw hlt)

theorem Sorted.eq_of_mem {l : List (List ℕ × α)} (h : Sorted l) {p : List ℕ} {b c : α} (hb : (p,b) ∈ l)
    (hc : (p,c) ∈ l) : b = c := by
  induction l with
  | nil => exact absurd hb List.not_mem_nil
  | cons u l ih =>
    obtain ⟨hu,hl⟩ := List.pairwise_cons.mp h
    rcases List.mem_cons.mp hb with rfl | hbl
    · rcases List.mem_cons.mp hc with heq | hcl
      · exact (Prod.mk.inj heq).2.symm
      · exact absurd (hu (p,c) hcl) (lt_irrefl p)
    · rcases List.mem_cons.mp hc with rfl | hcl
      · exact absurd (hu (p,b) hbl) (lt_irrefl p)
      · exact ih hl hbl hcl

theorem append_lt_append_left {p q r : List ℕ} : p ++ q < p ++ r ↔ q < r := by
  induction p with
  | nil => exact Iff.rfl
  | cons i p ih => simp [List.cons_append,ih]

theorem sorted_under {l : List (List ℕ × α)} (h : Sorted l) (p : List ℕ) : Sorted (under p l) := by
  rw [Sorted,under,List.pairwise_map]
  exact h.imp (fun hlt => append_lt_append_left.mpr hlt)

theorem sorted_below {n : ℕ} (hwalk : ∀ b tree, walk next n b = some tree → Sorted tree) {bs : List α} {i : ℕ}
    {l : List (List ℕ × α)} (h : below (walk next n) i bs = some l) : Sorted l := by
  induction bs generalizing i l with
  | nil =>
    obtain rfl := Option.some.inj h
    exact List.Pairwise.nil
  | cons b bs ih =>
    obtain ⟨tree,rest,htree,hrest,rfl⟩ := below_cons.mp h
    refine List.pairwise_append.mpr ⟨sorted_under (hwalk b tree htree) _,ih hrest,fun v hv w hw => ?_⟩
    obtain ⟨q,hv,-⟩ := mem_under.mp hv
    obtain ⟨j,-,r,-,hw,-⟩ := (mem_below (fun b tree hb p c => mem_walk hb p c) hrest).mp hw
    rw [hv,hw,List.singleton_append,List.cons_lt_cons_iff]
    exact Or.inl (by omega)

theorem sorted_walk {n : ℕ} {a : α} {l : List (List ℕ × α)} (h : walk next n a = some l) : Sorted l := by
  induction n generalizing a l with
  | zero => cases h
  | succ n ih =>
    obtain ⟨tree,htree,rfl⟩ := walk_succ.mp h
    refine List.Pairwise.cons (fun w hw => ?_) (sorted_below (fun b tree hb => ih hb) htree)
    obtain ⟨j,-,q,-,hw,-⟩ := (mem_below (fun b tree hb p c => mem_walk hb p c) htree).mp hw
    rw [hw]
    exact List.nil_lt_cons _ _

/-! ## When a walk ends -/

theorem below_mono {walk walk' : α → Option (List (List ℕ × α))}
    (hwalk : ∀ b tree, walk b = some tree → walk' b = some tree) {bs : List α} {i : ℕ} {l : List (List ℕ × α)}
    (h : below walk i bs = some l) : below walk' i bs = some l := by
  induction bs generalizing i l with
  | nil => exact h
  | cons b bs ih =>
    obtain ⟨tree,rest,htree,hrest,rfl⟩ := below_cons.mp h
    exact below_cons.mpr ⟨tree,rest,hwalk b tree htree,ih hrest,rfl⟩

theorem walk_mono {n m : ℕ} (hle : n ≤ m) {a : α} {l : List (List ℕ × α)} (h : walk next n a = some l) :
    walk next m a = some l := by
  induction n generalizing m a l with
  | zero => cases h
  | succ n ih =>
    obtain ⟨m,rfl⟩ : ∃ k, m = k + 1 := ⟨m - 1,by omega⟩
    obtain ⟨tree,htree,rfl⟩ := walk_succ.mp h
    exact walk_succ.mpr ⟨tree,below_mono (fun b tree hb => ih (by omega) hb) htree,rfl⟩

theorem exists_below {bs : List α} (h : ∀ b ∈ bs, ∃ n l, walk next n b = some l) (i : ℕ) :
    ∃ n l, below (walk next n) i bs = some l := by
  induction bs generalizing i with
  | nil => exact ⟨0,[],rfl⟩
  | cons b bs ih =>
    obtain ⟨n,tree,htree⟩ := h b List.mem_cons_self
    obtain ⟨m,rest,hrest⟩ := ih (fun c hc => h c (List.mem_cons_of_mem b hc)) (i + 1)
    refine ⟨max n m,_,below_cons.mpr ⟨tree,rest,walk_mono (le_max_left n m) htree,?_,rfl⟩⟩
    exact below_mono (fun c tree hc => walk_mono (le_max_right n m) hc) hrest

theorem exists_of_below {walk : α → Option (List (List ℕ × α))} {bs : List α} {i : ℕ} {l : List (List ℕ × α)}
    (h : below walk i bs = some l) : ∀ b ∈ bs, ∃ tree, walk b = some tree := by
  induction bs generalizing i l with
  | nil => exact fun b hb => absurd hb List.not_mem_nil
  | cons b bs ih =>
    obtain ⟨tree,rest,htree,hrest,rfl⟩ := below_cons.mp h
    intro c hc
    rcases List.mem_cons.mp hc with rfl | hc
    · exact ⟨tree,htree⟩
    · exact ih hrest c hc

/-- A walk ends if and only if every way down does. -/
theorem exists_walk_iff {a : α} : (∃ n l, walk next n a = some l) ↔ Acc (fun b a => Step next a b) a := by
  constructor
  · rintro ⟨n,l,h⟩
    induction n generalizing a l with
    | zero => cases h
    | succ n ih =>
      obtain ⟨tree,htree,-⟩ := walk_succ.mp h
      refine Acc.intro a (fun b hb => ?_)
      obtain ⟨tree',htree'⟩ := exists_of_below htree b hb
      exact ih tree' htree'
  · intro h
    induction h with
    | intro a _ ih =>
      obtain ⟨n,tree,htree⟩ := exists_below (fun b hb => ih b hb) 0
      exact ⟨n + 1,_,walk_succ.mpr ⟨tree,htree,rfl⟩⟩

abbrev Reaches (next : α → List α) : α → α → Prop := Relation.ReflTransGen (Step next)

theorem exists_way_iff {a b : α} : (∃ p, Way next a p b) ↔ Reaches next a b := by
  constructor
  · rintro ⟨p,h⟩
    induction h with
    | here a => exact .refl
    | down hb _ ih => exact .head (List.mem_of_getElem? hb) ih
  · intro h
    induction h using Relation.ReflTransGen.head_induction_on with
    | refl => exact ⟨[],.here b⟩
    | head hstep _ ih =>
      obtain ⟨i,hi⟩ := List.mem_iff_getElem?.mp hstep
      obtain ⟨p,hp⟩ := ih
      exact ⟨i :: p,.down hi hp⟩

theorem finite_reaches (hfin : {a | next a ≠ []}.Finite) (a : α) : {b | Reaches next a b}.Finite := by
  have hnext : (⋃ c ∈ {c | next c ≠ []}, {b | b ∈ next c}).Finite := hfin.biUnion (fun c _ => (next c).finite_toSet)
  refine (hnext.insert a).subset (fun b hb => ?_)
  rcases Relation.ReflTransGen.cases_tail hb with rfl | ⟨c,-,hstep⟩
  · exact Set.mem_insert b _
  · refine Set.mem_insert_of_mem a (Set.mem_biUnion (x := c) (List.ne_nil_of_mem hstep) hstep)

/-- Where few nodes go on to others, all ways down end if and only if none leads to a node that
stands below itself. -/
theorem acc_iff (hfin : {a | next a ≠ []}.Finite) {a : α} :
    Acc (fun b a => Step next a b) a ↔ ∀ b, Reaches next a b → ¬ Relation.TransGen (Step next) b b := by
  constructor
  · intro hacc b hb
    have haccb : Acc (fun b a => Step next a b) b := by
      induction hb with
      | refl => exact hacc
      | tail _ hstep ih => exact ih.inv hstep
    intro hcycle
    have hirrefl : ∀ c, Acc (Relation.TransGen (fun b a => Step next a b)) c →
        ¬ Relation.TransGen (fun b a => Step next a b) c c := by
      intro c hc
      induction hc with
      | intro c _ ih => exact fun h => ih c h h
    exact hirrefl b haccb.transGen (Relation.transGen_swap.mp hcycle)
  · intro h
    have hfinite : Finite {b // Reaches next a b} := (finite_reaches hfin a).to_subtype
    let r : {b // Reaches next a b} → {b // Reaches next a b} → Prop :=
      fun c b => Relation.TransGen (Step next) b.1 c.1
    have htrans : IsTrans _ r := ⟨fun _ _ _ h₁ h₂ => Relation.TransGen.trans h₂ h₁⟩
    have hirrefl : Std.Irrefl r := ⟨fun b => h b.1 b.2⟩
    have hwf : WellFounded r := Finite.wellFounded_of_trans_of_irrefl r
    have hall : ∀ b : {b // Reaches next a b}, Acc (fun b a => Step next a b) b.1 := by
      intro b
      induction b using hwf.induction with
      | _ b ih => exact Acc.intro b.1 (fun c hc => ih ⟨c,b.2.tail hc⟩ (.single hc))
    exact hall ⟨a,.refl⟩

/-! ## A tree that is put under the first leaf of another -/

theorem Way.eq {a b c : α} {p : List ℕ} (hb : Way next a p b) (hc : Way next a p c) : b = c := by
  induction hb with
  | here a =>
    cases hc
    rfl
  | down hstep _ ih =>
    cases hc with
    | down hstep' hc =>
      obtain rfl := Option.some.inj (hstep.symm.trans hstep')
      exact ih hc

theorem way_append {a c : α} {p q : List ℕ} : Way next a (p ++ q) c ↔ ∃ b, Way next a p b ∧ Way next b q c := by
  constructor
  · intro h
    induction p generalizing a with
    | nil => exact ⟨a,.here a,h⟩
    | cons i p ih =>
      cases h with
      | down hstep h =>
        obtain ⟨b,hb,hc⟩ := ih h
        exact ⟨b,.down hstep hb,hc⟩
  · rintro ⟨b,hb,hc⟩
    induction hb with
    | here a => exact hc
    | down hstep _ ih => exact .down hstep (ih hc)

theorem Way.eq_of_begins {a b c : α} {p q : List ℕ} (hb : Way next a p b) (hnext : next b = [])
    (hc : Way next a q c) (hpre : p <+: q) : q = p := by
  obtain ⟨r,rfl⟩ := hpre
  obtain ⟨b',hb',hr⟩ := way_append.mp hc
  obtain rfl := hb.eq hb'
  cases hr with
  | here => exact List.append_nil p
  | down hstep _ =>
    rw [hnext] at hstep
    cases hstep

theorem append_lt_of_not_prefix {p q r : List ℕ} (hlt : p < q) (hpre : ¬ p <+: q) : p ++ r < q := by
  induction p generalizing q with
  | nil => exact absurd (List.nil_prefix) hpre
  | cons i p ih =>
    cases q with
    | nil => exact absurd hlt (List.not_lt_nil _)
    | cons j q =>
      rw [List.cons_append,List.cons_lt_cons_iff]
      rcases List.cons_lt_cons_iff.mp hlt with hij | ⟨rfl,hpq⟩
      · exact Or.inl hij
      · exact Or.inr ⟨rfl,ih hpq (fun hbegins => hpre ((List.prefix_cons_inj i).mpr hbegins))⟩

theorem lt_append_cons (p q : List ℕ) (i : ℕ) : p < p ++ i :: q := by
  have hlt := append_lt_append_left (p := p).mpr (List.nil_lt_cons i q)
  rwa [List.append_nil] at hlt

variable (leaf : α → Prop) [DecidablePred leaf]

def graft (h : List (List ℕ × α)) : List (List ℕ × α) → List (List ℕ × α)
  | [] => []
  | v :: l => if leaf v.2 then v :: (under (v.1 ++ [0]) h ++ l) else v :: graft h l

variable {leaf}

structure FirstIn (leaf : α → Prop) (Place : List ℕ → α → Prop) (p : List ℕ) : Prop where
  isLeaf : ∃ c, Place p c ∧ leaf c
  least : ∀ q c, Place q c → leaf c → p ≤ q

theorem graft_eq_self {h l : List (List ℕ × α)} (hleaf : ∀ v ∈ l, ¬ leaf v.2) : graft leaf h l = l := by
  induction l with
  | nil => rfl
  | cons v l ih =>
    rw [graft,if_neg (hleaf v List.mem_cons_self),ih (fun w hw => hleaf w (List.mem_cons_of_mem v hw))]

theorem graft_append_of_leaf {h l l' : List (List ℕ × α)} (hleaf : ∃ v ∈ l, leaf v.2) :
    graft leaf h (l ++ l') = graft leaf h l ++ l' := by
  induction l with
  | nil =>
    obtain ⟨v,hv,-⟩ := hleaf
    exact absurd hv List.not_mem_nil
  | cons v l ih =>
    rw [List.cons_append,graft,graft]
    split_ifs with hlv
    · rw [List.cons_append,List.append_assoc]
    · obtain ⟨w,hw,hlw⟩ := hleaf
      rcases List.mem_cons.mp hw with rfl | hw
      · exact absurd hlw hlv
      · rw [List.cons_append,ih ⟨w,hw,hlw⟩]

theorem graft_append_of_not {h l l' : List (List ℕ × α)} (hleaf : ∀ v ∈ l, ¬ leaf v.2) :
    graft leaf h (l ++ l') = l ++ graft leaf h l' := by
  induction l with
  | nil => rfl
  | cons v l ih =>
    rw [List.cons_append,graft,if_neg (hleaf v List.mem_cons_self),
      ih (fun w hw => hleaf w (List.mem_cons_of_mem v hw)),List.cons_append]

theorem under_under (p q : List ℕ) (l : List (List ℕ × α)) : under p (under q l) = under (p ++ q) l := by
  simp [under]

theorem graft_under (p : List ℕ) (h l : List (List ℕ × α)) :
    graft leaf h (under p l) = under p (graft leaf h l) := by
  induction l with
  | nil => rfl
  | cons v l ih =>
    have hcons : under p (v :: l) = (p ++ v.1,v.2) :: under p l := rfl
    rw [hcons,graft,graft]
    split_ifs
    · have happend : under p (v :: (under (v.1 ++ [0]) h ++ l)) =
          (p ++ v.1,v.2) :: (under p (under (v.1 ++ [0]) h) ++ under p l) := by simp [under]
      rw [happend,under_under,List.append_assoc]
    · rw [ih]
      rfl

theorem mem_graft {h l : List (List ℕ × α)} (hl : Sorted l) {p : List ℕ} {c : α} :
    (p,c) ∈ graft leaf h l ↔
      (p,c) ∈ l ∨ ∃ q r, FirstIn leaf (fun q d => (q,d) ∈ l) q ∧ p = q ++ 0 :: r ∧ (r,c) ∈ h := by
  induction l with
  | nil =>
    refine iff_of_false List.not_mem_nil ?_
    rintro (hmem | ⟨q,r,⟨⟨d,hd,-⟩,-⟩,-⟩)
    · exact List.not_mem_nil hmem
    · exact List.not_mem_nil hd
  | cons v l ih =>
    obtain ⟨hv,hl⟩ := List.pairwise_cons.mp hl
    by_cases hleaf : leaf v.2
    · have hfirst : FirstIn leaf (fun q d => (q,d) ∈ v :: l) v.1 := by
        refine ⟨⟨v.2,List.mem_cons_self,hleaf⟩,fun q d hd _ => ?_⟩
        rcases List.mem_cons.mp hd with heq | hd
        · rw [← heq]
        · exact (hv (q,d) hd).le
      rw [graft,if_pos hleaf,List.mem_cons,List.mem_append,mem_under,List.mem_cons]
      constructor
      · rintro (heq | ⟨r,rfl,hr⟩ | hmem)
        · exact Or.inl (Or.inl heq)
        · exact Or.inr ⟨v.1,r,hfirst,List.append_assoc _ _ _,hr⟩
        · exact Or.inl (Or.inr hmem)
      · rintro ((heq | hmem) | ⟨q,r,hq,rfl,hr⟩)
        · exact Or.inl heq
        · exact Or.inr (Or.inr hmem)
        · obtain ⟨d,hd,hleafd⟩ := hq.isLeaf
          obtain rfl := le_antisymm (hq.least v.1 v.2 List.mem_cons_self hleaf) (hfirst.least q d hd hleafd)
          exact Or.inr (Or.inl ⟨r,List.append_cons v.1 0 r,hr⟩)
    · have hfirst : ∀ q, FirstIn leaf (fun q d => (q,d) ∈ v :: l) q ↔ FirstIn leaf (fun q d => (q,d) ∈ l) q := by
        have hskip : ∀ q d, leaf d → ((q,d) ∈ v :: l ↔ (q,d) ∈ l) := by
          intro q d hd
          refine ⟨fun hmem => (List.mem_cons.mp hmem).resolve_left (fun heq => ?_),List.mem_cons_of_mem v⟩
          rw [← heq] at hleaf
          exact hleaf hd
        intro q
        constructor
        · rintro ⟨⟨d,hd,hleafd⟩,hleast⟩
          exact ⟨⟨d,(hskip q d hleafd).mp hd,hleafd⟩,fun r e he hleafe => hleast r e ((hskip r e hleafe).mpr he) hleafe⟩
        · rintro ⟨⟨d,hd,hleafd⟩,hleast⟩
          exact ⟨⟨d,(hskip q d hleafd).mpr hd,hleafd⟩,fun r e he hleafe => hleast r e ((hskip r e hleafe).mp he) hleafe⟩
      rw [graft,if_neg hleaf,List.mem_cons,ih hl,List.mem_cons,or_assoc]
      simp only [hfirst]

/-- A tree under a leaf comes between the leaf and what is behind it. -/
theorem sorted_graft {h l : List (List ℕ × α)} (hl : Sorted l) (hh : Sorted h)
    (hleaf : ∀ v ∈ l, leaf v.2 → ∀ w ∈ l, v.1 <+: w.1 → w.1 = v.1) : Sorted (graft leaf h l) := by
  induction l with
  | nil => exact List.Pairwise.nil
  | cons v l ih =>
    have htail := ih (List.pairwise_cons.mp hl).2 (fun w hw hlw u hu => hleaf w (List.mem_cons_of_mem v hw) hlw u
      (List.mem_cons_of_mem v hu))
    have hsorted := (List.pairwise_cons.mp hl).2
    have hv := (List.pairwise_cons.mp hl).1
    rw [graft]
    split_ifs with hlv
    · refine List.Pairwise.cons (fun w hw => ?_)
        (List.pairwise_append.mpr ⟨sorted_under hh _,hsorted,fun u hu w hw => ?_⟩)
      · rcases List.mem_append.mp hw with hw | hw
        · obtain ⟨r,hw,-⟩ := mem_under.mp hw
          rw [hw,List.append_assoc]
          exact lt_append_cons v.1 r 0
        · exact hv w hw
      · obtain ⟨r,hu,-⟩ := mem_under.mp hu
        rw [hu,List.append_assoc]
        refine append_lt_of_not_prefix (hv w hw) (fun hpre => ?_)
        have heq := hleaf v List.mem_cons_self hlv w (List.mem_cons_of_mem v hw) hpre
        exact absurd (hv w hw) (by rw [heq]; exact lt_irrefl v.1)
    · refine List.Pairwise.cons (fun w hw => ?_) htail
      rcases (mem_graft hsorted (p := w.1) (c := w.2)).mp hw with hw | ⟨q,r,⟨⟨d,hd,-⟩,-⟩,hw,-⟩
      · exact hv w hw
      · rw [hw]
        exact (hv (q,d) hd).trans (lt_append_cons q r 0)

end Edelib.Foundation.Unfolding
