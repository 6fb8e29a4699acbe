import Mathlib.Algebra.Order.Ring.Int
import Mathlib.Data.List.Basic
import Mathlib.Data.List.InsertIdx

/-! # Rings of linked nodes

The nodes of a ring are linked both ways, through a sentinel without a value. The links
lead from each node of one list to that at the same place of another, which begins one
node later.
-/
namespace Edelib.Foundation

structure Node (α : Type*) where
  value : Option α
  next : ℕ
  prev : ℕ

abbrev Nodes (α : Type*) := ℕ → Option (Node α)

namespace Nodes
variable {α : Type*}

def next (h : Nodes α) (a : ℕ) : Option ℕ := (h a).map Node.next

def prev (h : Nodes α) (a : ℕ) : Option ℕ := (h a).map Node.prev

def value (h : Nodes α) (a : ℕ) : Option (Option α) := (h a).map Node.value

def put (h : Nodes α) (a : ℕ) (n : Option (Node α)) : Nodes α := fun b => if b = a then n else h b

/-- `p->next = q`. -/
def setNext (h : Nodes α) (p q : ℕ) : Option (Nodes α) := (h p).map (fun n => h.put p (some { n with next := q }))

/-- `q->prev = p`. -/
def setPrev (h : Nodes α) (q p : ℕ) : Option (Nodes α) := (h q).map (fun n => h.put q (some { n with prev := p }))

def insertBefore (h : Nodes α) (tmp : ℕ) (val : α) (q : ℕ) : Option (Nodes α) :=
  (h.prev q).bind fun p =>
  ((h.put tmp (some ⟨some val,q,p⟩)).setNext p tmp).bind fun h =>
  h.setPrev q tmp

/-- A node is linked past and freed; its own link leads to the node after it. -/
def unlink (h : Nodes α) (q : ℕ) : Option (Nodes α × ℕ) :=
  (h q).bind fun n =>
  (h.setNext n.prev n.next).bind fun h =>
  (h.setPrev n.next n.prev).bind fun h =>
  (h.next q).map fun ret => (h.put q none,ret)

theorem next_put (h : Nodes α) (b : ℕ) (n : Option (Node α)) (a : ℕ) :
    (h.put b n).next a = if a = b then n.map Node.next else h.next a := by
  by_cases ha : a = b
  · rw [next,put,if_pos ha,if_pos ha]
  · rw [next,put,if_neg ha,if_neg ha,next]

theorem prev_put (h : Nodes α) (b : ℕ) (n : Option (Node α)) (a : ℕ) :
    (h.put b n).prev a = if a = b then n.map Node.prev else h.prev a := by
  by_cases ha : a = b
  · rw [prev,put,if_pos ha,if_pos ha]
  · rw [prev,put,if_neg ha,if_neg ha,prev]

theorem value_put (h : Nodes α) (b : ℕ) (n : Option (Node α)) (a : ℕ) :
    (h.put b n).value a = if a = b then n.map Node.value else h.value a := by
  by_cases ha : a = b
  · rw [value,put,if_pos ha,if_pos ha]
  · rw [value,put,if_neg ha,if_neg ha,value]

theorem setNext_spec {h : Nodes α} {p q : ℕ} (hp : h.value p ≠ none) : ∃ h', h.setNext p q = some h' ∧
    (∀ a, h'.next a = if a = p then some q else h.next a) ∧ h'.prev = h.prev ∧ h'.value = h.value := by
  cases hn : h p with
  | none =>
    rw [value,hn] at hp
    exact absurd rfl hp
  | some n =>
    refine ⟨_,by rw [setNext,hn,Option.map_some],next_put h p _,funext fun a => ?_,funext fun a => ?_⟩
    · rw [prev_put]
      split_ifs with ha
      · rw [ha,prev,hn,Option.map_some,Option.map_some]
      · rfl
    · rw [value_put]
      split_ifs with ha
      · rw [ha,value,hn,Option.map_some,Option.map_some]
      · rfl

theorem setPrev_spec {h : Nodes α} {q p : ℕ} (hq : h.value q ≠ none) : ∃ h', h.setPrev q p = some h' ∧
    (∀ a, h'.prev a = if a = q then some p else h.prev a) ∧ h'.next = h.next ∧ h'.value = h.value := by
  cases hn : h q with
  | none =>
    rw [value,hn] at hq
    exact absurd rfl hq
  | some n =>
    refine ⟨_,by rw [setPrev,hn,Option.map_some],prev_put h q _,funext fun a => ?_,funext fun a => ?_⟩
    · rw [next_put]
      split_ifs with ha
      · rw [ha,next,hn,Option.map_some,Option.map_some]
      · rfl
    · rw [value_put]
      split_ifs with ha
      · rw [ha,value,hn,Option.map_some,Option.map_some]
      · rfl

theorem value_ne_none_of_next {h : Nodes α} {p q : ℕ} (hp : h.next p = some q) : h.value p ≠ none := by
  obtain ⟨n,hn,-⟩ := Option.map_eq_some_iff.mp hp
  rw [value,hn]
  exact Option.some_ne_none _

theorem value_ne_none_of_prev {h : Nodes α} {p q : ℕ} (hp : h.prev p = some q) : h.value p ≠ none := by
  obtain ⟨n,hn,-⟩ := Option.map_eq_some_iff.mp hp
  rw [value,hn]
  exact Option.some_ne_none _

theorem insertBefore_spec {h : Nodes α} {tmp p q : ℕ} (val : α) (hprev : h.prev q = some p) (hp : h.value p ≠ none)
    (htmp : h.value tmp = none) : ∃ h', h.insertBefore tmp val q = some h' ∧
      (∀ a, h'.next a = if a = p then some tmp else if a = tmp then some q else h.next a) ∧
      (∀ a, h'.prev a = if a = q then some tmp else if a = tmp then some p else h.prev a) ∧
      ∀ a, h'.value a = if a = tmp then some (some val) else h.value a := by
  have hptmp : p ≠ tmp := fun he => hp (he ▸ htmp)
  have hqtmp : q ≠ tmp := fun he => value_ne_none_of_prev hprev (he ▸ htmp)
  obtain ⟨h₁,h₁eq,hnext₁,hprev₁,hvalue₁⟩ : ∃ h₁, (h.put tmp (some ⟨some val,q,p⟩)).setNext p tmp = some h₁ ∧ _ :=
    setNext_spec (by rwa [value_put,if_neg hptmp])
  obtain ⟨h₂,h₂eq,hprev₂,hnext₂,hvalue₂⟩ : ∃ h₂, h₁.setPrev q tmp = some h₂ ∧ _ :=
    setPrev_spec (by rw [hvalue₁,value_put,if_neg hqtmp]; exact value_ne_none_of_prev hprev)
  refine ⟨h₂,by rw [insertBefore,hprev,Option.bind_some,h₁eq,Option.bind_some,h₂eq],fun a => ?_,fun a => ?_,
    fun a => ?_⟩
  · rw [hnext₂,hnext₁,next_put]
    rfl
  · rw [hprev₂,hprev₁,prev_put]
    rfl
  · rw [hvalue₂,hvalue₁,value_put]
    rfl

theorem value_of_unlink {h h' : Nodes α} {q ret : ℕ} (hun : h.unlink q = some (h',ret)) : h'.value q = none := by
  obtain ⟨n,-,hun⟩ := Option.bind_eq_some_iff.mp hun
  obtain ⟨h₁,-,hun⟩ := Option.bind_eq_some_iff.mp hun
  obtain ⟨h₂,-,hun⟩ := Option.bind_eq_some_iff.mp hun
  obtain ⟨r,-,hun⟩ := Option.map_eq_some_iff.mp hun
  cases hun
  rw [value_put,if_pos rfl]
  rfl

/-- The links and values of the other nodes when a node is linked past. -/
theorem unlink_spec {h : Nodes α} {p q ret : ℕ} (hnext : h.next q = some ret) (hprev : h.prev q = some p)
    (hp : h.value p ≠ none) (hret : h.value ret ≠ none) (hqp : q ≠ p) : ∃ h', h.unlink q = some (h',ret) ∧
      (∀ a, a ≠ q → h'.next a = if a = p then some ret else h.next a) ∧
      (∀ a, a ≠ q → h'.prev a = if a = ret then some p else h.prev a) ∧
      ∀ a, h'.value a = if a = q then none else h.value a := by
  obtain ⟨n,hn,hnnext⟩ := Option.map_eq_some_iff.mp hnext
  have hnprev : n.prev = p := by
    rw [prev,hn] at hprev
    exact Option.some.inj hprev
  obtain ⟨h₁,h₁eq,hnext₁,hprev₁,hvalue₁⟩ : ∃ h₁, h.setNext p ret = some h₁ ∧ _ := setNext_spec hp
  obtain ⟨h₂,h₂eq,hprev₂,hnext₂,hvalue₂⟩ : ∃ h₂, h₁.setPrev ret p = some h₂ ∧ _ :=
    setPrev_spec (by rwa [hvalue₁])
  refine ⟨h₂.put q none,?_,fun a ha => ?_,fun a ha => ?_,fun a => ?_⟩
  · rw [unlink,hn,Option.bind_some,hnnext,hnprev,h₁eq,Option.bind_some,h₂eq,Option.bind_some,hnext₂,hnext₁,
      if_neg hqp,hnext,Option.map_some]
  · rw [next_put,if_neg ha,hnext₂,hnext₁]
  · rw [prev_put,if_neg ha,hprev₂,hprev₁]
  · rw [value_put,hvalue₂,hvalue₁]
    rfl

/-- The sentinel and the nodes with the values form a ring, and there are no others. -/
structure Ring (h : Nodes α) (tl : ℕ) (as : List ℕ) (xs : List α) : Prop where
  nodup : (tl :: as).Nodup
  edge : ∀ (i p q : ℕ), (tl :: as)[i]? = some p → (as ++ [tl])[i]? = some q → h.next p = some q ∧ h.prev q = some p
  values : as.map h.value = xs.map (fun x => some (some x))
  sentinel : h.value tl = some none
  only : ∀ a, h.value a ≠ none → a ∈ tl :: as

namespace Ring
variable {h : Nodes α} {tl : ℕ} {as : List ℕ} {xs : List α}

theorem length_eq (hr : Ring h tl as xs) : as.length = xs.length := by
  simpa using congrArg List.length hr.values

theorem nodup_targets (hr : Ring h tl as xs) : (as ++ [tl]).Nodup :=
  (List.perm_append_singleton tl as).nodup_iff.mpr hr.nodup

theorem source_inj (hr : Ring h tl as xs) {i j p : ℕ} (hi : (tl :: as)[i]? = some p) (hj : (tl :: as)[j]? = some p) :
    i = j :=
  (List.getElem?_inj (List.getElem?_eq_some_iff.mp hi).1 hr.nodup).mp (hi.trans hj.symm)

theorem target_inj (hr : Ring h tl as xs) {i j q : ℕ} (hi : (as ++ [tl])[i]? = some q)
    (hj : (as ++ [tl])[j]? = some q) : i = j :=
  (List.getElem?_inj (List.getElem?_eq_some_iff.mp hi).1 hr.nodup_targets).mp (hi.trans hj.symm)

theorem edge_at (hr : Ring h tl as xs) {i q : ℕ} (hq : (as ++ [tl])[i]? = some q) :
    ∃ p, (tl :: as)[i]? = some p ∧ h.next p = some q ∧ h.prev q = some p := by
  have hi : i < (tl :: as).length := by
    have hlt := (List.getElem?_eq_some_iff.mp hq).1
    simpa using hlt
  have hp := List.getElem?_eq_getElem hi
  exact ⟨_,hp,hr.edge i _ q hp hq⟩

theorem value_ne_none (hr : Ring h tl as xs) {a : ℕ} (ha : a ∈ tl :: as) : h.value a ≠ none := by
  obtain ⟨i,hi,rfl⟩ := List.getElem_of_mem ha
  have hlt : i < (as ++ [tl]).length := by simpa using hi
  exact value_ne_none_of_next (hr.edge i _ _ (List.getElem?_eq_getElem hi) (List.getElem?_eq_getElem hlt)).1

theorem next_eq (hr : Ring h tl as xs) {i a : ℕ} (ha : as[i]? = some a) : h.next a = (as ++ [tl])[i + 1]? := by
  have hi : i + 1 < (as ++ [tl]).length := by
    have hlt := (List.getElem?_eq_some_iff.mp ha).1
    simpa using hlt
  have hq := List.getElem?_eq_getElem hi
  rw [hq]
  exact (hr.edge (i + 1) a _ ha hq).1

/-- Pairs at the places of two lists: where an element comes between those of one pair, that
pair gives way to two, and no other changes. -/
theorem pair_insertIdx {β : Type*} {l l' : List β} {i j : ℕ} {p q x p' q' : β} (hp : l[i]? = some p)
    (hq : l'[i]? = some q) (hp' : (l.insertIdx (i + 1) x)[j]? = some p') (hq' : (l'.insertIdx i x)[j]? = some q') :
    (p' = p ∧ q' = x) ∨ (p' = x ∧ q' = q) ∨ ∃ k, k ≠ i ∧ l[k]? = some p' ∧ l'[k]? = some q' := by
  have hi := (List.getElem?_eq_some_iff.mp hp).1
  have hi' := (List.getElem?_eq_some_iff.mp hq).1
  rw [List.getElem?_insertIdx] at hp' hq'
  rcases Nat.lt_trichotomy j i with hji | rfl | hji
  · rw [if_pos (by omega)] at hp'
    rw [if_pos hji] at hq'
    exact Or.inr (Or.inr ⟨j,by omega,hp',hq'⟩)
  · rw [if_pos (by omega),hp] at hp'
    rw [if_neg (by omega),if_pos rfl,if_pos (by omega)] at hq'
    exact Or.inl ⟨(Option.some.inj hp').symm,(Option.some.inj hq').symm⟩
  · rw [if_neg (by omega)] at hp'
    rw [if_neg (by omega),if_neg (by omega)] at hq'
    by_cases hj : j = i + 1
    · rw [if_pos hj,if_pos (by omega)] at hp'
      rw [hj,Nat.add_sub_cancel,hq] at hq'
      exact Or.inr (Or.inl ⟨(Option.some.inj hp').symm,(Option.some.inj hq').symm⟩)
    · rw [if_neg hj] at hp'
      exact Or.inr (Or.inr ⟨j - 1,by omega,hp',hq'⟩)

/-- Where the element between two pairs goes, they become one pair, and no other changes. -/
theorem pair_eraseIdx {β : Type*} {l l' : List β} {i j : ℕ} {p q p' q' : β} (hp : l[i]? = some p)
    (hq : l'[i + 1]? = some q) (hp' : (l.eraseIdx (i + 1))[j]? = some p') (hq' : (l'.eraseIdx i)[j]? = some q') :
    (p' = p ∧ q' = q) ∨ ∃ k, k ≠ i ∧ k ≠ i + 1 ∧ l[k]? = some p' ∧ l'[k]? = some q' := by
  rw [List.getElem?_eraseIdx] at hp' hq'
  rcases Nat.lt_trichotomy j i with hji | rfl | hji
  · rw [if_pos (by omega)] at hp'
    rw [if_pos hji] at hq'
    exact Or.inr ⟨j,by omega,by omega,hp',hq'⟩
  · rw [if_pos (by omega),hp] at hp'
    rw [if_neg (by omega),hq] at hq'
    exact Or.inl ⟨(Option.some.inj hp').symm,(Option.some.inj hq').symm⟩
  · rw [if_neg (by omega)] at hp' hq'
    exact Or.inr ⟨j + 1,by omega,by omega,hp',hq'⟩

theorem insertIdx_append {β : Type*} {l : List β} {i : ℕ} (hi : i ≤ l.length) (x : β) (l' : List β) :
    l.insertIdx i x ++ l' = (l ++ l').insertIdx i x := by
  induction l generalizing i with
  | nil =>
    obtain rfl : i = 0 := Nat.le_zero.mp hi
    rfl
  | cons y l ih =>
    cases i with
    | zero => rfl
    | succ i =>
      rw [List.insertIdx_succ_cons,List.cons_append,List.cons_append,List.insertIdx_succ_cons,
        ih (Nat.le_of_succ_le_succ hi)]

/-- A node linked in before the one at a place is at that place. -/
theorem insert (hr : Ring h tl as xs) {i q tmp : ℕ} (hq : (as ++ [tl])[i]? = some q) (htmp : h.value tmp = none)
    (val : α) : ∃ h', h.insertBefore tmp val q = some h' ∧ Ring h' tl (as.insertIdx i tmp) (xs.insertIdx i val) := by
  obtain ⟨p,hp,hnext,hprev⟩ := hr.edge_at hq
  obtain ⟨h',hins,hnext',hprev',hvalue'⟩ := insertBefore_spec val hprev (value_ne_none_of_next hnext) htmp
  have hi : i ≤ as.length := by
    have hlt := (List.getElem?_eq_some_iff.mp hq).1
    rw [List.length_append,List.length_singleton] at hlt
    omega
  have hout : tmp ∉ tl :: as := fun hmem => hr.value_ne_none hmem htmp
  have hperm : (tl :: as.insertIdx i tmp).Perm (tmp :: tl :: as) :=
    ((List.perm_insertIdx tmp as hi).cons tl).trans (List.Perm.swap tmp tl as)
  refine ⟨h',hins,?_,?_,?_,?_,?_⟩
  · exact hperm.nodup_iff.mpr (List.nodup_cons.mpr ⟨hout,hr.nodup⟩)
  · intro j p' q' hp' hq'
    rw [← List.insertIdx_succ_cons] at hp'
    rw [insertIdx_append hi] at hq'
    rcases pair_insertIdx hp hq hp' hq' with ⟨rfl,rfl⟩ | ⟨rfl,rfl⟩ | ⟨k,hk,hpk,hqk⟩
    · have hqtmp : q' ≠ q := fun he => value_ne_none_of_prev hprev (he ▸ htmp)
      rw [hnext',hprev',if_pos rfl,if_neg hqtmp,if_pos rfl]
      exact ⟨rfl,rfl⟩
    · have hptmp : p' ≠ p := fun he => value_ne_none_of_next hnext (he ▸ htmp)
      rw [hnext',hprev',if_neg hptmp,if_pos rfl,if_pos rfl]
      exact ⟨rfl,rfl⟩
    · obtain ⟨hnextk,hprevk⟩ := hr.edge k p' q' hpk hqk
      have hpp : p' ≠ p := fun he => hk (hr.source_inj hpk (he ▸ hp))
      have hqq : q' ≠ q := fun he => hk (hr.target_inj hqk (he ▸ hq))
      have hptmp : p' ≠ tmp := fun he => value_ne_none_of_next hnextk (he ▸ htmp)
      have hqtmp : q' ≠ tmp := fun he => value_ne_none_of_prev hprevk (he ▸ htmp)
      rw [hnext',hprev',if_neg hpp,if_neg hptmp,if_neg hqq,if_neg hqtmp]
      exact ⟨hnextk,hprevk⟩
  · have hsame : as.map h'.value = as.map h.value := by
      refine List.map_congr_left fun a ha => ?_
      rw [hvalue',if_neg (fun he : a = tmp => hout (he ▸ List.mem_cons_of_mem tl ha))]
    rw [List.map_insertIdx,List.map_insertIdx,hsame,hr.values,hvalue',if_pos rfl]
  · rw [hvalue',if_neg (fun he : tl = tmp => hout (he ▸ List.mem_cons_self))]
    exact hr.sentinel
  · intro a ha
    rw [hvalue'] at ha
    refine hperm.mem_iff.mpr ?_
    split_ifs at ha with hat
    · exact List.mem_cons.mpr (Or.inl hat)
    · exact List.mem_cons_of_mem tmp (hr.only a ha)

/-- A node that is linked past leaves its place to the node after it. -/
theorem erase (hr : Ring h tl as xs) {i q : ℕ} (hq : as[i]? = some q) : ∃ h' ret, h.unlink q = some (h',ret) ∧
    (as ++ [tl])[i + 1]? = some ret ∧ Ring h' tl (as.eraseIdx i) (xs.eraseIdx i) := by
  have hlt := (List.getElem?_eq_some_iff.mp hq).1
  have hqt : (as ++ [tl])[i]? = some q := by rw [List.getElem?_append_left hlt,hq]
  obtain ⟨p,hp,hnextp,hprevq⟩ := hr.edge_at hqt
  obtain ⟨ret,hret⟩ : ∃ ret, (as ++ [tl])[i + 1]? = some ret :=
    ⟨_,List.getElem?_eq_getElem (by rw [List.length_append,List.length_singleton]; omega)⟩
  have hqs : (tl :: as)[i + 1]? = some q := hq
  obtain ⟨hnextq,hprevret⟩ := hr.edge (i + 1) q ret hqs hret
  have hqp : q ≠ p := by
    rintro rfl
    have hindex := hr.source_inj hqs hp
    omega
  have hqret : q ≠ ret := by
    rintro rfl
    have hindex := hr.target_inj hqt hret
    omega
  obtain ⟨h',hunlink,hnext',hprev',hvalue'⟩ := unlink_spec hnextq hprevq (value_ne_none_of_next hnextp)
    (value_ne_none_of_prev hprevret) hqp
  -- the nodes that stay are those at the other places
  have hmem : ∀ a, a ∈ tl :: as.eraseIdx i ↔ a ≠ q ∧ a ∈ tl :: as := by
    intro a
    rw [← List.eraseIdx_cons_succ,List.mem_eraseIdx_iff_getElem?,List.mem_iff_getElem?]
    constructor
    · rintro ⟨j,hj,hja⟩
      exact ⟨fun he => hj (hr.source_inj hja (he ▸ hqs)),j,hja⟩
    · rintro ⟨haq,j,hja⟩
      refine ⟨j,?_,hja⟩
      rintro rfl
      exact haq (Option.some.inj (hja.symm.trans hqs))
  refine ⟨h',ret,hunlink,hret,?_,?_,?_,?_,?_⟩
  · exact hr.nodup.sublist ((List.eraseIdx_sublist as i).cons_cons tl)
  · intro j p' q' hp' hq'
    rw [← List.eraseIdx_cons_succ] at hp'
    rw [← List.eraseIdx_append_of_lt_length hlt] at hq'
    rcases pair_eraseIdx hp hret hp' hq' with ⟨rfl,rfl⟩ | ⟨k,hk,hk',hpk,hqk⟩
    · rw [hnext' p' hqp.symm,hprev' q' hqret.symm,if_pos rfl,if_pos rfl]
      exact ⟨rfl,rfl⟩
    · have hpq : p' ≠ q := fun he => hk' (hr.source_inj hpk (he ▸ hqs))
      have hpp : p' ≠ p := fun he => hk (hr.source_inj hpk (he ▸ hp))
      have hqq : q' ≠ q := fun he => hk (hr.target_inj hqk (he ▸ hqt))
      have hqr : q' ≠ ret := fun he => hk' (hr.target_inj hqk (he ▸ hret))
      rw [hnext' p' hpq,hprev' q' hqq,if_neg hpp,if_neg hqr]
      exact hr.edge k p' q' hpk hqk
  · have hsame : (as.eraseIdx i).map h'.value = (as.eraseIdx i).map h.value := by
      refine List.map_congr_left fun a ha => ?_
      rw [hvalue',if_neg ((hmem a).mp (List.mem_cons_of_mem tl ha)).1]
    rw [hsame,← List.eraseIdx_map,hr.values,List.eraseIdx_map]
  · rw [hvalue',if_neg ((hmem tl).mp List.mem_cons_self).1]
    exact hr.sentinel
  · intro a ha
    rw [hvalue'] at ha
    split_ifs at ha with haq
    · exact absurd rfl ha
    · exact (hmem a).mpr ⟨haq,hr.only a ha⟩

theorem single {tmp tl : ℕ} (hne : tmp ≠ tl) (hnone : ∀ a, h.value a = none) (val : α) :
    Ring ((h.put tmp (some ⟨some val,tl,tl⟩)).put tl (some ⟨none,tmp,tmp⟩)) tl [tmp] [val] where
  nodup := by simpa using hne.symm
  edge := by
    intro i p q hp hq
    rw [next_put,next_put,prev_put,prev_put]
    match i with
    | 0 =>
      obtain rfl : tl = p := Option.some.inj hp
      obtain rfl : tmp = q := Option.some.inj hq
      simp [hne]
    | 1 =>
      obtain rfl : tmp = p := Option.some.inj hp
      obtain rfl : tl = q := Option.some.inj hq
      simp [hne]
    | i + 2 => cases hp
  values := by simp [value_put,hne]
  sentinel := by simp [value_put]
  only := by
    intro a ha
    rw [value_put,value_put] at ha
    by_cases hat : a = tl
    · exact List.mem_cons.mpr (Or.inl hat)
    · by_cases hatmp : a = tmp
      · exact List.mem_cons_of_mem _ (List.mem_singleton.mpr hatmp)
      · rw [if_neg hat,if_neg hatmp,hnone] at ha
        exact absurd rfl ha

/-! ## Walking along the ring -/

theorem first (hr : Ring h tl as xs) : h.next tl = (as ++ [tl])[0]? := by
  have hpos : 0 < (as ++ [tl]).length := by simp
  have hq := List.getElem?_eq_getElem hpos
  rw [hq]
  exact (hr.edge 0 tl _ rfl hq).1

theorem prev_eq (hr : Ring h tl as xs) {i q : ℕ} (hq : (as ++ [tl])[i + 1]? = some q) : h.prev q = as[i]? := by
  obtain ⟨p,hp,-,hprev⟩ := hr.edge_at hq
  exact hprev.trans hp.symm

theorem value_eq (hr : Ring h tl as xs) {i a : ℕ} (ha : as[i]? = some a) : h.value a = xs[i]?.map some := by
  have hvalues := congrArg (fun l => l[i]?) hr.values
  simp only [List.getElem?_map,ha,Option.map_some] at hvalues
  cases hx : xs[i]? with
  | none =>
    rw [hx] at hvalues
    cases hvalues
  | some x =>
    rw [hx] at hvalues
    exact Option.some.inj hvalues

theorem ne_sentinel (hr : Ring h tl as xs) {i a : ℕ} (ha : as[i]? = some a) : a ≠ tl := by
  rintro rfl
  exact (List.nodup_cons.mp hr.nodup).1 (List.mem_of_getElem? ha)

theorem exists_place (hr : Ring h tl as xs) {a : ℕ} (ha : h.value a ≠ none) :
    ∃ i, i ≤ xs.length ∧ (as ++ [tl])[i]? = some a := by
  have hmem : a ∈ as ++ [tl] := (List.perm_append_singleton tl as).mem_iff.mpr (hr.only a ha)
  obtain ⟨i,hi,rfl⟩ := List.getElem_of_mem hmem
  have hlen := hr.length_eq
  rw [List.length_append,List.length_singleton] at hi
  exact ⟨i,by omega,List.getElem?_eq_getElem _⟩

/-- A ring leaves nothing open. -/
theorem unique (hr : Ring h tl as xs) {h' : Nodes α} (hr' : Ring h' tl as xs) : h = h' := by
  have hvalue : h.value = h'.value := by
    funext a
    by_cases ha : a ∈ tl :: as
    · rcases List.mem_cons.mp ha with rfl | ha
      · rw [hr.sentinel,hr'.sentinel]
      · exact List.map_inj_left.mp (hr.values.trans hr'.values.symm) a ha
    · rw [by_contra (mt (hr.only a) ha),by_contra (mt (hr'.only a) ha)]
  have hlinks : ∀ a ∈ tl :: as, h.next a = h'.next a ∧ h.prev a = h'.prev a := by
    intro a ha
    obtain ⟨i,hi⟩ := List.mem_iff_getElem?.mp ha
    obtain ⟨j,hj⟩ := List.mem_iff_getElem?.mp ((List.perm_append_singleton tl as).mem_iff.mpr ha)
    have hlt := (List.getElem?_eq_some_iff.mp hi).1
    have hq := List.getElem?_eq_getElem (show i < (as ++ [tl]).length by simpa using hlt)
    obtain ⟨p,hp,-,hprev⟩ := hr.edge_at hj
    exact ⟨(hr.edge i a _ hi hq).1.trans (hr'.edge i a _ hi hq).1.symm,hprev.trans (hr'.edge j p a hp hj).2.symm⟩
  funext a
  by_cases ha : a ∈ tl :: as
  · obtain ⟨n,hn⟩ : ∃ n, h a = some n := Option.ne_none_iff_exists'.mp fun he =>
      hr.value_ne_none ha (Option.map_eq_none_iff.mpr he)
    obtain ⟨n',hn'⟩ : ∃ n', h' a = some n' := Option.ne_none_iff_exists'.mp fun he =>
      hr'.value_ne_none ha (Option.map_eq_none_iff.mpr he)
    have hv := congrFun hvalue a
    obtain ⟨hnext,hprev⟩ := hlinks a ha
    simp only [Nodes.value,Nodes.next,Nodes.prev,hn,hn',Option.map_some,Option.some.injEq] at hv hnext hprev
    obtain ⟨v,q,p⟩ := n
    obtain ⟨v',q',p'⟩ := n'
    subst hv hnext hprev
    rw [hn,hn']
  · rw [Option.map_eq_none_iff.mp (by_contra (mt (hr.only a) ha)),
      Option.map_eq_none_iff.mp (by_contra (mt (hr'.only a) ha))]

end Ring

def freeUpTo (tl : ℕ) : ℕ → Nodes α → ℕ → Option (Nodes α)
  | 0,_,_ => none
  | fuel + 1,h,p =>
    if p = tl then some h
    else (h.next p).bind fun t => freeUpTo tl fuel (h.put p none) t

/-- From the node at place `k` on, where the `k` before it are freed already. -/
theorem Ring.freeUpTo {h₀ : Nodes α} {tl : ℕ} {as : List ℕ} {xs : List α} (hr : Ring h₀ tl as xs) {k fuel : ℕ}
    (hfuel : as.length < fuel + k) {h : Nodes α} (hnext : ∀ a, a ∉ as.take k → h.next a = h₀.next a)
    (hvalue : ∀ a, h.value a ≠ none → h₀.value a ≠ none ∧ a ∉ as.take k) {p : ℕ} (hp : (as ++ [tl])[k]? = some p) :
    ∃ h', Nodes.freeUpTo tl fuel h p = some h' ∧ ∀ a, h'.value a ≠ none → a = tl := by
  have hk : k ≤ as.length := by
    have hlt := (List.getElem?_eq_some_iff.mp hp).1
    rw [List.length_append,List.length_singleton] at hlt
    omega
  induction fuel generalizing k h p with
  | zero => omega
  | succ fuel ih =>
    rw [Nodes.freeUpTo]
    by_cases hlast : k = as.length
    · subst hlast
      rw [List.getElem?_append_right (Nat.le_refl _),Nat.sub_self] at hp
      obtain rfl : tl = p := Option.some.inj hp
      refine ⟨h,if_pos rfl,fun a ha => ?_⟩
      obtain ⟨ha₀,hnot⟩ := hvalue a ha
      rw [List.take_length] at hnot
      exact (List.mem_cons.mp (hr.only a ha₀)).resolve_right hnot
    · have hlt : k < as.length := by omega
      rw [List.getElem?_append_left hlt] at hp
      obtain ⟨-,hpk⟩ := List.getElem?_eq_some_iff.mp hp
      obtain ⟨t,ht⟩ : ∃ t, (as ++ [tl])[k + 1]? = some t :=
        ⟨_,List.getElem?_eq_getElem (by rw [List.length_append,List.length_singleton]; omega)⟩
      have hnot : p ∉ as.take k := by
        intro hmem
        obtain ⟨j,hj,hjp⟩ := List.getElem_of_mem hmem
        rw [List.length_take] at hj
        rw [List.getElem_take] at hjp
        have hj' : as[j]? = some p := List.getElem?_eq_some_iff.mpr ⟨by omega,hjp⟩
        have hindex := @Ring.source_inj _ h₀ tl as xs hr (j + 1) (k + 1) p hj' hp
        omega
      have htake : as.take (k + 1) = as.take k ++ [p] := by rw [List.take_add_one,hp]; rfl
      rw [if_neg (hr.ne_sentinel hp),hnext p hnot,hr.next_eq hp,ht,Option.bind_some]
      refine ih (by omega) (fun a ha => ?_) (fun a ha => ?_) ht (by omega)
      · rw [htake,List.mem_append,List.mem_singleton,not_or] at ha
        rw [next_put,if_neg ha.2,hnext a ha.1]
      · rw [value_put] at ha
        split_ifs at ha with hap
        · exact absurd rfl ha
        · obtain ⟨ha₀,hnota⟩ := hvalue a ha
          rw [htake,List.mem_append,List.mem_singleton,not_or]
          exact ⟨ha₀,hnota,hap⟩

end Nodes
end Edelib.Foundation
