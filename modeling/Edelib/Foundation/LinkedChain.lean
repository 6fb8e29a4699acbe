import Edelib.Foundation.LinkedRing

/-! # Chains of linked nodes

Nodes whose links may be null. A chain is linked both ways and ends with a null link; its
first node may be linked back to anything. A ring that is cut open is a chain, and a chain that is
closed through a sentinel is a ring.
-/
namespace Edelib.Foundation

structure ChainNode (α : Type*) where
  value : Option α
  next : Option ℕ
  prev : Option ℕ

abbrev Links (α : Type*) := ℕ → Option (ChainNode α)

namespace Links
variable {α : Type*}

def next (h : Links α) (a : ℕ) : Option (Option ℕ) := (h a).map ChainNode.next

def prev (h : Links α) (a : ℕ) : Option (Option ℕ) := (h a).map ChainNode.prev

def value (h : Links α) (a : ℕ) : Option (Option α) := (h a).map ChainNode.value

def put (h : Links α) (a : ℕ) (n : Option (ChainNode α)) : Links α := fun b => if b = a then n else h b

/-- `p->next = q`. -/
def setNext (h : Links α) (p : ℕ) (q : Option ℕ) : Option (Links α) :=
  (h p).map (fun n => h.put p (some { n with next := q }))

/-- `q->prev = p`. -/
def setPrev (h : Links α) (q : ℕ) (p : Option ℕ) : Option (Links α) :=
  (h q).map (fun n => h.put q (some { n with prev := p }))

def ofNodes (h : Nodes α) : Links α := fun a => (h a).map (fun n => ⟨n.value,some n.next,some n.prev⟩)

def toNodes (h : Links α) : Nodes α := fun a =>
  (h a).bind fun n => n.next.bind fun q => n.prev.map fun p => ⟨n.value,q,p⟩

variable {h : Links α}

theorem next_put (h : Links α) (b : ℕ) (n : Option (ChainNode α)) (a : ℕ) :
    (h.put b n).next a = if a = b then n.map ChainNode.next else h.next a := by
  by_cases ha : a = b
  · rw [next,put,if_pos ha,if_pos ha]
  · rw [next,put,if_neg ha,if_neg ha,next]

theorem prev_put (h : Links α) (b : ℕ) (n : Option (ChainNode α)) (a : ℕ) :
    (h.put b n).prev a = if a = b then n.map ChainNode.prev else h.prev a := by
  by_cases ha : a = b
  · rw [prev,put,if_pos ha,if_pos ha]
  · rw [prev,put,if_neg ha,if_neg ha,prev]

theorem value_put (h : Links α) (b : ℕ) (n : Option (ChainNode α)) (a : ℕ) :
    (h.put b n).value a = if a = b then n.map ChainNode.value else h.value a := by
  by_cases ha : a = b
  · rw [value,put,if_pos ha,if_pos ha]
  · rw [value,put,if_neg ha,if_neg ha,value]

theorem setNext_spec {p : ℕ} (hp : h.value p ≠ none) (q : Option ℕ) : ∃ h', h.setNext p q = some h' ∧
    (∀ a, h'.next a = if a = p then some q else h.next a) ∧ h'.prev = h.prev ∧ h'.value = h.value := by
  obtain ⟨n,hn⟩ : ∃ n, h p = some n := Option.ne_none_iff_exists'.mp fun hn => hp (by rw [value,hn]; rfl)
  refine ⟨_,by rw [setNext,hn,Option.map_some],next_put h p _,funext fun a => ?_,funext fun a => ?_⟩
  · rw [prev_put]
    split_ifs with ha
    · rw [ha,prev,hn,Option.map_some,Option.map_some]
    · rfl
  · rw [value_put]
    split_ifs with ha
    · rw [ha,value,hn,Option.map_some,Option.map_some]
    · rfl

theorem setPrev_spec {q : ℕ} (hq : h.value q ≠ none) (p : Option ℕ) : ∃ h', h.setPrev q p = some h' ∧
    (∀ a, h'.prev a = if a = q then some p else h.prev a) ∧ h'.next = h.next ∧ h'.value = h.value := by
  obtain ⟨n,hn⟩ : ∃ n, h q = some n := Option.ne_none_iff_exists'.mp fun hn => hq (by rw [value,hn]; rfl)
  refine ⟨_,by rw [setPrev,hn,Option.map_some],prev_put h q _,funext fun a => ?_,funext fun a => ?_⟩
  · rw [next_put]
    split_ifs with ha
    · rw [ha,next,hn,Option.map_some,Option.map_some]
    · rfl
  · rw [value_put]
    split_ifs with ha
    · rw [ha,value,hn,Option.map_some,Option.map_some]
    · rfl

theorem value_ne_none_of_next {p : ℕ} {q : Option ℕ} (hp : h.next p = some q) : h.value p ≠ none := by
  obtain ⟨n,hn,-⟩ := Option.map_eq_some_iff.mp hp
  rw [value,hn]
  exact Option.some_ne_none _

/-- The nodes are linked both ways, in this order and to a null link at the end. -/
def Linked (h : Links α) : List ℕ → Prop
  | [] => True
  | a :: as => h.next a = some as.head? ∧ (∀ b ∈ as.head?, h.prev b = some (some a)) ∧ Linked h as

theorem Linked.congr {h' : Links α} {as : List ℕ} (hl : Linked h as) (hnext : ∀ a ∈ as, h'.next a = h.next a)
    (hprev : ∀ a ∈ as.tail, h'.prev a = h.prev a) : Linked h' as := by
  induction as with
  | nil => trivial
  | cons a as ih =>
    obtain ⟨ha,hb,hrest⟩ := hl
    refine ⟨(hnext a List.mem_cons_self).trans ha,fun b hb' => ?_,
      ih hrest (fun c hc => hnext c (List.mem_cons_of_mem a hc)) (fun c hc => hprev c (List.mem_of_mem_tail hc))⟩
    exact (hprev b (List.mem_of_mem_head? hb')).trans (hb b hb')

theorem Linked.next_eq {as : List ℕ} (hl : Linked h as) {i a : ℕ} (ha : as[i]? = some a) :
    h.next a = some as[i + 1]? := by
  induction as generalizing i with
  | nil => cases ha
  | cons b as ih =>
    obtain ⟨hb,-,hrest⟩ := hl
    cases i with
    | zero =>
      cases ha
      rw [hb,List.head?_eq_getElem?]
      rfl
    | succ i => exact ih hrest ha

theorem Linked.prev_eq {as : List ℕ} (hl : Linked h as) {i a b : ℕ} (ha : as[i]? = some a)
    (hb : as[i + 1]? = some b) : h.prev b = some (some a) := by
  induction as generalizing i with
  | nil => cases ha
  | cons c as ih =>
    obtain ⟨-,hc,hrest⟩ := hl
    cases i with
    | zero =>
      cases ha
      exact hc b (by rw [List.head?_eq_getElem?]; exact hb)
    | succ i => exact ih hrest ha hb

theorem linked_of_places {as : List ℕ} (hnext : ∀ i a, as[i]? = some a → h.next a = some as[i + 1]?)
    (hprev : ∀ i a b, as[i]? = some a → as[i + 1]? = some b → h.prev b = some (some a)) : Linked h as := by
  induction as with
  | nil => trivial
  | cons a as ih =>
    refine ⟨?_,fun b hb => ?_,ih (fun i => hnext (i + 1)) (fun i => hprev (i + 1))⟩
    · rw [hnext 0 a rfl,List.head?_eq_getElem?]
      rfl
    · exact hprev 0 a b rfl (by rw [← hb,List.head?_eq_getElem?]; rfl)

theorem Linked.value_ne_none {as : List ℕ} (hl : Linked h as) {a : ℕ} (ha : a ∈ as) : h.value a ≠ none := by
  obtain ⟨i,hi⟩ := List.mem_iff_getElem?.mp ha
  exact value_ne_none_of_next (hl.next_eq hi)

/-- A null link in the middle makes two chains. -/
theorem Linked.cut {as bs : List ℕ} {l : ℕ} (hl : Linked h (as ++ l :: bs)) (hnodup : (as ++ l :: bs).Nodup)
    {h' : Links α} (hnext : ∀ a, h'.next a = if a = l then some none else h.next a) (hprev : h'.prev = h.prev) :
    Linked h' (as ++ [l]) ∧ Linked h' bs := by
  induction as with
  | nil =>
    obtain ⟨-,-,hrest⟩ := hl
    refine ⟨⟨by rw [hnext,if_pos rfl]; rfl,fun b hb => absurd hb (by simp),trivial⟩,?_⟩
    refine hrest.congr (fun a ha => ?_) (fun a _ => congrFun hprev a)
    rw [hnext,if_neg]
    rintro rfl
    exact (List.nodup_cons.mp hnodup).1 ha
  | cons a as ih =>
    obtain ⟨ha,hb,hrest⟩ := hl
    obtain ⟨hnot,hnodup⟩ := List.nodup_cons.mp hnodup
    obtain ⟨hfirst,hsecond⟩ := ih hrest hnodup
    have hhead : (as ++ l :: bs).head? = (as ++ [l]).head? := by cases as <;> rfl
    have hal : a ≠ l := fun he => hnot (by simp [he])
    refine ⟨⟨?_,fun b hb' => ?_,hfirst⟩,hsecond⟩
    · rw [hnext,if_neg hal,ha]
      exact congrArg some hhead
    · rw [hprev]
      exact hb b (hhead.trans hb')

/-! ## Rings and chains -/

@[simp] theorem next_ofNodes (h : Nodes α) (a : ℕ) : (ofNodes h).next a = (h.next a).map some := by
  rw [next,ofNodes,Nodes.next,Option.map_map,Option.map_map]
  rfl

@[simp] theorem prev_ofNodes (h : Nodes α) (a : ℕ) : (ofNodes h).prev a = (h.prev a).map some := by
  rw [prev,ofNodes,Nodes.prev,Option.map_map,Option.map_map]
  rfl

@[simp] theorem value_ofNodes (h : Nodes α) (a : ℕ) : (ofNodes h).value a = h.value a := by
  rw [value,ofNodes,Nodes.value,Option.map_map]
  rfl

/-- A node that is linked both ways is the node it was. -/
theorem toNodes_of_linked {a q p : ℕ} (hq : h.next a = some (some q)) (hp : h.prev a = some (some p)) :
    h.toNodes.next a = some q ∧ h.toNodes.prev a = some p ∧ h.toNodes.value a = h.value a := by
  obtain ⟨n,hn,hnq⟩ := Option.map_eq_some_iff.mp hq
  have hnp : n.prev = some p := by
    rw [prev,hn] at hp
    exact Option.some.inj hp
  have hnode : h.toNodes a = some ⟨n.value,q,p⟩ := by rw [toNodes,hn,Option.bind_some,hnq,hnp]; rfl
  refine ⟨by rw [Nodes.next,hnode]; rfl,by rw [Nodes.prev,hnode]; rfl,?_⟩
  rw [Nodes.value,hnode,value,hn]
  rfl

/-- A ring with a null link at its last node is a chain. -/
theorem linked_of_ring {h₀ : Nodes α} {tl last : ℕ} {as : List ℕ} {xs : List α} (hr : h₀.Ring tl (as ++ [last]) xs)
    (hnext : ∀ a, h.next a = if a = last then some none else (h₀.next a).map some)
    (hprev : ∀ a, h.prev a = (h₀.prev a).map some) : Linked h (as ++ [last]) := by
  have hlast : ∀ i, (as ++ [last])[i]? = some last → i = as.length := fun i hi =>
    (List.getElem?_inj (List.getElem?_eq_some_iff.mp hi).1 (List.nodup_cons.mp hr.nodup).2).mp (hi.trans (by simp))
  refine linked_of_places (fun i a ha => ?_) (fun i a b ha hb => ?_)
  · rw [hnext]
    split_ifs with hal
    · rw [hlast i (hal ▸ ha)]
      simp
    · have hlt : i < as.length := by
        have hlt := (List.getElem?_eq_some_iff.mp ha).1
        have hne : i ≠ as.length := by
          rintro rfl
          exact hal (by simpa using ha.symm)
        rw [List.length_append,List.length_singleton] at hlt
        omega
      have hplace : i + 1 < (as ++ [last]).length := by simpa using hlt
      rw [hr.next_eq ha,List.getElem?_append_left hplace,List.getElem?_eq_getElem hplace]
      rfl
  · obtain ⟨hlt,-⟩ := List.getElem?_eq_some_iff.mp hb
    rw [hprev,hr.prev_eq (i := i) (by rw [List.getElem?_append_left hlt]; exact hb),ha]
    rfl

/-- A chain that is closed through the sentinel is a ring. -/
theorem ring_of_linked {tl first last : ℕ} {as : List ℕ} {xs : List α} (hl : Linked h as) (hnodup : (tl :: as).Nodup)
    (hfirst : as.head? = some first) (hlast : as.getLast? = some last) (htl : h.next tl = some (some first))
    (hback : h.prev first = some (some tl)) {h' : Links α}
    (hnext : ∀ a, h'.next a = if a = last then some (some tl) else h.next a)
    (hprev : ∀ a, h'.prev a = if a = tl then some (some last) else h.prev a)
    (hvalues : as.map h'.value = xs.map (fun x => some (some x))) (hsentinel : h'.value tl = some none)
    (honly : ∀ a, h'.value a ≠ none → a ∈ tl :: as) : h'.toNodes.Ring tl as xs := by
  obtain ⟨hout,hnodup'⟩ := List.nodup_cons.mp hnodup
  have hlastmem : last ∈ as := List.mem_of_mem_getLast? hlast
  have hpos : as.length - 1 + 1 = as.length := by
    have := List.length_pos_of_mem hlastmem
    omega
  rw [List.getLast?_eq_getElem?] at hlast
  rw [List.head?_eq_getElem?] at hfirst
  -- the links of each pair of neighbours
  have hedge : ∀ (i p q : ℕ), (tl :: as)[i]? = some p → (as ++ [tl])[i]? = some q →
      h'.next p = some (some q) ∧ h'.prev q = some (some p) := by
    intro i p q hp hq
    rw [hnext,hprev]
    cases i with
    | zero =>
      obtain rfl : tl = p := Option.some.inj hp
      rw [List.getElem?_append_left (by omega),hfirst] at hq
      obtain rfl : first = q := Option.some.inj hq
      have hne : tl ≠ last := fun he => hout (he ▸ hlastmem)
      have hne' : first ≠ tl := fun he => hout (he ▸ List.mem_of_getElem? hfirst)
      rw [if_neg hne,if_neg hne']
      exact ⟨htl,hback⟩
    | succ i =>
      have hp' : as[i]? = some p := hp
      have hlt := (List.getElem?_eq_some_iff.mp hp').1
      by_cases hi : i + 1 = as.length
      · have hpl : p = last := by
          rw [show as.length - 1 = i by omega,hp'] at hlast
          exact Option.some.inj hlast
        rw [hi,List.getElem?_append_right (Nat.le_refl _),Nat.sub_self] at hq
        obtain rfl : tl = q := Option.some.inj hq
        rw [if_pos hpl,if_pos rfl,hpl]
        exact ⟨rfl,rfl⟩
      · rw [List.getElem?_append_left (by omega)] at hq
        have hne : p ≠ last := by
          rintro rfl
          have := (List.getElem?_inj hlt hnodup').mp (hp'.trans hlast.symm)
          omega
        have hne' : q ≠ tl := fun he => hout (he ▸ List.mem_of_getElem? hq)
        rw [if_neg hne,if_neg hne',hl.next_eq hp',hq]
        exact ⟨rfl,hl.prev_eq hp' hq⟩
  have hboth : ∀ a ∈ tl :: as, ∃ q p, h'.next a = some (some q) ∧ h'.prev a = some (some p) := by
    intro a ha
    obtain ⟨i,hi⟩ := List.mem_iff_getElem?.mp ha
    obtain ⟨j,hj⟩ := List.mem_iff_getElem?.mp ((List.perm_append_singleton tl as).mem_iff.mpr ha)
    have hlti := (List.getElem?_eq_some_iff.mp hi).1
    have hltj := (List.getElem?_eq_some_iff.mp hj).1
    rw [List.length_append,List.length_singleton] at hltj
    obtain ⟨hq,-⟩ := hedge i a _ hi (List.getElem?_eq_getElem (by simpa using hlti))
    obtain ⟨-,hp⟩ := hedge j _ a (List.getElem?_eq_getElem (by simpa using hltj)) hj
    exact ⟨_,_,hq,hp⟩
  have hnode : ∀ a ∈ tl :: as, h'.toNodes.value a = h'.value a := by
    intro a ha
    obtain ⟨q,p,hq,hp⟩ := hboth a ha
    exact (toNodes_of_linked hq hp).2.2
  refine ⟨hnodup,fun i p q hp hq => ?_,?_,?_,fun a ha => honly a (fun hnone => ha ?_)⟩
  · obtain ⟨hpq,hqp⟩ := hedge i p q hp hq
    obtain ⟨-,p',-,hp'⟩ := hboth p (List.mem_of_getElem? hp)
    obtain ⟨q',-,hq',-⟩ := hboth q ((List.perm_append_singleton tl as).mem_iff.mp (List.mem_of_getElem? hq))
    exact ⟨(toNodes_of_linked hpq hp').1,(toNodes_of_linked hq' hqp).2.1⟩
  · rw [← hvalues]
    exact List.map_congr_left fun a ha => hnode a (List.mem_cons_of_mem tl ha)
  · rw [hnode tl List.mem_cons_self,hsentinel]
  · rw [Nodes.value,toNodes]
    have hnone' : h' a = none := Option.map_eq_none_iff.mp hnone
    rw [hnone']
    rfl

end Links
end Edelib.Foundation
