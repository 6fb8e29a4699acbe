import Edelib.Base.SortRefines

/-! # The order a sort gives

A list whose size is counted as zero or one is left as it is. Every other list is sorted in place,
with the ties in reverse.
-/
namespace Edelib.Base
open Foundation Nodes StrictSort

variable {T : Type} {cmp : T → T → Bool}

namespace ListState

def elements (s : ListState T) (n : ℕ) : List ℕ := (List.range n).filterMap s.iter

def sortedSeq (cmp : T → T → Bool) (xs : List T) : List T :=
  if xs.length % 4294967296 ≤ 1 then xs else xs.mergeSort cmp

theorem filterMap_range {β : Type*} (l : List β) : (List.range l.length).filterMap (fun i => l[i]?) = l := by
  induction l using List.reverseRecOn with
  | nil => rfl
  | append_singleton l x ih =>
    rw [List.length_append,List.length_singleton,List.range_succ,List.filterMap_append]
    have hinit : (List.range l.length).filterMap (fun i => (l ++ [x])[i]?) = l := by
      refine Eq.trans (List.filterMap_congr fun i hi => ?_) ih
      rw [List.getElem?_append_left (List.mem_range.mp hi)]
    rw [hinit]
    simp

theorem elements_eq {s : ListState T} {tl : ℕ} {as : List ℕ} {xs : List T} (ht : s.tail = some tl)
    (hr : s.nodes.Ring tl as xs) : s.elements xs.length = as := by
  rw [elements,← hr.length_eq]
  refine Eq.trans (List.filterMap_congr fun i hi => ?_) (filterMap_range as)
  have hlt : i < as.length := List.mem_range.mp hi
  rw [iter_eq ht hr (hr.length_eq ▸ hlt.le),List.getElem?_append_left hlt]

theorem Holds.size_toNat {s : ListState T} {xs : List T} (hs : Holds s xs) : s.size.toNat = xs.length % 4294967296 := by
  rw [ListState.size,hs.size,BitVec.toNat_ofNat]

/-- A list whose size is more than one is linked anew: its nodes are sorted as their values compare. -/
theorem sort_nodes (cmp : T → T → Bool) {s : ListState T} {xs : List T} (hs : Holds s xs)
    (hsize : ¬ xs.length % 4294967296 ≤ 1) :
    ∃ (tl : ℕ) (as : List ℕ) (v : ℕ → T) (nodes : Nodes T), s.tail = some tl ∧ s.nodes.Ring tl as xs ∧
      (∀ a ∈ as, s.nodes.value a = some (some (v a))) ∧ as.map v = xs ∧
      (∀ fuel, xs.length + 2 ≤ fuel → s.sort cmp fuel = some { s with nodes }) ∧
      nodes.Ring tl (as.mergeSort (fun a b => cmp (v a) (v b))) (xs.mergeSort cmp) ∧ nodes.value = s.nodes.value := by
  have hne : xs ≠ [] := by
    rintro rfl
    exact hsize (by simp)
  obtain ⟨x₀,-,-⟩ := List.exists_cons_of_ne_nil hne
  obtain ⟨-,hxs,-⟩ | ⟨tl,as,ht,hr⟩ := hs.ring
  · exact absurd hxs hne
  have hv : ∃ v : ℕ → T, ∀ a ∈ as, s.nodes.value a = some (some (v a)) := by
    refine ⟨fun a => (s.nodes.value a).join.getD x₀,fun a ha => ?_⟩
    obtain ⟨i,hi⟩ := List.mem_iff_getElem?.mp ha
    have hlt : i < xs.length := hr.length_eq ▸ (List.getElem?_eq_some_iff.mp hi).1
    simp [hr.value_eq hi,List.getElem?_eq_getElem hlt]
  obtain ⟨v,hv⟩ := hv
  have hmap : as.map v = xs := by
    have hinj : Function.Injective (fun x : T => some (some x)) := fun x y hxy => by simpa using hxy
    refine List.map_injective_iff.mpr hinj ?_
    rw [← hr.values,List.map_map]
    exact (List.map_congr_left hv).symm
  have hcmp : ∀ a ∈ as, ∀ b ∈ as, compareNodes cmp (Links.ofNodes s.nodes) a b = some (cmp (v a) (v b)) := by
    intro a ha b hb
    simp [compareNodes,hv a ha,hv b hb]
  have hperm := List.mergeSort_perm as (fun a b => cmp (v a) (v b))
  have hvalues : (as.mergeSort (fun a b => cmp (v a) (v b))).map s.nodes.value =
      (xs.mergeSort cmp).map (fun x => some (some x)) := by
    have hsorted : (as.mergeSort (fun a b => cmp (v a) (v b))).map v = (as.map v).mergeSort cmp :=
      List.map_mergeSort (fun a _ b _ => rfl)
    rw [← hmap,← hsorted,List.map_map]
    exact List.map_congr_left fun a ha => hv a (hperm.mem_iff.mp ha)
  have hsort := fun fuel (hfuel : xs.length + 2 ≤ fuel) =>
    sort_ring hs ht hr (by rw [hs.size_toNat]; omega) hcmp hvalues hfuel
  obtain ⟨nodes,-,hr'⟩ := hsort _ (Nat.le_refl _)
  refine ⟨tl,as,v,nodes,ht,hr,hv,hmap,fun fuel hfuel => ?_,hr',funext fun a => ?_⟩
  · obtain ⟨nodes',heq,hr''⟩ := hsort fuel hfuel
    rw [heq,hr''.unique hr']
  · have hmem : a ∈ tl :: as.mergeSort (fun a b => cmp (v a) (v b)) ↔ a ∈ tl :: as := (hperm.cons tl).mem_iff
    by_cases ha : a ∈ tl :: as
    · rcases List.mem_cons.mp ha with rfl | ha
      · rw [hr'.sentinel,hr.sentinel]
      · exact List.map_inj_left.mp (hr'.values.trans hvalues.symm) a (hperm.mem_iff.mpr ha)
    · rw [by_contra (mt (hr.only a) ha),by_contra (mt (hr'.only a) (mt hmem.mp ha))]

theorem sort_small {s : ListState T} {xs : List T} (hs : Holds s xs) (hsize : xs.length % 4294967296 ≤ 1) (fuel : ℕ) :
    s.sort cmp fuel = some s := if_pos (by rw [hs.size_toNat]; exact hsize)

theorem Holds.sort {s : ListState T} {xs : List T} (hs : Holds s xs) (cmp : T → T → Bool) :
    ∃ s', (∀ fuel, s.fresh + 1 ≤ fuel → s.sort cmp fuel = some s') ∧ Holds s' (sortedSeq cmp xs) := by
  by_cases hsize : xs.length % 4294967296 ≤ 1
  · refine ⟨s,fun fuel _ => sort_small hs hsize fuel,?_⟩
    rwa [sortedSeq,if_pos hsize]
  · obtain ⟨tl,as,v,nodes,ht,hr,-,-,hsort,hr',hvalue⟩ := sort_nodes cmp hs hsize
    have hlt := hs.length_lt_fresh hr
    rw [hr.length_eq] at hlt
    rw [sortedSeq,if_neg hsize]
    refine ⟨_,fun fuel hfuel => hsort fuel (by omega),?_,fun a ha => hs.fresh a (hvalue ▸ ha),Or.inr ⟨tl,_,ht,hr'⟩⟩
    rw [List.length_mergeSort]
    exact hs.size

end ListState

/-! ## Runs with sorts -/

inductive SortAction (T : Type)
  | call (a : ListAction T)
  | sort (cmp : T → T → Bool)

namespace SortAction
open ListState

def step (s : ListState T) : SortAction T → Option (ListState T)
  | call a => ListAction.step s a
  | sort cmp => s.sort cmp (s.fresh + 1)

def seqStep (xs : List T) : SortAction T → Option (List T)
  | call a => ListAction.seqStep xs a
  | sort cmp => some (sortedSeq cmp xs)

theorem step_holds {s : ListState T} {xs xs' : List T} {a : SortAction T} (hs : Holds s xs)
    (hseq : seqStep xs a = some xs') : ∃ s', step s a = some s' ∧ Holds s' xs' := by
  cases a with
  | call a =>
    obtain ⟨s',ret,heq,hs',-⟩ := ListAction.apply_holds hs hseq
    exact ⟨s',by rw [step,ListAction.step,heq]; rfl,hs'⟩
  | sort cmp =>
    cases hseq
    obtain ⟨s',hsort,hs'⟩ := hs.sort cmp
    exact ⟨s',hsort _ (Nat.le_refl _),hs'⟩

theorem run_holds {acts : List (SortAction T)} {s : ListState T} {xs xs' : List T} (hs : Holds s xs)
    (hseq : Transition.exec seqStep xs acts = some xs') :
    ∃ s', Transition.exec step s acts = some s' ∧ Holds s' xs' := by
  induction acts generalizing s xs with
  | nil =>
    cases hseq
    exact ⟨s,rfl,hs⟩
  | cons a acts ih =>
    obtain ⟨xs₁,hxs₁,hrest⟩ := Option.bind_eq_some_iff.mp hseq
    obtain ⟨s₁,heq,hs₁⟩ := step_holds hs hxs₁
    obtain ⟨s',hrun,hs'⟩ := ih hs₁ hrest
    exact ⟨s',by simpa [Transition.exec,heq] using hrun,hs'⟩

/-! ## What a sort promises -/

def InOrder (cmp : T → T → Bool) (xs : List T) : Prop := xs.IsChain (fun a b => cmp b a = false)

/-- After the sort the list has the nodes and values it had, once each, in one ring through the
tail, and they are in order. -/
structure InPlace (cmp : T → T → Bool) (xs : List T) (s s' : ListState T) : Prop where
  nodes : (s'.elements xs.length).Perm (s.elements xs.length)
  values : s'.nodes.value = s.nodes.value
  tail : s'.tail = s.tail
  size : s'.size = s.size
  sequence : ∃ xs', xs'.Perm xs ∧ InOrder cmp xs' ∧ ListAction.Refines s' xs'

def SortsInPlace (cmp : T → T → Bool) (xs : List T) (s : ListState T) : Prop :=
  ∃ bound s', (∀ fuel, bound ≤ fuel → s.sort cmp fuel = some s') ∧ InPlace cmp xs s s'

/-- Elements that compare equivalent keep their order, and the sequence is that of a stable sort. -/
structure Stable (cmp : T → T → Bool) (xs : List T) (s s' : ListState T) : Prop where
  keeps : ∀ a b x y, [a,b].Sublist (s.elements xs.length) → s.deref (some a) = some x → s.deref (some b) = some y →
    tied cmp x y = true → [a,b].Sublist (s'.elements xs.length)
  same : ListAction.Refines s' (stableSort cmp xs)

def SortsStably (cmp : T → T → Bool) (xs : List T) (s : ListState T) : Prop :=
  ∃ bound s', (∀ fuel, bound ≤ fuel → s.sort cmp fuel = some s') ∧ Stable cmp xs s s'

theorem refines_unique {s : ListState T} {xs xs' : List T} (h : ListAction.Refines s xs) (h' : ListAction.Refines s xs') :
    xs = xs' :=
  Option.some.inj ((h.forward (xs.length + xs'.length + 1) (by omega)).symm.trans
    (h'.forward (xs.length + xs'.length + 1) (by omega)))

/-- The result does not depend on the bound. -/
theorem sort_unique {s s₁ s₂ : ListState T} {bound₁ bound₂ : ℕ} (h₁ : ∀ fuel, bound₁ ≤ fuel → s.sort cmp fuel = some s₁)
    (h₂ : ∀ fuel, bound₂ ≤ fuel → s.sort cmp fuel = some s₂) : s₁ = s₂ :=
  Option.some.inj ((h₁ (max bound₁ bound₂) (le_max_left _ _)).symm.trans (h₂ (max bound₁ bound₂) (le_max_right _ _)))

section Order
variable [ho : IsStrictWeakOrder T (fun a b => cmp a b = true)] {s : ListState T} {xs : List T}

theorem inOrder_iff : InOrder cmp xs ↔ xs.Pairwise (fun a b => notAfter cmp a b = true) := by
  have hrel : (fun a b => cmp b a = false) = (fun a b => notAfter cmp a b = true) := by
    funext a b
    simp [notAfter]
  have : IsTrans T (fun a b => notAfter cmp a b = true) := ⟨notAfter_trans⟩
  rw [InOrder,hrel]
  exact List.isChain_iff_pairwise

/-- A list is sorted in place unless its size is counted as zero or one although it is not in order. -/
theorem sortsInPlace_iff (hs : Holds s xs) :
    SortsInPlace cmp xs s ↔ (xs.length % 4294967296 ≤ 1 → InOrder cmp xs) := by
  by_cases hsize : xs.length % 4294967296 ≤ 1
  · rw [imp_iff_right hsize]
    have hsame : ∀ fuel, 0 ≤ fuel → s.sort cmp fuel = some s := fun fuel _ => sort_small hs hsize fuel
    constructor
    · rintro ⟨bound,s',hsort,hplace⟩
      obtain rfl := sort_unique hsame hsort
      obtain ⟨xs',-,hxs',href⟩ := hplace.sequence
      rwa [refines_unique hs.refines href]
    · exact fun h => ⟨0,s,hsame,List.Perm.refl _,rfl,rfl,rfl,xs,List.Perm.refl _,h,hs.refines⟩
  · refine iff_of_true ?_ (fun h => absurd h hsize)
    obtain ⟨s',hsort,hs'⟩ := hs.sort cmp
    obtain ⟨tl,as,v,nodes,ht,hr,-,-,hnodes,hr',hvalue⟩ := sort_nodes cmp hs hsize
    obtain rfl := sort_unique hsort hnodes
    rw [sortedSeq,if_neg hsize] at hs'
    have hels := elements_eq (s := { s with nodes }) ht hr'
    rw [List.length_mergeSort] at hels
    refine ⟨_,_,hsort,?_,hvalue,rfl,rfl,xs.mergeSort cmp,List.mergeSort_perm _ _,inOrder_iff.mpr (mergeSort_spec xs).1,
      hs'.refines⟩
    rw [hels,elements_eq ht hr]
    exact List.mergeSort_perm _ _

/-- In a list without repetitions nothing comes both before and after something else. -/
theorem not_pair_swapped {l : List ℕ} (hl : l.Nodup) {a b : ℕ} (hab : [a,b].Sublist l) : ¬ [b,a].Sublist l := by
  intro hba
  induction l with
  | nil => cases hab
  | cons c l ih =>
    obtain ⟨hc,hl⟩ := List.nodup_cons.mp hl
    rcases List.sublist_cons_iff.mp hab with hab' | ⟨r,hr,hab'⟩ <;>
      rcases List.sublist_cons_iff.mp hba with hba' | ⟨r',hr',hba'⟩
    · exact ih hl hab' hba'
    · cases hr'
      exact hc (hab'.subset (List.mem_cons_of_mem a List.mem_cons_self))
    · cases hr
      exact hc (hba'.subset (List.mem_cons_of_mem b List.mem_cons_self))
    · cases hr
      cases hr'
      exact hc (hab'.subset List.mem_cons_self)

/-- Tied nodes come out in reverse. -/
theorem pair_mergeSort {v : ℕ → T} {as : List ℕ} {a b : ℕ} (hab : [a,b].Sublist as)
    (htied : tied cmp (v a) (v b) = true) : [b,a].Sublist (as.mergeSort (fun a b => cmp (v a) (v b))) := by
  have : IsStrictWeakOrder ℕ (fun a b => cmp (v a) (v b) = true) :=
    { irrefl := fun a => ho.irrefl (v a)
      trans := fun a b c => ho.trans (v a) (v b) (v c)
      incomp_trans := fun a b c => ho.incomp_trans (v a) (v b) (v c) }
  have hties := (@mergeSort_spec ℕ (fun a b => cmp (v a) (v b)) _ as).2 a
  have hfilter := hab.filter (tied (fun a b => cmp (v a) (v b)) a)
  have htied' : tied (fun a b => cmp (v a) (v b)) a b = true := htied
  rw [List.filter_cons_of_pos (tied_self a),List.filter_cons_of_pos htied',List.filter_nil] at hfilter
  have hrev := hfilter.reverse
  rw [← hties] at hrev
  exact hrev.trans List.filter_sublist

/-- Without ties the order of the list says all. -/
theorem filter_reverse_of_untied (h : xs.Pairwise (fun x y => tied cmp x y = false)) (x : T) :
    (xs.filter (tied cmp x)).reverse = xs.filter (tied cmp x) := by
  have hpair := h.filter (tied cmp x)
  match hf : xs.filter (tied cmp x) with
  | [] => rfl
  | [y] => rfl
  | y :: z :: rest =>
    rw [hf] at hpair
    have hy : tied cmp x y = true := (List.mem_filter.mp (hf ▸ List.mem_cons_self)).2
    have hz : tied cmp x z = true := (List.mem_filter.mp (hf ▸ List.mem_cons_of_mem y List.mem_cons_self)).2
    have hno := List.rel_of_pairwise_cons hpair List.mem_cons_self
    rw [tied_trans (tied_symm hy) hz] at hno
    cases hno

/-- The sequence is that of a stable sort exactly if ties read the same backwards. -/
theorem refines_stableSort_iff (hs : Holds s xs) : ∃ bound s', (∀ fuel, bound ≤ fuel → s.sort cmp fuel = some s') ∧
    (ListAction.Refines s' (stableSort cmp xs) ↔ if xs.length % 4294967296 ≤ 1 then InOrder cmp xs
      else ∀ x, (xs.filter (tied cmp x)).reverse = xs.filter (tied cmp x)) := by
  obtain ⟨s',hsort,hs'⟩ := hs.sort cmp
  refine ⟨_,s',hsort,?_⟩
  have hsame : ListAction.Refines s' (stableSort cmp xs) ↔ sortedSeq cmp xs = stableSort cmp xs :=
    ⟨fun h => refines_unique hs'.refines h,fun h => h ▸ hs'.refines⟩
  rw [hsame,sortedSeq]
  split_ifs
  · rw [inOrder_iff]
    exact eq_stableSort_iff xs
  · exact mergeSort_eq_stableSort_iff xs

/-- A sort is stable on the lists without ties, and where there is nothing to do. -/
theorem sortsStably_iff (hs : Holds s xs) : SortsStably cmp xs s ↔
    if xs.length % 4294967296 ≤ 1 then InOrder cmp xs else xs.Pairwise (fun x y => tied cmp x y = false) := by
  obtain ⟨bound,s',hsort,href⟩ := @refines_stableSort_iff T cmp _ s xs hs
  have hsame : SortsStably cmp xs s ↔ Stable cmp xs s s' := by
    constructor
    · rintro ⟨bound',s'',hsort',hstable⟩
      rwa [sort_unique hsort hsort']
    · exact fun h => ⟨bound,s',hsort,h⟩
  rw [hsame]
  by_cases hsize : xs.length % 4294967296 ≤ 1
  · rw [if_pos hsize] at href ⊢
    obtain rfl : s = s' := sort_unique (fun fuel (_ : 0 ≤ fuel) => sort_small hs hsize fuel) hsort
    exact ⟨fun h => href.mp h.same,fun h => ⟨fun _ _ _ _ hab _ _ _ => hab,href.mpr h⟩⟩
  · rw [if_neg hsize] at href ⊢
    obtain ⟨tl,as,v,nodes,ht,hr,hv,hmap,hnodes,hr',hvalue⟩ := sort_nodes cmp hs hsize
    obtain rfl := sort_unique hsort hnodes
    have hels := elements_eq (s := { s with nodes }) ht hr'
    rw [List.length_mergeSort] at hels
    have hnodup := (List.nodup_cons.mp hr'.nodup).2
    have hderef : ∀ a ∈ as, s.deref (some a) = some (v a) := fun a ha => by
      rw [deref,Option.bind_some,hv a ha]
      rfl
    constructor
    · intro hstable
      rw [← hmap,List.pairwise_map,List.pairwise_iff_forall_sublist]
      intro a b hab
      by_contra htied
      rw [Bool.not_eq_false] at htied
      have hkept := hstable.keeps a b (v a) (v b) (by rwa [elements_eq ht hr]) (hderef a (hab.subset (by simp)))
        (hderef b (hab.subset (by simp))) htied
      rw [hels] at hkept
      exact not_pair_swapped hnodup hkept (pair_mergeSort hab htied)
    · intro huntied
      refine ⟨fun a b x y hab hx hy htied => ?_,href.mpr (filter_reverse_of_untied huntied)⟩
      rw [elements_eq ht hr] at hab
      have hxy : tied cmp (v a) (v b) = true := by
        rw [hderef a (hab.subset (by simp))] at hx
        rw [hderef b (hab.subset (by simp))] at hy
        cases hx
        cases hy
        exact htied
      rw [← hmap,List.pairwise_map,List.pairwise_iff_forall_sublist] at huntied
      rw [huntied hab] at hxy
      cases hxy

end Order

/-- After every run of calls and sorts a list is sorted in place if and only if its size is not
counted as zero or one, or it is in order already. -/
theorem run_sortsInPlace_iff {acts : List (SortAction T)} {xs : List T}
    (hseq : Transition.exec seqStep [] acts = some xs) (cmp : T → T → Bool)
    (hcmp : IsStrictWeakOrder T (fun a b => cmp a b = true)) :
    ∃ s, Transition.exec step ListState.empty acts = some s ∧
      (SortsInPlace cmp xs s ↔ (xs.length % 4294967296 ≤ 1 → InOrder cmp xs)) := by
  obtain ⟨s,hrun,hs⟩ := run_holds holds_empty hseq
  exact ⟨s,hrun,sortsInPlace_iff hs⟩

theorem isStrictWeakOrder_lt : IsStrictWeakOrder ℕ (fun a b => decide (a < b) = true) where
  irrefl a := by simp
  trans a b c hab hbc := by simp at *; omega
  incomp_trans a b c hab hbc := by simp at *; omega

/-- Three elements, pushed at both ends, sorted, and sorted again. -/
theorem run_sortsInPlace_iff_three :
    let acts := [SortAction.call (.pushBack 3),.call (.pushFront 5),.sort (fun a b : ℕ => decide (a < b)),.call (.pushBack 4)]
    Transition.exec seqStep [] acts = some [3,5,4] ∧ ∃ s, Transition.exec step ListState.empty acts = some s ∧
      (SortsInPlace (fun a b => decide (a < b)) [3,5,4] s ↔
        ([3,5,4].length % 4294967296 ≤ 1 → InOrder (fun a b => decide (a < b)) [3,5,4])) := by
  intro acts
  have hseq : Transition.exec seqStep [] acts = some [3,5,4] := by
    simp [acts,Transition.exec,seqStep,ListAction.seqStep,sortedSeq,List.mergeSort,List.MergeSort.Internal.splitInTwo]
  exact ⟨hseq,run_sortsInPlace_iff hseq _ isStrictWeakOrder_lt⟩

theorem exec_calls (acts : List (ListAction T)) (xs : List T) :
    Transition.exec seqStep xs (acts.map call) = Transition.exec ListAction.seqStep xs acts := by
  rw [Transition.exec,List.foldlM_map]
  rfl

/-- With as many elements as the size can count, a list is taken for empty, and not sorted. -/
theorem not_run_sortsInPlace : ¬ ∀ (acts : List (SortAction ℕ)) (xs : List ℕ),
    Transition.exec seqStep [] acts = some xs →
      ∃ s, Transition.exec step ListState.empty acts = some s ∧ SortsInPlace (fun a b => decide (a < b)) xs s := by
  intro h
  have hpushed : ∀ n, Transition.exec seqStep [] ((.pushBack 1 :: List.replicate n (.pushBack 0)).map call) =
      some (1 :: List.replicate n 0) := fun n => (exec_calls _ _).trans (ListAction.exec_pushBack 0 n [1])
  have hseq := hpushed (4294967294 + 1)
  obtain ⟨s,hrun,hsorts⟩ := h _ _ hseq
  obtain ⟨s',hrun',hs⟩ := run_holds holds_empty hseq
  obtain rfl := Option.some.inj (hrun.symm.trans hrun')
  have hlen : (1 :: List.replicate (4294967294 + 1) 0 : List ℕ).length = 4294967296 := by
    rw [List.length_cons,List.length_replicate]
  have ho := isStrictWeakOrder_lt
  have horder := (sortsInPlace_iff hs).mp hsorts (by rw [hlen]; decide)
  rw [InOrder,List.replicate_succ,List.isChain_cons_cons] at horder
  exact absurd horder.1 (by decide)

/-- After every run a list is sorted stably if and only if no two of its elements compare equivalent,
or its size is counted as zero or one and it is in order. -/
theorem run_sortsStably_iff {acts : List (SortAction T)} {xs : List T}
    (hseq : Transition.exec seqStep [] acts = some xs) (cmp : T → T → Bool)
    (hcmp : IsStrictWeakOrder T (fun a b => cmp a b = true)) :
    ∃ s, Transition.exec step ListState.empty acts = some s ∧ (SortsStably cmp xs s ↔
      if xs.length % 4294967296 ≤ 1 then InOrder cmp xs else xs.Pairwise (fun x y => tied cmp x y = false)) := by
  obtain ⟨s,hrun,hs⟩ := run_holds holds_empty hseq
  exact ⟨s,hrun,sortsStably_iff hs⟩

theorem isStrictWeakOrder_fst : IsStrictWeakOrder (ℕ × ℕ) (fun a b => decide (a.1 < b.1) = true) where
  irrefl a := by simp
  trans a b c hab hbc := by simp at *; omega
  incomp_trans a b c hab hbc := by simp at *; omega

/-- Pairs with different first components are sorted stably by these. -/
theorem run_sortsStably_iff_pairs :
    let acts := [SortAction.call (.pushBack ((2,0) : ℕ × ℕ)),.call (.pushBack (1,1))]
    Transition.exec seqStep [] acts = some [(2,0),(1,1)] ∧ ∃ s, Transition.exec step ListState.empty acts = some s ∧
      (SortsStably (fun a b => decide (a.1 < b.1)) [(2,0),(1,1)] s ↔
        if [((2,0) : ℕ × ℕ),(1,1)].length % 4294967296 ≤ 1 then InOrder (fun a b => decide (a.1 < b.1)) [(2,0),(1,1)]
        else [((2,0) : ℕ × ℕ),(1,1)].Pairwise (fun x y => tied (fun a b => decide (a.1 < b.1)) x y = false)) :=
  ⟨rfl,run_sortsStably_iff rfl _ isStrictWeakOrder_fst⟩

/-- With equal first components they change places. -/
theorem not_run_sortsStably : ¬ ∀ s, Transition.exec step ListState.empty
      [SortAction.call (.pushBack ((1,0) : ℕ × ℕ)),.call (.pushBack (1,1))] = some s →
    SortsStably (fun a b => decide (a.1 < b.1)) [(1,0),(1,1)] s := by
  intro h
  have ho := isStrictWeakOrder_fst
  obtain ⟨s,hrun,hs⟩ := @run_holds (ℕ × ℕ) [.call (.pushBack (1,0)),.call (.pushBack (1,1))] .empty [] _ holds_empty rfl
  have huntied := (sortsStably_iff hs).mp (h s hrun)
  rw [if_neg (by decide)] at huntied
  revert huntied
  decide

end SortAction
end Edelib.Base
