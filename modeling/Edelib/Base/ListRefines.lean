import Edelib.Base.List

/-! # The linked list is a sequence

Every call keeps the ring; what it does to the sequence of values is read off the places
of the nodes.
-/
namespace Edelib.Base
open Foundation Nodes

variable {T : Type}

namespace ListState

structure Holds (s : ListState T) (xs : List T) : Prop where
  size : s.sz = BitVec.ofNat 32 xs.length
  fresh : ∀ a, s.nodes.value a ≠ none → a < s.fresh
  ring : s.tail = none ∧ xs = [] ∧ (∀ a, s.nodes.value a = none) ∨ ∃ tl as, s.tail = some tl ∧ s.nodes.Ring tl as xs

theorem holds_empty : Holds (empty : ListState T) [] where
  size := rfl
  fresh := fun _ ha => absurd rfl ha
  ring := Or.inl ⟨rfl,rfl,fun _ => rfl⟩

/-! ## Iterators and their places -/

section Ring
variable {s : ListState T} {tl : ℕ} {as : List ℕ} {xs : List T}

theorem iter_eq (ht : s.tail = some tl) (hr : s.nodes.Ring tl as xs) {i : ℕ} (hi : i ≤ xs.length) :
    s.iter i = (as ++ [tl])[i]? := by
  have hlen := hr.length_eq
  induction i with
  | zero =>
    rw [← hr.first,iter,Function.iterate_zero,id,beginIt,ht]
    rfl
  | succ i ih =>
    have hlt : i < as.length := by omega
    have ha := List.getElem?_eq_getElem hlt
    have hprev := ih (by omega)
    rw [List.getElem?_append_left hlt,ha] at hprev
    rw [iter,Function.iterate_succ_apply',← iter,hprev,← hr.next_eq ha]
    rfl

theorem iter_end (ht : s.tail = some tl) (hr : s.nodes.Ring tl as xs) : s.iter xs.length = some tl := by
  rw [iter_eq ht hr (Nat.le_refl _),← hr.length_eq,List.getElem?_append_right (Nat.le_refl _),Nat.sub_self]
  rfl

/-- Before the end an iterator is at a node with a value. -/
theorem iter_lt (ht : s.tail = some tl) (hr : s.nodes.Ring tl as xs) {i : ℕ} (hi : i < xs.length) :
    ∃ a, as[i]? = some a ∧ s.iter i = some a ∧ s.iter i ≠ s.endIt := by
  have hlt : i < as.length := by rwa [hr.length_eq]
  have ha := List.getElem?_eq_getElem hlt
  have hiter := iter_eq ht hr (Nat.le_of_lt hi)
  rw [List.getElem?_append_left hlt,ha] at hiter
  refine ⟨_,ha,hiter,?_⟩
  rw [hiter,endIt,ht]
  intro he
  exact hr.ne_sentinel ha (Option.some.inj he)

theorem iter_succ (s : ListState T) (i : ℕ) : s.iter (i + 1) = s.succIt (s.iter i) := by
  rw [iter,Function.iterate_succ_apply',← iter]

theorem pred_iter (ht : s.tail = some tl) (hr : s.nodes.Ring tl as xs) {i : ℕ} (hi : i < xs.length) :
    s.predIt (s.iter (i + 1)) = s.iter i := by
  obtain ⟨a,ha,hiter,-⟩ := iter_lt ht hr hi
  have hlt : i + 1 < (as ++ [tl]).length := by
    rw [List.length_append,List.length_singleton,hr.length_eq]
    omega
  have hq := List.getElem?_eq_getElem hlt
  rw [iter_eq ht hr hi,hq,hiter,← ha]
  exact hr.prev_eq hq

theorem deref_iter (ht : s.tail = some tl) (hr : s.nodes.Ring tl as xs) {i : ℕ} (hi : i < xs.length) :
    s.deref (s.iter i) = some xs[i] := by
  obtain ⟨a,ha,hiter,-⟩ := iter_lt ht hr hi
  rw [deref,hiter,Option.bind_some,hr.value_eq ha,List.getElem?_eq_getElem hi]
  rfl

theorem forward_iter (ht : s.tail = some tl) (hr : s.nodes.Ring tl as xs) {i fuel : ℕ} (hi : i ≤ xs.length)
    (hfuel : xs.length < fuel + i) : s.forward fuel (s.iter i) = some (xs.drop i) := by
  induction fuel generalizing i with
  | zero => omega
  | succ fuel ih =>
    rw [forward]
    by_cases hend : i = xs.length
    · have hiter : s.iter i = s.endIt := by rw [hend,iter_end ht hr,endIt,ht]
      rw [if_pos hiter,hend,List.drop_length]
    · have hlt : i < xs.length := by omega
      obtain ⟨a,-,-,hne⟩ := iter_lt ht hr hlt
      have hrest := ih (by omega : i + 1 ≤ xs.length) (by omega)
      rw [iter_succ] at hrest
      rw [if_neg hne,deref_iter ht hr hlt,hrest,List.drop_eq_getElem_cons hlt]
      rfl

/-- No other iterator than the first is `begin()`. -/
theorem iter_ne_begin (ht : s.tail = some tl) (hr : s.nodes.Ring tl as xs) {i : ℕ} (hi : i + 1 ≤ xs.length) :
    s.iter (i + 1) ≠ s.beginIt := by
  intro he
  have hzero : s.iter 0 = s.beginIt := rfl
  have hlt : i + 1 < (as ++ [tl]).length := by
    rw [List.length_append,List.length_singleton,hr.length_eq]
    omega
  have hq := List.getElem?_eq_getElem hlt
  rw [← hzero,iter_eq ht hr hi,iter_eq ht hr (Nat.zero_le _),hq] at he
  have hindex := hr.target_inj hq he.symm
  omega

theorem backward_iter (ht : s.tail = some tl) (hr : s.nodes.Ring tl as xs) {i fuel : ℕ} (hi : i ≤ xs.length)
    (hfuel : i < fuel) : s.backward fuel (s.iter i) = some (xs.take i).reverse := by
  induction fuel generalizing i with
  | zero => omega
  | succ fuel ih =>
    rw [backward]
    cases i with
    | zero => exact if_pos rfl
    | succ i =>
      have hlt : i < xs.length := hi
      have htake : xs.take (i + 1) = xs.take i ++ [xs[i]] := by rw [List.take_add_one,List.getElem?_eq_getElem hlt]; rfl
      rw [if_neg (iter_ne_begin ht hr hi),pred_iter ht hr hlt,deref_iter ht hr hlt,
        ih (Nat.le_of_lt hlt) (by omega),htake,List.reverse_append]
      rfl

end Ring

/-- Without a tail every iterator is null. -/
theorem iter_null {s : ListState T} (ht : s.tail = none) : s.iter 0 = none := by
  rw [iter,Function.iterate_zero,id,beginIt,ht]
  rfl

theorem Holds.refines {s : ListState T} {xs : List T} (hs : Holds s xs) : ListAction.Refines s xs := by
  refine ⟨hs.ring,hs.size,fun fuel hfuel => ?_,fun fuel hfuel => ?_,fun a ha => ?_⟩
  all_goals rcases hs.ring with ⟨ht,hxs,hnone⟩ | ⟨tl,as,ht,hr⟩
  · obtain ⟨k,rfl⟩ : ∃ k, fuel = k + 1 := ⟨fuel - 1,by omega⟩
    have hbegin : s.beginIt = s.endIt := by rw [endIt,ht]; exact iter_null ht
    rw [forward,if_pos hbegin,hxs]
  · exact forward_iter ht hr (Nat.zero_le _) hfuel
  · obtain ⟨k,rfl⟩ : ∃ k, fuel = k + 1 := ⟨fuel - 1,by omega⟩
    have hend : s.endIt = s.beginIt := by rw [endIt,ht]; exact (iter_null ht).symm
    rw [backward,if_pos hend,hxs]
    rfl
  · have hend : s.endIt = s.iter xs.length := by rw [iter_end ht hr,endIt,ht]
    rw [hend,backward_iter ht hr (Nat.le_refl _) hfuel,List.take_length]
  · exact absurd (hnone a) ha
  · obtain ⟨i,hi,hplace⟩ := hr.exists_place ha
    exact ⟨i,hi,(iter_eq ht hr hi).trans hplace⟩

/-! ## The calls -/

theorem ofNat_length_insertIdx {xs : List T} {i : ℕ} (hi : i ≤ xs.length) (val : T) :
    BitVec.ofNat 32 (xs.insertIdx i val).length = BitVec.ofNat 32 xs.length + 1 := by
  rw [List.length_insertIdx_of_le_length hi,BitVec.ofNat_add]
  rfl

theorem Holds.insert {s : ListState T} {xs : List T} (hs : Holds s xs) {i : ℕ} (hi : i ≤ xs.length) (val : T) :
    ∃ s' ret, s.insert (s.iter i) val = some (s',ret) ∧ Holds s' (xs.insertIdx i val) ∧ ret = s'.iter i := by
  rcases hs.ring with ⟨ht,rfl,hnone⟩ | ⟨tl,as,ht,hr⟩
  · obtain rfl : i = 0 := Nat.le_zero.mp hi
    have hr := Ring.single (Nat.ne_of_lt (Nat.lt_succ_self s.fresh)) hnone val
    refine ⟨_,_,by rw [ListState.insert,ht],⟨?_,fun a ha => ?_,Or.inr ⟨_,_,rfl,hr⟩⟩,?_⟩
    · rw [ofNat_length_insertIdx hi,← hs.size]
    · have hmem := hr.only a ha
      simp only [List.mem_cons,List.not_mem_nil,or_false] at hmem
      change a < s.fresh + 2
      omega
    · rw [iter_eq rfl hr (Nat.zero_le _)]
      rfl
  · have hfresh : s.nodes.value s.fresh = none := by
      by_contra hne
      exact absurd (hs.fresh _ hne) (Nat.lt_irrefl _)
    have hlt : i < (as ++ [tl]).length := by
      rw [List.length_append,List.length_singleton,hr.length_eq]
      omega
    have hq := List.getElem?_eq_getElem hlt
    have hiter := (iter_eq ht hr hi).trans hq
    obtain ⟨nodes,hnodes,hr'⟩ := hr.insert hq hfresh val
    have heq : s.insert (s.iter i) val =
        some ({ s with sz := s.sz + 1, nodes, fresh := s.fresh + 1 },some s.fresh) := by
      rw [ListState.insert,ht]
      dsimp only
      rw [hiter,Option.bind_eq_bind,Option.bind_some,hnodes]
      rfl
    have hia : i ≤ as.length := hr.length_eq ▸ hi
    refine ⟨_,_,heq,⟨?_,fun a ha => ?_,Or.inr ⟨tl,_,ht,hr'⟩⟩,?_⟩
    · rw [ofNat_length_insertIdx hi,← hs.size]
    · have hmem : a ∈ tl :: as.insertIdx i s.fresh := hr'.only a ha
      have hperm := (List.perm_insertIdx s.fresh as hia).cons tl
      have hcases : a = tl ∨ a = s.fresh ∨ a ∈ as := by simpa using hperm.mem_iff.mp hmem
      change a < s.fresh + 1
      have hold : a ∈ tl :: as → a < s.fresh := fun hmem => hs.fresh a (hr.value_ne_none hmem)
      rcases hcases with rfl | rfl | hmem
      · exact Nat.lt_succ_of_lt (hold List.mem_cons_self)
      · exact Nat.lt_succ_self _
      · exact Nat.lt_succ_of_lt (hold (List.mem_cons_of_mem _ hmem))
    · have hi' : i ≤ (xs.insertIdx i val).length := by
        rw [List.length_insertIdx_of_le_length hi]
        omega
      rw [@iter_eq _ { s with sz := s.sz + 1, nodes, fresh := s.fresh + 1 } _ _ _ ht hr' i hi',
        Ring.insertIdx_append hia,List.getElem?_insertIdx_self,if_pos (Nat.le_of_lt hlt)]

theorem Holds.erase {s : ListState T} {xs : List T} (hs : Holds s xs) {i : ℕ} (hi : i < xs.length) :
    ∃ s' ret, s.erase (s.iter i) = some (s',ret) ∧ Holds s' (xs.eraseIdx i) ∧ ret = s'.iter i := by
  rcases hs.ring with ⟨-,rfl,-⟩ | ⟨tl,as,ht,hr⟩
  · exact absurd hi (Nat.not_lt_zero i)
  · obtain ⟨q,hq,hiter,hne⟩ := iter_lt ht hr hi
    obtain ⟨nodes,ret,hnodes,hret,hr'⟩ := hr.erase hq
    have heq : s.erase (s.iter i) = some ({ s with sz := s.sz - 1, nodes },some ret) := by
      rw [endIt] at hne
      rw [ListState.erase,if_neg hne,hiter,Option.bind_eq_bind,Option.bind_some,hnodes]
      rfl
    have hlt : i < as.length := hr.length_eq ▸ hi
    have hle : i ≤ (xs.eraseIdx i).length := by
      rw [List.length_eraseIdx_of_lt hi]
      omega
    refine ⟨_,_,heq,⟨?_,fun a ha => ?_,Or.inr ⟨tl,_,ht,hr'⟩⟩,?_⟩
    · have hpos : xs.length = (xs.eraseIdx i).length + 1 := by
        rw [List.length_eraseIdx_of_lt hi]
        omega
      change s.sz - 1 = _
      rw [hs.size,hpos,BitVec.ofNat_add]
      exact BitVec.add_sub_cancel _ _
    · have hmem : a ∈ (tl :: as).eraseIdx (i + 1) := hr'.only a ha
      exact hs.fresh a (hr.value_ne_none (List.mem_of_mem_eraseIdx hmem))
    · rw [@iter_eq _ { s with sz := s.sz - 1, nodes } _ _ _ ht hr' i hle,
        ← List.eraseIdx_append_of_lt_length hlt,List.getElem?_eraseIdx,if_neg (Nat.lt_irrefl i),hret]

/-- The iterator behind the last element is that of the end, also where there is no tail. -/
theorem Holds.iter_end {s : ListState T} {xs : List T} (hs : Holds s xs) : s.iter xs.length = s.endIt := by
  rcases hs.ring with ⟨ht,rfl,-⟩ | ⟨tl,as,ht,hr⟩
  · rw [endIt,ht]
    exact iter_null ht
  · rw [ListState.iter_end ht hr,endIt,ht]

theorem Holds.iter_lt {s : ListState T} {xs : List T} (hs : Holds s xs) {i : ℕ} (hi : i < xs.length) :
    s.iter i ≠ s.endIt ∧ ∃ n, s.iter i = some n := by
  rcases hs.ring with ⟨-,rfl,-⟩ | ⟨tl,as,ht,hr⟩
  · exact absurd hi (Nat.not_lt_zero i)
  · obtain ⟨a,-,hiter,hne⟩ := ListState.iter_lt ht hr hi
    exact ⟨hne,a,hiter⟩

theorem Holds.deref_iter {s : ListState T} {xs : List T} (hs : Holds s xs) {i : ℕ} (hi : i < xs.length) :
    s.deref (s.iter i) = xs[i]? := by
  rcases hs.ring with ⟨-,rfl,-⟩ | ⟨tl,as,ht,hr⟩
  · exact absurd hi (Nat.not_lt_zero i)
  · exact (ListState.deref_iter ht hr hi).trans (List.getElem?_eq_getElem hi).symm

/-- There is nothing to read at an erased node. -/
theorem deref_of_erase {s s' : ListState T} {it ret : Option ℕ} (h : s.erase it = some (s',ret)) : s'.deref it = none := by
  cases it with
  | none => rfl
  | some n =>
    obtain ⟨-,h⟩ := Option.ite_none_left_eq_some.mp h
    rw [Option.bind_eq_bind,Option.bind_some] at h
    obtain ⟨⟨nodes,ret'⟩,hun,h⟩ := Option.bind_eq_some_iff.mp h
    cases h
    rw [deref,Option.bind_some,value_of_unlink hun]
    rfl

/-- Two iterators before the end are at different nodes. -/
theorem Holds.iter_inj {s : ListState T} {xs : List T} (hs : Holds s xs) {i k : ℕ} (hi : i < xs.length) (hk : k < xs.length)
    (h : s.iter i = s.iter k) : i = k := by
  rcases hs.ring with ⟨-,rfl,-⟩ | ⟨tl,as,ht,hr⟩
  · exact absurd hi (Nat.not_lt_zero i)
  · have hlen := hr.length_eq
    have hlt : i < as.length := by omega
    rw [iter_eq ht hr (Nat.le_of_lt hi),iter_eq ht hr (Nat.le_of_lt hk),List.getElem?_append_left hlt,
      List.getElem?_append_left (by omega)] at h
    exact (List.getElem?_inj hlt hr.nodup.of_cons).mp h

/-- An erased element leaves the iterators of the others, and that of the end. -/
theorem Holds.iter_erase {s s' : ListState T} {xs : List T} (hs : Holds s xs) {i : ℕ} (hi : i < xs.length)
    {ret : Option ℕ} (h : s.erase (s.iter i) = some (s',ret)) :
    s'.endIt = s.endIt ∧ ∀ k, k < xs.length → k ≠ i → s'.iter (if k < i then k else k - 1) = s.iter k := by
  rcases hs.ring with ⟨-,rfl,-⟩ | ⟨tl,as,ht,hr⟩
  · exact absurd hi (Nat.not_lt_zero i)
  · obtain ⟨q,hq,hiter,hne⟩ := ListState.iter_lt ht hr hi
    obtain ⟨nodes,ret',hnodes,-,hr'⟩ := hr.erase hq
    rw [endIt] at hne
    rw [ListState.erase,if_neg hne,hiter,Option.bind_eq_bind,Option.bind_some,hnodes] at h
    cases h
    refine ⟨rfl,fun k hk hki => ?_⟩
    have hlen := hr.length_eq
    have hlen' : (xs.eraseIdx i).length = xs.length - 1 := List.length_eraseIdx_of_lt hi
    have hlenA : (as.eraseIdx i).length = as.length - 1 := List.length_eraseIdx_of_lt (by omega)
    have hiter' := @iter_eq _ { s with sz := s.sz - 1, nodes } _ _ _ ht hr' (if k < i then k else k - 1)
      (by split_ifs <;> omega)
    rw [hiter',iter_eq ht hr (Nat.le_of_lt hk),List.getElem?_append_left (by split_ifs <;> omega),
      List.getElem?_append_left (by omega),List.getElem?_eraseIdx]
    split_ifs with h1 h2
    · rfl
    · omega
    · rw [Nat.sub_add_cancel (by omega)]

theorem Holds.pushBack {s : ListState T} {xs : List T} (hs : Holds s xs) (val : T) :
    ∃ s' ret, s.pushBack val = some (s',ret) ∧ Holds s' (xs ++ [val]) := by
  obtain ⟨s',ret,heq,hs',-⟩ := hs.insert (Nat.le_refl _) val
  rw [List.insertIdx_length_self] at hs'
  exact ⟨s',ret,by rw [ListState.pushBack,← hs.iter_end,heq],hs'⟩

theorem Holds.pushFront {s : ListState T} {xs : List T} (hs : Holds s xs) (val : T) :
    ∃ s' ret, s.pushFront val = some (s',ret) ∧ Holds s' (val :: xs) := by
  obtain ⟨s',ret,heq,hs',-⟩ := hs.insert (Nat.zero_le _) val
  exact ⟨s',ret,heq,hs'⟩

/-- Every node of the ring was made by an insertion. -/
theorem Holds.length_lt_fresh {s : ListState T} {xs : List T} (hs : Holds s xs) {tl : ℕ} {as : List ℕ}
    (hr : s.nodes.Ring tl as xs) : as.length < s.fresh := by
  have hsub : tl :: as ⊆ List.range s.fresh :=
    fun a ha => List.mem_range.mpr (hs.fresh a (hr.value_ne_none ha))
  have hle := hr.nodup.length_le_of_subset hsub
  rwa [List.length_range] at hle

theorem Holds.length_le_fresh {s : ListState T} {xs : List T} (hs : Holds s xs) : xs.length ≤ s.fresh := by
  rcases hs.ring with ⟨-,rfl,-⟩ | ⟨tl,as,-,hr⟩
  · exact Nat.zero_le _
  · exact hr.length_eq ▸ Nat.le_of_lt (hs.length_lt_fresh hr)

theorem Holds.clear {s : ListState T} {xs : List T} (hs : Holds s xs) :
    ∃ s', s.clear = some s' ∧ Holds s' [] := by
  rcases hs.ring with ⟨ht,rfl,hnone⟩ | ⟨tl,as,ht,hr⟩
  · exact ⟨s,by rw [ListState.clear,ht]; exact if_pos hs.size,hs⟩
  · have hbound : (tl :: as).length ≤ s.fresh := hs.length_lt_fresh hr
    have hpos : 0 < (as ++ [tl]).length := by simp
    have hp := List.getElem?_eq_getElem hpos
    obtain ⟨nodes,hnodes,honly⟩ := @Ring.freeUpTo _ s.nodes tl as xs hr 0 s.fresh hbound s.nodes
      (fun a _ => rfl) (fun a ha => ⟨ha,List.not_mem_nil⟩) _ hp
    have hnone : ∀ a, (nodes.put tl none).value a = none := by
      intro a
      rw [value_put]
      by_cases ha : a = tl
      · exact if_pos ha
      · rw [if_neg ha]
        exact by_contra fun hne => ha (honly a hne)
    refine ⟨{ s with sz := 0, tail := none, nodes := nodes.put tl none },?_,rfl,fun a ha => ?_,
      Or.inl ⟨rfl,rfl,hnone⟩⟩
    · rw [ListState.clear,ht]
      dsimp only
      rw [hr.first,hp,Option.bind_eq_bind,Option.bind_some,hnodes]
      rfl
    · exact absurd (hnone a) ha

end ListState

/-! ## Runs -/

namespace ListAction
open ListState

/-- What is possible on the sequence is possible on the list, with the same effect. -/
theorem apply_holds {s : ListState T} {xs xs' : List T} {a : ListAction T} (hs : Holds s xs)
    (hseq : seqStep xs a = some xs') :
    ∃ s' ret, apply s a = some (s',ret) ∧ Holds s' xs' ∧ ∀ i, a.position = some i → ret = s'.iter i := by
  cases a with
  | insert i val =>
    obtain ⟨hi,hxs⟩ := Option.ite_none_right_eq_some.mp hseq
    obtain ⟨s',ret,heq,hs',hret⟩ := hs.insert hi val
    cases hxs
    refine ⟨s',ret,heq,hs',fun j hj => ?_⟩
    cases hj
    exact hret
  | erase i =>
    obtain ⟨hi,hxs⟩ := Option.ite_none_right_eq_some.mp hseq
    obtain ⟨s',ret,heq,hs',hret⟩ := hs.erase hi
    cases hxs
    refine ⟨s',ret,heq,hs',fun j hj => ?_⟩
    cases hj
    exact hret
  | pushBack val =>
    obtain ⟨s',ret,heq,hs'⟩ := hs.pushBack val
    cases hseq
    exact ⟨s',none,by rw [apply,heq]; rfl,hs',fun i hi => absurd hi (by simp [position])⟩
  | pushFront val =>
    obtain ⟨s',ret,heq,hs'⟩ := hs.pushFront val
    cases hseq
    exact ⟨s',none,by rw [apply,heq]; rfl,hs',fun i hi => absurd hi (by simp [position])⟩
  | clear =>
    obtain ⟨s',heq,hs'⟩ := hs.clear
    cases hseq
    exact ⟨s',none,by rw [apply,heq]; rfl,hs',fun i hi => absurd hi (by simp [position])⟩

theorem run_holds {acts : List (ListAction T)} {s : ListState T} {xs xs' : List T} (hs : Holds s xs)
    (hseq : Transition.exec seqStep xs acts = some xs') :
    ∃ s', Transition.exec step s acts = some s' ∧ Holds s' xs' := by
  induction acts generalizing s xs with
  | nil =>
    cases hseq
    exact ⟨s,rfl,hs⟩
  | cons a acts ih =>
    obtain ⟨xs₁,hxs₁,hrest⟩ := Option.bind_eq_some_iff.mp hseq
    obtain ⟨s₁,ret,heq,hs₁,-⟩ := apply_holds hs hxs₁
    obtain ⟨s',hrun,hs'⟩ := ih hs₁ hrest
    have hstep : step s a = some s₁ := by rw [step,heq]; rfl
    exact ⟨s',by simpa [Transition.exec,hstep] using hrun,hs'⟩

/-- Every run refines the run on the sequence, and so does every call after it. -/
theorem run_isSequence (acts : List (ListAction T)) (xs : List T)
    (hseq : Transition.exec seqStep [] acts = some xs) :
    ∃ s, Transition.exec step ListState.empty acts = some s ∧ Refines s xs ∧
      ∀ a xs', seqStep xs a = some xs' → ∃ s' ret, apply s a = some (s',ret) ∧ Refines s' xs' ∧
        ∀ i, a.position = some i → ret = s'.iter i := by
  obtain ⟨s,hrun,hs⟩ := run_holds holds_empty hseq
  refine ⟨s,hrun,hs.refines,fun a xs' hxs' => ?_⟩
  obtain ⟨s',ret,heq,hs',hret⟩ := apply_holds hs hxs'
  exact ⟨s',ret,heq,hs'.refines,hret⟩

/-- A list that is emptied and filled again without a clear, and once more after one. -/
theorem run_isSequence_refilled :
    let acts := [pushBack 34,pushFront 4,erase 1,erase 0,pushFront 34,clear,insert 0 7,insert 1 9]
    Transition.exec seqStep [] acts = some [7,9] ∧
      ∃ s, Transition.exec step ListState.empty acts = some s ∧ Refines s [7,9] ∧
        ∀ a xs', seqStep [7,9] a = some xs' → ∃ s' ret, apply s a = some (s',ret) ∧ Refines s' xs' ∧
          ∀ i, a.position = some i → ret = s'.iter i :=
  ⟨rfl,run_isSequence _ _ rfl⟩

theorem exec_pushBack (val : T) (n : ℕ) (xs : List T) :
    Transition.exec seqStep xs (List.replicate n (pushBack val)) = some (xs ++ List.replicate n val) := by
  induction n generalizing xs with
  | zero => rw [List.replicate_zero,List.replicate_zero,List.append_nil]; rfl
  | succ n ih =>
    rw [List.replicate_succ,List.replicate_succ,List.append_cons]
    exact ih (xs ++ [val])

/-- The size is counted in 32 bits: it is zero again with as many nodes as that. -/
theorem not_run_size : ¬ ∀ (acts : List (ListAction ℕ)) (xs : List ℕ), Transition.exec seqStep [] acts = some xs →
    ∃ s, Transition.exec step ListState.empty acts = some s ∧ s.size.toNat = xs.length := by
  intro h
  have hseq := exec_pushBack 7 4294967296 []
  obtain ⟨s,hrun,hsize⟩ := h _ _ hseq
  obtain ⟨s',hrun',hs'⟩ := run_holds (holds_empty (T := ℕ)) hseq
  obtain rfl := Option.some.inj (hrun.symm.trans hrun')
  have hlen : ([] ++ List.replicate 4294967296 7).length = 4294967296 := by
    rw [List.nil_append,List.length_replicate]
  rw [hlen,ListState.size,hs'.size,hlen] at hsize
  exact absurd hsize (by decide)

end ListAction
end Edelib.Base
