import Edelib.Base.Sort
import Edelib.Base.ListRefines
import Edelib.Foundation.StrictSort

/-! # The sort is a merge sort of the nodes

What a merge and a sort do is read off the chains of addresses: a chain that is the merge of
two others, and a chain that is sorted. No value and no link of any other node changes.
-/
namespace Edelib.Base
open Foundation Links

namespace ListState
variable {T : Type} {cmp : T → T → Bool} {lt : ℕ → ℕ → Bool} {h h' : Links T}

def Compares (cmp : T → T → Bool) (lt : ℕ → ℕ → Bool) (h : Links T) (as : List ℕ) : Prop :=
  ∀ a ∈ as, ∀ b ∈ as, compareNodes cmp h a b = some (lt a b)

theorem Compares.congr {as : List ℕ} (hc : Compares cmp lt h as) (hvalue : h'.value = h.value) {bs : List ℕ}
    (hsub : bs ⊆ as) : Compares cmp lt h' bs := by
  intro a ha b hb
  rw [compareNodes,hvalue]
  exact hc a (hsub ha) b (hsub hb)

/-! ## Merging -/

structure Behind (h h' : Links T) (c : ℕ) (back : Option ℕ) (ms : List ℕ) : Prop where
  value : h'.value = h.value
  first : h'.next c = some ms.head?
  linked : h'.Linked ms
  back : ∀ m ∈ ms.head?, h'.prev m = some back
  next : ∀ a, a ≠ c → a ∉ ms → h'.next a = h.next a
  prev : ∀ a, a ∉ ms → h'.prev a = h.prev a

theorem mergeTail_spec {a b : Option ℕ} {c m : ℕ} {ms : List ℕ} (hrest : (if a = none then b else a) = some m)
    (hl : Linked h (m :: ms)) (hnodup : (m :: ms).Nodup) (hc : c ∉ m :: ms) (hcv : h.value c ≠ none) :
    ∃ h', mergeTail h a b c = some h' ∧ Behind h h' c (some c) (m :: ms) := by
  obtain ⟨h₁,h₁eq,hnext₁,hprev₁,hvalue₁⟩ := setNext_spec hcv (some m)
  have hmv : h₁.value m ≠ none := by
    rw [hvalue₁]
    exact hl.value_ne_none List.mem_cons_self
  obtain ⟨h₂,h₂eq,hprev₂,hnext₂,hvalue₂⟩ := setPrev_spec hmv (some c)
  have hfirst : h₂.next c = some (some m) := by rw [hnext₂,hnext₁,if_pos rfl]
  have hlink : ∀ a, a ≠ c → h₂.next a = h.next a := fun a ha => by rw [hnext₂,hnext₁,if_neg ha]
  have hback : ∀ a, a ≠ m → h₂.prev a = h.prev a := fun a ha => by rw [hprev₂,if_neg ha,hprev₁]
  refine ⟨h₂,?_,hvalue₂.trans hvalue₁,hfirst,hl.congr (fun a ha => hlink a ?_) (fun a ha => hback a ?_),fun n hn => ?_,
    fun a ha _ => hlink a ha,fun a ha => hback a ?_⟩
  · have hread : (h₁.next c).join = some m := by rw [hnext₁,if_pos rfl]; rfl
    rw [mergeTail,hrest,h₁eq,Option.bind_eq_bind,Option.bind_some,hread,Option.bind_eq_bind,Option.bind_some,h₂eq]
  · rintro rfl
    exact hc ha
  · rintro rfl
    exact (List.nodup_cons.mp hnodup).1 ha
  · obtain rfl : m = n := Option.some.inj hn
    rw [hprev₂,if_pos rfl]
  · rintro rfl
    exact ha List.mem_cons_self

theorem linkBehind_spec {n c : ℕ} {q : Option ℕ} (cprev : Option ℕ) (hnc : n ≠ c) (hn : h.next n = some q)
    (hcv : h.value c ≠ none) : ∃ h', linkBehind h n c cprev = some (h',q,n) ∧ h'.value = h.value ∧
      (∀ a, h'.next a = if a = c then some (some n) else h.next a) ∧
      ∀ a, h'.prev a = if a = n then some cprev else h.prev a := by
  obtain ⟨h₁,h₁eq,hnext₁,hprev₁,hvalue₁⟩ := setNext_spec hcv (some n)
  have hnv : h₁.value n ≠ none := by
    rw [hvalue₁]
    exact value_ne_none_of_next hn
  obtain ⟨h₂,h₂eq,hprev₂,hnext₂,hvalue₂⟩ := setPrev_spec hnv cprev
  refine ⟨h₂,?_,hvalue₂.trans hvalue₁,fun a => by rw [hnext₂,hnext₁],fun a => by rw [hprev₂,hprev₁]⟩
  have hread : h₁.next n = some q := by rw [hnext₁,if_neg hnc,hn]
  have hc : (h₁.next c).join = some n := by rw [hnext₁,if_pos rfl]; rfl
  rw [linkBehind,h₁eq,Option.bind_eq_bind,Option.bind_some,hread,Option.bind_eq_bind,Option.bind_some,hc,
    Option.bind_eq_bind,Option.bind_some,h₂eq]
  rfl

/-- A node before a chain that was linked in behind it makes a longer one. -/
theorem Behind.cons {h₁ : Links T} {n c : ℕ} {cprev : Option ℕ} {ms : List ℕ} (hb : Behind h₁ h' n (some n) ms)
    (hn : n ∉ ms) (hc : c ∉ n :: ms) (hvalue : h₁.value = h.value)
    (hnext : ∀ a, h₁.next a = if a = c then some (some n) else h.next a)
    (hprev : ∀ a, h₁.prev a = if a = n then some cprev else h.prev a) : Behind h h' c cprev (n :: ms) := by
  obtain ⟨hcn,hcms⟩ := not_or.mp (mt List.mem_cons.mpr hc)
  refine ⟨hb.value.trans hvalue,?_,⟨hb.first,hb.back,hb.linked⟩,fun m hm => ?_,fun a hac ha => ?_,fun a ha => ?_⟩
  · rw [hb.next c hcn hcms,hnext,if_pos rfl]
    rfl
  · obtain rfl : n = m := Option.some.inj hm
    rw [hb.prev n hn,hprev,if_pos rfl]
  · obtain ⟨han,hams⟩ := not_or.mp (mt List.mem_cons.mpr ha)
    rw [hb.next a han hams,hnext,if_neg hac]
  · obtain ⟨han,hams⟩ := not_or.mp (mt List.mem_cons.mpr ha)
    rw [hb.prev a hams,hprev,if_neg han]

/-- Two chains stay as they are when another node is linked in behind `c`. -/
theorem linkBehind_chains {n c : ℕ} {q : Option ℕ} (cprev : Option ℕ) {as bs : List ℕ} (hn : h.next n = some q)
    (ha : Linked h as) (hb : Linked h bs) (hnodup : (n :: (as ++ bs)).Nodup) (hc : c ∉ n :: (as ++ bs))
    (hcv : h.value c ≠ none) (hcmp : Compares cmp lt h (n :: (as ++ bs))) :
    ∃ h₁, linkBehind h n c cprev = some (h₁,q,n) ∧ h₁.value n ≠ none ∧ Linked h₁ as ∧ Linked h₁ bs ∧
      Compares cmp lt h₁ (as ++ bs) ∧
      ∀ h' ms, (∀ a, a ∈ ms ↔ a ∈ as ++ bs) → Behind h₁ h' n (some n) ms → Behind h h' c cprev (n :: ms) := by
  obtain ⟨hcn,hcrest⟩ := not_or.mp (mt List.mem_cons.mpr hc)
  have hnrest := (List.nodup_cons.mp hnodup).1
  obtain ⟨h₁,h₁eq,hvalue,hnext,hprev⟩ := linkBehind_spec cprev (Ne.symm hcn) hn hcv
  have hkeep : ∀ a ∈ as ++ bs, h₁.next a = h.next a ∧ h₁.prev a = h.prev a := by
    intro a hmem
    have hac : a ≠ c := fun he => hcrest (he ▸ hmem)
    have han : a ≠ n := fun he => hnrest (he ▸ hmem)
    exact ⟨by rw [hnext,if_neg hac],by rw [hprev,if_neg han]⟩
  refine ⟨h₁,h₁eq,hvalue ▸ value_ne_none_of_next hn,?_,?_,hcmp.congr hvalue (List.subset_cons_self _ _),fun h' ms hms hbehind => ?_⟩
  · exact ha.congr (fun a hmem => (hkeep a (List.mem_append_left _ hmem)).1)
      (fun a hmem => (hkeep a (List.mem_append_left _ (List.mem_of_mem_tail hmem))).2)
  · exact hb.congr (fun a hmem => (hkeep a (List.mem_append_right _ hmem)).1)
      (fun a hmem => (hkeep a (List.mem_append_right _ (List.mem_of_mem_tail hmem))).2)
  · refine hbehind.cons (fun hmem => hnrest ((hms n).mp hmem)) (fun hmem => ?_) hvalue hnext hprev
    rcases List.mem_cons.mp hmem with he | hmem
    · exact hcn he
    · exact hcrest ((hms c).mp hmem)

/-- The loop and what is linked in after it give the merged chain. -/
theorem merge_spec {as bs : List ℕ} {c fuel : ℕ} (cprev : Option ℕ) (hfuel : as.length + bs.length < fuel)
    (ha : Linked h as) (hb : Linked h bs) (hnodup : (as ++ bs).Nodup) (hc : c ∉ as ++ bs) (hcv : h.value c ≠ none)
    (hne : as ≠ [] ∨ bs ≠ []) (hcmp : Compares cmp lt h (as ++ bs)) :
    ∃ h', (mergeLoop cmp fuel h as.head? bs.head? c cprev).bind (fun r => mergeTail r.1 r.2.1 r.2.2.1 r.2.2.2) = some h' ∧
      Behind h h' c (if as = [] ∨ bs = [] then some c else cprev) (as.merge bs lt) := by
  induction fuel generalizing h as bs c cprev with
  | zero => omega
  | succ fuel ih =>
    match as,bs with
    | [],[] => exact absurd rfl (hne.elim (fun h => h) (fun h => h))
    | [],b :: bs =>
      obtain ⟨h',hmerge,hbehind⟩ := mergeTail_spec (a := none) (b := some b) rfl hb hnodup hc hcv
      exact ⟨h',hmerge,by simpa using hbehind⟩
    | a :: as,[] =>
      rw [List.append_nil] at hnodup hc
      obtain ⟨h',hmerge,hbehind⟩ := mergeTail_spec (a := some a) (b := none) rfl ha hnodup hc hcv
      exact ⟨h',hmerge,by simpa using hbehind⟩
    | a :: as,b :: bs =>
      have hab : compareNodes cmp h a b = some (lt a b) := hcmp a (by simp) b (by simp)
      have hmem : ∀ {xs ys : List ℕ} (x : ℕ), x ∈ xs.merge ys lt ↔ x ∈ xs ++ ys := fun x => by
        rw [List.mem_merge,List.mem_append]
      cases hlt : lt a b with
      | true =>
        obtain ⟨h₁,h₁eq,hav,ha₁,hb₁,hcmp₁,hcons⟩ :=
          linkBehind_chains cprev ha.1 ha.2.2 hb hnodup hc hcv hcmp
        obtain ⟨hout,hnodup₁⟩ := List.nodup_cons.mp hnodup
        obtain ⟨h',hmerge,hbehind⟩ := ih (some a) (by simp at hfuel ⊢; omega) ha₁ hb₁ hnodup₁ hout hav
          (Or.inr (by simp)) hcmp₁
        rw [ite_self] at hbehind
        refine ⟨h',?_,?_⟩
        · rw [List.head?_cons,List.head?_cons,mergeLoop,hab,hlt]
          simp only [Option.bind_eq_bind,Option.bind_some,if_true,h₁eq]
          exact hmerge
        · rw [List.cons_merge_cons_pos lt _ _ hlt]
          simpa using hcons h' _ hmem hbehind
      | false =>
        have hperm : (a :: as ++ b :: bs).Perm (b :: (a :: as ++ bs)) := List.perm_middle
        obtain ⟨h₁,h₁eq,hbv,ha₁,hb₁,hcmp₁,hcons⟩ := linkBehind_chains cprev hb.1 ha hb.2.2
          (hperm.nodup_iff.mp hnodup) (mt hperm.mem_iff.mpr hc) hcv (hcmp.congr rfl hperm.symm.subset)
        obtain ⟨hout,hnodup₁⟩ := List.nodup_cons.mp (hperm.nodup_iff.mp hnodup)
        obtain ⟨h',hmerge,hbehind⟩ := ih (some b) (by simp at hfuel ⊢; omega) ha₁ hb₁ hnodup₁ hout hbv
          (Or.inl (by simp)) hcmp₁
        rw [ite_self] at hbehind
        refine ⟨h',?_,?_⟩
        · rw [List.head?_cons,List.head?_cons,mergeLoop,hab,hlt]
          simp only [Option.bind_eq_bind,Option.bind_some,h₁eq]
          exact hmerge
        · rw [List.cons_merge_cons_neg lt _ _ (by simp [hlt])]
          simpa using hcons h' _ hmem hbehind

structure Relinked (h h' : Links T) (ms : List ℕ) : Prop where
  value : h'.value = h.value
  linked : h'.Linked ms
  next : ∀ a, a ∉ ms → h'.next a = h.next a
  prev : ∀ a, a ∉ ms → h'.prev a = h.prev a

theorem Relinked.linked_of_disjoint {as ms : List ℕ} (hr : Relinked h h' ms) (hl : Linked h as)
    (hdisjoint : ∀ a ∈ as, a ∉ ms) : Linked h' as :=
  hl.congr (fun a ha => hr.next a (hdisjoint a ha)) (fun a ha => hr.prev a (hdisjoint a (List.mem_of_mem_tail ha)))

theorem mergeNodes_spec {as bs : List ℕ} {head fuel : ℕ} (hfuel : as.length + bs.length < fuel) (ha : Linked h as)
    (hb : Linked h bs) (hnodup : (as ++ bs).Nodup) (hhead : h.value head = none) (hne : as ≠ [])
    (hcmp : Compares cmp lt h (as ++ bs)) :
    ∃ h', mergeNodes cmp fuel h head as.head? bs.head? = some (h',(as.merge bs lt).head?) ∧
      Relinked h h' (as.merge bs lt) := by
  have hnone : h head = none := Option.map_eq_none_iff.mp hhead
  have hout : head ∉ as ++ bs := by
    intro hmem
    rcases List.mem_append.mp hmem with hmem | hmem
    · exact ha.value_ne_none hmem hhead
    · exact hb.value_ne_none hmem hhead
  have hapart : ∀ a ∈ as ++ bs, a ≠ head := fun a hmem he => hout (he ▸ hmem)
  -- with the stack node
  have hstack : ∀ a ∈ as ++ bs, (h.put head (some ⟨none,none,none⟩)).next a = h.next a ∧
      (h.put head (some ⟨none,none,none⟩)).prev a = h.prev a := fun a hmem =>
    ⟨by rw [next_put,if_neg (hapart a hmem)],by rw [prev_put,if_neg (hapart a hmem)]⟩
  have ha₀ := ha.congr (fun a hmem => (hstack a (List.mem_append_left _ hmem)).1)
    (fun a hmem => (hstack a (List.mem_append_left _ (List.mem_of_mem_tail hmem))).2)
  have hb₀ := hb.congr (fun a hmem => (hstack a (List.mem_append_right _ hmem)).1)
    (fun a hmem => (hstack a (List.mem_append_right _ (List.mem_of_mem_tail hmem))).2)
  have hcmp₀ : Compares cmp lt (h.put head (some ⟨none,none,none⟩)) (as ++ bs) := by
    intro a hmem b hmem'
    rw [compareNodes,value_put,value_put,if_neg (hapart a hmem),if_neg (hapart b hmem')]
    exact hcmp a hmem b hmem'
  obtain ⟨h₁,hmerge,hbehind⟩ := merge_spec none hfuel ha₀ hb₀ hnodup hout
    (by rw [value_put,if_pos rfl]; exact Option.some_ne_none _) (Or.inl hne) hcmp₀
  have hmerged : ∀ a, a ∈ as.merge bs lt ↔ a ∈ as ++ bs := fun a => by rw [List.mem_merge,List.mem_append]
  have hheadms : head ∉ as.merge bs lt := fun hmem => hout ((hmerged head).mp hmem)
  have hkeep : ∀ a, a ≠ head → (h₁.put head none).next a = h₁.next a ∧ (h₁.put head none).prev a = h₁.prev a :=
    fun a hah => ⟨by rw [next_put,if_neg hah],by rw [prev_put,if_neg hah]⟩
  have hms : ∀ a ∈ as.merge bs lt, a ≠ head := fun a hmem he => hheadms (he ▸ hmem)
  obtain ⟨⟨h₀,a,b,c⟩,hloop,htail⟩ := Option.bind_eq_some_iff.mp hmerge
  refine ⟨h₁.put head none,?_,funext fun a => ?_,?_,fun a hmem => ?_,fun a hmem => ?_⟩
  · simp only [mergeNodes,hloop,Option.bind_eq_bind,Option.bind_some]
    rw [htail,Option.bind_some,hbehind.first,Option.bind_some]
  · rw [value_put,hbehind.value,value_put]
    split_ifs with hah
    · rw [hah,hhead]
      rfl
    · rfl
  · exact hbehind.linked.congr (fun a hmem => (hkeep a (hms a hmem)).1)
      (fun a hmem => (hkeep a (hms a (List.mem_of_mem_tail hmem))).2)
  · by_cases hah : a = head
    · rw [next_put,if_pos hah,hah,next,hnone]
    · rw [(hkeep a hah).1,hbehind.next a hah hmem,next_put,if_neg hah]
  · by_cases hah : a = head
    · rw [prev_put,if_pos hah,hah,prev,hnone]
    · rw [(hkeep a hah).2,hbehind.prev a hmem,prev_put,if_neg hah]

/-! ## Sorting -/

/-- The slow pointer stops at the last node of the first half. -/
theorem halfway_spec {as : List ℕ} (hl : Linked h as) {i c fuel : ℕ} (hc : as[i]? = some c) (hi : 2 * i < as.length)
    (hfuel : as.length ≤ 2 * (i + fuel)) : halfway fuel h c as[2 * i + 1]? = as[(as.length - 1) / 2]? := by
  induction fuel generalizing i c with
  | zero => omega
  | succ fuel ih =>
    unfold halfway
    cases hb : as[2 * i + 1]? with
    | none =>
      have hlen := List.getElem?_eq_none_iff.mp hb
      rw [show (as.length - 1) / 2 = i by omega,hc]
    | some b =>
      have hlt := (List.getElem?_eq_some_iff.mp hb).1
      dsimp only
      rw [hl.next_eq hb,Option.bind_eq_bind,Option.bind_some]
      cases hb' : as[2 * i + 1 + 1]? with
      | none =>
        have hlen := List.getElem?_eq_none_iff.mp hb'
        rw [show (as.length - 1) / 2 = i by omega,hc]
      | some b' =>
        have hlt' := (List.getElem?_eq_some_iff.mp hb').1
        obtain ⟨c',hc'⟩ : ∃ c', as[i + 1]? = some c' := ⟨_,List.getElem?_eq_getElem (by omega)⟩
        dsimp only
        rw [hl.next_eq hc,hc',hl.next_eq hb']
        exact ih hc' (by omega) (by omega)

/-- A chain of two or more nodes is cut after its first half. -/
theorem split_spec {as : List ℕ} {a fuel : ℕ} (hl : Linked h as) (hnodup : as.Nodup) (ha : as[0]? = some a)
    (hlen : 2 ≤ as.length) (hfuel : as.length ≤ 2 * fuel) :
    ∃ l h₁, halfway fuel h a as[1]? = some l ∧ h.next l = some (as.drop ((as.length + 1) / 2)).head? ∧
      h.setNext l none = some h₁ ∧ Linked h₁ (as.take ((as.length + 1) / 2)) ∧
      Linked h₁ (as.drop ((as.length + 1) / 2)) ∧ h₁.value = h.value ∧
      (∀ x, x ∉ as → h₁.next x = h.next x) ∧ h₁.prev = h.prev := by
  obtain ⟨k,hk⟩ : ∃ k, (as.length + 1) / 2 = k + 1 := ⟨(as.length - 1) / 2,by omega⟩
  have hklt : k < as.length := by omega
  have hl' : as[k]? = some as[k] := List.getElem?_eq_getElem hklt
  have hsplit : as = as.take k ++ as[k] :: as.drop (k + 1) := by
    rw [← List.drop_eq_getElem_cons hklt,List.take_append_drop]
  have htake : as.take (k + 1) = as.take k ++ [as[k]] := by rw [List.take_add_one,hl']; rfl
  have hmem : as[k] ∈ as := List.getElem_mem hklt
  obtain ⟨h₁,h₁eq,hnext,hprev,hvalue⟩ := setNext_spec (hl.value_ne_none hmem) none
  have hhalf := halfway_spec hl ha (by omega) (show as.length ≤ 2 * (0 + fuel) by omega)
  rw [Nat.mul_zero,Nat.zero_add,show (as.length - 1) / 2 = k by omega,hl'] at hhalf
  obtain ⟨hfirst,hsecond⟩ := Linked.cut (hsplit ▸ hl) (hsplit ▸ hnodup) hnext hprev
  rw [hk]
  refine ⟨as[k],h₁,hhalf,?_,h₁eq,htake ▸ hfirst,hsecond,hvalue,fun x hx => ?_,hprev⟩
  · rw [hl.next_eq hl',List.head?_drop]
  · rw [hnext,if_neg (fun he : x = as[k] => hx (he ▸ hmem))]

/-- The nodes of a chain are sorted as their addresses compare. -/
theorem mergesort_spec {as : List ℕ} {head fuel : ℕ} (hfuel : as.length + 2 ≤ fuel) (hl : Linked h as)
    (hnodup : as.Nodup) (hhead : h.value head = none) (hne : as ≠ []) (hcmp : Compares cmp lt h as) :
    ∃ h', mergesort cmp fuel h head as.head? = some (h',(as.mergeSort lt).head?) ∧ Relinked h h' (as.mergeSort lt) := by
  induction fuel generalizing h as with
  | zero => omega
  | succ fuel ih =>
    obtain ⟨a,ha⟩ : ∃ a, as[0]? = some a := ⟨_,List.getElem?_eq_getElem (List.length_pos_iff.mpr hne)⟩
    rw [List.head?_eq_getElem?,ha,mergesort,Option.bind_eq_bind,Option.bind_some,hl.next_eq ha,Option.bind_eq_bind,
      Option.bind_some]
    by_cases hlen : as.length = 1
    · obtain ⟨b,rfl⟩ := List.length_eq_one_iff.mp hlen
      cases ha
      exact ⟨h,by simp,rfl,by simpa using hl,fun _ _ => rfl,fun _ _ => rfl⟩
    · have hpos : 0 < as.length := List.length_pos_iff.mpr hne
      have hsecond : as[0 + 1]? ≠ none := by
        rw [Ne,List.getElem?_eq_none_iff]
        omega
      obtain ⟨l,h₁,hhalf,hl₁,h₁eq,hla,hlb,hvalue₁,hnext₁,hprev₁⟩ :=
        split_spec hl hnodup ha (by omega) (by omega : as.length ≤ 2 * fuel)
      have hsort := @StrictSort.mergeSort_halves ℕ lt as (by omega)
      have hlena : (as.take ((as.length + 1) / 2)).length = (as.length + 1) / 2 := by
        rw [List.length_take]
        omega
      have hlenb := List.length_drop (l := as) (i := (as.length + 1) / 2)
      have happend := List.take_append_drop ((as.length + 1) / 2) as
      rw [hsort]
      generalize as.take ((as.length + 1) / 2) = as₁ at hla hlena happend ⊢
      generalize as.drop ((as.length + 1) / 2) = as₂ at hl₁ hlb hlenb happend ⊢
      subst happend
      have hne₁ : as₁ ≠ [] := List.length_pos_iff.mp (by omega)
      have hne₂ : as₂ ≠ [] := List.length_pos_iff.mp (by omega)
      have ha₁ : as₁.head? = some a := by
        rw [List.head?_eq_getElem?,← ha,List.getElem?_append_left (by omega)]
      obtain ⟨hnodup₁,hnodup₂,hdisjoint⟩ := List.nodup_append.mp hnodup
      have hp₁ := List.mergeSort_perm as₁ lt
      have hp₂ := List.mergeSort_perm as₂ lt
      have hcmp₁ := hcmp.congr hvalue₁ (List.Subset.refl _)
      -- the two halves, one after the other
      obtain ⟨h₂,h₂eq,hr₂⟩ := ih (by omega) hla hnodup₁ (hvalue₁ ▸ hhead) hne₁
        (hcmp₁.congr rfl (List.subset_append_left _ _))
      have hlb₂ := hr₂.linked_of_disjoint hlb (fun x hx hx' => hdisjoint x (hp₁.mem_iff.mp hx') x hx rfl)
      have hvalue₂ : h₂.value = h.value := hr₂.value.trans hvalue₁
      obtain ⟨h₃,h₃eq,hr₃⟩ := ih (by omega) hlb₂ hnodup₂ (hvalue₂ ▸ hhead) hne₂
        (hcmp.congr hvalue₂ (List.subset_append_right _ _))
      have hla₃ := hr₃.linked_of_disjoint hr₂.linked (fun x hx hx' =>
        hdisjoint x (hp₁.mem_iff.mp hx) x (hp₂.mem_iff.mp hx') rfl)
      have hvalue₃ : h₃.value = h.value := hr₃.value.trans hvalue₂
      have hp := hp₁.append hp₂
      have hroom : (as₁.mergeSort lt).length + (as₂.mergeSort lt).length < fuel := by
        rw [hp₁.length_eq,hp₂.length_eq]
        omega
      obtain ⟨h₄,h₄eq,hr₄⟩ := mergeNodes_spec hroom hla₃ hr₃.linked
        (hp.nodup_iff.mpr hnodup) (hvalue₃ ▸ hhead) (fun he => hne₁ (List.nil_perm.mp (he ▸ hp₁))) (hcmp.congr hvalue₃ hp.subset)
      refine ⟨h₄,?_,?_⟩
      · rw [if_neg hsecond,hhalf]
        simp only [Option.bind_eq_bind,Option.bind_some,hl₁,h₁eq,← ha₁,h₂eq,h₃eq]
        exact h₄eq
      · have hmem : ∀ {x}, x ∉ (as₁.mergeSort lt).merge (as₂.mergeSort lt) lt →
            x ∉ as₁ ++ as₂ ∧ x ∉ as₁.mergeSort lt ∧ x ∉ as₂.mergeSort lt := by
          intro x hx
          rw [List.mem_merge,not_or] at hx
          exact ⟨fun hx' => (List.mem_append.mp (hp.mem_iff.mpr hx')).elim hx.1 hx.2,hx⟩
        refine ⟨hr₄.value.trans hvalue₃,hr₄.linked,fun x hx => ?_,fun x hx => ?_⟩
        · obtain ⟨hx₀,hx₁,hx₂⟩ := hmem hx
          rw [hr₄.next x hx,hr₃.next x hx₂,hr₂.next x hx₁,hnext₁ x hx₀]
        · obtain ⟨-,hx₁,hx₂⟩ := hmem hx
          rw [hr₄.prev x hx,hr₃.prev x hx₂,hr₂.prev x hx₁,hprev₁]

/-- The last node is found and linked to the tail. -/
theorem relink_spec {as : List ℕ} {tl last i nn fuel : ℕ} (hl : Linked h as) (hlast : as.getLast? = some last)
    (hnn : as[i]? = some nn) (hfuel : as.length ≤ i + fuel) (htl : h.value tl ≠ none) :
    ∃ h', relink fuel h tl nn = some h' ∧ h'.value = h.value ∧
      (∀ a, h'.next a = if a = last then some (some tl) else h.next a) ∧
      ∀ a, h'.prev a = if a = tl then some (some last) else h.prev a := by
  induction fuel generalizing i nn with
  | zero =>
    have hlt := (List.getElem?_eq_some_iff.mp hnn).1
    omega
  | succ fuel ih =>
    unfold relink
    rw [hl.next_eq hnn,Option.bind_eq_bind,Option.bind_some]
    cases hn : as[i + 1]? with
    | some n => exact ih hn (by omega)
    | none =>
      have hlt := (List.getElem?_eq_some_iff.mp hnn).1
      have hend := List.getElem?_eq_none_iff.mp hn
      have hi : as.length - 1 = i := by omega
      rw [List.getLast?_eq_getElem?,hi,hnn] at hlast
      obtain rfl : nn = last := Option.some.inj hlast
      obtain ⟨h₁,h₁eq,hnext₁,hprev₁,hvalue₁⟩ := setNext_spec (hl.value_ne_none (List.mem_of_getElem? hnn)) (some tl)
      obtain ⟨h₂,h₂eq,hprev₂,hnext₂,hvalue₂⟩ := setPrev_spec (hvalue₁ ▸ htl) (some nn)
      refine ⟨h₂,?_,hvalue₂.trans hvalue₁,fun a => by rw [hnext₂,hnext₁],fun a => by rw [hprev₂,hprev₁]⟩
      dsimp only
      rw [h₁eq,Option.bind_eq_bind,Option.bind_some,h₂eq]

/-- A list whose size is more than one is sorted: its nodes are linked anew, and nothing else changes. -/
theorem sort_ring {s : ListState T} {tl : ℕ} {as : List ℕ} {xs xs' : List T} (hs : Holds s xs) (ht : s.tail = some tl)
    (hr : s.nodes.Ring tl as xs) (hsize : 1 < s.size.toNat)
    (hcmp : ∀ a ∈ as, ∀ b ∈ as, compareNodes cmp (ofNodes s.nodes) a b = some (lt a b))
    (hxs' : (as.mergeSort lt).map s.nodes.value = xs'.map (fun x => some (some x)))
    {fuel : ℕ} (hfuel : xs.length + 2 ≤ fuel) :
    ∃ nodes, s.sort cmp fuel = some { s with nodes } ∧ nodes.Ring tl (as.mergeSort lt) xs' := by
  have hne : as ≠ [] := by
    rintro rfl
    have hlen := hr.length_eq
    rw [ListState.size,hs.size,← hlen] at hsize
    exact absurd hsize (by decide)
  obtain ⟨init,last,rfl⟩ : ∃ init last, as = init ++ [last] :=
    (List.eq_nil_or_concat as).resolve_left hne |>.imp fun _ h => h.imp fun _ h => h.trans List.concat_eq_append
  obtain ⟨hout,hnodup⟩ := List.nodup_cons.mp hr.nodup
  have hlen := hr.length_eq
  have hperm := List.mergeSort_perm (init ++ [last]) lt
  have hlastv : (ofNodes s.nodes).value last ≠ none := by
    rw [value_ofNodes]
    exact hr.value_ne_none (by simp)
  -- the ring is cut open
  have hprevtl : ((ofNodes s.nodes).prev tl).join = some last := by
    have hplace : (init ++ [last] ++ [tl])[init.length + 1]? = some tl := by simp
    rw [prev_ofNodes,hr.prev_eq hplace]
    simp
  obtain ⟨h₁,h₁eq,hnext₁,hprev₁,hvalue₁⟩ := setNext_spec hlastv none
  have hl₁ : Linked h₁ (init ++ [last]) := linked_of_ring hr (fun a => by rw [hnext₁,next_ofNodes])
    (fun a => by rw [hprev₁,prev_ofNodes])
  have hvalue₁' : h₁.value = s.nodes.value := hvalue₁.trans (funext fun a => value_ofNodes s.nodes a)
  have hfresh : h₁.value s.fresh = none := by
    rw [hvalue₁']
    by_contra hne
    exact absurd (hs.fresh _ hne) (Nat.lt_irrefl _)
  have hcmp₁ : Compares cmp lt h₁ (init ++ [last]) := fun a ha b hb => by
    rw [compareNodes,hvalue₁]
    exact hcmp a ha b hb
  have htlnext : h₁.next tl = some (init ++ [last]).head? := by
    have hpos : 0 < (init ++ [last]).length := by simp
    rw [hnext₁,if_neg (fun he : tl = last => hout (he ▸ by simp)),next_ofNodes,hr.first,List.getElem?_append_left hpos,
      List.head?_eq_getElem?,List.getElem?_eq_getElem hpos]
    rfl
  obtain ⟨h₂,h₂eq,hr₂⟩ := mergesort_spec (hlen ▸ hfuel) hl₁ hnodup hfresh hne hcmp₁
  generalize (init ++ [last]).mergeSort lt = ms at hperm h₂eq hr₂ hxs' ⊢
  have hmem : ∀ a, a ∈ tl :: ms ↔ a ∈ tl :: (init ++ [last]) := fun a => (hperm.cons tl).mem_iff
  obtain ⟨hout',hnodup'⟩ := List.nodup_cons.mp ((hperm.cons tl).nodup_iff.mpr hr.nodup)
  obtain ⟨nn,rest,rfl⟩ := List.exists_cons_of_ne_nil
    (fun he : ms = [] => absurd hperm.length_eq (by rw [he]; simp))
  have hvalue₂ : h₂.value = s.nodes.value := hr₂.value.trans hvalue₁'
  -- and closed again
  obtain ⟨h₃,h₃eq,hnext₃,hprev₃,hvalue₃⟩ := setNext_spec
    (show h₂.value tl ≠ none by rw [hvalue₂]; exact hr.value_ne_none List.mem_cons_self) (some nn)
  have hvalue₃' : h₃.value = s.nodes.value := hvalue₃.trans hvalue₂
  obtain ⟨h₄,h₄eq,hprev₄,hnext₄,hvalue₄⟩ := setPrev_spec
    (show h₃.value nn ≠ none by
      rw [hvalue₃']
      exact hr.value_ne_none ((hmem nn).mp (by simp))) (some tl)
  have hvalue₄' : h₄.value = s.nodes.value := hvalue₄.trans hvalue₃'
  have hl₄ : Linked h₄ (nn :: rest) := by
    refine hr₂.linked.congr (fun a ha => ?_) (fun a ha => ?_)
    · rw [hnext₄,hnext₃,if_neg (fun he : a = tl => hout' (he ▸ ha))]
    · rw [hprev₄,if_neg (fun he : a = nn => (List.nodup_cons.mp hnodup').1 (he ▸ ha)),hprev₃]
  obtain ⟨end',hend'⟩ : ∃ e, (nn :: rest).getLast? = some e := ⟨_,List.getLast?_eq_some_getLast (List.cons_ne_nil _ _)⟩
  have hrelink : (nn :: rest).length ≤ 0 + fuel := by
    rw [hperm.length_eq]
    omega
  obtain ⟨h₅,h₅eq,hvalue₅,hnext₅,hprev₅⟩ := relink_spec hl₄ hend' rfl hrelink
    (show h₄.value tl ≠ none by rw [hvalue₄']; exact hr.value_ne_none List.mem_cons_self)
  have hvalue₅' : h₅.value = s.nodes.value := hvalue₅.trans hvalue₄'
  refine ⟨h₅.toNodes,?_,ring_of_linked hl₄ (List.nodup_cons.mpr ⟨hout',hnodup'⟩) rfl hend' ?_ ?_ hnext₅ hprev₅
    (hvalue₅' ▸ hxs') (hvalue₅' ▸ hr.sentinel) (fun a ha => (hmem a).mpr (hr.only a (hvalue₅' ▸ ha)))⟩
  · have hsz : ¬ s.size.toNat ≤ 1 := Nat.not_le.mpr hsize
    rw [sort,if_neg hsz,ht]
    simp only [Option.bind_eq_bind,Option.bind_some,hprevtl,h₁eq,htlnext,h₂eq,List.head?_cons,h₃eq,h₄eq,h₅eq]
  · rw [hnext₄,hnext₃,if_pos rfl]
  · rw [hprev₄,if_pos rfl]

end ListState
end Edelib.Base
