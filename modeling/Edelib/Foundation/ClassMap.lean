import Mathlib.Algebra.Order.Ring.Int
import Mathlib.Data.List.Basic
import Mathlib.Data.Set.Card

/-! # Lists of pairs as maps on classes of keys

Keys are compared by a test that is an equivalence on those in use. A list of pairs whose
keys are pairwise different under it is a map on the classes: putting a pair in place of
the first with an equal key, or at the end, and erasing the first with an equal key are
updates of the map.
-/
namespace Edelib.Foundation.ClassMap
variable {K V : Type*}

structure EquivOn (keys : Set K) (equal : K → K → Bool) : Prop where
  refl : ∀ k ∈ keys, equal k k = true
  symm : ∀ k₁ ∈ keys, ∀ k₂ ∈ keys, equal k₁ k₂ = true → equal k₂ k₁ = true
  trans : ∀ k₁ ∈ keys, ∀ k₂ ∈ keys, ∀ k₃ ∈ keys, equal k₁ k₂ = true → equal k₂ k₃ = true → equal k₁ k₃ = true

variable {keys : Set K} {equal : K → K → Bool}

/-- Equal keys pass and fail the same tests. -/
theorem EquivOn.congr (h : EquivOn keys equal) {k₁ k₂ k : K} (h₁ : k₁ ∈ keys) (h₂ : k₂ ∈ keys) (hk : k ∈ keys)
    (heq : equal k₁ k₂ = true) : equal k₁ k = equal k₂ k := by
  rw [Bool.eq_iff_iff]
  exact ⟨h.trans k₂ h₂ k₁ h₁ k hk (h.symm k₁ h₁ k₂ h₂ heq),h.trans k₁ h₁ k₂ h₂ k hk heq⟩

variable (equal)

def lookup (k : K) (l : List (K × V)) : Option V := (l.find? (fun p => equal p.1 k)).map Prod.snd

/-- The value of the first pair with an equal key is replaced, its key kept. -/
def put (k : K) (v : V) : List (K × V) → List (K × V)
  | [] => [(k,v)]
  | p :: l => if equal p.1 k then (p.1,v) :: l else p :: put k v l

def erase (k : K) (l : List (K × V)) : List (K × V) := l.eraseP (fun p => equal p.1 k)

def Distinct (l : List (K × V)) : Prop := l.Pairwise (fun p₁ p₂ => equal p₁.1 p₂.1 = false)

variable {equal}

theorem lookup_cons (k : K) (p : K × V) (l : List (K × V)) :
    lookup equal k (p :: l) = if equal p.1 k then some p.2 else lookup equal k l := by
  unfold lookup
  rw [List.find?_cons]
  cases equal p.1 k <;> rfl

theorem erase_cons (k : K) (p : K × V) (l : List (K × V)) :
    erase equal k (p :: l) = if equal p.1 k then l else p :: erase equal k l := by
  unfold erase
  rw [List.eraseP_cons]
  cases equal p.1 k <;> rfl

theorem lookup_isSome {k : K} {l : List (K × V)} :
    (lookup equal k l).isSome = true ↔ ∃ p ∈ l, equal p.1 k = true := by
  simp [lookup,List.find?_isSome]

theorem lookup_eq_none {k : K} {l : List (K × V)} : lookup equal k l = none ↔ ∀ p ∈ l, equal p.1 k = false := by
  simp [lookup]

theorem lookup_of_mem (h : EquivOn keys equal) {l : List (K × V)} (hl : ∀ p ∈ l, p.1 ∈ keys)
    (hd : Distinct equal l) {p : K × V} (hp : p ∈ l) {k : K} (hk : k ∈ keys) (heq : equal p.1 k = true) :
    lookup equal k l = some p.2 := by
  induction l with
  | nil => cases hp
  | cons q l ih =>
    obtain ⟨hq,hl⟩ := List.forall_mem_cons.mp hl
    obtain ⟨hqd,hd⟩ := List.pairwise_cons.mp hd
    rw [lookup_cons]
    rcases List.mem_cons.mp hp with rfl | hp
    · rw [if_pos heq]
    · have hne : equal q.1 k = false := by
        by_contra hqk
        have hqp := h.trans q.1 hq k hk p.1 (hl p hp) (by simpa using hqk) (h.symm p.1 (hl p hp) k hk heq)
        rw [hqd p hp] at hqp
        cases hqp
      rw [hne,if_neg Bool.false_ne_true]
      exact ih hl hd hp

theorem mem_put {k : K} {v : V} {l : List (K × V)} {p : K × V} (hp : p ∈ put equal k v l) :
    p.2 = v ∧ (p.1 = k ∨ ∃ q ∈ l, p.1 = q.1) ∨ p ∈ l := by
  induction l with
  | nil =>
    rw [put,List.mem_singleton] at hp
    exact Or.inl ⟨hp ▸ rfl,Or.inl (hp ▸ rfl)⟩
  | cons q l ih =>
    rw [put] at hp
    split_ifs at hp
    · rcases List.mem_cons.mp hp with rfl | hp
      · exact Or.inl ⟨rfl,Or.inr ⟨q,List.mem_cons_self,rfl⟩⟩
      · exact Or.inr (List.mem_cons_of_mem q hp)
    · rcases List.mem_cons.mp hp with rfl | hp
      · exact Or.inr List.mem_cons_self
      · rcases ih hp with ⟨hv,hkey⟩ | hmem
        · refine Or.inl ⟨hv,hkey.imp id ?_⟩
          rintro ⟨q',hq',heq⟩
          exact ⟨q',List.mem_cons_of_mem q hq',heq⟩
        · exact Or.inr (List.mem_cons_of_mem q hmem)

/-- Two classes that differ are told apart in any order. -/
theorem EquivOn.if_swap (h : EquivOn keys equal) {p k k' : K} (hp : p ∈ keys) (hk : k ∈ keys) (hk' : k' ∈ keys)
    (hne : ¬ equal p k = true) {α : Type*} (x y z : α) :
    (if equal p k' then x else if equal k k' then y else z) =
      if equal k k' then y else if equal p k' then x else z := by
  by_cases hpk' : equal p k' = true
  · have hkk' : ¬ equal k k' = true := fun hkk' =>
      hne (h.trans p hp k' hk' k hk hpk' (h.symm k hk k' hk' hkk'))
    rw [if_pos hpk',if_neg hkk',if_pos hpk']
  · rw [if_neg hpk',if_neg hpk']

theorem lookup_put (h : EquivOn keys equal) {k : K} (hk : k ∈ keys) (v : V) {l : List (K × V)}
    (hl : ∀ p ∈ l, p.1 ∈ keys) {k' : K} (hk' : k' ∈ keys) :
    lookup equal k' (put equal k v l) = if equal k k' then some v else lookup equal k' l := by
  induction l with
  | nil => rw [put,lookup_cons]
  | cons p l ih =>
    obtain ⟨hp,hl⟩ := List.forall_mem_cons.mp hl
    rw [put]
    by_cases heq : equal p.1 k = true
    · rw [if_pos heq,lookup_cons,lookup_cons,h.congr hp hk hk' heq]
      split_ifs <;> rfl
    · rw [if_neg heq,lookup_cons,lookup_cons,ih hl]
      exact h.if_swap hp hk hk' heq _ _ _

theorem distinct_put (k : K) (v : V) {l : List (K × V)} (hd : Distinct equal l) :
    Distinct equal (put equal k v l) := by
  induction l with
  | nil => exact List.pairwise_singleton _ _
  | cons p l ih =>
    obtain ⟨hpd,hd⟩ := List.pairwise_cons.mp hd
    rw [put]
    split_ifs with heq
    · exact List.pairwise_cons.mpr ⟨hpd,hd⟩
    · refine List.pairwise_cons.mpr ⟨fun q hq => ?_,ih hd⟩
      rcases mem_put hq with ⟨-,hqk | ⟨q',hq',hqq'⟩⟩ | hq
      · rw [hqk]
        simpa using heq
      · rw [hqq']
        exact hpd q' hq'
      · exact hpd q hq

theorem lookup_erase (h : EquivOn keys equal) {k : K} (hk : k ∈ keys) {l : List (K × V)}
    (hl : ∀ p ∈ l, p.1 ∈ keys) (hd : Distinct equal l) {k' : K} (hk' : k' ∈ keys) :
    lookup equal k' (erase equal k l) = if equal k k' then none else lookup equal k' l := by
  induction l with
  | nil => simp [erase,lookup]
  | cons p l ih =>
    obtain ⟨hp,hl⟩ := List.forall_mem_cons.mp hl
    obtain ⟨hpd,hd⟩ := List.pairwise_cons.mp hd
    by_cases heq : equal p.1 k = true
    · rw [erase_cons,if_pos heq,lookup_cons,h.congr hp hk hk' heq]
      split_ifs with hkk'
      · refine lookup_eq_none.mpr (fun q hq => ?_)
        by_contra hqk'
        have hpk' := h.trans p.1 hp k hk k' hk' heq hkk'
        have hpq := h.trans p.1 hp k' hk' q.1 (hl q hq) hpk' (h.symm q.1 (hl q hq) k' hk' (by simpa using hqk'))
        rw [hpd q hq] at hpq
        cases hpq
      · rfl
    · rw [erase_cons,if_neg heq,lookup_cons,lookup_cons,ih hl hd]
      exact h.if_swap hp hk hk' heq _ _ _

theorem distinct_erase (k : K) {l : List (K × V)} (hd : Distinct equal l) : Distinct equal (erase equal k l) :=
  hd.sublist List.eraseP_sublist

theorem length_eq_ncard (h : EquivOn keys equal) {l : List (K × V)} (hl : ∀ p ∈ l, p.1 ∈ keys)
    (hd : Distinct equal l) :
    l.length = ((fun k => {k' ∈ keys | equal k k' = true}) ''
      {k ∈ keys | (lookup equal k l).isSome = true}).ncard := by
  classical
  have hnodup : (l.map (fun p => {k' ∈ keys | equal p.1 k' = true})).Nodup := by
    refine List.pairwise_map.mpr (hd.imp_of_mem (fun {p q} hp hq hpq heq => ?_))
    have hq' : q.1 ∈ {k' ∈ keys | equal p.1 k' = true} := by
      rw [heq]
      exact ⟨hl q hq,h.refl q.1 (hl q hq)⟩
    exact absurd (hpq.symm.trans hq'.2) Bool.false_ne_true
  have hclasses : (fun k => {k' ∈ keys | equal k k' = true}) '' {k ∈ keys | (lookup equal k l).isSome = true} =
      ((l.map (fun p => {k' ∈ keys | equal p.1 k' = true})).toFinset : Set (Set K)) := by
    ext c
    simp only [Set.mem_image,Set.mem_ofPred_eq,List.coe_toFinset,List.mem_map,lookup_isSome]
    constructor
    · rintro ⟨k,⟨hk,p,hp,heq⟩,rfl⟩
      refine ⟨p,hp,Set.ext (fun k' => and_congr_right (fun hk' => ?_))⟩
      rw [h.congr (hl p hp) hk hk' heq]
    · rintro ⟨p,hp,rfl⟩
      exact ⟨p.1,⟨hl p hp,p,hp,h.refl p.1 (hl p hp)⟩,rfl⟩
  rw [hclasses,Set.ncard_coe_finset,List.toFinset_card_of_nodup hnodup,List.length_map]

end Edelib.Foundation.ClassMap
