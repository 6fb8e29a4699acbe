import Mathlib.Data.List.Dedup
import Mathlib.Data.List.Perm.Basic

/-! # Key-value stores

What is stored under a key replaces what was there, and a walk over the store meets each of its keys once, in an order
of its own. A store may refuse keys.
-/
namespace Edelib.Foundation

structure KeyValue (δ K V : Type) [DecidableEq K] where
  empty : δ
  takes : K → Bool
  fetch : δ → K → Option V
  store : δ → K → V → δ
  keys : δ → List K
  fetch_empty : ∀ k, fetch empty k = none
  fetch_store : ∀ d k v j, fetch (store d k v) j = if j = k ∧ takes k = true then some v else fetch d j
  mem_keys : ∀ d k, k ∈ keys d ↔ (fetch d k).isSome = true
  nodup_keys : ∀ d, (keys d).Nodup

namespace KeyValue
variable {δ K V : Type} [DecidableEq K] (kv : KeyValue δ K V) {d : δ} {k : K} {v : V} {l : List (K × V)}

def storeAll (d : δ) (l : List (K × V)) : δ := l.foldl (fun d p => kv.store d p.1 p.2) d

theorem storeAll_snoc : kv.storeAll d (l ++ [(k,v)]) = kv.store (kv.storeAll d l) k v := by
  rw [storeAll,List.foldl_append,← storeAll]
  rfl

theorem fetch_store_self (hk : kv.takes k = true) : kv.fetch (kv.store d k v) k = some v := by
  rw [kv.fetch_store,if_pos ⟨rfl,hk⟩]

theorem fetch_store_ne {j : K} (hj : j ≠ k) : kv.fetch (kv.store d k v) j = kv.fetch d j := by
  rw [kv.fetch_store,if_neg (fun h => hj h.1)]

/-- There is something under the keys that were stored and taken. -/
theorem isSome_fetch_storeAll : (kv.fetch (kv.storeAll d l) k).isSome = true ↔
    (kv.fetch d k).isSome = true ∨ k ∈ l.map Prod.fst ∧ kv.takes k = true := by
  induction l generalizing d with
  | nil => exact ⟨Or.inl,fun h => h.elim id (fun h => absurd h.1 List.not_mem_nil)⟩
  | cons p l ih =>
    have hstep : kv.storeAll d (p :: l) = kv.storeAll (kv.store d p.1 p.2) l := rfl
    rw [hstep,ih,kv.fetch_store,List.map_cons,List.mem_cons]
    by_cases hk : k = p.1 ∧ kv.takes p.1 = true
    · obtain ⟨rfl,htakes⟩ := hk
      rw [if_pos ⟨rfl,htakes⟩]
      exact iff_of_true (.inl rfl) (.inr ⟨.inl rfl,htakes⟩)
    · rw [if_neg hk]
      constructor
      · rintro (hd | ⟨hmem,htakes⟩)
        · exact .inl hd
        · exact .inr ⟨.inr hmem,htakes⟩
      · rintro (hd | ⟨rfl | hmem,htakes⟩)
        · exact .inl hd
        · exact absurd ⟨rfl,htakes⟩ hk
        · exact .inr ⟨hmem,htakes⟩

/-- A walk over what was stored meets the keys that were taken. -/
theorem keys_storeAll : (kv.keys (kv.storeAll kv.empty l)).Perm ((l.map Prod.fst).dedup.filter kv.takes) := by
  refine (List.perm_ext_iff_of_nodup (kv.nodup_keys _) ((List.nodup_dedup _).filter _)).mpr (fun k => ?_)
  rw [kv.mem_keys,isSome_fetch_storeAll,kv.fetch_empty,List.mem_filter,List.mem_dedup]
  exact ⟨fun h => h.elim (fun h => absurd h Bool.false_ne_true) id,Or.inr⟩

def log (K V : Type) [DecidableEq K] : KeyValue (List (K × V)) K V where
  empty := []
  takes _ := true
  fetch d k := d.lookup k
  store d k v := (k,v) :: d
  keys d := (d.map Prod.fst).dedup
  fetch_empty _ := rfl
  fetch_store d k v j := by
    rw [List.lookup_cons]
    by_cases hj : j = k
    · rw [if_pos ⟨hj,rfl⟩,beq_iff_eq.mpr hj]
    · rw [if_neg (fun h => hj h.1),beq_eq_false_iff_ne.mpr hj]
  mem_keys d k := by
    rw [List.mem_dedup,List.lookup_isSome_iff]
    constructor
    · intro h
      obtain ⟨p,hp,rfl⟩ := List.mem_map.mp h
      exact ⟨p,hp,beq_self_eq_true _⟩
    · rintro ⟨p,hp,heq⟩
      obtain rfl := beq_iff_eq.mp heq
      exact List.mem_map_of_mem hp
  nodup_keys d := List.nodup_dedup _

end KeyValue

/-- Dropping repetitions and what is not wanted leaves as many only where there is nothing to drop. -/
theorem length_filter_dedup {K : Type} [DecidableEq K] {p : K → Bool} {l : List K} :
    (l.dedup.filter p).length = l.length ↔ l.Nodup ∧ ∀ k ∈ l, p k = true := by
  have hle := (List.filter_sublist (l := l.dedup) (p := p)).length_le
  have hdedup := (List.dedup_sublist l).length_le
  constructor
  · intro h
    have hself : l.dedup = l := (List.dedup_sublist l).eq_of_length (by omega)
    rw [hself,List.length_filter_eq_length_iff] at h
    exact ⟨List.dedup_eq_self.mp hself,h⟩
  · rintro ⟨hnodup,hall⟩
    rw [hnodup.dedup,List.length_filter_eq_length_iff]
    exact hall

end Edelib.Foundation
