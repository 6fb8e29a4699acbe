import Mathlib.Algebra.Order.Ring.Int
import Mathlib.Data.List.Basic
import Mathlib.Data.List.Nodup

/-! # Lists of records with keys

A list of records keyed by one of their parts is a finite map once every lookup
finds the record whose key is the queried one. A lookup by an approximate test
does so exactly when the test accepts no record standing before that one.
-/
namespace Edelib.Foundation.KeyedList
variable {α K : Type*} [DecidableEq K] (key : α → K)

def position (q : K) (l : List α) : Option ℕ := l.findIdx? (fun a => decide (key a = q))

def record (q : K) (l : List α) : Option α := l.find? (fun a => decide (key a = q))

def Unmistaken (accept : α → K → Bool) (q : K) (l : List α) : Prop :=
  ∀ a ∈ l.takeWhile (fun a => decide (key a ≠ q)), accept a q = false

instance (accept : α → K → Bool) (q : K) (l : List α) : Decidable (Unmistaken key accept q l) :=
  inferInstanceAs (Decidable (∀ a ∈ l.takeWhile (fun a => decide (key a ≠ q)), accept a q = false))

/-- An approximate lookup is the exact one if and only if nothing is mistaken for the key. -/
theorem findIdx?_eq_position_iff (accept : α → K → Bool) (hrefl : ∀ a, accept a (key a) = true)
    (q : K) (l : List α) :
    l.findIdx? (fun a => accept a q) = position key q l ↔ Unmistaken key accept q l := by
  induction l with
  | nil => simp [position,Unmistaken]
  | cons a l ih =>
    by_cases hk : key a = q
    · have ha : accept a q = true := hk ▸ hrefl a
      simp [position,Unmistaken,List.findIdx?_cons,hk,ha]
    · cases ha : accept a q with
      | true =>
        refine iff_of_false ?_ (fun h => ?_)
        · cases hp : l.findIdx? (fun a => decide (key a = q)) <;>
            simp [position,List.findIdx?_cons,hk,ha,hp]
        · have := h a (by simp [hk])
          simp [ha] at this
      | false =>
        have hi : Function.Injective (Option.map (fun i : ℕ => i + 1)) :=
          Option.map_injective (fun _ _ => Nat.succ.inj)
        simpa [position,Unmistaken,List.findIdx?_cons,hk,ha,hi.eq_iff] using ih

theorem position_eq_none {q : K} {l : List α} : position key q l = none ↔ ∀ a ∈ l, key a ≠ q := by
  simp [position,List.findIdx?_eq_none_iff]

theorem record_eq_none {q : K} {l : List α} : record key q l = none ↔ ∀ a ∈ l, key a ≠ q := by
  simp [record]

theorem record_eq_of_position {q : K} {l : List α} {i : ℕ} (h : position key q l = some i) :
    record key q l = l[i]? := by
  induction l generalizing i with
  | nil => simp [position] at h
  | cons a l ih =>
    by_cases hk : key a = q
    · obtain rfl : 0 = i := by simpa [position,List.findIdx?_cons,hk] using h
      simp [record,hk]
    · obtain ⟨j,hj,rfl⟩ : ∃ j, position key q l = some j ∧ j + 1 = i := by
        simpa [position,List.findIdx?_cons,hk] using h
      simpa [record,hk] using ih hj

theorem key_of_position {q : K} {l : List α} {i : ℕ} (h : position key q l = some i) :
    ∃ a, l[i]? = some a ∧ key a = q := by
  obtain ⟨hi,hk,-⟩ := List.findIdx?_eq_some_iff_getElem.mp h
  exact ⟨l[i],List.getElem?_eq_getElem hi,by simpa using hk⟩

/-- Among records with distinct keys, any record with the key stands at its position. -/
theorem position_of_getElem? {q : K} {l : List α} (hl : (l.map key).Nodup) {i : ℕ} {a : α}
    (hi : l[i]? = some a) (ha : key a = q) : position key q l = some i := by
  obtain ⟨hlt,rfl⟩ := List.getElem?_eq_some_iff.mp hi
  refine List.findIdx?_eq_some_iff_getElem.mpr ⟨hlt,by simpa using ha,fun j hj hkj => ?_⟩
  have hjl : j < l.length := Nat.lt_trans hj hlt
  have hkey : (l.map key)[j]? = (l.map key)[i]? := by
    simp only [List.getElem?_map,List.getElem?_eq_getElem hjl,List.getElem?_eq_getElem hlt,Option.map_some,ha]
    simpa using hkj
  have := (List.getElem?_inj (by simpa using hjl) hl).mp hkey
  omega

/-! ## Updates -/

/-- Changing the record found for `q`, its key kept, changes the map at `q` only. -/
theorem record_modify {q : K} {l : List α} {i : ℕ} (hi : position key q l = some i) {f : α → α}
    (hf : ∀ a, key (f a) = key a) (q' : K) :
    record key q' (l.modify i f) = if q' = q then (record key q l).map f else record key q' l := by
  induction l generalizing i with
  | nil => simp [position] at hi
  | cons a l ih =>
    by_cases hk : key a = q
    · obtain rfl : 0 = i := by simpa [position,List.findIdx?_cons,hk] using hi
      by_cases hq : q' = q
      · simp [record,hf,hk,hq]
      · simp [record,hf,hk,hq,Ne.symm hq]
    · obtain ⟨j,hj,rfl⟩ : ∃ j, position key q l = some j ∧ j + 1 = i := by
        simpa [position,List.findIdx?_cons,hk] using hi
      have ih := ih hj
      by_cases hq : q' = q
      · subst hq
        simpa [record,hk] using ih
      · by_cases hka : key a = q'
        · simp [record,hka,hq]
        · simpa [record,hka,hq] using ih

theorem record_append {l : List α} {x : α} {k : K} (hk : key x = k) (hx : ∀ a ∈ l, key a ≠ k) (q : K) :
    record key q (l ++ [x]) = if q = k then some x else record key q l := by
  unfold record
  rw [List.find?_append]
  by_cases hq : q = k
  · subst hq
    have hn : l.find? (fun a => decide (key a = q)) = none := by simpa using hx
    simp [hn,hk]
  · simp [hq,hk,Ne.symm hq]

omit [DecidableEq K] in
theorem modify_append_last (l : List α) (x : α) (f : α → α) :
    (l ++ [x]).modify l.length f = l ++ [f x] := by
  rw [List.modify_eq_take_cons_drop (by simp)]
  simp

omit [DecidableEq K] in
theorem map_modify (l : List α) (i : ℕ) {f : α → α} (hf : ∀ a, key (f a) = key a) :
    (l.modify i f).map key = l.map key := by
  apply List.ext_getElem?
  intro j
  simp only [List.getElem?_map,List.getElem?_modify]
  cases l[j]? with
  | none => rfl
  | some a => by_cases h : i = j <;> simp [h,hf]

omit [DecidableEq K] in
theorem modify_fixed {l : List α} {i : ℕ} {f : α → α} (hf : ∀ a, l[i]? = some a → f a = a) : l.modify i f = l := by
  apply List.ext_getElem?
  intro j
  rw [List.getElem?_modify]
  by_cases h : i = j
  · subst h
    cases hi : l[i]? with
    | none => rfl
    | some a => simp [hf a hi]
  · simp [h]

omit [DecidableEq K] in
theorem nodup_modify {l : List α} (hl : (l.map key).Nodup) (i : ℕ) {f : α → α}
    (hf : ∀ a, key (f a) = key a) : ((l.modify i f).map key).Nodup := by
  rwa [map_modify key l i hf]

omit [DecidableEq K] in
theorem nodup_append {l : List α} (hl : (l.map key).Nodup) {x : α} {k : K} (hk : key x = k)
    (hx : ∀ a ∈ l, key a ≠ k) : ((l ++ [x]).map key).Nodup := by
  rw [List.map_append,List.nodup_append]
  refine ⟨hl,by simp,?_⟩
  intro j hj j' hj' he
  obtain ⟨a,ha,rfl⟩ := List.mem_map.mp hj
  exact hx a ha (by simpa [he,hk] using hj')

theorem eraseDups_snoc (l : List K) (a : K) :
    (l ++ [a]).eraseDups = if a ∈ l then l.eraseDups else l.eraseDups ++ [a] := by
  rw [List.eraseDups_append]
  by_cases h : a ∈ l <;> simp [List.removeAll,h,List.eraseDups_cons]

theorem mem_eraseP {k : K} {l : List α} (h : (l.map key).Nodup) {a : α} :
    a ∈ l.eraseP (fun a => decide (key a = k)) ↔ a ∈ l ∧ key a ≠ k := by
  induction l with
  | nil => simp
  | cons b l ih =>
    rw [List.map_cons,List.nodup_cons] at h
    by_cases hb : key b = k
    · rw [List.eraseP_cons_of_pos (by simpa using hb),List.mem_cons]
      constructor
      · intro ha
        exact ⟨Or.inr ha,fun hk => h.1 (hb.trans hk.symm ▸ List.mem_map_of_mem ha)⟩
      · rintro ⟨rfl | ha,hk⟩
        · exact absurd hb hk
        · exact ha
    · rw [List.eraseP_cons_of_neg (by simpa using hb),List.mem_cons,List.mem_cons,ih h.2]
      constructor
      · rintro (rfl | ⟨ha,hk⟩)
        · exact ⟨Or.inl rfl,hb⟩
        · exact ⟨Or.inr ha,hk⟩
      · rintro ⟨rfl | ha,hk⟩
        · exact Or.inl rfl
        · exact Or.inr ⟨ha,hk⟩

end Edelib.Foundation.KeyedList
