import Edelib.Foundation.KeyedList

/-! # Strictly sorted lists of records

Records in strictly increasing order of their keys: insertion of a new key keeps the
order, and insertion and removal change the map the list stands for at one key only.
-/
namespace Edelib.Foundation.SortedList
open KeyedList
variable {α K : Type*} [LinearOrder K] (key : α → K)

def StrictSorted (l : List α) : Prop := l.Pairwise (fun a b => key a < key b)

instance (l : List α) : Decidable (StrictSorted key l) :=
  inferInstanceAs (Decidable (l.Pairwise (fun a b => key a < key b)))

theorem strictSorted_nil : StrictSorted key [] := List.Pairwise.nil

theorem strictSorted_cons {a : α} {l : List α} :
    StrictSorted key (a :: l) ↔ (∀ b ∈ l, key a < key b) ∧ StrictSorted key l :=
  List.pairwise_cons

variable {key}

theorem record_of_mem {l : List α} (h : StrictSorted key l) {a : α} (ha : a ∈ l) :
    record key (key a) l = some a := by
  induction l with
  | nil => cases ha
  | cons b l ih =>
    obtain ⟨hb,hl⟩ := (strictSorted_cons key).mp h
    rcases List.mem_cons.mp ha with rfl | ha
    · simp [record]
    · have hne : ¬ key b = key a := ne_of_lt (hb a ha)
      simpa [record,hne] using ih hl ha

variable (key)

def insertNew (x : α) : List α → Bool × List α
  | [] => (true,[x])
  | a :: l =>
    if key x < key a then (true,x :: a :: l)
    else if key x = key a then (false,a :: l)
    else ((insertNew x l).1,a :: (insertNew x l).2)

variable {key}

theorem mem_insertNew {x b : α} {l : List α} (h : b ∈ (insertNew key x l).2) : b = x ∨ b ∈ l := by
  induction l with
  | nil => simpa [insertNew] using h
  | cons a l ih =>
    simp only [insertNew] at h
    split_ifs at h
    · simpa using h
    · exact Or.inr h
    · rcases List.mem_cons.mp h with rfl | h
      · exact Or.inr List.mem_cons_self
      · exact (ih h).imp_right (List.mem_cons_of_mem a)

theorem strictSorted_insertNew {l : List α} (h : StrictSorted key l) (x : α) :
    StrictSorted key (insertNew key x l).2 := by
  induction l with
  | nil => exact List.pairwise_singleton _ x
  | cons a l ih =>
    obtain ⟨ha,hl⟩ := (strictSorted_cons key).mp h
    simp only [insertNew]
    split_ifs with hlt heq
    · refine (strictSorted_cons key).mpr ⟨fun b hb => ?_,h⟩
      rcases List.mem_cons.mp hb with rfl | hb
      · exact hlt
      · exact lt_trans hlt (ha b hb)
    · exact h
    · refine (strictSorted_cons key).mpr ⟨fun b hb => ?_,ih hl⟩
      rcases mem_insertNew hb with rfl | hb
      · exact lt_of_le_of_ne (not_lt.mp hlt) (Ne.symm heq)
      · exact ha b hb

/-- Insertion of a new key defines the map there and nowhere else. -/
theorem record_insertNew {l : List α} (h : StrictSorted key l) {x : α}
    (hx : record key (key x) l = none) (q : K) :
    record key q (insertNew key x l).2 = if q = key x then some x else record key q l := by
  induction l with
  | nil =>
    by_cases hq : q = key x
    · simp [insertNew,record,hq]
    · simp [insertNew,record,hq,Ne.symm hq]
  | cons a l ih =>
    obtain ⟨-,hl⟩ := (strictSorted_cons key).mp h
    have hne : ¬ key a = key x := (record_eq_none key).mp hx a List.mem_cons_self
    have hxl : record key (key x) l = none := by simpa [record,hne] using hx
    have ih := ih hl hxl
    simp only [insertNew,Ne.symm hne,↓reduceIte]
    by_cases hlt : key x < key a
    · by_cases hq : q = key x
      · simp [hlt,record,hq]
      · simp [hlt,record,hq,Ne.symm hq]
    · simp only [hlt,↓reduceIte]
      by_cases ha : key a = q
      · have hq : ¬ q = key x := ha ▸ hne
        simp [record,ha,hq]
      · simpa [record,ha] using ih

/-- A key above all others is inserted at the end. -/
theorem insertNew_last {l : List α} {x : α} (h : ∀ a ∈ l, key a < key x) :
    insertNew key x l = (true,l ++ [x]) := by
  induction l with
  | nil => rfl
  | cons a l ih =>
    have ha : key a < key x := h a List.mem_cons_self
    simp [insertNew,not_lt_of_gt ha,ne_of_gt ha,ih (fun b hb => h b (List.mem_cons_of_mem a hb))]

variable (key)

def eraseKey (q : K) (l : List α) : List α := l.eraseP (fun a => decide (key a = q))

variable {key}

theorem strictSorted_eraseKey {l : List α} (h : StrictSorted key l) (q : K) :
    StrictSorted key (eraseKey key q l) :=
  h.sublist List.eraseP_sublist

theorem record_eraseKey {l : List α} (h : StrictSorted key l) (q q' : K) :
    record key q' (eraseKey key q l) = if q' = q then none else record key q' l := by
  induction l with
  | nil => simp [eraseKey,record]
  | cons a l ih =>
    obtain ⟨ha,hl⟩ := (strictSorted_cons key).mp h
    have ih := ih hl
    by_cases hk : key a = q
    · by_cases hq : q' = q
      · have hn : record key q l = none :=
          (record_eq_none key).mpr (fun b hb he => absurd (ha b hb) (by rw [hk,he]; exact lt_irrefl q))
        simp [eraseKey,hk,hq,hn]
      · have hne : ¬ q = q' := Ne.symm hq
        simp [eraseKey,hk,hq,record,hne]
    · by_cases hq : key a = q'
      · have hne : ¬ q' = q := hq ▸ hk
        simp [eraseKey,record,hq,hne]
      · simpa [eraseKey,hk,record,hq] using ih

end Edelib.Foundation.SortedList
