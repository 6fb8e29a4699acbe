import Mathlib.Algebra.Order.Ring.Int
import Mathlib.Data.List.Basic

/-! # Lookups that remember their last result

Names stand in a list, and a lookup finds the first that is accepted for the query. The
position found last is tried before the list; that is a search of the list alone as long
as no earlier name is accepted for the same queries.
-/
namespace Edelib.Foundation.Remembered
variable {K Q : Type*} (accept : K → Q → Bool)

def first (names : List K) (q : Q) : Option ℕ := names.findIdx? (fun k => accept k q)

def lookup (names : List K) (cached : Option ℕ) (q : Q) : Option ℕ :=
  (cached.filter (fun i => names[i]?.any (fun k => accept k q))).or (first accept names q)

def remember (names : List K) (cached : Option ℕ) (q : Q) : Option ℕ := (lookup accept names cached q).or cached

def Unshadowed (names : List K) (i : ℕ) : Prop :=
  ∀ j, j < i → ∀ k k' q, names[j]? = some k → names[i]? = some k' → accept k q = true → accept k' q = false

variable {accept} {names : List K} {cached : Option ℕ} {q : Q}

theorem first_of_unshadowed {i : ℕ} (h : Unshadowed accept names i) (hi : names[i]?.any (fun k => accept k q) = true) :
    first accept names q = some i := by
  cases hk : names[i]? with
  | none => simp [hk] at hi
  | some k =>
    have hacc : accept k q = true := by simpa [hk] using hi
    obtain ⟨hlt,rfl⟩ := List.getElem?_eq_some_iff.mp hk
    refine List.findIdx?_eq_some_iff_getElem.mpr ⟨hlt,hacc,fun j hj hjacc => ?_⟩
    have hno := h j hj names[j] names[i] q (List.getElem?_eq_getElem (hj.trans hlt)) hk hjacc
    rw [hacc] at hno
    cases hno

theorem accept_of_lookup {i : ℕ} (h : lookup accept names cached q = some i) :
    ∃ k, names[i]? = some k ∧ accept k q = true := by
  rcases Option.or_eq_some_iff.mp h with hc | ⟨-,hf⟩
  · obtain ⟨-,hi⟩ := Option.filter_eq_some_iff.mp hc
    cases hk : names[i]? with
    | none => simp [hk] at hi
    | some k => exact ⟨k,rfl,by simpa [hk] using hi⟩
  · obtain ⟨hlt,hacc,-⟩ := List.findIdx?_eq_some_iff_getElem.mp hf
    exact ⟨names[i],List.getElem?_eq_getElem hlt,hacc⟩

theorem not_accept_of_lookup (h : lookup accept names cached q = none) : ∀ k ∈ names, accept k q = false := by
  obtain ⟨-,hfirst⟩ := Option.or_eq_none_iff.mp h
  simpa using List.findIdx?_eq_none_iff.mp hfirst

theorem remember_lt (h : ∀ i, cached = some i → i < names.length) {i : ℕ}
    (hi : remember accept names cached q = some i) : i < names.length := by
  rcases Option.or_eq_some_iff.mp hi with hl | ⟨-,hc⟩
  · obtain ⟨k,hk,-⟩ := accept_of_lookup hl
    exact (List.getElem?_eq_some_iff.mp hk).1
  · exact h i hc

/-- The name found last is found again. -/
theorem lookup_remember_self {i : ℕ} (h : lookup accept names cached q = some i) :
    lookup accept names (remember accept names cached q) q = some i := by
  obtain ⟨k,hk,hacc⟩ := accept_of_lookup h
  rw [remember,h,Option.some_or]
  simp [lookup,Option.filter_some,hk,hacc]

/-- A name put at the end is found when no other was. -/
theorem lookup_append_self {k : K} (h : lookup accept names cached q = none) (hk : accept k q = true) :
    lookup accept (names ++ [k]) cached q = some names.length := by
  obtain ⟨hcached,hfirst⟩ := Option.or_eq_none_iff.mp h
  have hlast : first accept (names ++ [k]) q = some names.length := by
    rw [first,List.findIdx?_append,show names.findIdx? (fun k => accept k q) = none from hfirst]
    simp [hk]
  rw [lookup,hlast]
  cases cached with
  | none => rfl
  | some i =>
    rcases Nat.lt_trichotomy i names.length with hlt | rfl | hgt
    · have hno : names[i]?.any (fun k => accept k q) = false := by
        by_contra hany
        rw [Option.filter_some,if_pos (Bool.eq_true_of_not_eq_false hany)] at hcached
        cases hcached
      simp [Option.filter_some,List.getElem?_append_left hlt,hno]
    · simp [Option.filter_some,hk]
    · simp [Option.filter_some,List.getElem?_eq_none (show (names ++ [k]).length ≤ i by simp; omega)]

/-- With nothing shadowed, the memory makes no difference. -/
theorem lookup_eq_first (h : ∀ i, cached = some i → Unshadowed accept names i) (q : Q) :
    lookup accept names cached q = first accept names q := by
  unfold lookup
  cases cached with
  | none => rfl
  | some i =>
    by_cases hi : names[i]?.any (fun k => accept k q) = true
    · simp [Option.filter_some,hi,first_of_unshadowed (h i rfl) hi]
    · simp [Option.filter_some,hi]

/-- A lookup answers as before after one that moved the memory between unshadowed positions. -/
theorem lookup_remember (h : ∀ i, lookup accept names cached q = some i → cached ≠ some i →
      Unshadowed accept names i ∧ ∀ j, cached = some j → Unshadowed accept names j) (q' : Q) :
    lookup accept names (remember accept names cached q) q' = lookup accept names cached q' := by
  cases hq : lookup accept names cached q with
  | none => rw [remember,hq,Option.none_or]
  | some i =>
    rw [remember,hq,Option.some_or]
    by_cases hi : cached = some i
    · rw [hi]
    · obtain ⟨hnew,hold⟩ := h i hq hi
      have hsome : ∀ j, some i = some j → Unshadowed accept names j := fun j hj => Option.some.inj hj ▸ hnew
      rw [lookup_eq_first hsome,lookup_eq_first hold]

/-- Two memories that answer alike do so after the same lookup. -/
theorem lookup_remember_congr {cached' : Option ℕ}
    (h : ∀ q, lookup accept names cached' q = lookup accept names cached q) (q q' : Q) :
    lookup accept names (remember accept names cached' q) q' =
      lookup accept names (remember accept names cached q) q' := by
  rw [remember,remember,h]
  cases lookup accept names cached q with
  | none => exact h q'
  | some i => rfl

end Edelib.Foundation.Remembered
