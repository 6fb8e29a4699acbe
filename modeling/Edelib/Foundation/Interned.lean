import Mathlib.Data.List.Infix

/-! # Names that are numbered

A name gets the number of the first one that has its key; where there is none it is taken up, in a normal form, behind
the others. A number stays with the name that has it, as the names only grow.
-/
namespace Edelib.Foundation.Interned
variable {α κ : Type*} [DecidableEq κ] (key : α → κ) (norm : α → α)

def place (names : List α) (x : α) : Option ℕ := names.findIdx? (fun n => decide (key x = key n))

def intern (names : List α) (x : α) : ℕ × List α :=
  match place key names x with
  | some i => (i,names)
  | none => (names.length,names ++ [norm x])

variable {key norm} {names names' : List α} {x : α} {i : ℕ}

/-- The name that is at the place of another has its key. -/
theorem key_of_place (h : place key names x = some i) : ∃ n, names[i]? = some n ∧ key x = key n := by
  obtain ⟨hlt,hkey,-⟩ := List.findIdx?_eq_some_iff_getElem.mp h
  exact ⟨names[i],List.getElem?_eq_getElem hlt,of_decide_eq_true hkey⟩

theorem place_of_prefix (hle : names <+: names') (h : place key names x = some i) : place key names' x = some i := by
  obtain ⟨more,rfl⟩ := hle
  rw [place,List.findIdx?_append,← place,h]
  rfl

theorem place_snoc (h : place key names x = none) (hnorm : key (norm x) = key x) :
    place key (names ++ [norm x]) x = some names.length := by
  have hsingle : [norm x].findIdx? (fun n => decide (key x = key n)) = some 0 := by
    rw [List.findIdx?_singleton,hnorm,decide_eq_true rfl,if_pos rfl]
  rw [place,List.findIdx?_append,← place,h,hsingle,Option.none_or,Option.map_some,Nat.zero_add]

variable (key norm names x)

theorem prefix_intern : names <+: (intern key norm names x).2 := by
  unfold intern
  cases place key names x with
  | some i => exact List.prefix_refl _
  | none => exact List.prefix_append _ _

/-- What has a number is a name with the key of the one that got it, or its normal form. -/
theorem getElem_intern : ∃ n, (intern key norm names x).2[(intern key norm names x).1]? = some n ∧
    (key x = key n ∧ n ∈ names ∨ n = norm x) := by
  unfold intern
  cases h : place key names x with
  | some i =>
    obtain ⟨n,hn,hkey⟩ := key_of_place h
    exact ⟨n,hn,.inl ⟨hkey,List.mem_of_getElem? hn⟩⟩
  | none => exact ⟨norm x,List.getElem?_concat_length,.inr rfl⟩

variable {key norm x}

theorem place_intern (hnorm : key (norm x) = key x) :
    place key (intern key norm names x).2 x = some (intern key norm names x).1 := by
  unfold intern
  cases h : place key names x with
  | some i => exact h
  | none => exact place_snoc h hnorm

end Edelib.Foundation.Interned
