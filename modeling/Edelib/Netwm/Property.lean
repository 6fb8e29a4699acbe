import Edelib.Foundation.CInt
import Mathlib.Data.List.Basic

/-! # Properties of a window

A property of format 32 is an array of 64-bit elements, one of format 8 has a NUL behind its bytes.
Its size and what is computed from its content come to the program's `int`.
-/
namespace Edelib.Netwm

/-- An element of the property; nothing is read outside. -/
def element (data : List (BitVec 64)) (i : ℤ) : Option (BitVec 64) := if 0 ≤ i then data[i.toNat]? else none

variable {data : List (BitVec 64)} {i : ℤ}

theorem element_eq (h0 : 0 ≤ i) (h : i < data.length) : element data i = some (data.getD i.toNat 0) := by
  have hlt : i.toNat < data.length := by omega
  rw [element,if_pos h0,List.getD_eq_getElem?_getD,List.getElem?_eq_getElem hlt,Option.getD_some]

theorem element_none (h : i < 0 ∨ data.length ≤ i) : element data i = none := by
  rw [element]
  split_ifs with h0
  · exact List.getElem?_eq_none (by omega)
  · rfl

end Edelib.Netwm
