import Mathlib.Algebra.Order.Ring.Int
import Mathlib.Data.Int.Notation

/-! # The numbers of type `int`

A number that is computed has to be an `int`; one that is converted loses its higher bits.
-/
namespace Edelib.Foundation.CInt

def INT_MAX : ℤ := 2147483647

def INT_MIN : ℤ := -2147483648

def IsInt (i : ℤ) : Prop := INT_MIN ≤ i ∧ i ≤ INT_MAX

instance (i : ℤ) : Decidable (IsInt i) := inferInstanceAs (Decidable (_ ∧ _))

/-- The result of an operation; an overflow has none. -/
def checked (i : ℤ) : Option ℤ := if IsInt i then some i else none

/-- A number of type `size_t` taken as an `int`. -/
def ofSize (n : ℕ) : ℤ := (BitVec.ofNat 32 n).toInt

theorem checked_eq {i : ℤ} (h : IsInt i) : checked i = some i := if_pos h

theorem isInt_iff {i : ℤ} : IsInt i ↔ -2147483648 ≤ i ∧ i ≤ 2147483647 := Iff.rfl

theorem ofSize_eq (n : ℕ) : ofSize n =
    if 2 * (n % 2 ^ 32) < 2 ^ 32 then ((n % 2 ^ 32 : ℕ) : ℤ) else ((n % 2 ^ 32 : ℕ) : ℤ) - (2 ^ 32 : ℕ) := by
  rw [ofSize,BitVec.toInt_eq_toNat_cond,BitVec.toNat_ofNat]

theorem isInt_ofSize (n : ℕ) : IsInt (ofSize n) := by
  rw [isInt_iff,ofSize_eq]
  split_ifs <;> omega

theorem ofSize_of_le {n : ℕ} (h : n ≤ 2147483647) : ofSize n = n := by
  rw [ofSize_eq]
  split_ifs <;> omega

theorem ofSize_of_le_max {n : ℕ} (h : (n : ℤ) ≤ INT_MAX) : ofSize n = n :=
  ofSize_of_le (by rw [INT_MAX] at h; omega)

theorem ofSize_le (n : ℕ) : ofSize n ≤ n := by
  rw [ofSize_eq]
  split_ifs <;> omega

theorem ofSize_le_max (n : ℕ) : ofSize n ≤ INT_MAX := (isInt_ofSize n).2

end Edelib.Foundation.CInt
