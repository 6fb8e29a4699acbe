import Mathlib.Data.List.Basic
import Mathlib.Data.Nat.Digits.Defs
import Mathlib.Tactic.Ring

/-! # Numerals

A numeral is a list of digits, the highest first, read from left to right.
-/
namespace Edelib.Foundation.Numeral

def push (base n d : ℕ) : ℕ := base * n + d

def value (base : ℕ) (digits : List ℕ) : ℕ := digits.foldl (push base) 0

variable {base : ℕ} {digits : List ℕ}

@[simp] theorem value_nil : value base [] = 0 := rfl

theorem foldl_push (n : ℕ) (digits : List ℕ) :
    digits.foldl (push base) n = base ^ digits.length * n + value base digits := by
  induction digits generalizing n with
  | nil => simp
  | cons d digits ih =>
    have hfirst : value base (d :: digits) = digits.foldl (push base) d := by
      rw [value,List.foldl_cons,push,Nat.mul_zero,Nat.zero_add]
    rw [List.foldl_cons,ih,hfirst,ih,push,List.length_cons,Nat.pow_succ]
    ring

theorem value_append (high low : List ℕ) :
    value base (high ++ low) = base ^ low.length * value base high + value base low := by
  rw [value,List.foldl_append,foldl_push]
  rfl

/-- The digits of a number, highest first, have it as their value. -/
theorem value_reverse_digits (base n : ℕ) : value base (Nat.digits base n).reverse = n := by
  have hvalue : ∀ digits : List ℕ, value base digits.reverse = Nat.ofDigits base digits := by
    intro digits
    induction digits with
    | nil => rfl
    | cons d digits ih =>
      rw [List.reverse_cons,value_append,ih,List.length_singleton,Nat.pow_one,Nat.ofDigits_cons,value,List.foldl_cons,
        List.foldl_nil,push,Nat.mul_zero,Nat.zero_add,Nat.add_comm]
  rw [hvalue,Nat.ofDigits_digits]

theorem value_lt (h : ∀ d ∈ digits, d < base) : value base digits < base ^ digits.length := by
  induction digits with
  | nil => simp
  | cons d digits ih =>
    obtain ⟨hd,hdigits⟩ := List.forall_mem_cons.mp h
    have hlow := ih hdigits
    have hsplit : value base (d :: digits) = base ^ digits.length * d + value base digits := by
      rw [← List.singleton_append,value_append,value,List.foldl_cons,List.foldl_nil,push,Nat.mul_zero,Nat.zero_add]
    calc value base (d :: digits)
        = base ^ digits.length * d + value base digits := hsplit
      _ < base ^ digits.length * d + base ^ digits.length := Nat.add_lt_add_left hlow _
      _ = base ^ digits.length * (d + 1) := by ring
      _ ≤ base ^ digits.length * base := Nat.mul_le_mul_left _ hd
      _ = base ^ (d :: digits).length := by rw [List.length_cons,Nat.pow_succ]

end Edelib.Foundation.Numeral
