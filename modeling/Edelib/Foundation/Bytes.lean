import Mathlib.Algebra.Order.Ring.Int
import Mathlib.Data.List.Basic

/-! # Words and byte orders

A word of two or four bytes is laid out in one of two byte orders. Reading back in
the other order gives the word with its bytes swapped.
-/
namespace Edelib.Foundation

inductive ByteOrder
  | lsbFirst | msbFirst
deriving DecidableEq, Repr

namespace ByteOrder

def byte {w : ℕ} (x : BitVec w) (i : ℕ) : UInt8 := ⟨x.extractLsb' (8 * i) 8⟩

def arrange : ByteOrder → List UInt8 → List UInt8
  | lsbFirst, bs => bs
  | msbFirst, bs => bs.reverse

def bytes16 (o : ByteOrder) (x : BitVec 16) : List UInt8 := o.arrange [byte x 0,byte x 1]

def bytes32 (o : ByteOrder) (x : BitVec 32) : List UInt8 :=
  o.arrange [byte x 0,byte x 1,byte x 2,byte x 3]

def join16 : List UInt8 → BitVec 16
  | [b₀,b₁] => b₁.toBitVec ++ b₀.toBitVec
  | _ => 0

def join32 : List UInt8 → BitVec 32
  | [b₀,b₁,b₂,b₃] => b₃.toBitVec ++ b₂.toBitVec ++ b₁.toBitVec ++ b₀.toBitVec
  | _ => 0

def card16 (o : ByteOrder) (bs : List UInt8) : BitVec 16 := join16 (o.arrange bs)

def card32 (o : ByteOrder) (bs : List UInt8) : BitVec 32 := join32 (o.arrange bs)

def swap16 (x : BitVec 16) : BitVec 16 := (x <<< 8) ||| (x >>> 8)

def swap32 (x : BitVec 32) : BitVec 32 :=
  (x <<< 24) ||| ((x &&& 0xff00#32) <<< 8) ||| ((x &&& 0xff0000#32) >>> 8) ||| (x >>> 24)

@[simp] theorem length_bytes16 (o : ByteOrder) (x : BitVec 16) : (o.bytes16 x).length = 2 := by
  cases o <;> rfl

@[simp] theorem length_bytes32 (o : ByteOrder) (x : BitVec 32) : (o.bytes32 x).length = 4 := by
  cases o <;> rfl

theorem arrange_arrange (o : ByteOrder) (bs : List UInt8) : o.arrange (o.arrange bs) = bs := by
  cases o with
  | lsbFirst => rfl
  | msbFirst => exact List.reverse_reverse bs

theorem join16_bytes (x : BitVec 16) : join16 [byte x 0,byte x 1] = x := by
  apply BitVec.eq_of_getLsbD_eq
  intro i hi
  simp only [join16,byte,BitVec.getLsbD_append,BitVec.getLsbD_extractLsb']
  split
  · simp; omega
  · have : 8 + (i - 8) = i := by omega
    simp [this]; omega

theorem join32_bytes (x : BitVec 32) : join32 [byte x 0,byte x 1,byte x 2,byte x 3] = x := by
  apply BitVec.eq_of_getLsbD_eq
  intro i hi
  simp only [join32,byte,BitVec.getLsbD_append,BitVec.getLsbD_extractLsb']
  split
  · simp; omega
  split
  · have : 8 + (i - 8) = i := by omega
    simp [this]; omega
  split
  · have : 16 + (i - 8 - 8) = i := by omega
    simp [this]; omega
  · have : 24 + (i - 8 - 8 - 8) = i := by omega
    simp [this]; omega

@[simp] theorem card16_bytes16 (o : ByteOrder) (x : BitVec 16) : o.card16 (o.bytes16 x) = x := by
  rw [card16,bytes16,arrange_arrange,join16_bytes]

@[simp] theorem card32_bytes32 (o : ByteOrder) (x : BitVec 32) : o.card32 (o.bytes32 x) = x := by
  rw [card32,bytes32,arrange_arrange,join32_bytes]

/-! ## Swapping -/

theorem swap16_join (b₀ b₁ : UInt8) : swap16 (join16 [b₀,b₁]) = join16 [b₁,b₀] := by
  apply BitVec.eq_of_getLsbD_eq
  intro i hi
  simp only [swap16,join16,BitVec.getLsbD_append,BitVec.getLsbD_or,BitVec.getLsbD_shiftLeft,
    BitVec.getLsbD_ushiftRight]
  rcases Nat.lt_or_ge i 8 with h | h
  · simp (disch := omega) only [if_pos,if_neg,decide_eq_true,Bool.not_true,Bool.false_and,Bool.false_or,
      Bool.and_false,Nat.add_sub_cancel_left]
  · simp (disch := omega) only [if_pos,if_neg,decide_eq_true,decide_eq_false,Bool.not_false,Bool.true_and,
      Bool.or_false,BitVec.getLsbD_of_ge]

theorem swap32_join (b₀ b₁ b₂ b₃ : UInt8) :
    swap32 (join32 [b₀,b₁,b₂,b₃]) = join32 [b₃,b₂,b₁,b₀] := by
  have hlow : (0xff00#32) = (0#16 ++ BitVec.allOnes 8 ++ 0#8 : BitVec 32) := by decide
  have hhigh : (0xff0000#32) = (0#8 ++ BitVec.allOnes 8 ++ 0#16 : BitVec 32) := by decide
  apply BitVec.eq_of_getLsbD_eq
  intro i hi
  simp only [swap32,hlow,hhigh,join32,BitVec.getLsbD_append,BitVec.getLsbD_or,BitVec.getLsbD_and,
    BitVec.getLsbD_shiftLeft,BitVec.getLsbD_ushiftRight,BitVec.getLsbD_allOnes,BitVec.getLsbD_zero]
  -- one case for each byte of the result
  have hcases : i < 8 ∨ (8 ≤ i ∧ i < 16) ∨ (16 ≤ i ∧ i < 24) ∨ 24 ≤ i := by omega
  rcases hcases with h | h | h | h <;>
    simp (disch := omega) only [if_pos,if_neg,decide_eq_true,decide_eq_false,Bool.not_true,Bool.not_false,
      Bool.true_and,Bool.false_and,Bool.false_or,Bool.and_false,Bool.or_false,Bool.and_true,
      BitVec.getLsbD_of_ge]
  · congr 1
    omega
  · congr 1
    omega
  · congr 1

/-- The value a reader with byte order `l` makes of bytes marked with order `o`. -/
theorem card16_or_swap (o l : ByteOrder) {bs : List UInt8} (h : bs.length = 2) :
    (if o = l then l.card16 bs else swap16 (l.card16 bs)) = o.card16 bs := by
  obtain ⟨b₀,b₁,rfl⟩ := List.length_eq_two.mp h
  cases o <;> cases l <;> simp [card16,arrange,swap16_join]

theorem card32_or_swap (o l : ByteOrder) {bs : List UInt8} (h : bs.length = 4) :
    (if o = l then l.card32 bs else swap32 (l.card32 bs)) = o.card32 bs := by
  match bs,h with
  | [b₀,b₁,b₂,b₃],_ => cases o <;> cases l <;> simp [card32,arrange,swap32_join]

end ByteOrder
end Edelib.Foundation
