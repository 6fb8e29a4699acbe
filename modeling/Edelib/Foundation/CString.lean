import Mathlib.Algebra.Order.Ring.Int
import Mathlib.Data.List.Infix
import Mathlib.Data.List.Lex
import Mathlib.Data.List.DropRight

/-! # C strings

A C string is the text before its terminator, so it holds no NUL byte. The string
functions of the C library are given by their byte loops, and each comparison is
characterised by the prefix and lexicographic orders on bytes.
-/
namespace Edelib.Foundation

/-- The bytes of a NUL-terminated string, terminator excluded. -/
@[ext] structure CString where
  bytes : List UInt8
  nulFree : (0 : UInt8) ∉ bytes

namespace CString

def ofBuf (buf : List UInt8) : CString :=
  ⟨buf.takeWhile (fun c => decide (c ≠ 0)), fun h => by simpa using List.mem_takeWhile_imp h⟩

theorem ofBuf_begins (buf : List UInt8) : (ofBuf buf).bytes <+: buf := List.takeWhile_prefix _

/-- What follows the text in its buffer is the terminator. -/
theorem ofBuf_stops {buf tail : List UInt8} {c : UInt8} (h : (ofBuf buf).bytes ++ c :: tail = buf) : c = 0 := by
  have hdrop : buf.dropWhile (fun c => decide (c ≠ 0)) = c :: tail :=
    List.append_cancel_left ((List.takeWhile_append_dropWhile).trans h.symm)
  have hc := List.head?_dropWhile_not (fun c => decide (c ≠ 0)) buf
  rw [hdrop] at hc
  simpa using hc

def empty : CString := ⟨[],by simp⟩

def strlen (s : CString) : ℕ := s.bytes.length

@[simp] theorem ofBuf_bytes (s : CString) : ofBuf s.bytes = s := by
  ext1
  refine List.takeWhile_eq_self_iff.mpr (fun c hc => ?_)
  simp only [decide_eq_true_eq]
  rintro rfl
  exact s.nulFree hc

theorem ofBuf_bytes_append_nul (s : CString) (junk : List UInt8) : ofBuf (s.bytes ++ 0 :: junk) = s := by
  ext1
  have hs : ∀ c ∈ s.bytes, decide (c ≠ 0) = true := by
    intro c hc
    simp only [decide_eq_true_eq]
    rintro rfl
    exact s.nulFree hc
  simp only [ofBuf,List.takeWhile_append_of_pos hs,ne_eq,not_true_eq_false,decide_false,
    List.takeWhile_cons,Bool.false_eq_true,↓reduceIte,List.append_nil]

/-- A text is not longer than where its buffer has a terminator. -/
theorem ofBuf_append_nul (buf junk : List UInt8) : ofBuf (buf ++ 0 :: junk) = ofBuf buf := by
  ext1
  change List.takeWhile _ _ = List.takeWhile _ _
  rw [List.takeWhile_append,List.takeWhile_cons_of_neg (by simp),List.append_nil]
  split_ifs with h
  · exact ((List.takeWhile_prefix _).eq_of_length h).symm
  · rfl

theorem ofBuf_eq {buf : List UInt8} (h : (0 : UInt8) ∉ buf) : ofBuf buf = ⟨buf,h⟩ :=
  ofBuf_bytes ⟨buf,h⟩

theorem nulFree_append {a b : List UInt8} : (0 : UInt8) ∉ a ++ b ↔ (0 : UInt8) ∉ a ∧ (0 : UInt8) ∉ b := by
  simp only [List.mem_append,not_or]

/-- One text after another, as `strcat` and `String::append` put them. -/
instance : Append CString := ⟨fun s t => ⟨s.bytes ++ t.bytes,nulFree_append.mpr ⟨s.nulFree,t.nulFree⟩⟩⟩

@[simp] theorem append_bytes (s t : CString) : (s ++ t).bytes = s.bytes ++ t.bytes := rfl

/-! ## Comparison -/

/-- `strncmp` on the texts of two strings: the end of a text is its terminator. -/
def strncmpBytes : List UInt8 → List UInt8 → ℕ → ℤ
  | _, _, 0 => 0
  | [], [], _ + 1 => 0
  | [], b :: _, _ + 1 => -(b.toNat : ℤ)
  | a :: _, [], _ + 1 => a.toNat
  | a :: as, b :: bs, n + 1 => if a = b then strncmpBytes as bs n else (a.toNat : ℤ) - b.toNat

@[simp] theorem strncmpBytes_zero (as bs : List UInt8) : strncmpBytes as bs 0 = 0 := by
  cases as <;> cases bs <;> rfl

@[simp] theorem strncmpBytes_nil_nil (n : ℕ) : strncmpBytes [] [] n = 0 := by
  cases n <;> rfl

@[simp] theorem strncmpBytes_nil_cons (b : UInt8) (bs : List UInt8) (n : ℕ) :
    strncmpBytes [] (b :: bs) (n + 1) = -(b.toNat : ℤ) := rfl

@[simp] theorem strncmpBytes_cons_nil (a : UInt8) (as : List UInt8) (n : ℕ) :
    strncmpBytes (a :: as) [] (n + 1) = a.toNat := rfl

@[simp] theorem strncmpBytes_cons_cons (a b : UInt8) (as bs : List UInt8) (n : ℕ) :
    strncmpBytes (a :: as) (b :: bs) (n + 1) =
      if a = b then strncmpBytes as bs n else (a.toNat : ℤ) - b.toNat := rfl

def strncmp (s t : CString) (n : ℕ) : ℤ := strncmpBytes s.bytes t.bytes n

/-- Two texts compared to the end of the longer one. -/
def strcmp (s t : CString) : ℤ := strncmpBytes s.bytes t.bytes (s.strlen + t.strlen + 1)

theorem toNat_ne_zero {c : UInt8} (h : c ≠ 0) : c.toNat ≠ 0 := fun h0 => h (UInt8.toNat_inj.mp h0)

theorem toNat_sub_ne_zero {a b : UInt8} (h : a ≠ b) : (a.toNat : ℤ) - b.toNat ≠ 0 := by
  have hn : a.toNat ≠ b.toNat := fun h0 => h (UInt8.toNat_inj.mp h0)
  omega

/-- Comparing no further than the first text asks whether it is a prefix. -/
theorem strncmpBytes_length_eq_zero {as bs : List UInt8} (ha : (0 : UInt8) ∉ as) :
    strncmpBytes as bs as.length = 0 ↔ as <+: bs := by
  induction as generalizing bs with
  | nil => simp
  | cons a as ih =>
    obtain ⟨ha0,has⟩ : 0 ≠ a ∧ (0 : UInt8) ∉ as := by simpa only [List.mem_cons,not_or] using ha
    cases bs with
    | nil => simpa using toNat_ne_zero (Ne.symm ha0)
    | cons b bs =>
      by_cases h : a = b
      · subst h
        simpa using ih has
      · simpa [h] using toNat_sub_ne_zero h

/-- The test `strncmp(s, t, strlen(s)) == 0` accepts every extension of `s`. -/
theorem strncmp_strlen_eq_zero {s t : CString} : s.strncmp t s.strlen = 0 ↔ s.bytes <+: t.bytes :=
  strncmpBytes_length_eq_zero s.nulFree

theorem strncmpBytes_swap (as bs : List UInt8) (n : ℕ) : strncmpBytes bs as n = -strncmpBytes as bs n := by
  induction n generalizing as bs with
  | zero => simp
  | succ n ih =>
    cases as with
    | nil => cases bs <;> simp
    | cons a as =>
      cases bs with
      | nil => simp
      | cons b bs =>
        rw [strncmpBytes_cons_cons,strncmpBytes_cons_cons]
        by_cases h : a = b
        · rw [if_pos h,if_pos h.symm,ih]
        · rw [if_neg h,if_neg (Ne.symm h),neg_sub]

/-- The same test with the two strings in the other order. -/
theorem strncmpBytes_prefix_eq_zero {as bs : List UInt8} (ha : (0 : UInt8) ∉ as) :
    strncmpBytes bs as as.length = 0 ↔ as <+: bs := by
  rw [strncmpBytes_swap,neg_eq_zero]
  exact strncmpBytes_length_eq_zero ha

theorem strncmp_prefix_eq_zero {s t : CString} : t.strncmp s s.strlen = 0 ↔ s.bytes <+: t.bytes :=
  strncmpBytes_prefix_eq_zero s.nulFree

theorem strncmpBytes_take (as bs : List UInt8) (n : ℕ) : strncmpBytes as (bs.take n) n = strncmpBytes as bs n := by
  induction n generalizing as bs with
  | zero => simp
  | succ n ih =>
    cases bs with
    | nil => rfl
    | cons b bs =>
      cases as with
      | nil => rfl
      | cons a as => simp only [List.take_succ_cons,strncmpBytes_cons_cons,ih]

/-- No more of the second string than its first `n` bytes is compared. -/
theorem strncmp_take_eq_zero {s t : CString} {n : ℕ} (hn : n ≤ s.strlen) :
    t.strncmp s n = 0 ↔ s.bytes.take n <+: t.bytes := by
  have hlen : (s.bytes.take n).length = n := List.length_take_of_le hn
  have hnul : (0 : UInt8) ∉ s.bytes.take n := fun h => s.nulFree (List.mem_of_mem_take h)
  have hzero : strncmpBytes t.bytes (s.bytes.take n) (s.bytes.take n).length = 0 ↔ s.bytes.take n <+: t.bytes :=
    strncmpBytes_prefix_eq_zero hnul
  rw [hlen,strncmpBytes_take] at hzero
  exact hzero

/-- The order of names: unsigned bytes, lexicographically. -/
instance : LinearOrder CString :=
  LinearOrder.lift' (fun s => s.bytes.map UInt8.toNat) (fun s t h => by
    ext1
    exact List.map_injective_iff.mpr (fun a b => UInt8.toNat_inj.mp) h)

theorem strncmpBytes_neg {as bs : List UInt8} {n : ℕ} (hb : (0 : UInt8) ∉ bs)
    (hn : as.length + bs.length < n) :
    strncmpBytes as bs n < 0 ↔ as.map UInt8.toNat < bs.map UInt8.toNat := by
  induction as generalizing bs n with
  | nil =>
    obtain ⟨n,rfl⟩ : ∃ m, n = m + 1 := ⟨n - 1,by omega⟩
    cases bs with
    | nil => simp
    | cons b bs =>
      have hb0 : b ≠ 0 := by rintro rfl; simp at hb
      have := toNat_ne_zero hb0
      simp only [strncmpBytes_nil_cons,List.map_nil,List.map_cons,List.nil_lt_cons,iff_true]
      omega
  | cons a as ih =>
    obtain ⟨n,rfl⟩ : ∃ m, n = m + 1 := ⟨n - 1,by omega⟩
    cases bs with
    | nil => simp
    | cons b bs =>
      simp only [List.length_cons] at hn
      obtain ⟨-,hbs⟩ : 0 ≠ b ∧ (0 : UInt8) ∉ bs := by simpa only [List.mem_cons,not_or] using hb
      simp only [strncmpBytes_cons_cons,List.map_cons,List.cons_lt_cons_iff]
      by_cases h : a = b
      · subst h
        simpa using ih hbs (n := n) (by omega)
      · have hne : a.toNat ≠ b.toNat := fun h0 => h (UInt8.toNat_inj.mp h0)
        simp only [h,↓reduceIte,hne,false_and,or_false]
        omega

theorem strncmpBytes_eq_zero {as bs : List UInt8} {n : ℕ} (ha : (0 : UInt8) ∉ as) (hb : (0 : UInt8) ∉ bs)
    (hn : as.length + bs.length < n) : strncmpBytes as bs n = 0 ↔ as = bs := by
  induction as generalizing bs n with
  | nil =>
    obtain ⟨n,rfl⟩ : ∃ m, n = m + 1 := ⟨n - 1,by omega⟩
    cases bs with
    | nil => simp
    | cons b bs =>
      have hb0 : b ≠ 0 := by rintro rfl; simp at hb
      simpa using toNat_ne_zero hb0
  | cons a as ih =>
    obtain ⟨n,rfl⟩ : ∃ m, n = m + 1 := ⟨n - 1,by omega⟩
    obtain ⟨ha0,has⟩ : 0 ≠ a ∧ (0 : UInt8) ∉ as := by simpa only [List.mem_cons,not_or] using ha
    cases bs with
    | nil => simpa using toNat_ne_zero (Ne.symm ha0)
    | cons b bs =>
      simp only [List.length_cons] at hn
      obtain ⟨-,hbs⟩ : 0 ≠ b ∧ (0 : UInt8) ∉ bs := by simpa only [List.mem_cons,not_or] using hb
      by_cases h : a = b
      · subst h
        simpa using ih has hbs (n := n) (by omega)
      · simpa [h] using toNat_sub_ne_zero h

theorem strcmp_eq_zero {s t : CString} : s.strcmp t = 0 ↔ s = t :=
  (strncmpBytes_eq_zero s.nulFree t.nulFree (Nat.lt_succ_self _)).trans CString.ext_iff.symm

theorem strcmp_neg {s t : CString} : s.strcmp t < 0 ↔ s < t :=
  strncmpBytes_neg t.nulFree (Nat.lt_succ_self _)

end CString
end Edelib.Foundation
