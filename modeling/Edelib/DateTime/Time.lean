import Mathlib.Algebra.Order.Ring.Int

/-! # Times of the day

The comparisons leave out the minutes, and two times with the same seconds are both greater and less
than each other.
-/
namespace Edelib

structure Time where
  hourval : UInt8
  minval : UInt8
  secval : UInt8
deriving DecidableEq

namespace Time

def isValid (h m s : UInt8) : Bool := h ≤ 23 && m ≤ 59 && s ≤ 59

/-! ## Comparison -/

def eq (t1 t2 : Time) : Bool := t1.hourval == t2.hourval && t1.minval == t2.minval && t1.secval == t2.secval

def gt (t1 t2 : Time) : Bool :=
  t1.hourval > t2.hourval || (t1.hourval == t2.hourval && t1.secval > t2.secval) || t1.secval == t2.secval

def lt (t1 t2 : Time) : Bool :=
  t1.hourval < t2.hourval || (t1.hourval == t2.hourval && t1.secval < t2.secval) || t1.secval == t2.secval

def ne (t1 t2 : Time) : Bool := !(eq t1 t2)

def ge (t1 t2 : Time) : Bool := gt t1 t2 || eq t1 t2

def le (t1 t2 : Time) : Bool := eq t1 t2 || lt t1 t2

/-! ## The order of the day -/

def Valid (t : Time) : Prop := isValid t.hourval t.minval t.secval = true

instance (t : Time) : Decidable t.Valid := inferInstanceAs (Decidable (_ = _))

def seconds (t : Time) : ℕ := 3600 * t.hourval.toNat + 60 * t.minval.toNat + t.secval.toNat

def OneOf (p q r : Prop) : Prop := (p ∨ q ∨ r) ∧ ¬ (p ∧ q) ∧ ¬ (p ∧ r) ∧ ¬ (q ∧ r)

structure Ordered (a b c : Time) : Prop where
  oneOf : OneOf (lt a b = true) (eq a b = true) (gt a b = true)
  lt_iff : lt a b = true ↔ a.seconds < b.seconds
  gt_iff : gt a b = true ↔ lt b a = true
  le_iff : le a b = true ↔ lt a b = true ∨ eq a b = true
  ge_iff : ge a b = true ↔ gt a b = true ∨ eq a b = true
  trans : lt a b = true → lt b c = true → lt a c = true

/-- The seconds differ, and in one hour as the minutes do. -/
def Apart (a b : Time) : Prop :=
  a.secval ≠ b.secval ∧ (a.hourval = b.hourval → a.minval = b.minval ∨ (a.minval < b.minval ↔ a.secval < b.secval))

/-- A third time with the seconds of the second is not in an earlier hour than it, unless it is later than the first. -/
def Chained (a b c : Time) : Prop :=
  a.seconds < b.seconds → b.secval = c.secval → c.hourval < b.hourval →
    a.hourval < c.hourval ∨ a.hourval = c.hourval ∧ a.secval < c.secval

instance (a b : Time) : Decidable (Apart a b) := inferInstanceAs (Decidable (_ ∧ _))

instance (a b c : Time) : Decidable (Chained a b c) := inferInstanceAs (Decidable (_ → _))

variable {a b c : Time}

theorem Valid.bounds (h : a.Valid) : a.hourval.toNat < 24 ∧ a.minval.toNat < 60 ∧ a.secval.toNat < 60 := by
  simp only [Valid,isValid,Bool.and_eq_true,decide_eq_true_eq,UInt8.le_iff_toNat_le] at h
  obtain ⟨⟨hh,hm⟩,hs⟩ := h
  exact ⟨Nat.lt_succ_of_le hh,Nat.lt_succ_of_le hm,Nat.lt_succ_of_le hs⟩

theorem eq_iff : eq a b = true ↔
    a.hourval.toNat = b.hourval.toNat ∧ a.minval.toNat = b.minval.toNat ∧ a.secval.toNat = b.secval.toNat := by
  simp only [eq,Bool.and_eq_true,beq_iff_eq,← UInt8.toNat_inj,and_assoc]

theorem lt_iff_fields : lt a b = true ↔ a.hourval.toNat < b.hourval.toNat ∨
    a.hourval.toNat = b.hourval.toNat ∧ a.secval.toNat < b.secval.toNat ∨ a.secval.toNat = b.secval.toNat := by
  simp only [lt,Bool.or_eq_true,Bool.and_eq_true,beq_iff_eq,decide_eq_true_eq,UInt8.lt_iff_toNat_lt,← UInt8.toNat_inj,
    or_assoc]

/-- One comparison is the other with its operands changed over. -/
theorem gt_eq_lt (a b : Time) : gt a b = lt b a := by
  simp only [gt,lt,gt_iff_lt,BEq.comm]

theorem apart_iff : Apart a b ↔ a.secval.toNat ≠ b.secval.toNat ∧ (a.hourval.toNat = b.hourval.toNat →
    a.minval.toNat = b.minval.toNat ∨ (a.minval.toNat < b.minval.toNat ↔ a.secval.toNat < b.secval.toNat)) := by
  simp only [Apart,ne_eq,UInt8.lt_iff_toNat_lt,← UInt8.toNat_inj]

theorem chained_iff : Chained a b c ↔ (a.seconds < b.seconds → b.secval.toNat = c.secval.toNat →
    c.hourval.toNat < b.hourval.toNat → a.hourval.toNat < c.hourval.toNat ∨
      a.hourval.toNat = c.hourval.toNat ∧ a.secval.toNat < c.secval.toNat) := by
  simp only [Chained,UInt8.lt_iff_toNat_lt,← UInt8.toNat_inj]

/-- Where the seconds and minutes agree, so do the comparisons with the order. -/
theorem lt_iff_seconds (ha : a.Valid) (hb : b.Valid) (h : Apart a b) : lt a b = true ↔ a.seconds < b.seconds := by
  obtain ⟨-,hma,hsa⟩ := ha.bounds
  obtain ⟨-,hmb,hsb⟩ := hb.bounds
  obtain ⟨hs,hm⟩ := apart_iff.mp h
  rw [lt_iff_fields,seconds,seconds]
  rcases Nat.lt_trichotomy a.hourval.toNat b.hourval.toNat with hh | hh | hh
  · omega
  · have := hm hh
    omega
  · omega

theorem Apart.symm (h : Apart a b) : Apart b a := by
  rw [apart_iff] at h ⊢
  omega

theorem seconds_ne (ha : a.Valid) (hb : b.Valid) (h : Apart a b) : a.seconds ≠ b.seconds := by
  obtain ⟨-,-,hsa⟩ := ha.bounds
  obtain ⟨-,-,hsb⟩ := hb.bounds
  have hs := (apart_iff.mp h).1
  rw [seconds,seconds]
  omega

theorem oneOf_of_apart (ha : a.Valid) (hb : b.Valid) (h : Apart a b) :
    OneOf (lt a b = true) (eq a b = true) (gt a b = true) := by
  have hne := seconds_ne ha hb h
  have heq : ¬ eq a b = true := fun heq => (apart_iff.mp h).1 (eq_iff.mp heq).2.2
  have hab := lt_iff_seconds ha hb h
  have hba := lt_iff_seconds hb ha h.symm
  rw [gt_eq_lt]
  rcases Nat.lt_or_gt_of_ne hne with hlt | hlt
  · have hnot : ¬ lt b a = true := fun h' => Nat.lt_asymm hlt (hba.mp h')
    exact ⟨Or.inl (hab.mpr hlt),fun h' => heq h'.2,fun h' => hnot h'.2,fun h' => heq h'.1⟩
  · have hnot : ¬ lt a b = true := fun h' => Nat.lt_asymm hlt (hab.mp h')
    exact ⟨Or.inr (Or.inr (hba.mpr hlt)),fun h' => heq h'.2,fun h' => hnot h'.1,fun h' => heq h'.1⟩

theorem trans_of_chained (ha : a.Valid) (hb : b.Valid) (h : Apart a b) (hchained : Chained a b c) (hab : lt a b = true)
    (hbc : lt b c = true) : lt a c = true := by
  have hseconds := (lt_iff_seconds ha hb h).mp hab
  have hs := (apart_iff.mp h).1
  have hstep := chained_iff.mp hchained hseconds
  rw [lt_iff_fields] at hab hbc ⊢
  omega

theorem apart_of_ordered (ha : a.Valid) (hb : b.Valid) (h : Ordered a b c) : Apart a b := by
  obtain ⟨-,-,hsa⟩ := ha.bounds
  obtain ⟨-,-,hsb⟩ := hb.bounds
  have hone := h.oneOf
  have hlt := h.lt_iff
  rw [gt_eq_lt,OneOf,lt_iff_fields,lt_iff_fields] at hone
  rw [lt_iff_fields,seconds,seconds] at hlt
  have hs : a.secval.toNat ≠ b.secval.toNat := fun heq => hone.2.2.1 ⟨Or.inr (Or.inr heq),Or.inr (Or.inr heq.symm)⟩
  rw [apart_iff]
  refine ⟨hs,fun hh => ?_⟩
  rw [hh] at hlt
  omega

theorem chained_of_ordered (ha : a.Valid) (hb : b.Valid) (h : Ordered a b c) : Chained a b c := by
  have hs := (apart_iff.mp (apart_of_ordered ha hb h)).1
  rw [chained_iff]
  intro hlt hbc _
  have hac := h.trans (h.lt_iff.mpr hlt) (lt_iff_fields.mpr (Or.inr (Or.inr hbc)))
  rw [lt_iff_fields] at hac
  omega

theorem ordered_iff_apart (a b c : Time) (ha : a.Valid) (hb : b.Valid) (_hc : c.Valid) :
    Ordered a b c ↔ Apart a b ∧ Chained a b c := by
  constructor
  · exact fun h => ⟨apart_of_ordered ha hb h,chained_of_ordered ha hb h⟩
  · rintro ⟨h,hchained⟩
    exact
      { oneOf := oneOf_of_apart ha hb h
        lt_iff := lt_iff_seconds ha hb h
        gt_iff := by rw [gt_eq_lt]
        le_iff := by rw [le,Bool.or_eq_true,or_comm]
        ge_iff := by rw [ge,Bool.or_eq_true]
        trans := trans_of_chained ha hb h hchained }

/-- Ten o'clock, a time in its first minute, and one in the next. -/
theorem ordered_iff_apart_morning : Ordered ⟨10,0,0⟩ ⟨10,0,1⟩ ⟨10,1,2⟩ ↔
    Apart ⟨10,0,0⟩ ⟨10,0,1⟩ ∧ Chained ⟨10,0,0⟩ ⟨10,0,1⟩ ⟨10,1,2⟩ :=
  ordered_iff_apart ⟨10,0,0⟩ ⟨10,0,1⟩ ⟨10,1,2⟩ (by decide) (by decide) (by decide)

/-- Every time is greater and less than itself. -/
theorem not_ordered : ¬ ∀ a b c : Time, a.Valid → b.Valid → c.Valid → Ordered a b c := by
  intro h
  have hone := (h ⟨0,0,0⟩ ⟨0,0,0⟩ ⟨0,0,0⟩ (by decide) (by decide) (by decide)).oneOf
  exact hone.2.2.1 (by decide)

end Time
end Edelib
