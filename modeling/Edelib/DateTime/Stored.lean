import Edelib.DateTime.Successor

/-! # The dates that are stored

A date is checked before the clock's numbers replace what stands for them.
-/
namespace Edelib
open Foundation Calendar

namespace Date

def Tm.ofDay (today : Day) : Tm where
  tmYear := today.year - 1900
  tmMon := today.month - 1
  tmMday := today.day

def Exists (date : Date) : Prop :=
  (1 ≤ date.monthval.toNat ∧ date.monthval.toNat ≤ 12) ∧
    1 ≤ date.dayval.toNat ∧ date.dayval.toNat ≤ monthLength date.yearval.toNat date.monthval.toNat

/-- The tables are read inside, and a date that is accepted is stored as one that exists. -/
def StoresReal (today : Day) (y : UInt16) (m d : UInt8) : Prop :=
  isValid y m d ≠ none ∧ (isValid y m d = some true → ∃ date, set (Tm.ofDay today) y m d = some date ∧ date.Exists)

def storedYear (today : Day) (y : UInt16) : ℕ := if y = yearNow then today.year % 65536 else y.toNat

/-- The month is given; 29 February is given with a year, or in a leap year; today's day is in the month. -/
def Storable (today : Day) (y : UInt16) (m d : UInt8) : Prop :=
  m ≠ monthNow ∧ (y = yearNow → m = 2 → d = 29 → Leap (today.year % 65536)) ∧
    (d = dayNow → today.day ≤ monthLength (storedYear today y) m.toNat)

instance (today : Day) (y : UInt16) (m d : UInt8) : Decidable (Storable today y m d) :=
  inferInstanceAs (Decidable (_ ∧ _ ∧ _))

variable {today : Day} {y : UInt16} {m d : UInt8}

/-- The month behind the last one has no entry in the table. -/
theorem isValid_monthNow (y : UInt16) (d : UInt8) : isValid y monthNow d = none := by
  have hentry : daysInMonthOf y monthNow = none := by
    have hlen : (monthDays (leapYear y)).length = 12 := by
      unfold monthDays
      split_ifs <;> rfl
    rw [daysInMonthOf,if_pos (by decide),atMonth,if_neg (by decide)]
    exact List.getElem?_eq_none hlen.le
  rw [isValid,if_neg (by decide),if_neg (by decide),hentry]
  rfl

/-- Where a month is given, the check is that of the calendar, in a leap year where no year is given. -/
theorem isValid_eq (hm : m ≠ monthNow) (y : UInt16) (d : UInt8) : isValid y m d =
    some (decide ((1 ≤ m.toNat ∧ m.toNat ≤ 12) ∧ d.toNat ≤ monthLength y.toNat m.toNat)) := by
  have hm' : m.toNat ≠ 13 := fun h => hm (UInt8.toNat_inj.mp h)
  by_cases h0 : m = 0
  · rw [isValid,if_pos h0,h0]
    rfl
  · have hpos : 1 ≤ m.toNat := Nat.pos_of_ne_zero (fun h => h0 (UInt8.toNat_inj.mp h))
    by_cases hgt : m > monthNow
    · have hlt : 13 < m.toNat := UInt8.lt_iff_toNat_lt.mp hgt
      rw [isValid,if_neg h0,if_pos hgt,decide_eq_false (fun h => by omega)]
    · have hle : m.toNat ≤ 13 := Nat.not_lt.mp (fun hlt => hgt (UInt8.lt_iff_toNat_lt.mpr hlt))
      have hle' : m.toNat ≤ 12 := by omega
      have hday : d > UInt8.ofNat (monthLength y.toNat m.toNat) ↔ ¬ d.toNat ≤ monthLength y.toNat m.toNat := by
        rw [gt_iff_lt,UInt8.lt_iff_toNat_lt,toNat_monthLength,Nat.not_le]
      rw [isValid,if_neg h0,if_neg hgt,daysInMonthOf_eq y hpos hle']
      simp only [Option.bind_eq_bind,Option.bind_some,hday,hpos,hle',true_and,decide_not,Bool.not_not]

/-! ## What is stored -/

theorem toNat_ofInt_natCast (n : ℕ) : (UInt16.ofInt n).toNat = n % 65536 := by
  rw [UInt16.ofInt]
  have hcast : ((n : ℤ) % 2 ^ 16).toNat = n % 65536 := by omega
  rw [hcast]
  exact UInt16.toNat_ofNat_of_lt' (Nat.mod_lt _ (by decide))

theorem toNat_ofInt_of_lt {n : ℕ} (h : n < 256) : (UInt8.ofInt n).toNat = n := by
  rw [UInt8.ofInt]
  have hcast : ((n : ℤ) % 2 ^ 8).toNat = n := by omega
  rw [hcast]
  exact UInt8.toNat_ofNat_of_lt' h

theorem toNat_storedYear (today : Day) (y : UInt16) :
    (if y = yearNow then UInt16.ofInt ((Tm.ofDay today).tmYear + 1900) else y).toNat = storedYear today y := by
  rw [storedYear]
  split_ifs
  · have hyear : (Tm.ofDay today).tmYear + 1900 = (today.year : ℤ) := Int.sub_add_cancel _ _
    rw [hyear,toNat_ofInt_natCast]
  · rfl

theorem toNat_storedDay (today : Day) (d : UInt8) :
    (if d = dayNow then UInt8.ofInt (Tm.ofDay today).tmMday else d).toNat = if d = dayNow then today.day else d.toNat := by
  split_ifs
  · have hle := today.day_le.trans (monthLength_le _ _)
    exact toNat_ofInt_of_lt (by omega)
  · rfl

/-- What is accepted is stored, and exists where its day is in its month. -/
theorem set_exists_iff (hm : m ≠ monthNow) (hvalid : isValid y m d = some true) (hmonth : 1 ≤ m.toNat ∧ m.toNat ≤ 12) :
    (∃ date, set (Tm.ofDay today) y m d = some date ∧ date.Exists) ↔
      1 ≤ (if d = dayNow then today.day else d.toNat) ∧
        (if d = dayNow then today.day else d.toNat) ≤ monthLength (storedYear today y) m.toNat := by
  simp only [set,hvalid,Option.bind_eq_bind,Option.bind_some,if_true,if_neg hm,Option.some.injEq,exists_eq_left',Exists,
    toNat_storedYear,toNat_storedDay,and_iff_right hmonth]

/-- A day that is accepted is in the month of the stored year, unless it is only in a leap year. -/
theorem le_monthLength_iff (hday : d.toNat ≤ monthLength y.toNat m.toNat) :
    d.toNat ≤ monthLength (storedYear today y) m.toNat ↔ (y = yearNow → m = 2 → d = 29 → Leap (today.year % 65536)) := by
  rw [storedYear]
  by_cases hy : y = yearNow
  · subst hy
    rw [if_pos rfl]
    by_cases hm : m = 2
    · subst hm
      have h29 : d.toNat ≤ 29 := hday
      have hfeb : monthLength (today.year % 65536) (2 : UInt8).toNat = if Leap (today.year % 65536) then 29 else 28 := rfl
      have hday29 : d = 29 ↔ d.toNat = 29 := UInt8.toNat_inj.symm
      rw [hfeb,hday29]
      split_ifs with hleap
      · exact iff_of_true h29 (fun _ _ _ => hleap)
      · refine ⟨fun h _ _ h' => by omega,fun h => ?_⟩
        by_contra hgt
        exact hleap (h rfl rfl (by omega))
    · have hne : m.toNat ≠ 2 := fun h => hm (UInt8.toNat_inj.mp h)
      have hsame : monthLength (today.year % 65536) m.toNat = monthLength yearNow.toNat m.toNat := by
        unfold monthLength
        split
        · omega
        all_goals rfl
      rw [hsame]
      exact iff_of_true hday (fun _ h => absurd h hm)
  · rw [if_neg hy]
    exact iff_of_true hday (fun h => absurd h hy)

theorem storesReal_iff (today : Day) (y : UInt16) (m d : UInt8) (haccepted : isValid y m d ≠ some false) :
    StoresReal today y m d ↔ Storable today y m d := by
  by_cases hm : m = monthNow
  · rw [hm]
    exact iff_of_false (fun h => h.1 (isValid_monthNow y d)) (fun h => h.1 rfl)
  · have heq := isValid_eq hm y d
    have hin : (1 ≤ m.toNat ∧ m.toNat ≤ 12) ∧ d.toNat ≤ monthLength y.toNat m.toNat := by
      by_contra hout
      exact haccepted (heq.trans (congrArg some (decide_eq_false hout)))
    have hvalid : isValid y m d = some true := heq.trans (congrArg some (decide_eq_true hin))
    have hne : isValid y m d ≠ none := hvalid ▸ Option.some_ne_none _
    rw [StoresReal,and_iff_right hne,imp_iff_right hvalid,set_exists_iff hm hvalid hin.1,Storable,and_iff_right hm]
    by_cases hd : d = dayNow
    · have h29 : ¬ d = 29 := by
        rw [hd]
        decide
      rw [if_pos hd,and_iff_right today.day_pos]
      exact ⟨fun h => ⟨fun _ _ h' => absurd h' h29,fun _ => h⟩,fun h => h.2 hd⟩
    · have hpos : 1 ≤ d.toNat := Nat.pos_of_ne_zero (fun h => hd (UInt8.toNat_inj.mp h))
      rw [if_neg hd,and_iff_right hpos,le_monthLength_iff hin.2]
      exact ⟨fun h => ⟨h,fun h' => absurd h' hd⟩,And.left⟩

/-- 29 February is given without a year, in a leap year. -/
theorem storesReal_iff_leapDay :
    let today : Day := ⟨2024,7,1,by decide,by decide,by decide,by decide,by decide⟩
    StoresReal today yearNow 2 29 ↔ Storable today yearNow 2 29 :=
  storesReal_iff _ yearNow 2 29 (by decide)

/-- The current day is given with February on the last of a January, and the current month at all. -/
theorem not_storesReal :
    (¬ ∀ (today : Day) (y : UInt16) (m d : UInt8), isValid y m d = some true → StoresReal today y m d) ∧
      ∀ y d, isValid y monthNow d = none := by
  refine ⟨fun h => ?_,fun y d => isValid_monthNow y d⟩
  let today : Day := ⟨2023,1,31,by decide,by decide,by decide,by decide,by decide⟩
  obtain ⟨-,hstored⟩ := h today 2023 2 dayNow (by decide)
  obtain ⟨date,hset,hexists⟩ := hstored (by decide)
  have hfeb : set (Tm.ofDay today) 2023 2 dayNow = some ⟨31,2,2023⟩ := by decide
  rw [hfeb] at hset
  cases hset
  exact absurd hexists.2.2 (by decide)

end Date
end Edelib
