import Edelib.DateTime.Date
import Edelib.Foundation.Calendar

/-! # Dates are days of the calendar

The tables, the closed formula of the weekday and the increments all agree with the calendar, up
to the last year that fits.
-/
namespace Edelib
open Foundation Calendar

namespace Date

structure Valid (date : Date) : Prop where
  year_pos : 1 ≤ date.yearval.toNat
  month_pos : 1 ≤ date.monthval.toNat
  month_le : date.monthval.toNat ≤ 12
  day_pos : 1 ≤ date.dayval.toNat
  day_le : date.dayval.toNat ≤ monthLength date.yearval.toNat date.monthval.toNat

instance (date : Date) : Decidable date.Valid :=
  decidable_of_iff (1 ≤ date.yearval.toNat ∧ 1 ≤ date.monthval.toNat ∧ date.monthval.toNat ≤ 12 ∧
      1 ≤ date.dayval.toNat ∧ date.dayval.toNat ≤ monthLength date.yearval.toNat date.monthval.toNat)
    ⟨fun ⟨hy,hm,hm',hd,hd'⟩ => ⟨hy,hm,hm',hd,hd'⟩,
      fun h => ⟨h.year_pos,h.month_pos,h.month_le,h.day_pos,h.day_le⟩⟩

def toDay (date : Date) (h : date.Valid) : Day where
  year := date.yearval.toNat
  month := date.monthval.toNat
  day := date.dayval.toNat
  year_pos := h.year_pos
  month_pos := h.month_pos
  month_le := h.month_le
  day_pos := h.day_pos
  day_le := h.day_le

variable {date : Date}

/-! ## The tables -/

theorem leapYear_eq (y : UInt16) : leapYear y = decide (Leap y.toNat) := by
  have hmask : (y &&& 3).toNat = y.toNat % 4 := by
    rw [UInt16.toNat_and]
    exact Nat.and_two_pow_sub_one_eq_mod y.toNat 2
  rw [Bool.eq_iff_iff,decide_eq_true_eq]
  simp only [leapYear,Leap,Bool.or_eq_true,Bool.and_eq_true,beq_iff_eq,bne_iff_ne,ne_eq,← UInt16.toNat_inj,hmask,
    UInt16.toNat_mod,Nat.dvd_iff_mod_eq_zero]
  rfl

theorem monthDays_eq (y : ℕ) :
    monthDays (decide (Leap y)) = (List.range 12).map (fun i => UInt8.ofNat (monthLength y (i + 1))) := by
  by_cases h : Leap y <;> simp [monthDays,List.range_succ,monthLength,h]

theorem daysInYear_eq (y : ℕ) :
    daysInYear (decide (Leap y)) = (List.range 12).map (fun i => beforeMonth y (i + 1)) := by
  by_cases h : Leap y <;> simp [daysInYear,List.range_succ,beforeMonth,Finset.sum_range_succ,monthLength,h]

/-- The entry of a month in a table that has one for each. -/
theorem atMonth_eq {α : Type} (f : ℕ → α) {m : UInt8} (hpos : 1 ≤ m.toNat) (hle : m.toNat ≤ 12) :
    atMonth ((List.range 12).map (fun i => f (i + 1))) m = some (f m.toNat) := by
  have hne : m ≠ 0 := by
    rintro rfl
    exact absurd hpos (by decide)
  have hlt : m.toNat - 1 < 12 := by omega
  rw [atMonth,if_neg hne,List.getElem?_map,List.getElem?_range hlt,Option.map_some,Nat.sub_add_cancel hpos]

theorem daysInMonthOf_eq (y : UInt16) {m : UInt8} (hpos : 1 ≤ m.toNat) (hle : m.toNat ≤ 12) :
    daysInMonthOf y m = some (UInt8.ofNat (monthLength y.toNat m.toNat)) := by
  have h31 : m ≤ 31 := UInt8.le_iff_toNat_le.mpr (hle.trans (by decide))
  rw [daysInMonthOf,if_pos h31,leapYear_eq,monthDays_eq]
  exact atMonth_eq (fun i => UInt8.ofNat (monthLength y.toNat i)) hpos hle

theorem monthLength_le (y m : ℕ) : monthLength y m ≤ 31 := by
  unfold monthLength
  split
  · split_ifs <;> omega
  all_goals omega

theorem toNat_monthLength (y m : ℕ) : (UInt8.ofNat (monthLength y m)).toNat = monthLength y m :=
  UInt8.toNat_ofNat_of_lt' ((monthLength_le y m).trans_lt (by decide))

/-- A day of the calendar passes the check. -/
theorem Valid.isValid (h : date.Valid) : isValid date.yearval date.monthval date.dayval = some true := by
  have hne : date.monthval ≠ 0 := by
    intro h0
    have hpos := h.month_pos
    rw [h0] at hpos
    exact absurd hpos (by decide)
  have hle : ¬ date.monthval > monthNow := by
    rw [gt_iff_lt,UInt8.lt_iff_toNat_lt]
    exact Nat.not_lt.mpr (h.month_le.trans (by decide))
  have hday : ¬ date.dayval > UInt8.ofNat (monthLength date.yearval.toNat date.monthval.toNat) := by
    rw [gt_iff_lt,UInt8.lt_iff_toNat_lt,toNat_monthLength]
    exact Nat.not_lt.mpr h.day_le
  rw [Date.isValid,if_neg hne,if_neg hle,daysInMonthOf_eq _ h.month_pos h.month_le]
  simp [hday]

/-! ## Increments -/

theorem toNat_add_one {c : UInt8} (h : c.toNat < 255) : (c + 1).toNat = c.toNat + 1 := by
  rw [UInt8.toNat_add]
  exact Nat.mod_eq_of_lt (Nat.succ_lt_succ h)

/-- The date of a day. -/
theorem exists_toDay_eq {date : Date} {d : Day} (hy : date.yearval.toNat = d.year) (hm : date.monthval.toNat = d.month)
    (hd : date.dayval.toNat = d.day) : ∃ h : date.Valid, date.toDay h = d := by
  refine ⟨⟨?_,?_,?_,?_,?_⟩,Day.ext hy hm hd⟩
  · exact hy ▸ d.year_pos
  · exact hm ▸ d.month_pos
  · exact hm ▸ d.month_le
  · exact hd ▸ d.day_pos
  · rw [hy,hm,hd]
    exact d.day_le

/-- A date is incremented to the day after, if its year fits. -/
theorem incr_toDay (h : date.Valid) (hyear : (date.toDay h).succ.year ≤ 65535) :
    ∃ date', ∃ h' : date'.Valid, date.incr = some date' ∧ date'.toDay h' = (date.toDay h).succ := by
  have hml := monthLength_le date.yearval.toNat date.monthval.toNat
  have hday : (date.dayval + 1).toNat = date.dayval.toNat + 1 := toNat_add_one (by have hle := h.day_le; omega)
  have hmonth : (date.monthval + 1).toNat = date.monthval.toNat + 1 :=
    toNat_add_one (by have hle := h.month_le; omega)
  have hdays := daysInMonthOf_eq date.yearval h.month_pos h.month_le
  have hover : date.dayval + 1 > UInt8.ofNat (monthLength date.yearval.toNat date.monthval.toNat) ↔
      monthLength date.yearval.toNat date.monthval.toNat ≤ date.dayval.toNat := by
    rw [gt_iff_lt,UInt8.lt_iff_toNat_lt,toNat_monthLength,hday,Nat.lt_succ_iff]
  have hover' : date.monthval + 1 > 12 ↔ 12 ≤ date.monthval.toNat := by
    rw [gt_iff_lt,UInt8.lt_iff_toNat_lt,hmonth]
    exact Nat.lt_succ_iff
  -- the day after passes the check at the end
  suffices hnext : ∃ date' : Date, (date'.yearval.toNat = (date.toDay h).succ.year ∧
      date'.monthval.toNat = (date.toDay h).succ.month ∧ date'.dayval.toNat = (date.toDay h).succ.day) ∧
      date.incr = (isValid date'.yearval date'.monthval date'.dayval).bind (fun valid => if valid then some date' else none) by
    obtain ⟨date',⟨hy,hm,hd⟩,hincr⟩ := hnext
    obtain ⟨h',hday'⟩ := exists_toDay_eq hy hm hd
    refine ⟨date',h',?_,hday'⟩
    rw [hincr,h'.isValid]
    rfl
  simp only [incr,daysInMonth,hdays,Option.bind_eq_bind,Option.bind_some,hover,hover']
  rcases (date.toDay h).succ_cases with hin | ⟨hlast,hin | hdec⟩
  · obtain ⟨hy,hm,hd⟩ := Day.succ_day hin
    refine ⟨{ date with dayval := date.dayval + 1 },⟨hy.symm,hm.symm,hday.trans hd.symm⟩,?_⟩
    have hstays : ¬ monthLength date.yearval.toNat date.monthval.toNat ≤ date.dayval.toNat := Nat.not_le.mpr hin
    rw [if_neg hstays]
  · obtain ⟨hy,hm,hd⟩ := Day.succ_month hlast hin
    refine ⟨{ date with dayval := 1, monthval := date.monthval + 1 },⟨hy.symm,hmonth.trans hm.symm,hd.symm⟩,?_⟩
    have hends : monthLength date.yearval.toNat date.monthval.toNat ≤ date.dayval.toNat := hlast.ge
    have hstays : ¬ 12 ≤ date.monthval.toNat := Nat.not_le.mpr hin
    rw [if_pos hends,if_neg hstays]
  · obtain ⟨hy,hm,hd⟩ := Day.succ_year hlast hdec
    have hyear' : (date.yearval + 1).toNat = date.yearval.toNat + 1 := by
      rw [hy] at hyear
      rw [UInt16.toNat_add]
      exact Nat.mod_eq_of_lt (Nat.lt_succ_of_le hyear)
    refine ⟨{ dayval := 1, monthval := 1, yearval := date.yearval + 1 },⟨hyear'.trans hy.symm,hm.symm,hd.symm⟩,?_⟩
    have hends : monthLength date.yearval.toNat date.monthval.toNat ≤ date.dayval.toNat := hlast.ge
    have hends' : 12 ≤ date.monthval.toNat := hdec.ge
    rw [if_pos hends,if_pos hends']

/-! ## The numbers of a day -/

theorem dayOfYear_eq (h : date.Valid) : date.dayOfYear = some (date.toDay h).ofYear := by
  rw [dayOfYear,leapYear_eq,daysInYear_eq,atMonth_eq (beforeMonth date.yearval.toNat) h.month_pos h.month_le]
  rfl

/-- The formula leaves out 364 days of each year before, and adds one for the count from Sunday. -/
theorem dayOfWeek_eq (h : date.Valid) : ∃ dow, date.dayOfWeek = some dow ∧ dow.toNat = (date.toDay h).weekday + 1 := by
  obtain ⟨k,hk⟩ : ∃ k, date.yearval.toNat = k + 1 := ⟨date.yearval.toNat - 1,by have hpos := h.year_pos; omega⟩
  have hyears := beforeYear_eq h.year_pos
  have hnumber : (date.toDay h).number = beforeYear date.yearval.toNat + (date.toDay h).ofYear := rfl
  have hquot : ∀ q : ℕ, (((k + 1 : ℕ) : ℤ) - 1).tdiv q = ((k / q : ℕ) : ℤ) := by
    intro q
    rw [Nat.cast_succ,Int.add_sub_cancel,Int.ofNat_tdiv]
  have hsum : (((k + 1 : ℕ) : ℤ) + ((date.toDay h).ofYear : ℕ) + (((k + 1 : ℕ) : ℤ) - 1).tdiv (4 : ℕ) -
      (((k + 1 : ℕ) : ℤ) - 1).tdiv (100 : ℕ) + (((k + 1 : ℕ) : ℤ) - 1).tdiv (400 : ℕ)).tmod 7 =
        (((date.toDay h).number + 1) % 7 : ℕ) := by
    rw [hk,Nat.add_sub_cancel] at hyears
    rw [hk] at hnumber
    rw [hquot,hquot,hquot,Int.tmod_eq_emod_of_nonneg (by omega)]
    omega
  have hdow : date.dayOfWeek = some (if UInt8.ofNat (((date.toDay h).number + 1) % 7) = 0 then 7
      else UInt8.ofNat (((date.toDay h).number + 1) % 7)) := by
    rw [dayOfWeek,dayOfYear_eq h,hk]
    exact congrArg (fun n : ℤ => some (if UInt8.ofNat n.toNat = 0 then 7 else UInt8.ofNat n.toNat)) hsum
  have hlt : ((date.toDay h).number + 1) % 7 < 7 := Nat.mod_lt _ (by decide)
  have hsmall : (UInt8.ofNat (((date.toDay h).number + 1) % 7)).toNat = ((date.toDay h).number + 1) % 7 :=
    UInt8.toNat_ofNat_of_lt' (hlt.trans (by decide))
  refine ⟨_,hdow,?_⟩
  rw [Day.weekday]
  split_ifs with hzero
  · have hmod : ((date.toDay h).number + 1) % 7 = 0 := by rw [← hsmall,hzero]; rfl
    change 7 = _
    omega
  · have hmod : ((date.toDay h).number + 1) % 7 ≠ 0 := by
      intro h0
      rw [h0] at hzero
      exact hzero rfl
    rw [hsmall]
    omega

/-! ## Comparison -/

variable {date2 : Date}

theorem eq_iff (h : date.Valid) (h2 : date2.Valid) :
    eq date date2 = true ↔ (date.toDay h).number = (date2.toDay h2).number := by
  simp only [eq,Bool.and_eq_true,beq_iff_eq]
  constructor
  · rintro ⟨⟨hd,hm⟩,hy⟩
    have hsame : date = date2 := by
      cases date
      cases date2
      simp only at hd hm hy
      rw [hd,hm,hy]
    subst hsame
    rfl
  · intro hn
    have hday := Day.number_inj hn
    have hy := congrArg Day.year hday
    have hm := congrArg Day.month hday
    have hd := congrArg Day.day hday
    exact ⟨⟨UInt8.toNat_inj.mp hd,UInt8.toNat_inj.mp hm⟩,UInt16.toNat_inj.mp hy⟩

theorem gt_iff (h : date.Valid) (h2 : date2.Valid) :
    gt date date2 = true ↔ (date2.toDay h2).number < (date.toDay h).number := by
  rw [Day.number_lt_iff,Day.Before]
  simp only [gt,Bool.or_eq_true,Bool.and_eq_true,decide_eq_true_eq,beq_iff_eq,gt_iff_lt,UInt8.lt_iff_toNat_lt,
    UInt16.lt_iff_toNat_lt,← UInt8.toNat_inj,← UInt16.toNat_inj]
  dsimp only [toDay]
  omega

theorem lt_iff (h : date.Valid) (h2 : date2.Valid) :
    lt date date2 = true ↔ (date.toDay h).number < (date2.toDay h2).number := by
  simp only [lt,ne,Bool.and_eq_true,Bool.not_eq_true',← Bool.not_eq_true,gt_iff h h2,eq_iff h h2]
  omega

/-! ## Any number of steps -/

theorem advance_toDay (h : date.Valid) {n : ℕ} (hyear : ((date.toDay h).after n).year ≤ 65534) :
    ∃ date', ∃ h' : date'.Valid, advance n date = some date' ∧ date'.toDay h' = (date.toDay h).after n := by
  induction n with
  | zero => exact ⟨date,h,rfl,rfl⟩
  | succ n ih =>
    rw [Day.after_succ] at hyear ⊢
    obtain ⟨date₁,h₁,hrun,hday⟩ := ih ((Day.year_le_succ _).trans hyear)
    rw [← hday] at hyear ⊢
    obtain ⟨date',h',hincr,hday'⟩ := incr_toDay h₁ (hyear.trans (by decide))
    exact ⟨date',h',by rw [advance,hrun,Option.bind_some,hincr],hday'⟩

structure Tells (date : Date) (d : Day) : Prop where
  dayOfYear : date.dayOfYear = some (d.number - d.yearStart.number + 1)
  dayOfWeek : ∃ dow, date.dayOfWeek = some dow ∧ dow.toNat = d.weekday + 1
  compare : ∀ date2 (h2 : date2.Valid), (lt date date2 = true ↔ d.number < (date2.toDay h2).number) ∧
    (eq date date2 = true ↔ d.number = (date2.toDay h2).number) ∧
      (gt date date2 = true ↔ (date2.toDay h2).number < d.number)

theorem tells (h : date.Valid) : date.Tells (date.toDay h) where
  dayOfYear := by rw [dayOfYear_eq h,Day.ofYear_eq]
  dayOfWeek := dayOfWeek_eq h
  compare := fun _ h2 => ⟨lt_iff h h2,eq_iff h h2,gt_iff h h2⟩

/-- From a date on, any number of steps that stays in the years gives the date of the day that
many days later, and each date tells of its day. -/
theorem date_isCalendar (date : Date) (h : date.Valid) (n : ℕ)
    (hyear : ((date.toDay h).after n).year ≤ 65534) :
    date.Tells (date.toDay h) ∧ ∃ date', ∃ h' : date'.Valid, advance n date = some date' ∧
      date'.yearval.toNat ≤ 65534 ∧ (date'.toDay h').number = (date.toDay h).number + n ∧
      date'.Tells (date'.toDay h') ∧ (date'.toDay h').weekday = ((date.toDay h).weekday + n) % 7 := by
  obtain ⟨date',h',hrun,hday⟩ := advance_toDay h hyear
  refine ⟨tells h,date',h',hrun,?_,?_,tells h',?_⟩
  · rw [← hday] at hyear
    exact hyear
  · rw [hday,Day.number_after]
  · rw [hday,Day.weekday_after]

/-- From 28 February of a leap year to 1 March. -/
theorem date_isCalendar_leapDay : ∃ h : Valid ⟨28,2,2004⟩, Tells ⟨28,2,2004⟩ (toDay _ h) ∧
    ∃ date', ∃ h' : date'.Valid, advance 2 ⟨28,2,2004⟩ = some date' ∧ date'.yearval.toNat ≤ 65534 ∧
      (date'.toDay h').number = (toDay _ h).number + 2 ∧ date'.Tells (date'.toDay h') ∧
      (date'.toDay h').weekday = ((toDay _ h).weekday + 2) % 7 :=
  ⟨by decide,date_isCalendar ⟨28,2,2004⟩ (by decide) 2 (by decide)⟩

end Date
end Edelib
