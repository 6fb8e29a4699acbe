import Edelib.DateTime.Successor

/-! # The day before

Within a year the decrement is the reverse of the increment. Before the first of a year up to 1900
there is only the end of 1900.
-/
namespace Edelib
open Foundation Calendar

namespace Date
variable {date date2 : Date}

theorem toDay_inj {h : date.Valid} {h2 : date2.Valid} (heq : date.toDay h = date2.toDay h2) : date = date2 := by
  have hy := congrArg Day.year heq
  have hm := congrArg Day.month heq
  have hd := congrArg Day.day heq
  cases date
  cases date2
  obtain rfl := UInt16.toNat_inj.mp hy
  obtain rfl := UInt8.toNat_inj.mp hm
  obtain rfl := UInt8.toNat_inj.mp hd
  rfl

def StartsEarly (date : Date) : Prop := date.dayval = 1 ∧ date.monthval = 1 ∧ date.yearval ≤ 1900

def EndsEarly (date : Date) : Prop := date.dayval = 31 ∧ date.monthval = 12 ∧ date.yearval < 1900

instance (date : Date) : Decidable date.StartsEarly := inferInstanceAs (Decidable (_ ∧ _))

instance (date : Date) : Decidable date.EndsEarly := inferInstanceAs (Decidable (_ ∧ _))

theorem toNat_sub_one {c : UInt8} (h : 1 ≤ c.toNat) : (c - 1).toNat = c.toNat - 1 :=
  UInt8.toNat_sub_of_le c 1 (UInt8.le_iff_toNat_le.mpr h)

/-- What is left of a decrement when the fields are found. -/
theorem decr_of_fields {h : date.Valid} (before : Date) {d : Day} (hdecr : date.decr = (isValid before.yearval
      before.monthval before.dayval).bind (fun valid => if valid then some before else none))
    (hfields : before.yearval.toNat = d.year ∧ before.monthval.toNat = d.month ∧ before.dayval.toNat = d.day)
    (hsucc : d.succ = date.toDay h) :
    ∃ before, ∃ hb : before.Valid, date.decr = some before ∧ (before.toDay hb).succ = date.toDay h := by
  obtain ⟨hb,hday⟩ := exists_toDay_eq hfields.1 hfields.2.1 hfields.2.2
  refine ⟨before,hb,?_,hday ▸ hsucc⟩
  rw [hdecr,hb.isValid]
  rfl

theorem sub_one_lt_one_iff {c : UInt8} (h : 1 ≤ c.toNat) : c - 1 < 1 ↔ c.toNat = 1 := by
  rw [UInt8.lt_iff_toNat_lt,toNat_sub_one h]
  change _ < 1 ↔ _
  omega

theorem yearval_sub_one (h : date.Valid) : (date.yearval - 1).toNat = date.yearval.toNat - 1 :=
  UInt16.toNat_sub_of_le _ 1 (UInt16.le_iff_toNat_le.mpr h.year_pos)

theorem decr_in_month (h : date.Valid) (hd : date.dayval.toNat ≠ 1) :
    ∃ before, ∃ hb : before.Valid, date.decr = some before ∧ (before.toDay hb).succ = date.toDay h := by
  have hd1 : 1 < date.dayval.toNat := Nat.lt_of_le_of_ne h.day_pos (Ne.symm hd)
  have hunder : ¬ date.dayval - 1 < 1 := mt (sub_one_lt_one_iff h.day_pos).mp hd
  obtain ⟨e,⟨hey,hem,hed⟩,hsucc⟩ := @Day.exists_before_day (date.toDay h) hd1
  refine decr_of_fields ⟨date.dayval - 1,date.monthval,date.yearval⟩ ?_
    ⟨hey.symm,hem.symm,(toNat_sub_one h.day_pos).trans hed.symm⟩ hsucc
  simp only [decr,if_neg hunder,Option.bind_eq_bind,Option.bind_some]

theorem decr_to_month (h : date.Valid) (hd : date.dayval.toNat = 1) (hm : date.monthval.toNat ≠ 1) :
    ∃ before, ∃ hb : before.Valid, date.decr = some before ∧ (before.toDay hb).succ = date.toDay h := by
  have hmonth := toNat_sub_one h.month_pos
  have hm1 : 1 < date.monthval.toNat := Nat.lt_of_le_of_ne h.month_pos (Ne.symm hm)
  have hle := h.month_le
  have hunder : date.dayval - 1 < 1 := (sub_one_lt_one_iff h.day_pos).mpr hd
  have hunder' : ¬ date.monthval - 1 < 1 := mt (sub_one_lt_one_iff h.month_pos).mp hm
  obtain ⟨e,⟨hey,hem,hed⟩,hsucc⟩ := @Day.exists_before_month (date.toDay h) hd hm1
  have hdays : daysInMonth ⟨date.dayval - 1,date.monthval - 1,date.yearval⟩ =
      some (UInt8.ofNat (monthLength date.yearval.toNat (date.monthval.toNat - 1))) := by
    rw [← hmonth]
    exact @daysInMonthOf_eq date.yearval (date.monthval - 1) (by omega) (by omega)
  refine decr_of_fields ⟨UInt8.ofNat (monthLength date.yearval.toNat (date.monthval.toNat - 1)),date.monthval - 1,
    date.yearval⟩ ?_ ⟨hey.symm,hmonth.trans hem.symm,(toNat_monthLength _ _).trans hed.symm⟩ hsucc
  simp only [decr,if_pos hunder,if_neg hunder',hdays,Option.bind_eq_bind,Option.bind_some]

theorem decr_to_year (h : date.Valid) (hd : date.dayval.toNat = 1) (hm : date.monthval.toNat = 1)
    (hyear : 1900 < date.yearval.toNat) :
    ∃ before, ∃ hb : before.Valid, date.decr = some before ∧ (before.toDay hb).succ = date.toDay h := by
  have hunder : date.dayval - 1 < 1 := (sub_one_lt_one_iff h.day_pos).mpr hd
  have hunder' : date.monthval - 1 < 1 := (sub_one_lt_one_iff h.month_pos).mpr hm
  have hkept : ¬ date.yearval - 1 < 1900 := by
    rw [UInt16.lt_iff_toNat_lt,yearval_sub_one h]
    change ¬ _ < 1900
    omega
  obtain ⟨e,⟨hey,hem,hed⟩,hsucc⟩ := @Day.exists_before_year (date.toDay h) hd hm (Nat.lt_trans (by decide) hyear)
  have hdays : daysInMonth ⟨date.dayval - 1,12,date.yearval - 1⟩ = some 31 :=
    @daysInMonthOf_eq (date.yearval - 1) 12 (by decide) (by decide)
  refine decr_of_fields ⟨31,12,date.yearval - 1⟩ ?_ ⟨(yearval_sub_one h).trans hey.symm,hem.symm,hed.symm⟩ hsucc
  simp only [decr,if_pos hunder,if_pos hunder',if_neg hkept,hdays,Option.bind_eq_bind,Option.bind_some]

theorem decr_toDay (h : date.Valid) (hstart : ¬ date.StartsEarly) :
    ∃ before, ∃ hb : before.Valid, date.decr = some before ∧ (before.toDay hb).succ = date.toDay h := by
  by_cases hd : date.dayval.toNat = 1
  · by_cases hm : date.monthval.toNat = 1
    · refine decr_to_year h hd hm (Nat.lt_of_not_le (fun hle => ?_))
      exact hstart ⟨UInt8.toNat_inj.mp hd,UInt8.toNat_inj.mp hm,UInt16.le_iff_toNat_le.mpr hle⟩
    · exact decr_to_month h hd hm
  · exact decr_in_month h hd

/-- Before an early year there is the end of 1900. -/
theorem decr_of_startsEarly (h : date.Valid) (hstart : date.StartsEarly) : date.decr = some ⟨31,12,1900⟩ := by
  obtain ⟨hd,hm,hy⟩ := hstart
  have hclamp : date.yearval - 1 < 1900 := by
    have hle : date.yearval.toNat ≤ 1900 := UInt16.le_iff_toNat_le.mp hy
    have hpos := h.year_pos
    rw [UInt16.lt_iff_toNat_lt,yearval_sub_one h]
    change _ < 1900
    omega
  have hdays : daysInMonth ⟨1 - 1,12,1900⟩ = some 31 := by decide
  have hvalid : isValid 1900 12 31 = some true := by decide
  simp only [decr,hd,hm,if_pos (show (1 : UInt8) - 1 < 1 by decide),if_pos hclamp,hdays,hvalid,Option.bind_eq_bind,
    Option.bind_some,if_true]

/-! ## The two directions -/

theorem incr_of_succ {h : date.Valid} {before : Date} (hb : before.Valid) (hsucc : (before.toDay hb).succ = date.toDay h) :
    before.incr = some date := by
  have hyear : (before.toDay hb).succ.year ≤ 65535 := by
    rw [hsucc]
    exact Nat.le_of_lt_succ date.yearval.toNat_lt
  obtain ⟨date',h',hincr,hday⟩ := incr_toDay hb hyear
  rw [hincr,toDay_inj (hday.trans hsucc)]

/-- The day after is that of the next year, of years of 16 bits. -/
theorem incr_cases (h : date.Valid) : (∃ next, ∃ hn : next.Valid, date.incr = some next ∧
    next.toDay hn = (date.toDay h).succ) ∨ date = ⟨31,12,65535⟩ := by
  by_cases hyear : (date.toDay h).succ.year ≤ 65535
  · exact Or.inl (incr_toDay h hyear)
  · refine Or.inr ?_
    have hlt := date.yearval.toNat_lt
    rcases (date.toDay h).succ_cases with hin | ⟨hlast,hin | hdec⟩
    · rw [(Day.succ_day hin).1] at hyear
      exact absurd (Nat.le_of_lt_succ hlt) hyear
    · rw [(Day.succ_month hlast hin).1] at hyear
      exact absurd (Nat.le_of_lt_succ hlt) hyear
    · rw [(Day.succ_year hlast hdec).1] at hyear
      have hy : date.yearval.toNat = 65535 := by
        change ¬ date.yearval.toNat + 1 ≤ 65535 at hyear
        omega
      have hm : date.monthval.toNat = 12 := hdec
      have hd : date.dayval.toNat = 31 := by
        change date.dayval.toNat = monthLength date.yearval.toNat date.monthval.toNat at hlast
        rwa [hm] at hlast
      exact @toDay_inj date ⟨31,12,65535⟩ h (by decide) (Day.ext hy hm hd)

structure Reverses (date : Date) : Prop where
  before : ∃ before, before.Valid ∧ date.decr = some before ∧ before.incr = some date ∧ lt before date = true
  after : ∀ next, date.incr = some next → next.decr = some date

/-- The first of a year comes after the last of the year before. -/
theorem startsEarly_iff (h : date.Valid) {next : Date} (hn : next.Valid) (hsucc : next.toDay hn = (date.toDay h).succ) :
    next.StartsEarly ↔ date.EndsEarly := by
  have hy : next.yearval.toNat = (date.toDay h).succ.year := congrArg Day.year hsucc
  have hm : next.monthval.toNat = (date.toDay h).succ.month := congrArg Day.month hsucc
  have hd : next.dayval.toNat = (date.toDay h).succ.day := congrArg Day.day hsucc
  have hday : (date.toDay h).day = date.dayval.toNat := rfl
  have hmonth : (date.toDay h).month = date.monthval.toNat := rfl
  have hyear : (date.toDay h).year = date.yearval.toNat := rfl
  have hpos := h.day_pos
  have hpos' := h.month_pos
  rw [StartsEarly,EndsEarly,← UInt8.toNat_inj,← UInt8.toNat_inj,← UInt8.toNat_inj,← UInt8.toNat_inj,
    UInt16.le_iff_toNat_le,UInt16.lt_iff_toNat_lt,hy,hm,hd]
  change (_ = 1 ∧ _ = 1 ∧ _ ≤ 1900) ↔ (_ = 31 ∧ _ = 12 ∧ _ < 1900)
  rcases (date.toDay h).succ_cases with hin | ⟨hlast,hin | hdec⟩
  · obtain ⟨hy',hm',hd'⟩ := Day.succ_day hin
    rw [hy',hm',hd',hday]
    refine iff_of_false (by omega) ?_
    rintro ⟨h31,h12,-⟩
    rw [hday,hmonth,h31,h12] at hin
    exact absurd hin (by decide : ¬ 31 < 31)
  · obtain ⟨hy',hm',hd'⟩ := Day.succ_month hlast hin
    rw [hy',hm',hd',hmonth]
    rw [hmonth] at hin
    omega
  · obtain ⟨hy',hm',hd'⟩ := Day.succ_year hlast hdec
    rw [hdec] at hlast
    have h31 : date.dayval.toNat = 31 := hlast
    rw [hy',hm',hd',hyear,h31,← hmonth,hdec]
    omega

theorem before_of_not_startsEarly (h : date.Valid) (hstart : ¬ date.StartsEarly) :
    ∃ before, before.Valid ∧ date.decr = some before ∧ before.incr = some date ∧ lt before date = true := by
  obtain ⟨before,hb,hdecr,hsucc⟩ := decr_toDay h hstart
  have hnumber := Day.number_succ (before.toDay hb)
  rw [hsucc] at hnumber
  exact ⟨before,hb,hdecr,incr_of_succ hb hsucc,(lt_iff hb h).mpr (by omega)⟩

theorem after_of_not_endsEarly (h : date.Valid) (hend : ¬ date.EndsEarly) {next : Date} (hincr : date.incr = some next) :
    next.decr = some date := by
  rcases incr_cases h with ⟨next',hn,hincr',hsucc⟩ | rfl
  · obtain rfl := Option.some.inj (hincr'.symm.trans hincr)
    obtain ⟨before,hb,hdecr,hback⟩ := decr_toDay hn (mt (startsEarly_iff h hn hsucc).mp hend)
    rw [hdecr,toDay_inj (Day.succ_inj (hback.trans hsucc))]
  · have hwrap : incr ⟨31,12,65535⟩ = some ⟨1,1,0⟩ := by decide
    rw [hwrap] at hincr
    cases hincr
    decide

/-- The exceptions are at the years that start early. -/
theorem reverses_iff (date : Date) (h : date.Valid) : date.Reverses ↔ ¬ date.StartsEarly ∧ ¬ date.EndsEarly := by
  constructor
  · rintro ⟨⟨before,-,hdecr,hincr,-⟩,hafter⟩
    constructor
    · intro hstart
      rw [decr_of_startsEarly h hstart] at hdecr
      cases hdecr
      have hnext : incr ⟨31,12,1900⟩ = some ⟨1,1,1901⟩ := by decide
      rw [hnext] at hincr
      cases hincr
      exact absurd hstart (by decide)
    · intro hend
      rcases incr_cases h with ⟨next,hn,hincr',hsucc⟩ | rfl
      · have hback := hafter next hincr'
        rw [decr_of_startsEarly hn ((startsEarly_iff h hn hsucc).mpr hend)] at hback
        cases hback
        exact absurd hend (by decide)
      · exact absurd hend (by decide)
  · rintro ⟨hstart,hend⟩
    exact ⟨before_of_not_startsEarly h hstart,fun next hincr => after_of_not_endsEarly h hend hincr⟩

/-- The first of March of a leap year. -/
theorem reverses_iff_march : Reverses ⟨1,3,2004⟩ ↔ ¬ StartsEarly ⟨1,3,2004⟩ ∧ ¬ EndsEarly ⟨1,3,2004⟩ :=
  reverses_iff ⟨1,3,2004⟩ (by decide)

/-- The day before 1 January 1900 is taken to be the last of that year. -/
theorem not_reverses : ¬ ∀ date : Date, date.Valid → date ≠ ⟨1,1,1⟩ → date.Reverses := by
  intro h
  obtain ⟨before,-,hdecr,-,hlt⟩ := (h ⟨1,1,1900⟩ (by decide) (by decide)).before
  have hend : decr ⟨1,1,1900⟩ = some ⟨31,12,1900⟩ := by decide
  rw [hend] at hdecr
  cases hdecr
  exact absurd hlt (by decide)

end Date
end Edelib
