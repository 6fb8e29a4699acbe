import Mathlib.Algebra.Order.BigOperators.Group.Finset
import Mathlib.Algebra.Order.Ring.Int

/-! # The proleptic Gregorian calendar

Its days are numbered from 1 January of the year 1, which is a Monday.
-/
namespace Edelib.Foundation.Calendar

def Leap (y : ℕ) : Prop := 4 ∣ y ∧ ¬ 100 ∣ y ∨ 400 ∣ y

instance (y : ℕ) : Decidable (Leap y) := inferInstanceAs (Decidable (_ ∨ _))

def monthLength (y m : ℕ) : ℕ :=
  match m with
  | 2 => if Leap y then 29 else 28
  | 4 | 6 | 9 | 11 => 30
  | _ => 31

def yearLength (y : ℕ) : ℕ := if Leap y then 366 else 365

@[ext] structure Day where
  year : ℕ
  month : ℕ
  day : ℕ
  year_pos : 1 ≤ year
  month_pos : 1 ≤ month
  month_le : month ≤ 12
  day_pos : 1 ≤ day
  day_le : day ≤ monthLength year month
deriving DecidableEq

def beforeYear (y : ℕ) : ℕ := ∑ i ∈ Finset.range (y - 1), yearLength (i + 1)

def beforeMonth (y m : ℕ) : ℕ := ∑ i ∈ Finset.range (m - 1), monthLength y (i + 1)

theorem beforeYear_succ {y : ℕ} (hy : 1 ≤ y) : beforeYear (y + 1) = beforeYear y + yearLength y := by
  obtain ⟨k,rfl⟩ : ∃ k, y = k + 1 := ⟨y - 1,by omega⟩
  exact Finset.sum_range_succ _ _

theorem beforeMonth_succ (y : ℕ) {m : ℕ} (hm : 1 ≤ m) : beforeMonth y (m + 1) = beforeMonth y m + monthLength y m := by
  obtain ⟨k,rfl⟩ : ∃ k, m = k + 1 := ⟨m - 1,by omega⟩
  exact Finset.sum_range_succ _ _

theorem beforeYear_mono {y y' : ℕ} (h : y ≤ y') : beforeYear y ≤ beforeYear y' :=
  Finset.sum_le_sum_of_subset (Finset.range_mono (Nat.sub_le_sub_right h 1))

theorem beforeMonth_mono (y : ℕ) {m m' : ℕ} (h : m ≤ m') : beforeMonth y m ≤ beforeMonth y m' :=
  Finset.sum_le_sum_of_subset (Finset.range_mono (Nat.sub_le_sub_right h 1))

/-- The months make up the year. -/
theorem beforeMonth_thirteen (y : ℕ) : beforeMonth y 13 = yearLength y := by
  rw [beforeMonth,yearLength]
  by_cases h : Leap y <;> simp [Finset.sum_range_succ,monthLength,h]

/-- Of four years one is leap, but not of every hundred, and yet of every four hundred. -/
theorem beforeYear_eq {y : ℕ} (hy : 1 ≤ y) :
    beforeYear y + (y - 1) / 100 = 365 * (y - 1) + (y - 1) / 4 + (y - 1) / 400 := by
  induction y,hy using Nat.le_induction with
  | base => rfl
  | succ y hy ih =>
    rw [beforeYear_succ hy,yearLength]
    by_cases h : Leap y
    · rw [if_pos h]
      unfold Leap at h
      omega
    · rw [if_neg h]
      unfold Leap at h
      omega

namespace Day

def ofYear (d : Day) : ℕ := beforeMonth d.year d.month + d.day

def number (d : Day) : ℕ := beforeYear d.year + d.ofYear

def weekday (d : Day) : ℕ := d.number % 7

theorem ofYear_pos (d : Day) : 1 ≤ d.ofYear := d.day_pos.trans (Nat.le_add_left _ _)

theorem ofYear_le_month (d : Day) : d.ofYear ≤ beforeMonth d.year (d.month + 1) := by
  rw [beforeMonth_succ d.year d.month_pos]
  exact Nat.add_le_add_left d.day_le _

theorem ofYear_le (d : Day) : d.ofYear ≤ yearLength d.year := by
  rw [← beforeMonth_thirteen]
  exact d.ofYear_le_month.trans (beforeMonth_mono d.year (Nat.succ_le_succ d.month_le))

def Before (d e : Day) : Prop :=
  d.year < e.year ∨ d.year = e.year ∧ (d.month < e.month ∨ d.month = e.month ∧ d.day < e.day)

theorem number_lt_of_before {d e : Day} (h : d.Before e) : d.number < e.number := by
  have he := e.ofYear_pos
  rcases h with hy | ⟨hy,hm | ⟨hm,hd⟩⟩
  · have hle := beforeYear_mono (Nat.succ_le_of_lt hy)
    rw [Nat.succ_eq_add_one,beforeYear_succ d.year_pos] at hle
    have hof := d.ofYear_le
    rw [number,number]
    omega
  · have hle := beforeMonth_mono d.year (Nat.succ_le_of_lt hm)
    have hof := d.ofYear_le_month
    have hday := e.day_pos
    rw [number,number,hy,ofYear,ofYear,← hy]
    rw [ofYear] at hof
    rw [Nat.succ_eq_add_one] at hle
    omega
  · rw [number,number,ofYear,ofYear,hy,hm]
    omega

theorem before_trichotomy (d e : Day) : d.Before e ∨ d = e ∨ e.Before d := by
  rw [Day.ext_iff,Before,Before]
  omega

theorem number_lt_iff {d e : Day} : d.number < e.number ↔ d.Before e := by
  refine ⟨fun h => ?_,number_lt_of_before⟩
  rcases before_trichotomy d e with hlt | rfl | hgt
  · exact hlt
  · exact absurd h (Nat.lt_irrefl _)
  · exact absurd h (Nat.lt_asymm (number_lt_of_before hgt))

theorem number_inj {d e : Day} (h : d.number = e.number) : d = e := by
  rcases before_trichotomy d e with hlt | heq | hgt
  · exact absurd h (Nat.ne_of_lt (number_lt_of_before hlt))
  · exact heq
  · exact absurd h.symm (Nat.ne_of_lt (number_lt_of_before hgt))

theorem monthLength_pos (y m : ℕ) : 1 ≤ monthLength y m := by
  unfold monthLength
  split
  · split_ifs <;> omega
  all_goals omega

/-- The day after: in the same month, on the first of the next, or in the next year. -/
def succ (d : Day) : Day :=
  if hday : d.day + 1 ≤ monthLength d.year d.month then
    { d with day := d.day + 1, day_pos := Nat.le_add_left 1 _, day_le := hday }
  else if hmonth : d.month + 1 ≤ 12 then
    { d with
      month := d.month + 1, day := 1, month_pos := Nat.le_add_left 1 _, month_le := hmonth
      day_pos := Nat.le_refl 1, day_le := monthLength_pos _ _ }
  else
    { year := d.year + 1, month := 1, day := 1, year_pos := Nat.le_add_left 1 _, month_pos := Nat.le_refl 1
      month_le := by decide, day_pos := Nat.le_refl 1, day_le := monthLength_pos _ _ }

theorem succ_day {d : Day} (h : d.day < monthLength d.year d.month) :
    d.succ.year = d.year ∧ d.succ.month = d.month ∧ d.succ.day = d.day + 1 := by
  rw [succ,dif_pos (Nat.succ_le_of_lt h)]
  exact ⟨rfl,rfl,rfl⟩

theorem succ_month {d : Day} (h : d.day = monthLength d.year d.month) (hm : d.month < 12) :
    d.succ.year = d.year ∧ d.succ.month = d.month + 1 ∧ d.succ.day = 1 := by
  rw [succ,dif_neg (by omega),dif_pos (Nat.succ_le_of_lt hm)]
  exact ⟨rfl,rfl,rfl⟩

theorem succ_year {d : Day} (h : d.day = monthLength d.year d.month) (hm : d.month = 12) :
    d.succ.year = d.year + 1 ∧ d.succ.month = 1 ∧ d.succ.day = 1 := by
  rw [succ,dif_neg (by omega),dif_neg (by omega)]
  exact ⟨rfl,rfl,rfl⟩

/-- What the day after is: in the month, in the year, or in the next one. -/
theorem succ_cases (d : Day) : d.day < monthLength d.year d.month ∨
    d.day = monthLength d.year d.month ∧ (d.month < 12 ∨ d.month = 12) := by
  have hday := d.day_le
  have hmonth := d.month_le
  omega

theorem number_succ (d : Day) : d.succ.number = d.number + 1 := by
  rw [number,number,ofYear,ofYear]
  rcases d.succ_cases with hday | ⟨hlast,hmonth | hdec⟩
  · obtain ⟨hy,hm,hd⟩ := succ_day hday
    rw [hy,hm,hd]
    omega
  · obtain ⟨hy,hm,hd⟩ := succ_month hlast hmonth
    rw [hy,hm,hd,beforeMonth_succ d.year d.month_pos,hlast]
    omega
  · obtain ⟨hy,hm,hd⟩ := succ_year hlast hdec
    have hyear := beforeMonth_succ d.year d.month_pos
    rw [hdec,beforeMonth_thirteen] at hyear
    have hfirst : beforeMonth (d.year + 1) 1 = 0 := rfl
    rw [hy,hm,hd,beforeYear_succ d.year_pos,hyear,hfirst,hlast,hdec]

theorem succ_inj {d e : Day} (h : d.succ = e.succ) : d = e := by
  have hn := congrArg Day.number h
  rw [number_succ,number_succ] at hn
  exact number_inj (Nat.succ.inj hn)

/-- The day before, in the same month. -/
theorem exists_before_day {d : Day} (h : 1 < d.day) :
    ∃ e : Day, (e.year = d.year ∧ e.month = d.month ∧ e.day = d.day - 1) ∧ e.succ = d := by
  have hle := d.day_le
  refine ⟨{ d with day := d.day - 1, day_pos := by omega, day_le := by omega },⟨rfl,rfl,rfl⟩,?_⟩
  obtain ⟨hy,hm,hd⟩ := @succ_day { d with day := d.day - 1, day_pos := by omega, day_le := by omega } (by dsimp only; omega)
  exact Day.ext hy hm (hd.trans (Nat.sub_add_cancel d.day_pos))

/-- The day before the first of a month. -/
theorem exists_before_month {d : Day} (hd : d.day = 1) (hm : 1 < d.month) : ∃ e : Day,
    (e.year = d.year ∧ e.month = d.month - 1 ∧ e.day = monthLength d.year (d.month - 1)) ∧ e.succ = d := by
  have hle := d.month_le
  let e : Day := ⟨d.year,d.month - 1,monthLength d.year (d.month - 1),d.year_pos,by omega,by omega,monthLength_pos _ _,
    Nat.le_refl _⟩
  obtain ⟨hey,hem,hed⟩ := @succ_month e rfl (show d.month - 1 < 12 by omega)
  exact ⟨e,⟨rfl,rfl,rfl⟩,Day.ext hey (hem.trans (Nat.sub_add_cancel d.month_pos)) (hed.trans hd.symm)⟩

/-- The day before the first of a year. -/
theorem exists_before_year {d : Day} (hd : d.day = 1) (hm : d.month = 1) (hy : 1 < d.year) :
    ∃ e : Day, (e.year = d.year - 1 ∧ e.month = 12 ∧ e.day = 31) ∧ e.succ = d := by
  let e : Day := ⟨d.year - 1,12,31,by omega,by decide,by decide,by decide,Nat.le_refl _⟩
  obtain ⟨hey,hem,hed⟩ := @succ_year e rfl rfl
  exact ⟨e,⟨rfl,rfl,rfl⟩,Day.ext (hey.trans (Nat.sub_add_cancel d.year_pos)) (hem.trans hm.symm) (hed.trans hd.symm)⟩

theorem year_le_succ (d : Day) : d.year ≤ d.succ.year := by
  rcases d.succ_cases with hday | ⟨hlast,hmonth | hdec⟩
  · exact (succ_day hday).1.ge
  · exact (succ_month hlast hmonth).1.ge
  · exact (Nat.le_succ _).trans (succ_year hlast hdec).1.ge

def after (d : Day) (n : ℕ) : Day := succ^[n] d

theorem after_succ (d : Day) (n : ℕ) : d.after (n + 1) = (d.after n).succ := Function.iterate_succ_apply' _ _ _

theorem number_after (d : Day) (n : ℕ) : (d.after n).number = d.number + n := by
  induction n with
  | zero => rfl
  | succ n ih => rw [after_succ,number_succ,ih,Nat.add_assoc]

theorem weekday_after (d : Day) (n : ℕ) : (d.after n).weekday = (d.weekday + n) % 7 := by
  rw [weekday,weekday,number_after,Nat.mod_add_mod]

def yearStart (d : Day) : Day where
  year := d.year
  month := 1
  day := 1
  year_pos := d.year_pos
  month_pos := Nat.le_refl 1
  month_le := by decide
  day_pos := Nat.le_refl 1
  day_le := monthLength_pos _ _

theorem ofYear_eq (d : Day) : d.ofYear = d.number - d.yearStart.number + 1 := by
  have hpos := d.ofYear_pos
  have hstart : d.yearStart.number = beforeYear d.year + 1 := rfl
  rw [hstart,number]
  omega

/-- 1 January 2000 was a Saturday. -/
example : (⟨2000,1,1,by decide,by decide,by decide,by decide,by decide⟩ : Day).weekday = 6 := by decide +kernel

end Day
end Edelib.Foundation.Calendar
