import Mathlib.Algebra.Order.Ring.Int

/-! # Dates

A date has a year of 16 bits and a month and a day of 8 bits each; zero stands for the
current year or day, and month 13 for the current month. `none` is a failed assertion, or a
reading outside of a table.
-/
namespace Edelib

structure Date where
  dayval : UInt8
  monthval : UInt8
  yearval : UInt16
deriving DecidableEq

namespace Date

def dayNow : UInt8 := 0

def monthNow : UInt8 := 13

def yearNow : UInt16 := 0

def monthDays (leap : Bool) : List UInt8 :=
  if leap then [31,29,31,30,31,30,31,31,30,31,30,31] else [31,28,31,30,31,30,31,31,30,31,30,31]

def daysInYear (leap : Bool) : List ℕ :=
  if leap then [0,31,60,91,121,152,182,213,244,274,305,335] else [0,31,59,90,120,151,181,212,243,273,304,334]

def leapYear (y : UInt16) : Bool := (y &&& 3 == 0 && y % 100 != 0) || y % 400 == 0

def atMonth {α : Type} (table : List α) (m : UInt8) : Option α := if m = 0 then none else table[m.toNat - 1]?

def daysInMonthOf (y : UInt16) (m : UInt8) : Option UInt8 := if m ≤ 31 then atMonth (monthDays (leapYear y)) m else none

def isValid (y : UInt16) (m d : UInt8) : Option Bool :=
  if m = 0 then some false
  else if m > monthNow then some false
  else do
    let days ← daysInMonthOf y m
    some (!(d > days))

/-- `struct tm`, with the year counted from 1900 and the month from 0. -/
structure Tm where
  tmYear : ℤ
  tmMon : ℤ
  tmMday : ℤ

def set (tmp : Tm) (y : UInt16) (m d : UInt8) : Option Date := do
  let valid ← isValid y m d
  if valid then
    let y := if y = yearNow then UInt16.ofInt (tmp.tmYear + 1900) else y
    let m := if m = monthNow then UInt8.ofInt (tmp.tmMon + 1) else m
    let d := if d = dayNow then UInt8.ofInt tmp.tmMday else d
    some { dayval := d, monthval := m, yearval := y }
  else none

def daysInMonth (date : Date) : Option UInt8 := daysInMonthOf date.yearval date.monthval

/-- A number of the table and a day of 8 bits fit into a `short`. -/
def dayOfYear (date : Date) : Option ℕ :=
  (atMonth (daysInYear (leapYear date.yearval)) date.monthval).map (fun days => days + date.dayval.toNat)

/-- The operands are promoted to `int`. -/
def dayOfWeek (date : Date) : Option UInt8 := do
  let doy ← date.dayOfYear
  let y : ℤ := date.yearval.toNat
  let d := UInt8.ofNat ((y + doy + (y - 1).tdiv 4 - (y - 1).tdiv 100 + (y - 1).tdiv 400).tmod 7).toNat
  some (if d = 0 then 7 else d)

/-- `operator++`. -/
def incr (date : Date) : Option Date := do
  let date := { date with dayval := date.dayval + 1 }
  let days ← date.daysInMonth
  let date :=
    if date.dayval > days then
      let date := { date with dayval := 1, monthval := date.monthval + 1 }
      if date.monthval > 12 then { date with monthval := 1, yearval := date.yearval + 1 } else date
    else date
  let valid ← isValid date.yearval date.monthval date.dayval
  if valid then some date else none

/-- `operator--`. -/
def decr (date : Date) : Option Date := do
  let date := { date with dayval := date.dayval - 1 }
  let date ← if date.dayval < 1 then do
      let date := { date with monthval := date.monthval - 1 }
      let date :=
        if date.monthval < 1 then
          let date := { date with monthval := 12, yearval := date.yearval - 1 }
          -- keep UNIX compatible
          if date.yearval < 1900 then { date with yearval := 1900 } else date
        else date
      let days ← date.daysInMonth
      some { date with dayval := days }
    else some date
  let valid ← isValid date.yearval date.monthval date.dayval
  if valid then some date else none

def advance : ℕ → Date → Option Date
  | 0,date => some date
  | n + 1,date => (advance n date).bind incr

/-! ## Comparison -/

def eq (d1 d2 : Date) : Bool := d1.dayval == d2.dayval && d1.monthval == d2.monthval && d1.yearval == d2.yearval

def gt (d1 d2 : Date) : Bool :=
  d1.yearval > d2.yearval || (d1.yearval == d2.yearval && d1.monthval > d2.monthval) ||
    (d1.yearval == d2.yearval && d1.monthval == d2.monthval && d1.dayval > d2.dayval)

def ne (d1 d2 : Date) : Bool := !(eq d1 d2)

def lt (d1 d2 : Date) : Bool := !(gt d1 d2) && ne d1 d2

end Date
end Edelib
