import Mathlib

/-!
# The proleptic Gregorian calendar

Dates, and the number of a date: how many days lie between the first day of an epoch year and it,
counted month by month and year by year. A year counted from March 1 has its leap day at the end,
so that the days before a month depend on no leap rule; the second half relates such years, and the
400 years the calendar repeats after, to dates.
-/

namespace RWave.Misc.Calendar

open Finset (Ico range)

/-! ## Dates -/

/-- The leap years: every fourth year, less the centuries that 400 does not divide. -/
def IsLeap (y : Int) : Prop := y % 4 = 0 ∧ (y % 100 ≠ 0 ∨ y % 400 = 0)

instance (y : Int) : Decidable (IsLeap y) := inferInstanceAs (Decidable (_ ∧ _))

def leapDays (y : Int) : Int := if IsLeap y then 1 else 0

/-- The length of a month; January is the first one. -/
def daysInMonth (y : Int) (m : Nat) : Nat :=
  match m with
  | 2 => if IsLeap y then 29 else 28
  | 4 | 6 | 9 | 11 => 30
  | 1 | 3 | 5 | 7 | 8 | 10 | 12 => 31
  | _ => 0

structure Date where
  year : Int
  month : Nat
  day : Nat
  inYear : 1 ≤ month ∧ month ≤ 12
  inMonth : 1 ≤ day ∧ day ≤ daysInMonth year month

/-- The days of year `y` before its month `m`. -/
def daysBeforeMonth (y : Int) (m : Nat) : Int := ∑ k ∈ Ico 1 m, (daysInMonth y k : Int)

def yearLength (y : Int) : Int := daysBeforeMonth y 13

/-- The days from the start of year `a` to the start of year `b`, negative if `b` is the earlier. -/
def daysBetween (a b : Int) : Int :=
  ∑ i ∈ range (b - a).toNat, yearLength (a + i) - ∑ i ∈ range (a - b).toNat, yearLength (b + i)

/-- The number of a date, from the first day of the year `epoch` on. -/
def Date.number (epoch : Int) (date : Date) : Int :=
  daysBetween epoch date.year + daysBeforeMonth date.year date.month + (date.day - 1)

/-! ## Counting -/

theorem daysInMonth_february (y : Int) : (daysInMonth y 2 : Int) = 28 + leapDays y := by
  rw [daysInMonth, leapDays]
  split <;> rfl

theorem daysBeforeMonth_succ (y : Int) {m : Nat} (positive : 1 ≤ m) :
    daysBeforeMonth y (m + 1) = daysBeforeMonth y m + daysInMonth y m :=
  Finset.sum_Ico_succ_top positive _

theorem daysBetween_self (a : Int) : daysBetween a a = 0 := by simp [daysBetween]

theorem daysBetween_succ (a b : Int) : daysBetween a (b + 1) = daysBetween a b + yearLength b := by
  rw [daysBetween, daysBetween]
  obtain before | after := lt_or_ge b a
  · have years : (a - b).toNat = (a - (b + 1)).toNat + 1 := by omega
    have none : (b - a).toNat = 0 ∧ (b + 1 - a).toNat = 0 := by omega
    have shift : ∀ i : Nat, b + ((i + 1 : Nat) : Int) = b + 1 + i := by
      intro i
      push_cast
      ring
    rw [years, none.1, none.2, Finset.sum_range_succ']
    simp only [shift]
    simp
  · have years : (b + 1 - a).toNat = (b - a).toNat + 1 := by omega
    have none : (a - b).toNat = 0 ∧ (a - (b + 1)).toNat = 0 := by omega
    have last : a + ((b - a).toNat : Int) = b := by omega
    rw [years, none.1, none.2, Finset.sum_range_succ, last]
    simp

/-- What grows by the length of a year from each year to the next counts the days between them. -/
theorem daysBetween_of_step {f : Int → Int} (step : ∀ y, f (y + 1) = f y + yearLength y)
    (a b : Int) : daysBetween a b = f b - f a := by
  refine Int.inductionOn' b a ?_ ?_ ?_
  · rw [daysBetween_self, sub_self]
  · intro b _ ih
    rw [daysBetween_succ, ih, step]
    ring
  · intro b _ ih
    have last := daysBetween_succ a (b - 1)
    have grown := step (b - 1)
    rw [sub_add_cancel] at last grown
    omega

/-! ## Years from March on -/

/-- The days from March 1 to the first of the month `mp` months later. -/
def daysFromMarch (mp : Int) : Int := (153 * mp + 2) / 5

theorem daysInMonth_march (y : Int) {m : Nat} (march : 3 ≤ m) (december : m ≤ 12) :
    (daysInMonth y m : Int) = daysFromMarch (m - 2) - daysFromMarch (m - 3) := by
  interval_cases m <;> rfl

theorem daysBeforeMonth_march (y : Int) {m : Nat} (march : 3 ≤ m) (yearEnd : m ≤ 13) :
    daysBeforeMonth y m = 59 + leapDays y + daysFromMarch (m - 3) := by
  induction m, march using Nat.le_induction with
  | base =>
    have january : daysInMonth y 1 = 31 := rfl
    have february := daysInMonth_february y
    simp only [daysBeforeMonth, Finset.sum_Ico_succ_top, Nat.reduceLeDiff, Finset.Ico_self,
      Finset.sum_empty, january, february]
    rw [show daysFromMarch ((3 : Nat) - 3) = 0 from rfl]
    omega
  | succ m march ih =>
    have grown := ih (by omega)
    have length := daysInMonth_march y march (by omega)
    have next : ((m + 1 : Nat) : Int) - 3 = m - 2 := by omega
    rw [daysBeforeMonth_succ y (by omega), grown, length, next]
    ring

theorem yearLength_eq (y : Int) : yearLength y = 365 + leapDays y := by
  rw [yearLength, daysBeforeMonth_march y (by decide) (by decide)]
  rw [show daysFromMarch ((13 : Nat) - 3) = 306 from rfl]
  ring

/-- The leap days of the years from 1 to `y`. -/
def leapCount (y : Int) : Int := y / 4 - y / 100 + y / 400

theorem leapCount_succ (y : Int) : leapCount (y + 1) = leapCount y + leapDays (y + 1) := by
  rw [leapDays, leapCount, leapCount]
  by_cases leap : IsLeap (y + 1)
  · rw [if_pos leap]
    unfold IsLeap at leap
    omega
  · rw [if_neg leap]
    unfold IsLeap at leap
    omega

theorem leapCount_era (era r : Int) : leapCount (400 * era + r) = 97 * era + leapCount r := by
  rw [leapCount, leapCount]
  omega

/-- The number of March 1. -/
def marchFirst (epoch y : Int) : Int := daysBetween epoch y + daysBeforeMonth y 3

theorem marchFirst_eq (epoch y : Int) :
    marchFirst epoch y = 365 * (y - epoch) + leapCount y - leapCount (epoch - 1) + 59 := by
  have counted := @daysBetween_of_step (fun y => 365 * y + leapCount (y - 1)) (fun y => by
    have next := leapCount_succ (y - 1)
    rw [sub_add_cancel] at next
    rw [yearLength_eq, add_sub_cancel_right, next]
    ring) epoch y
  have next := leapCount_succ (y - 1)
  rw [sub_add_cancel] at next
  rw [marchFirst, counted, daysBeforeMonth_march y (by decide) (by decide)]
  rw [show daysFromMarch ((3 : Nat) - 3) = 0 from rfl, next]
  ring

theorem daysBetween_succ_march (epoch y : Int) :
    daysBetween epoch (y + 1) = marchFirst epoch y + 306 := by
  rw [daysBetween_succ, yearLength_eq, marchFirst, daysBeforeMonth_march y (by decide) (by decide)]
  rw [show daysFromMarch ((3 : Nat) - 3) = 0 from rfl]
  ring

/-- The date of a day counted from March 1. -/
theorem exists_march (epoch y : Int) {mp day : Int} (month : 0 ≤ mp ∧ mp ≤ 11) (positive : 0 ≤ day)
    (inMonth : daysFromMarch mp + day < daysFromMarch (mp + 1))
    (inYear : daysFromMarch mp + day < yearLength (y + 1)) :
    ∃ date : Date, date.year = (if mp < 10 then y else y + 1) ∧
      (date.month : Int) = (if mp < 10 then mp + 3 else mp - 9) ∧ (date.day : Int) = day + 1 ∧
      date.number epoch = marchFirst epoch y + daysFromMarch mp + day := by
  have dayOf : ((day + 1).toNat : Int) = day + 1 := by omega
  by_cases before : mp < 10
  · have monthOf : ((mp + 3).toNat : Int) = mp + 3 := by omega
    have length := @daysInMonth_march y (mp + 3).toNat (by omega) (by omega)
    have first := @daysBeforeMonth_march y (mp + 3).toNat (by omega) (by omega)
    have march := @daysBeforeMonth_march y 3 (by decide) (by decide)
    rw [monthOf, show mp + 3 - 2 = mp + 1 by ring, show mp + 3 - 3 = mp by ring] at length
    rw [monthOf, show mp + 3 - 3 = mp by ring] at first
    refine ⟨⟨y, (mp + 3).toNat, (day + 1).toNat, by omega, by omega⟩, ?_, ?_, dayOf, ?_⟩
    · rw [if_pos before]
    · rw [if_pos before, monthOf]
    · rw [Date.number, marchFirst, first, march, dayOf]
      rw [show daysFromMarch ((3 : Nat) - 3) = 0 from rfl]
      ring
  · have start := daysBetween_succ_march epoch y
    have january : daysInMonth (y + 1) 1 = 31 := rfl
    have february := daysInMonth_february (y + 1)
    have beforeFebruary : daysBeforeMonth (y + 1) 2 = 31 := daysBeforeMonth_succ _ le_rfl
    rw [yearLength_eq] at inYear
    obtain rfl | rfl : mp = 10 ∨ mp = 11 := by omega
    · rw [show daysFromMarch 10 = 306 from rfl] at *
      rw [show daysFromMarch (10 + 1) = 337 from rfl] at inMonth
      refine ⟨⟨y + 1, 1, (day + 1).toNat, by omega, by omega⟩, rfl, rfl, dayOf, ?_⟩
      rw [Date.number, start, dayOf, show daysBeforeMonth (y + 1) 1 = 0 from rfl]
      ring
    · rw [show daysFromMarch 11 = 337 from rfl] at *
      refine ⟨⟨y + 1, 2, (day + 1).toNat, by omega, by omega⟩, rfl, rfl, dayOf, ?_⟩
      rw [Date.number, start, dayOf, beforeFebruary]
      ring

/-! ## The calendar's period -/

/-- A day of the 400 years from a March 1 on: its century, and there its four years, the year of
these, and its day in the year. Only the last of four years has a leap day, and only the last
century one at its end. -/
structure EraDay (doe century quad year day : Int) : Prop where
  sum : doe = 36524 * century + 1461 * quad + 365 * year + day
  inEra : 0 ≤ century ∧ century ≤ 3
  inCentury : 0 ≤ quad ∧ quad ≤ 24
  inQuad : 0 ≤ year ∧ year ≤ 3
  inYear : 0 ≤ day ∧ (day ≤ 364 ∨ day = 365 ∧ year = 3)
  short : 1461 * quad + 365 * year + day ≤ 36523 ∨ century = 3

theorem exists_eraDay {doe : Int} (positive : 0 ≤ doe) (below : doe < 146097) :
    ∃ century quad year day, EraDay doe century quad year day := by
  have century : ∃ c r, doe = 36524 * c + r ∧ (0 ≤ c ∧ c ≤ 3) ∧ 0 ≤ r ∧
      (r ≤ 36523 ∨ c = 3 ∧ r = 36524) :=
    ⟨min (doe / 36524) 3, doe - 36524 * min (doe / 36524) 3, by omega⟩
  obtain ⟨c, r, rfl, inEra, nonneg, short⟩ := century
  have year : ∃ j s, r % 1461 = 365 * j + s ∧ (0 ≤ j ∧ j ≤ 3) ∧ 0 ≤ s ∧
      (s ≤ 364 ∨ s = 365 ∧ j = 3) :=
    ⟨min (r % 1461 / 365) 3, r % 1461 - 365 * min (r % 1461 / 365) 3, by omega⟩
  obtain ⟨j, s, split, inQuad, inYear⟩ := year
  exact ⟨c, r / 1461, j, s, by omega, inEra, by omega, inQuad, inYear, by omega⟩

variable {doe century quad year day : Int}

theorem EraDay.count (h : EraDay doe century quad year day) :
    doe = 365 * (100 * century + 4 * quad + year) +
      leapCount (100 * century + 4 * quad + year) + day := by
  obtain ⟨sum, inEra, inCentury, inQuad, inYear, short⟩ := h
  have fours : (100 * century + 4 * quad + year) / 4 = 25 * century + quad := by omega
  have hundreds : (100 * century + 4 * quad + year) / 100 = century := by omega
  have eras : (100 * century + 4 * quad + year) / 400 = 0 := by omega
  rw [leapCount, fours, hundreds, eras]
  omega

/-- A day 366 is one of a year that ends with a leap day. -/
theorem EraDay.inLength (h : EraDay doe century quad year day) (era : Int) :
    day < yearLength (400 * era + (100 * century + 4 * quad + year) + 1) := by
  obtain ⟨sum, inEra, inCentury, inQuad, inYear, short⟩ := h
  rw [yearLength_eq, leapDays]
  split
  · omega
  · rename_i common
    unfold IsLeap at common
    omega

end RWave.Misc.Calendar
