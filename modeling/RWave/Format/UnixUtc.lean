import RWave.Str
import RWave.Misc.Calendar

/-!
# A creation time as text

`fmt_unix_utc` and `civil_from_days` of `format.rs`, with each step an `i64` operation that has no
result when it overflows. No step does, whatever the time, and the fields printed are those of the
date and the time of day the seconds lie in.
-/

/-! ## `i64` operations -/

namespace RWave.I64

/-- The result of an `i64` operation. -/
def ofInt (v : Int) : Option Int := if -2 ^ 63 ≤ v ∧ v < 2 ^ 63 then some v else none

def add (a b : Int) : Option Int := ofInt (a + b)
def sub (a b : Int) : Option Int := ofInt (a - b)
def mul (a b : Int) : Option Int := ofInt (a * b)

/-- `as u32`. -/
def asU32 (v : Int) : Nat := (v % 2 ^ 32).toNat

theorem fits {v : Int} (least : -2 ^ 63 ≤ v) (most : v < 2 ^ 63) : ofInt v = some v :=
  if_pos ⟨least, most⟩

theorem asU32_fits {v : Int} (nonneg : 0 ≤ v) (most : v < 2 ^ 32) : (asU32 v : Int) = v := by
  rw [asU32]
  omega

end RWave.I64

namespace RWave.Format

open I64 Misc.Calendar

/-! ## The conversion -/

/-- `civil_from_days`. A division by a positive constant cannot overflow; the source's `div_euclid`
and `rem_euclid` are `/` and `%` here, its `/` and `%` are `tdiv` and `tmod`. -/
def civilFromDays (days : Int) : Option (Int × Nat × Nat) := do
  let z ← add days 719468
  let era := z / 146097
  let doe := z % 146097
  let yoe := (← sub (← add (← sub doe (doe.tdiv 1460)) (doe.tdiv 36524)) (doe.tdiv 146096)).tdiv 365
  let y ← add yoe (← mul era 400)
  let doy ← sub doe (← sub (← add (← mul 365 yoe) (yoe.tdiv 4)) (yoe.tdiv 100))
  let mp := (← add (← mul 5 doy) 2).tdiv 153
  let d := asU32 (← add (← sub doy ((← add (← mul 153 mp) 2).tdiv 5)) 1)
  let month := if mp < 10 then add mp 3 else sub mp 9
  let m := asU32 (← month)
  let year := if m ≤ 2 then add y 1 else some y
  return (← year, m, d)

/-- What `fmt_unix_utc` prints. -/
structure UtcFields where
  y : Int
  m : Nat
  d : Nat
  h : Int
  mi : Int
  s : Int
  deriving DecidableEq, Repr

/-- The fields of `fmt_unix_utc`. -/
def utcFields (secs : Int) : Option UtcFields := do
  let days := secs / 86400
  let rem := secs % 86400
  let (h, mi, s) := (rem.tdiv 3600, (rem.tmod 3600).tdiv 60, rem.tmod 60)
  let (y, m, d) ← civilFromDays days
  return ⟨y, m, d, h, mi, s⟩

/-- `{v:0width}`: zeros stand between the sign and the digits. -/
def zeroPadded (width : Nat) (v : Int) : String :=
  let sign := if v < 0 then "-" else ""
  let digits := toString v.natAbs
  sign ++ Str.replicate (width - (sign.length + digits.length)) '0' ++ digits

/-- The format string of `fmt_unix_utc`. -/
def UtcFields.text (f : UtcFields) : String :=
  zeroPadded 4 f.y ++ "-" ++ zeroPadded 2 f.m ++ "-" ++ zeroPadded 2 f.d ++ " " ++
    zeroPadded 2 f.h ++ ":" ++ zeroPadded 2 f.mi ++ ":" ++ zeroPadded 2 f.s ++ " UTC"

/-- `fmt_unix_utc`. -/
def fmtUnixUtc (secs : Int) : Option String := (utcFields secs).map UtcFields.text

/-! ## The date -/

variable {doe century quad year day : Int}

/-- The quotient of `civil_from_days` is the year of the era. Late in a four-year cycle `doe / 1460`
is one too many, which the division by 365 absorbs; `doe / 146096` undoes the extra century of the
last day. -/
theorem yearOfEra (h : EraDay doe century quad year day) :
    (doe - doe / 1460 + doe / 36524 - doe / 146096) / 365 = 100 * century + 4 * quad + year := by
  obtain ⟨sum, inEra, inCentury, inQuad, inYear, short⟩ := h
  have late : ∃ e : Int, (e = 0 ∧ doe < 146096 ∨ e = 1 ∧ doe = 146096) ∧
      doe / 36524 = century + e ∧ doe / 146096 = e := by
    by_cases last : doe = 146096
    · exact ⟨1, by omega⟩
    · exact ⟨0, by omega⟩
  have quads : ∃ e : Int, (e = 0 ∧ 24 * century + quad + 365 * year + day < 1460 ∨
      e = 1 ∧ 1460 ≤ 24 * century + quad + 365 * year + day) ∧
      doe / 1460 = 25 * century + quad + e := by
    by_cases early : 24 * century + quad + 365 * year + day < 1460
    · exact ⟨0, by omega⟩
    · exact ⟨1, by omega⟩
  obtain ⟨e, eLate, byCentury, byEra⟩ := late
  obtain ⟨f, fLate, byQuad⟩ := quads
  rw [byCentury, byEra, byQuad]
  omega

theorem dayOfYear (h : EraDay doe century quad year day) :
    doe - (365 * (100 * century + 4 * quad + year) + (100 * century + 4 * quad + year) / 4 -
      (100 * century + 4 * quad + year) / 100) = day := by
  obtain ⟨sum, inEra, inCentury, inQuad, inYear, short⟩ := h
  omega

theorem yearOfEra_range (h : EraDay doe century quad year day) :
    0 ≤ 100 * century + 4 * quad + year ∧ 100 * century + 4 * quad + year ≤ 399 := by
  obtain ⟨sum, inEra, inCentury, inQuad, inYear, short⟩ := h
  omega

theorem dayOfYear_range (h : EraDay doe century quad year day) : 0 ≤ day ∧ day ≤ 365 := by
  obtain ⟨sum, inEra, inCentury, inQuad, inYear, short⟩ := h
  omega

/-- The steps up to the year of the era fit. -/
theorem yearSteps (nonneg : 0 ≤ doe) (below : doe < 146097) :
    sub doe (doe.tdiv 1460) = some (doe - doe / 1460) ∧
      add (doe - doe / 1460) (doe.tdiv 36524) = some (doe - doe / 1460 + doe / 36524) ∧
      sub (doe - doe / 1460 + doe / 36524) (doe.tdiv 146096) =
        some (doe - doe / 1460 + doe / 36524 - doe / 146096) ∧
      (doe - doe / 1460 + doe / 36524 - doe / 146096).tdiv 365 =
        (doe - doe / 1460 + doe / 36524 - doe / 146096) / 365 := by
  simp only [Int.tdiv_eq_ediv_of_nonneg nonneg]
  exact ⟨fits (by omega) (by omega), fits (by omega) (by omega),
    fits (by omega) (by omega), Int.tdiv_eq_ediv_of_nonneg (by omega)⟩

/-- The steps from there to the day of the year fit. -/
theorem daySteps {yoe : Int} (inEra : 0 ≤ yoe ∧ yoe ≤ 399) (nonneg : 0 ≤ doe)
    (below : doe < 146097) :
    mul 365 yoe = some (365 * yoe) ∧
      add (365 * yoe) (yoe.tdiv 4) = some (365 * yoe + yoe / 4) ∧
      sub (365 * yoe + yoe / 4) (yoe.tdiv 100) = some (365 * yoe + yoe / 4 - yoe / 100) ∧
      sub doe (365 * yoe + yoe / 4 - yoe / 100) =
        some (doe - (365 * yoe + yoe / 4 - yoe / 100)) := by
  simp only [Int.tdiv_eq_ediv_of_nonneg inEra.1]
  exact ⟨fits (by omega) (by omega), fits (by omega) (by omega),
    fits (by omega) (by omega), fits (by omega) (by omega)⟩

/-- The steps to the month and the day of the month fit. -/
theorem monthSteps {mp : Int} (within : 0 ≤ day ∧ day ≤ 365) (month : mp = (5 * day + 2) / 153) :
    mul 5 day = some (5 * day) ∧ add (5 * day) 2 = some (5 * day + 2) ∧
      (5 * day + 2).tdiv 153 = mp ∧ mul 153 mp = some (153 * mp) ∧
      add (153 * mp) 2 = some (153 * mp + 2) ∧ (153 * mp + 2).tdiv 5 = (153 * mp + 2) / 5 ∧
      sub day ((153 * mp + 2) / 5) = some (day - (153 * mp + 2) / 5) ∧
      add (day - (153 * mp + 2) / 5) 1 = some (day - (153 * mp + 2) / 5 + 1) ∧
      (if mp < 10 then add mp 3 else sub mp 9) = some (if mp < 10 then mp + 3 else mp - 9) := by
  have range : 0 ≤ mp ∧ mp ≤ 11 := by omega
  refine ⟨fits (by omega) (by omega), fits (by omega) (by omega), ?_,
    fits (by omega) (by omega), fits (by omega) (by omega), Int.tdiv_eq_ediv_of_nonneg (by omega),
    fits (by omega) (by omega), fits (by omega) (by omega), ?_⟩
  · rw [Int.tdiv_eq_ediv_of_nonneg (by omega), month]
  · split
    · exact fits (by omega) (by omega)
    · exact fits (by omega) (by omega)

/-- No step of `civil_from_days` overflows: what it returns, in terms of the year of the era and the
day of the year. -/
theorem civilFromDays_eq {days era yoe mp : Int} (least : -2 ^ 62 ≤ days) (most : days < 2 ^ 62)
    (position : days + 719468 = 146097 * era + doe) (nonneg : 0 ≤ doe) (below : doe < 146097)
    (inEra : 0 ≤ yoe ∧ yoe ≤ 399) (within : 0 ≤ day ∧ day ≤ 365)
    (yoeOf : (doe - doe / 1460 + doe / 36524 - doe / 146096) / 365 = yoe)
    (doyOf : doe - (365 * yoe + yoe / 4 - yoe / 100) = day) (month : mp = (5 * day + 2) / 153) :
    civilFromDays days = some (if mp < 10 then yoe + era * 400 else yoe + era * 400 + 1,
      asU32 (if mp < 10 then mp + 3 else mp - 9), asU32 (day - (153 * mp + 2) / 5 + 1)) := by
  obtain ⟨fours, hundreds, eras, rounded⟩ := yearSteps nonneg below
  obtain ⟨years, leaps, centuries, rest⟩ := daySteps inEra nonneg below
  obtain ⟨fives, scaled, mpOf, days153, scaledBack, firstOf, past, dOf, mOf⟩ := monthSteps within month
  have eraOf : (days + 719468) / 146097 = era := by omega
  have doeOf : (days + 719468) % 146097 = doe := by omega
  have shifted : add days 719468 = some (days + 719468) := fits (by omega) (by omega)
  have start : mul era 400 = some (era * 400) := fits (by omega) (by omega)
  have inAll : add yoe (era * 400) = some (yoe + era * 400) := fits (by omega) (by omega)
  have next : add (yoe + era * 400) 1 = some (yoe + era * 400 + 1) :=
    fits (by omega) (by omega)
  rw [doyOf] at rest
  rw [yoeOf] at rounded
  simp only [civilFromDays, bind, Option.bind, shifted, eraOf, doeOf, fours, hundreds, eras,
    rounded, start, inAll, years, leaps, centuries, rest, fives, scaled, mpOf, days153, scaledBack,
    firstOf, past, dOf, mOf, next]
  by_cases before : mp < 10
  · have late : ¬ asU32 (mp + 3) ≤ 2 := by
      have fits := @asU32_fits (mp + 3) (by omega) (by omega)
      omega
    simp only [if_pos before, if_neg late]
    rfl
  · have early : asU32 (mp - 9) ≤ 2 := by
      have fits := @asU32_fits (mp - 9) (by omega) (by omega)
      omega
    simp only [if_neg before, if_pos early]
    rfl

theorem monthOf {mp : Int} (within : 0 ≤ day ∧ day ≤ 365) (month : mp = (5 * day + 2) / 153) :
    (0 ≤ mp ∧ mp ≤ 11) ∧ (0 ≤ daysFromMarch mp ∧ 0 ≤ day - daysFromMarch mp) ∧
      day < daysFromMarch (mp + 1) := by
  rw [daysFromMarch, daysFromMarch]
  omega

/-- `civil_from_days` returns the date of a day, counted from 1970-01-01. -/
theorem civilFromDays_date {days : Int} (least : -2 ^ 62 ≤ days) (most : days < 2 ^ 62) :
    ∃ date : Date, civilFromDays days = some (date.year, date.month, date.day) ∧
      date.number 1970 = days := by
  obtain ⟨era, doe, whole, nonneg, below⟩ :
      ∃ era doe, days + 719468 = 146097 * era + doe ∧ 0 ≤ doe ∧ doe < 146097 :=
    ⟨(days + 719468) / 146097, (days + 719468) % 146097, by omega⟩
  obtain ⟨century, quad, year, day, position⟩ := exists_eraDay nonneg below
  have inLength := position.inLength era
  have count := position.count
  have yoeOf := yearOfEra position
  have doyOf := dayOfYear position
  have inEra := yearOfEra_range position
  have within := dayOfYear_range position
  generalize 100 * century + 4 * quad + year = yoe at *
  obtain ⟨mp, month⟩ : ∃ mp, mp = (5 * day + 2) / 153 := ⟨_, rfl⟩
  have civil := civilFromDays_eq least most whole nonneg below inEra within yoeOf doyOf month
  obtain ⟨inYear, positive, inMonth⟩ := monthOf within month
  have march := marchFirst_eq 1970 (400 * era + yoe)
  rw [leapCount_era, show leapCount (1970 - 1) = 477 from rfl] at march
  obtain ⟨date, sameYear, sameMonth, sameDay, number⟩ := exists_march 1970 (400 * era + yoe) inYear
    positive.2 (by omega) (by omega)
  refine ⟨date, ?_, by omega⟩
  have monthFits := @asU32_fits (if mp < 10 then mp + 3 else mp - 9) (by omega) (by omega)
  have dayFits := @asU32_fits (day - daysFromMarch mp + 1) (by omega) (by omega)
  have yearSame : (if mp < 10 then yoe + era * 400 else yoe + era * 400 + 1) = date.year := by
    rw [sameYear]
    split <;> ring
  have monthSame : asU32 (if mp < 10 then mp + 3 else mp - 9) = date.month := by omega
  have daySame : asU32 (day - (153 * mp + 2) / 5 + 1) = date.day := by
    rw [daysFromMarch] at dayFits sameDay
    omega
  rw [civil, yearSame, monthSame, daySame]

/-! ## The fields -/

theorem utcFields_eq {secs : Int} {date : Date}
    (civil : civilFromDays (secs / 86400) = some (date.year, date.month, date.day)) :
    utcFields secs = some ⟨date.year, date.month, date.day, secs % 86400 / 3600,
      secs % 86400 % 3600 / 60, secs % 86400 % 60⟩ := by
  have nonneg : 0 ≤ secs % 86400 := by omega
  rw [utcFields, civil, Int.tdiv_eq_ediv_of_nonneg nonneg, Int.tmod_eq_emod_of_nonneg nonneg,
    Int.tmod_eq_emod_of_nonneg nonneg, Int.tdiv_eq_ediv_of_nonneg (by omega)]
  rfl

/-- For every `i64` number of seconds no step of `fmt_unix_utc` overflows, and the fields it prints
are a date and a time of day that lie that many seconds after the start of 1970. -/
theorem fmtUnixUtc_calendar (secs : Int) (least : -2 ^ 63 ≤ secs) (most : secs < 2 ^ 63) :
    ∃ (date : Date) (h mi s : Int),
      fmtUnixUtc secs = some (UtcFields.text ⟨date.year, date.month, date.day, h, mi, s⟩) ∧
      utcFields secs = some ⟨date.year, date.month, date.day, h, mi, s⟩ ∧
      (0 ≤ h ∧ h < 24) ∧ (0 ≤ mi ∧ mi < 60) ∧ (0 ≤ s ∧ s < 60) ∧
      date.number 1970 * 86400 + h * 3600 + mi * 60 + s = secs := by
  obtain ⟨date, civil, number⟩ := @civilFromDays_date (secs / 86400) (by omega) (by omega)
  have fields := utcFields_eq civil
  refine ⟨date, _, _, _, ?_, fields, by omega, by omega, by omega, by omega⟩
  rw [fmtUnixUtc, fields]
  rfl

theorem fmtUnixUtc_calendar_least :
    ∃ (date : Date) (h mi s : Int),
      fmtUnixUtc (-2 ^ 63) = some (UtcFields.text ⟨date.year, date.month, date.day, h, mi, s⟩) ∧
      utcFields (-2 ^ 63) = some ⟨date.year, date.month, date.day, h, mi, s⟩ ∧
      (0 ≤ h ∧ h < 24) ∧ (0 ≤ mi ∧ mi < 60) ∧ (0 ≤ s ∧ s < 60) ∧
      date.number 1970 * 86400 + h * 3600 + mi * 60 + s = -2 ^ 63 :=
  fmtUnixUtc_calendar (-2 ^ 63) (by decide) (by decide)

end RWave.Format
