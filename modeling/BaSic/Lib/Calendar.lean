import Mathlib

namespace BaSic.Lib.Calendar

def isLeap (y : Nat) : Bool := y % 4 == 0 && (y % 100 != 0 || y % 400 == 0)

def yearLength (y : Nat) : Nat := if isLeap y then 366 else 365

def monthLength (y : Nat) : Nat → Nat
  | 2 => if isLeap y then 29 else 28
  | 4 | 6 | 9 | 11 => 30
  | _ => 31

/-- A day of the Gregorian calendar, from the year 0 on. -/
structure Date where
  year : Nat
  month : Nat
  day : Nat
  month_pos : 1 ≤ month
  month_le : month ≤ 12
  day_pos : 1 ≤ day
  day_le : day ≤ monthLength year month
  deriving DecidableEq

theorem month_length_pos (y m : Nat) : 1 ≤ monthLength y m := by
  unfold monthLength
  repeat' split
  all_goals simp

def Date.next (d : Date) : Date :=
  if hd : d.day < monthLength d.year d.month then
    { d with day := d.day + 1, day_pos := Nat.le_add_left 1 d.day, day_le := hd }
  else if hm : d.month < 12 then
    ⟨d.year, d.month + 1, 1, Nat.le_add_left 1 d.month, hm, Nat.le_refl 1, month_length_pos _ _⟩
  else
    ⟨d.year + 1, 1, 1, Nat.le_refl 1, by decide, Nat.le_refl 1, month_length_pos _ _⟩

/-- The days of the years from 0 to before `y`. -/
def daysBefore (y : Nat) : Nat := ((List.range y).map yearLength).sum

/-- The days of the year's months before `m`. -/
def daysBeforeMonth (y m : Nat) : Nat := ((List.range (m - 1)).map (fun i => monthLength y (i + 1))).sum

/-- The days from the beginning of the year 0 up to the date. -/
def Date.number (d : Date) : Nat := daysBefore d.year + daysBeforeMonth d.year d.month + d.day

/-- The day of the week, with 0 for Sunday; 1 January 2000 was a Saturday. -/
def Date.weekday (d : Date) : Nat := (d.number + 5) % 7

/-- A date and a time of that day. -/
structure Moment where
  date : Date
  hour : Nat
  minute : Nat
  second : Nat
  hour_lt : hour < 24
  minute_lt : minute < 60
  second_lt : second < 60
  deriving DecidableEq

def Moment.addHours (t : Moment) (h : Nat) : Moment :=
  { t with
    date := Date.next^[(t.hour + h) / 24] t.date
    hour := (t.hour + h) % 24
    hour_lt := Nat.mod_lt _ (by decide) }

theorem days_before_succ (y : Nat) : daysBefore (y + 1) = daysBefore y + yearLength y := by
  simp [daysBefore, List.range_succ]

theorem days_before_month_succ (y : Nat) {m : Nat} (h : 1 ≤ m) :
    daysBeforeMonth y (m + 1) = daysBeforeMonth y m + monthLength y m := by
  obtain ⟨i, rfl⟩ := Nat.exists_eq_add_of_le' h
  simp [daysBeforeMonth, List.range_succ]

theorem is_leap_iff {y : Nat} : isLeap y = true ↔ y % 4 = 0 ∧ (y % 100 ≠ 0 ∨ y % 400 = 0) := by
  simp [isLeap]

/-- A multiple of `n` is counted when it is reached. -/
theorem div_succ (y n : Nat) : (y + 1) / n = y / n + if (y + 1) % n = 0 then 1 else 0 := by
  rw [Nat.succ_div]
  simp only [Nat.dvd_iff_mod_eq_zero]

/-- The days of the years up to `y`, with their leap days counted. -/
theorem days_before_eq (y : Nat) : daysBefore (y + 1) + y / 100 = 365 * (y + 1) + y / 4 + y / 400 + 1 := by
  induction y with
  | zero => rfl
  | succ y ih =>
    have hcentury : (y + 1) % 100 = 0 → (y + 1) % 4 = 0 := by omega
    have hfourth : (y + 1) % 400 = 0 → (y + 1) % 100 = 0 := by omega
    rw [days_before_succ, div_succ y 4, div_succ y 100, div_succ y 400]
    unfold yearLength
    by_cases hleap : isLeap (y + 1) = true
    · have hrule := is_leap_iff.mp hleap
      simp only [hleap, hrule.1, if_true]
      split_ifs at * <;> omega
    · have hrule := mt is_leap_iff.mpr hleap
      simp only [hleap]
      split_ifs at * <;> omega

theorem days_before_months (y : Nat) : daysBeforeMonth y 12 + 31 = yearLength y := by
  cases h : isLeap y <;> simp [daysBeforeMonth, List.range_succ, monthLength, yearLength, h]

theorem number_next (d : Date) : d.next.number = d.number + 1 := by
  unfold Date.next
  split
  · simp only [Date.number]
    omega
  · have hlast := d.day_le
    split
    · simp only [Date.number, days_before_month_succ d.year d.month_pos]
      omega
    · rename_i hday hmonth
      have hmonths := days_before_months d.year
      obtain hdecember : d.month = 12 := by
        have hle := d.month_le
        omega
      rw [hdecember] at hday hlast
      have hlength : monthLength d.year 12 = 31 := rfl
      have hjanuary : daysBeforeMonth (d.year + 1) 1 = 0 := rfl
      simp only [Date.number, days_before_succ, hjanuary, hdecember]
      omega

/-- The next day is the next day of the week. -/
theorem weekday_next (d : Date) : d.next.weekday = (d.weekday + 1) % 7 := by
  simp only [Date.weekday, number_next]
  omega

theorem weekday_lt (d : Date) : d.weekday < 7 := Nat.mod_lt _ (by decide)

/-- From March on the lengths of the months follow a rule that leap years do not change. -/
theorem days_before_month_eq (y : Nat) {m : Nat} (hpos : 3 ≤ m) (hle : m ≤ 12) :
    daysBeforeMonth y m + 365 + 7 = 28 * (m - 1) + 13 * (m + 1) / 5 + yearLength y := by
  interval_cases m <;> cases h : isLeap y <;>
    simp [daysBeforeMonth, List.range_succ, monthLength, yearLength, h]

/-- Up to whole weeks a year counts for one day, and with the leap days a century for five. -/
theorem days_before_mod (y : Nat) :
    daysBefore (y + 1) % 7 = (2 + y % 100 + y % 100 / 4 + y / 100 / 4 + 5 * (y / 100)) % 7 := by
  have hyears := days_before_eq y
  have hquarter : y / 4 = 25 * (y / 100) + y % 100 / 4 := by omega
  have hcentury : y / 400 = y / 100 / 4 := by omega
  have hsplit : y = 100 * (y / 100) + y % 100 := by omega
  generalize y / 100 = j at *
  generalize y % 100 = k at *
  subst hsplit
  omega

/-- Zeller's congruence: January and February count as the months 13 and 14 of the year before. -/
theorem zeller (d : Date) (h : 1 ≤ d.year) {m y : Nat}
    (hm : m = if d.month < 3 then d.month + 12 else d.month) (hy : y = if d.month < 3 then d.year - 1 else d.year) :
    (d.day + 13 * (m + 1) / 5 + y % 100 + y % 100 / 4 + y / 100 / 4 + 5 * (y / 100)) % 7 = (d.weekday + 1) % 7 := by
  have hpos := d.month_pos
  have hle := d.month_le
  have hyears := days_before_mod y
  simp only [Date.weekday, Date.number]
  by_cases hearly : d.month < 3
  · rw [if_pos hearly] at hm hy
    rw [hy, Nat.sub_add_cancel h] at hyears
    have hmonths : (daysBeforeMonth d.year d.month + 1) % 7 = 13 * (m + 1) / 5 % 7 := by
      rcases (by omega : d.month = 1 ∨ d.month = 2) with hone | htwo
      · simp [hm, hone, daysBeforeMonth]
      · simp [hm, htwo, daysBeforeMonth, monthLength]
    rw [← hy] at hyears
    omega
  · rw [if_neg hearly] at hm hy
    have hmonths := days_before_month_eq d.year (by omega) hle
    rw [days_before_succ, hy] at hyears
    rw [hm, hy]
    omega

end BaSic.Lib.Calendar
