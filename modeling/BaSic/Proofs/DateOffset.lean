import BaSic.Kernel.Rtc
import BaSic.Lib.Calendar

namespace BaSic.Proofs.DateOffset
open Kernel Fs Lib.Calendar

/-- The two decimal digits of a register in BCD mode. -/
def toBcd (n : Nat) : UInt8 := UInt8.ofNat (n / 10 * 16 + n % 10)

/-- The moment as `rtc_read` stores it. -/
def stored (t : Moment) : RtcTime where
  second := UInt8.ofNat t.second
  minute := UInt8.ofNat t.minute
  hour := UInt8.ofNat t.hour
  day := UInt8.ofNat t.date.day
  month := UInt8.ofNat t.date.month
  year := UInt8.ofNat (t.date.year - 2000)

/-- The moment in the registers of a clock in 24-hour mode, in BCD or binary as status B
says. -/
def registers (statusB : UInt8) (t : Moment) : RtcTime :=
  if statusB &&& 0x04 = 0 then
    { second := toBcd t.second, minute := toBcd t.minute, hour := toBcd t.hour,
      day := toBcd t.date.day, month := toBcd t.date.month, year := toBcd (t.date.year - 2000) }
  else stored t

/-- The registers that `rtc_read` gets to see are those of the moment. -/
def Reads (cmos : Cmos) (t : Moment) : Prop :=
  ∃ fuel now, rtcRegisters cmos fuel 0 = .ok (registers (cmos now 0x0B) t, now)

def fourDigits (n : Nat) : List UInt8 :=
  [digitChar (n / 1000 % 10), digitChar (n / 100 % 10), digitChar (n / 10 % 10), digitChar (n % 10)]

/-- A moment of the local calendar as `date` writes it. -/
def dateLine (t : Moment) : List UInt8 :=
  days.getD t.date.weekday [] ++ bytes " " ++ months.getD (t.date.month - 1) [] ++ bytes " " ++
    twoDigits t.date.day ++ bytes " " ++ twoDigits t.hour ++ bytes ":" ++ twoDigits t.minute ++ bytes ":" ++
    twoDigits t.second ++ bytes " BDT " ++ fourDigits t.date.year

/-- What `date` prints is the local moment, six hours after the clock's. -/
def DateRight (cmos : Cmos) (t : Moment) : Prop := ∃ fuel, cmdDate cmos fuel 0 = .ok (dateLine (t.addHours 6))

/-- The moment whose hour alone was moved on. -/
def hourMoved (t : Moment) : Moment :=
  { t with hour := (t.hour + 6) % 24, hour_lt := Nat.mod_lt _ (by decide) }

variable {cmos : Cmos} {t : Moment} {fuel fuel' now now' n : Nat}

theorem bcd_to_bin (h : n < 100) : bcd2bin (toBcd n) = UInt8.ofNat n := by
  have hpacked : (toBcd n).toNat = n / 10 * 16 + n % 10 := UInt8.toNat_ofNat_of_lt' (by
    have hsize : UInt8.size = 256 := rfl
    omega)
  have hlow : n / 10 * 16 + n % 10 &&& 15 = (n / 10 * 16 + n % 10) % 16 := Nat.and_two_pow_sub_one_eq_mod _ 4
  apply UInt8.toNat_inj.mp
  simp only [bcd2bin, UInt8.toNat_add, UInt8.toNat_mul, UInt8.toNat_shiftRight, UInt8.toNat_and, hpacked,
    UInt8.reduceToNat, Nat.reduceMod, Nat.shiftRight_eq_div_pow, hlow, UInt8.toNat_ofNat']
  omega

theorem month_length_le (y m : Nat) : monthLength y m ≤ 31 := by
  unfold monthLength
  repeat' split
  all_goals simp

/-- In both modes the registers give the moment. -/
theorem convert_registers (statusB : UInt8) (hyear : t.date.year ≤ 2099) :
    convertBcd statusB (registers statusB t) = stored t := by
  have hsecond := t.second_lt
  have hminute := t.minute_lt
  have hhour := t.hour_lt
  have hday := t.date.day_le.trans (month_length_le _ _)
  have hmonth := t.date.month_le
  unfold convertBcd registers
  split
  · simp only [stored, RtcTime.mk.injEq]
    refine ⟨bcd_to_bin ?_, bcd_to_bin ?_, bcd_to_bin ?_, bcd_to_bin ?_, bcd_to_bin ?_, bcd_to_bin ?_⟩ <;> omega
  · rfl

theorem wait_update_mono (h : waitUpdate cmos fuel now = .ok now') (hle : fuel ≤ fuel') :
    waitUpdate cmos fuel' now = .ok now' := by
  induction fuel generalizing now fuel' with
  | zero => cases h
  | succ fuel ih =>
    obtain ⟨fuel', rfl⟩ : ∃ m, fuel' = m + 1 := ⟨fuel' - 1, by omega⟩
    simp only [waitUpdate] at h ⊢
    split at h
    · rw [if_pos ‹_›]
      exact ih h (by omega)
    · rw [if_neg ‹_›]
      exact h

theorem rtc_registers_mono {r : RtcTime} (h : rtcRegisters cmos fuel now = .ok (r, now')) (hle : fuel ≤ fuel') :
    rtcRegisters cmos fuel' now = .ok (r, now') := by
  obtain ⟨first, hfirst, h⟩ := bind_ok h
  obtain ⟨second, hsecond, h⟩ := bind_ok h
  simp only [rtcRegisters, wait_update_mono hfirst hle, ok_bind]
  have hsecond' : waitUpdate cmos fuel' (readAll cmos first).2 = .ok second := wait_update_mono hsecond hle
  simp only [hsecond', ok_bind]
  exact h

theorem cmd_date_mono {line : List UInt8} (h : cmdDate cmos fuel now = .ok line) (hle : fuel ≤ fuel') :
    cmdDate cmos fuel' now = .ok line := by
  obtain ⟨⟨t, now₁⟩, hread, htext⟩ := bind_ok h
  obtain ⟨⟨r, now₂⟩, hregisters, hconvert⟩ := bind_ok hread
  simp only [cmdDate, rtcRead, rtc_registers_mono hregisters hle, ok_bind]
  obtain ⟨rfl, -⟩ := Prod.mk.inj (Except.ok.inj hconvert)
  exact htext

theorem to_nat_of_lt (h : n < 100) : (UInt8.ofNat n).toNat = n :=
  UInt8.toNat_ofNat_of_lt' (Nat.lt_trans h (by decide))

/-- `dow % 7`, made positive -/
theorem tmod_lifted (a : Int) : (if a.tmod 7 < 0 then a.tmod 7 + 7 else a.tmod 7) = a % 7 := by
  rw [Int.tmod_eq_emod]
  split <;> split <;> omega

/-- The signed computation is that of the congruence, with Sunday for zero. -/
theorem dow_eq (day m y : Nat) :
    (((day : Int) + (13 * ((m : Int) + 1)).tdiv 5 + (y : Int).tmod 100 + ((y : Int).tmod 100).tdiv 4 +
      ((y : Int).tdiv 100).tdiv 4 - 2 * (y : Int).tdiv 100) % 7 + 6).tmod 7 =
    (((day + 13 * (m + 1) / 5 + y % 100 + y % 100 / 4 + y / 100 / 4 + 5 * (y / 100)) % 7 + 6) % 7 : Nat) := by
  have hk : (y : Int).tmod 100 = (y % 100 : Nat) := rfl
  have hj : (y : Int).tdiv 100 = (y / 100 : Nat) := rfl
  have hm : (13 * ((m : Int) + 1)).tdiv 5 = (13 * (m + 1) / 5 : Nat) := rfl
  have hk4 : ((y % 100 : Nat) : Int).tdiv 4 = (y % 100 / 4 : Nat) := rfl
  have hj4 : ((y / 100 : Nat) : Int).tdiv 4 = (y / 100 / 4 : Nat) := rfl
  rw [hk, hj, hm, hk4, hj4, Int.tmod_eq_emod_of_nonneg (by omega)]
  omega

/-- Zeller's congruence gives the day of the week. -/
theorem day_of_week_eq (hfrom : 2000 ≤ t.date.year) (hto : t.date.year ≤ 2099) :
    dayOfWeek (stored t) = t.date.weekday := by
  have hday := t.date.day_le.trans (month_length_le _ _)
  have hmonth := t.date.month_le
  have hlt := weekday_lt t.date
  have hzeller := zeller t.date (by omega) rfl rfl
  have hd : (stored t).day.toNat = t.date.day := to_nat_of_lt (by omega)
  have hm : (stored t).month.toNat = t.date.month := to_nat_of_lt (by omega)
  have hy : (2000 : Int) + (stored t).year.toNat = t.date.year := by
    have hyear : (stored t).year.toNat = t.date.year - 2000 := to_nat_of_lt (by omega)
    omega
  simp only [dayOfWeek, tmod_lifted, hd, hm, hy]
  by_cases hearly : t.date.month < 3
  · have hprev : (t.date.year : Int) - 1 = (t.date.year - 1 : Nat) := by omega
    have hshift : (t.date.month : Int) + 12 = (t.date.month + 12 : Nat) := rfl
    simp only [hearly, if_true] at hzeller
    rw [if_pos (by omega)]
    dsimp only
    rw [hprev, hshift, dow_eq, hzeller]
    omega
  · simp only [hearly, if_false] at hzeller
    rw [if_neg (by omega)]
    dsimp only
    rw [dow_eq, hzeller]
    omega

theorem day_name_eq (h : n < 7) : dayName (n : Int) = .ok (days.getD n []) := by
  interval_cases n <;> rfl

theorem month_name_eq (hpos : 1 ≤ n) (hle : n ≤ 12) : monthName (UInt8.ofNat n) = months.getD (n - 1) [] := by
  interval_cases n <;> rfl

theorem local_hour_eq (t : Moment) : localHour (stored t) = (t.hour + 6) % 24 := by
  have hhour := t.hour_lt
  have hstored : (stored t).hour.toNat = t.hour := to_nat_of_lt (by omega)
  simp only [localHour, hstored, tzOffsetH]
  split <;> omega

/-- `cmd_date` moves the hour on, but not the day. -/
theorem date_text_eq (hfrom : 2000 ≤ t.date.year) (hto : t.date.year ≤ 2099) :
    dateText (stored t) = .ok (dateLine (hourMoved t)) := by
  have hday := t.date.day_le.trans (month_length_le _ _)
  have hsecond := t.second_lt
  have hminute := t.minute_lt
  have hd : (stored t).day.toNat = t.date.day := to_nat_of_lt (by omega)
  have hm : (stored t).minute.toNat = t.minute := to_nat_of_lt (by omega)
  have hs : (stored t).second.toNat = t.second := to_nat_of_lt (by omega)
  have hy : (stored t).year.toNat = t.date.year - 2000 := to_nat_of_lt (by omega)
  have hmonth : monthName (stored t).month = months.getD (t.date.month - 1) [] :=
    month_name_eq t.date.month_pos t.date.month_le
  have hyear : fourDigits t.date.year =
      bytes "20" ++ [digitChar ((t.date.year - 2000) / 10 % 10), digitChar ((t.date.year - 2000) % 10)] := by
    have hthousands : t.date.year / 1000 % 10 = 2 := by omega
    have hhundreds : t.date.year / 100 % 10 = 0 := by omega
    have htens : t.date.year / 10 % 10 = (t.date.year - 2000) / 10 % 10 := by omega
    have hones : t.date.year % 10 = (t.date.year - 2000) % 10 := by omega
    have hcentury : bytes "20" = [digitChar 2, digitChar 0] := utf8_of_chars _
    rw [fourDigits, hthousands, hhundreds, htens, hones, hcentury]
    rfl
  simp only [dateText, day_of_week_eq hfrom hto, day_name_eq (weekday_lt t.date), ok_bind, hmonth, hd, hm, hs, hy,
    local_hour_eq, dateLine, hourMoved, hyear]
  have hzone : bytes " BDT 20" = bytes " BDT " ++ bytes "20" := by
    rw [show bytes " BDT " = [32, 66, 68, 84, 32] from utf8_of_chars _, show bytes "20" = [50, 48] from utf8_of_chars _]
    exact utf8_of_chars _
  simp only [hzone, List.append_assoc]

/-- However long the clock is waited for, `date` prints the same. -/
theorem cmd_date_eq (hfrom : 2000 ≤ t.date.year) (hto : t.date.year ≤ 2099) {line : List UInt8} (h : Reads cmos t) :
    (∃ fuel, cmdDate cmos fuel 0 = .ok line) ↔ line = dateLine (hourMoved t) := by
  obtain ⟨fuel, now, hregisters⟩ := h
  have hrun : cmdDate cmos fuel 0 = .ok (dateLine (hourMoved t)) := by
    simp only [cmdDate, rtcRead, hregisters, ok_bind, cmosRead, convert_registers _ hto]
    exact date_text_eq hfrom hto
  constructor
  · rintro ⟨fuel', hprints⟩
    have hlater := cmd_date_mono hrun (Nat.le_max_left fuel fuel')
    have hlater' := cmd_date_mono hprints (Nat.le_max_right fuel fuel')
    exact Except.ok.inj (hlater'.symm.trans hlater)
  · intro hline
    rw [hline]
    exact ⟨fuel, hrun⟩

/-- The names of the days are of one length and differ. -/
theorem days_differ : ∀ n < 7, (days.getD n []).length = 3 ∧ ∀ m < 7, days.getD n [] = days.getD m [] → n = m := by
  have hnames : days = [[83, 117, 110], [77, 111, 110], [84, 117, 101], [87, 101, 100], [84, 104, 117], [70, 114, 105],
      [83, 97, 116]] := by
    simp only [days, show bytes "Sun" = [83, 117, 110] from utf8_of_chars _,
      show bytes "Mon" = [77, 111, 110] from utf8_of_chars _, show bytes "Tue" = [84, 117, 101] from utf8_of_chars _,
      show bytes "Wed" = [87, 101, 100] from utf8_of_chars _, show bytes "Thu" = [84, 104, 117] from utf8_of_chars _,
      show bytes "Fri" = [70, 114, 105] from utf8_of_chars _, show bytes "Sat" = [83, 97, 116] from utf8_of_chars _]
  rw [hnames]
  decide

/-- The line begins with the day of the week. -/
theorem weekday_of_line {u : Moment} (h : dateLine t = dateLine u) : t.date.weekday = u.date.weekday := by
  have hfirst : ∀ v : Moment, (dateLine v).take 3 = days.getD v.date.weekday [] := by
    intro v
    obtain ⟨hlength, -⟩ := days_differ v.date.weekday (weekday_lt v.date)
    simp only [dateLine, List.append_assoc]
    rw [← hlength, List.take_left]
  apply (days_differ _ (weekday_lt t.date)).2 _ (weekday_lt u.date)
  rw [← hfirst, ← hfirst, h]

/-- From 18:00 on the local day is the next one, and the line tells it from the clock's. -/
theorem day_not_moved (hlate : 18 ≤ t.hour) : dateLine (t.addHours 6) ≠ dateLine (hourMoved t) := by
  intro hline
  have hhour := t.hour_lt
  have hdays : (t.hour + 6) / 24 = 1 := by omega
  have hsame := weekday_of_line hline
  simp only [Moment.addHours, hdays, hourMoved, Function.iterate_one, weekday_next] at hsame
  have hlt := weekday_lt t.date
  omega

/-- The line is that of the local moment exactly when the local day is still that of the clock. -/
theorem date_right_iff (hfrom : 2000 ≤ t.date.year) (hto : t.date.year ≤ 2099) (h : Reads cmos t) :
    DateRight cmos t ↔ t.hour < 18 := by
  rw [DateRight, cmd_date_eq hfrom hto h]
  constructor
  · intro hline
    by_contra hlate
    exact day_not_moved (Nat.le_of_not_lt hlate) hline
  · intro hearly
    have hdays : (t.hour + 6) / 24 = 0 := by omega
    simp only [Moment.addHours, hdays, hourMoved, Function.iterate_zero, id_eq]

/-- A clock that stands still on a moment. -/
def still (statusB : UInt8) (t : Moment) : Cmos := fun _ reg =>
  let r := registers statusB t
  match reg with
  | 0x00 => r.second
  | 0x02 => r.minute
  | 0x04 => r.hour
  | 0x07 => r.day
  | 0x08 => r.month
  | 0x09 => r.year
  | 0x0B => statusB
  | _ => 0

theorem still_reads (statusB : UInt8) (t : Moment) : Reads (still statusB t) t := by
  refine ⟨1, 9, ?_⟩
  simp [rtcRegisters, waitUpdate, rtcUpdating, readAll, cmosRead, still]

theorem january_first : 1 ≤ 1 := Nat.le_refl 1

theorem january_in_year : 1 ≤ 12 := Nat.succ_le_succ (Nat.zero_le 11)

/-- A moment of 31 January 2026. -/
def january (hour : Fin 24) : Moment where
  date := ⟨2026, 1, 31, january_first, january_in_year, by decide, by decide⟩
  hour := hour
  minute := 0
  second := 0
  hour_lt := hour.isLt
  minute_lt := by decide
  second_lt := by decide

theorem date_right_morning : DateRight (still 0x02 (january 9)) (january 9) ↔ 9 < 18 :=
  date_right_iff (by decide) (by decide) (still_reads 0x02 (january 9))

/-- At 20:00 the day in Dhaka is 1 February, but `date` prints 31 January. -/
theorem date_late : ¬ DateRight (still 0x02 (january 20)) (january 20) := by
  rw [DateRight, cmd_date_eq (by decide) (by decide) (still_reads 0x02 (january 20))]
  exact day_not_moved (by decide)

end BaSic.Proofs.DateOffset
